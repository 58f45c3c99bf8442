import DotText.Ident

set_option autoImplicit false

/- The words and marks that are looked for in a text, and what is said when one is not there. -/
namespace DotText

/-- Something that a text is expected to have at a place. -/
inductive Token where
  /-- A word in any letter case, at the end of which no identifier goes on. -/
  | keyword (word : List Char)
  /-- An identifier: quoted where the text has a quote, and otherwise letter for letter. -/
  | ident (name : List Char)
  /-- An HTML label with its outer brackets. -/
  | html (label : List Char)
  /-- A punctuation mark. -/
  | mark (text : List Char)
  deriving DecidableEq

namespace Token

/-- How the token is spelled at the start of `cs`. -/
def spelling (token : Token) (cs : List Char) : List Char :=
  match token with
  | keyword word => word
  | ident name => if cs.head? = some '"' then Ident.quote name else name
  | html label => '<' :: (label ++ ['>'])
  | mark text => text

/-- Whether the token stands at the start of `cs`. -/
def isAt (token : Token) (cs : List Char) : Bool :=
  match token with
  | keyword word => (Ident.dropWord? word cs).isSome
  | _ => (token.spelling cs).isPrefixOf cs

/-- The token as it is written at the start of `cs`, and the text after it. -/
def split? (token : Token) (cs : List Char) : Option (List Char × List Char) :=
  if token.isAt cs then
    let size := (token.spelling cs).length
    some (cs.take size, cs.drop size)
  else none

theorem split?_append {token : Token} {cs written r : List Char}
    (found : token.split? cs = some (written, r)) : written ++ r = cs := by
  simp only [split?, Option.ite_none_right_eq_some, Option.some.injEq, Prod.mk.injEq] at found
  obtain ⟨_, rfl, rfl⟩ := found
  exact List.take_append_drop ..

end Token

/-- A token that a text does not have where a tree says it is. -/
structure Mismatch where
  expected : List Char
  found : List Char
  deriving DecidableEq

/-- How many characters of the text a mismatch shows. -/
def Mismatch.shownLength : Nat := 40

/-- The mismatch of a token with the text `cs`. -/
def Token.mismatch (token : Token) (cs : List Char) : Mismatch where
  expected := token.spelling cs
  found := cs.take Mismatch.shownLength

def Mismatch.message (m : Mismatch) : String :=
  "expected \"" ++ String.ofList m.expected ++ "\", found: \"" ++ String.ofList m.found ++ "...\""

end DotText
