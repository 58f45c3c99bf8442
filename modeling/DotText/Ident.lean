set_option autoImplicit false

/- Identifiers and how they are spelled. A text that may stand bare is written as it is; any other
is written between quotes, where a quote is preceded by a backslash and nothing else is changed. -/
namespace DotText.Ident

/-- The words of the language. None of them is an identifier unless it is quoted. -/
def keywords : List String :=
  ["strict", "graph", "digraph", "subgraph", "node", "edge"]

/-- Equality of two texts up to the case of the letters A to Z. -/
def eqIgnoringCase (s t : List Char) : Bool :=
  s.map Char.toLower == t.map Char.toLower

def isKeyword (s : List Char) : Bool :=
  keywords.any fun word => eqIgnoringCase word.toList s

/-- The characters that may begin a bare identifier in a text that is read. -/
def isStart (c : Char) : Bool :=
  c.isAlpha || c == '_' || 0x80 ≤ c.toNat

/-- The characters that a bare identifier may go on with in a text that is read. -/
def isRest (c : Char) : Bool :=
  isStart c || c.isDigit

/-- Of the characters beyond ASCII only those up to U+00FF are written bare. -/
def isWrittenStart (c : Char) : Bool :=
  c.isAlpha || c == '_' || (0x80 ≤ c.toNat && c.toNat ≤ 0xff)

def isWrittenRest (c : Char) : Bool :=
  isWrittenStart c || c.isDigit

theorem isStart_of_isWrittenStart (c : Char) (written : isWrittenStart c = true) :
    isStart c = true := by
  simp only [isWrittenStart, isStart, Bool.or_eq_true, Bool.and_eq_true] at *
  exact written.imp_right And.left

/-- Whether a text is written without quotes. -/
def isBare : List Char → Bool
  | [] => false
  | c :: cs => isWrittenStart c && cs.all isWrittenRest && !isKeyword (c :: cs)

/-- Every quote gets a backslash in front of it; a backslash gets none. -/
def escape : List Char → List Char
  | [] => []
  | c :: cs => if c = '"' then '\\' :: '"' :: escape cs else c :: escape cs

/-- The text between quotes. -/
def quote (s : List Char) : List Char :=
  '"' :: (escape s ++ ['"'])

/-- The text as the library writes it: bare where that is allowed, else quoted. -/
def spell (s : List Char) : List Char :=
  if isBare s then s else quote s

/-- What follows `word` at the start of `cs`, if the word is there in any letter case and ends
there: the next character does not continue an identifier. -/
def dropWord? (word cs : List Char) : Option (List Char) :=
  let r := cs.drop word.length
  if eqIgnoringCase word (cs.take word.length) && !(r.head?.any isRest) then some r else none

theorem dropWord?_eq_some {word cs r : List Char} :
    dropWord? word cs = some r ↔
      ∃ w, cs = w ++ r ∧ eqIgnoringCase word w = true ∧ r.head?.any isRest = false := by
  simp only [dropWord?, Option.ite_none_right_eq_some, Bool.and_eq_true, Option.some.injEq,
    Bool.not_eq_true']
  constructor
  · rintro ⟨⟨same, ends⟩, rfl⟩
    exact ⟨cs.take word.length, (List.take_append_drop ..).symm, same, ends⟩
  · rintro ⟨w, rfl, same, ends⟩
    have size : word.length = w.length := by
      have := congrArg List.length (eq_of_beq same)
      simpa using this
    simp [size, same, ends]

/-- Whether one of the language's words stands at the start of `cs`. -/
def atKeyword (cs : List Char) : Bool :=
  keywords.any fun word => (dropWord? word.toList cs).isSome

end DotText.Ident
