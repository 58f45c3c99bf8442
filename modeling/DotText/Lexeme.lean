import DotText.Blank
import DotText.Html
import DotText.Ident.Reader
import DotText.Tree

set_option autoImplicit false

/- The words, marks and quoted pieces that a text is made of, in order. What stands between them
and does not matter is left out; commas and semicolons are kept, but say nothing by themselves. -/
namespace DotText

/-- One of the pieces that a text is made of. -/
inductive Lexeme where
  /-- A keyword or a bare identifier. -/
  | word (cs : List Char)
  | numeral (cs : List Char)
  /-- The text between two quotes, with its quotes unescaped. -/
  | quoted (s : List Char)
  /-- The text between two outer brackets. -/
  | html (s : List Char)
  /-- Punctuation and edge operators. -/
  | mark (cs : List Char)
  | separator (c : Char)
  /-- A character that begins none of the others. -/
  | stray (c : Char)
  deriving DecidableEq

namespace Lexeme

/-- The characters that stand for themselves. -/
def isPunctuation (c : Char) : Bool :=
  c == '{' || c == '}' || c == '[' || c == ']' || c == '=' || c == ':'

/-- Whether an edge operator of either kind begins with `c`, before `cs`. -/
def startsOp (c : Char) (cs : List Char) : Bool :=
  c == '-' && (cs.head? == some '-' || cs.head? == some '>')

/-- The first piece of the text `c :: cs`, and what follows it. Words and numerals take as many
characters as they can. -/
def first (c : Char) (cs : List Char) : Lexeme × List Char :=
  if c = '"' then
    match Ident.splitQuoted? cs with
    | some (s, r) => (.quoted s, r)
    | none => (.stray c, cs)
  else if c = '<' then
    match Html.splitClosed? 0 cs with
    | some (s, r) => (.html s, r)
    | none => (.stray c, cs)
  else if startsOp c cs then (.mark (c :: cs.take 1), cs.drop 1)
  else if Ident.startsNumeral c then
    match Ident.readNumeral (c :: cs) with
    | .ok (n, r) => (.numeral n, r)
    | .error _ => (.stray c, cs)
  else if Ident.isStart c then (.word (c :: cs.takeWhile Ident.isRest), cs.dropWhile Ident.isRest)
  else if isPunctuation c then (.mark [c], cs)
  else if c = ',' || c = ';' then (.separator c, cs)
  else (.stray c, cs)

/-- How the piece is written. -/
def written : Lexeme → List Char
  | word cs | numeral cs | mark cs => cs
  | quoted s => Ident.quote s
  | html s => '<' :: (s ++ ['>'])
  | separator c | stray c => [c]

/-- Nothing of a text is lost when its first piece is taken off. -/
theorem written_append_first (c : Char) (cs : List Char) :
    (first c cs).1.written ++ (first c cs).2 = c :: cs := by
  unfold first
  split
  · next quote =>
    subst quote
    cases found : Ident.splitQuoted? cs with
    | none => rfl
    | some found =>
      have spelled := Ident.splitQuoted?_eq_some found
      simp [written, Ident.quote, spelled]
  split
  · next open_ =>
    subst open_
    cases found : Html.splitClosed? 0 cs with
    | none => rfl
    | some found =>
      have spelled := Html.splitClosed?_eq_some found
      simp [written, spelled]
  split
  · simp only [written, List.cons_append, List.take_append_drop]
  split
  · cases read : Ident.readNumeral (c :: cs) with
    | error failure => rfl
    | ok found => simpa [written] using Ident.readNumeral_append read
  split
  · simp [written, List.takeWhile_append_dropWhile]
  split
  · rfl
  split <;> rfl

theorem written_first_ne_nil (c : Char) (cs : List Char) : (first c cs).1.written ≠ [] := by
  unfold first
  split
  · cases Ident.splitQuoted? cs <;> simp [written, Ident.quote]
  split
  · cases Html.splitClosed? 0 cs <;> simp [written]
  split
  · simp [written]
  split
  · cases read : Ident.readNumeral (c :: cs) with
    | error failure => simp [written]
    | ok found => exact Ident.readNumeral_ne_nil read
  split
  · simp [written]
  split
  · simp [written]
  split <;> simp [written]

theorem length_first (c : Char) (cs : List Char) : (first c cs).2.length ≤ cs.length := by
  have whole := congrArg List.length (written_append_first c cs)
  have start := List.length_pos_iff.mpr (written_first_ne_nil c cs)
  simp only [List.length_append, List.length_cons] at whole
  omega

/-- The first piece of a text, behind whatever does not matter, and what follows it. -/
def next? (cs : List Char) : Option (Lexeme × List Char) :=
  match Blank.skip cs with
  | [] => none
  | c :: r => some (first c r)

theorem length_next? {cs r : List Char} {piece : Lexeme} (found : next? cs = some (piece, r)) :
    r.length < cs.length := by
  have shorter := (Blank.skip_suffix cs).length_le
  unfold next? at found
  split at found
  · cases found
  · next c t start =>
    have rest := length_first c t
    simp only [Option.some.injEq] at found
    simp only [start, found, List.length_cons] at shorter rest
    omega

/-- All the pieces of a text. -/
def all (cs : List Char) : List Lexeme :=
  match _found : next? cs with
  | none => []
  | some (piece, r) => piece :: all r
termination_by cs.length
decreasing_by exact length_next? _found

def isSeparator : Lexeme → Bool
  | separator _ => true
  | _ => false

@[simp] theorem isSeparator_mark (m : List Char) : (mark m).isSeparator = false := rfl

@[simp] theorem isSeparator_separator (c : Char) : (separator c).isSeparator = true := rfl

/-- The pieces of a text that say something: all but commas and semicolons. -/
def significant (cs : List Char) : List Lexeme :=
  (all cs).filter (!·.isSeparator)

/-- The text that a piece stands for as an identifier. -/
def name? : Lexeme → Option String
  | word cs => if Ident.isKeyword cs then none else some (String.ofList cs)
  | numeral cs | quoted cs => some (String.ofList cs)
  | _ => none

/-- The value that a piece stands for behind a key. -/
def value? : Lexeme → Option Value
  | html s => some (.html (String.ofList s))
  | piece => piece.name?.map Value.text

/-- Whether a piece is this word of the language, in any letter case. -/
def isKeyword (keyword : String) : Lexeme → Bool
  | word cs => Ident.eqIgnoringCase keyword.toList cs
  | _ => false

/-- Whether a statement, or an end of an edge, may begin with the piece. -/
def startsStatement : Lexeme → Bool
  | word _ | numeral _ | quoted _ => true
  | mark m => m == ['{']
  | _ => false

/-- Whether a piece goes on with what stands before it. Only the braces among the marks do not. -/
def goesOn : Lexeme → Bool
  | mark m => m != ['{'] && m != ['}']
  | _ => false

theorem startsStatement_of_name? {piece : Lexeme} {s : String} (named : piece.name? = some s) :
    piece.startsStatement = true := by
  cases piece <;> first | rfl | cases named

theorem startsStatement_of_isKeyword {piece : Lexeme} {keyword : String}
    (same : piece.isKeyword keyword = true) : piece.startsStatement = true := by
  cases piece <;> first | rfl | cases same

theorem goesOn_of_startsStatement {piece : Lexeme} (starts : piece.startsStatement = true) :
    piece.goesOn = false := by
  cases piece with
  | mark m =>
    have brace : m = ['{'] := by simpa [startsStatement] using starts
    simp [goesOn, brace]
  | _ => rfl

/-- Pieces that do not go on with a statement before them. -/
def Ends (pieces : List Lexeme) : Prop :=
  ∀ piece, pieces.head? = some piece → piece.goesOn = false

theorem Ends.not_mark {pieces : List Lexeme} (ends : Ends pieces) {m : List Char}
    (other : (mark m).goesOn = true) : pieces.head? ≠ some (.mark m) := by
  intro same
  rw [ends _ same] at other
  cases other

end Lexeme

end DotText
