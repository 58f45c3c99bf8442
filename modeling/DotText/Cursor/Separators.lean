import DotText.Blank

set_option autoImplicit false

/- What may be passed along with blanks where a token is looked for. -/
namespace DotText

/-- The separators that may be passed along with blanks. -/
structure Separators where
  comma : Bool := false
  semicolon : Bool := false
  deriving DecidableEq

namespace Separators

def none : Separators := {}

/-- Between statements. -/
def ofStatements : Separators := { semicolon := true }

/-- Between the entries of a list. -/
def ofEntries : Separators := { comma := true, semicolon := true }

/-- Whether a character is one of the separators that may be passed. -/
def allows (allowed : Separators) (c : Char) : Bool :=
  (allowed.comma && c == ',') || (allowed.semicolon && c == ';')

/-- The characters inside a line that do not matter. -/
def passes (allowed : Separators) (c : Char) : Bool :=
  Blank.isInline c || (allowed.comma && c == ',') || (allowed.semicolon && c == ';')

theorem passes_eq (allowed : Separators) (c : Char) :
    allowed.passes c = (Blank.isInline c || allowed.allows c) := by
  rw [passes, allows, Bool.or_assoc]

theorem eq_of_allows {allowed : Separators} {c : Char} (listed : allowed.allows c = true) :
    c = ',' ∨ c = ';' := by
  simp only [allows, Bool.or_eq_true, Bool.and_eq_true, beq_iff_eq] at listed
  exact listed.imp And.right And.right

/-- No landmark begins with a character that is passed inside a line. -/
theorem dropWhile_of_landmark (allowed : Separators) {cs l r : List Char}
    (found : Blank.landmark? cs = some (l, r)) : cs.dropWhile allowed.passes = cs := by
  unfold Blank.landmark? at found
  split at found <;> simp_all [passes, Blank.isInline]

theorem landmark?_of_passes {allowed : Separators} {x : Char} (passes : allowed.passes x = true)
    (r : List Char) : Blank.landmark? (x :: r) = Option.none := by
  cases found : Blank.landmark? (x :: r) with
  | none => rfl
  | some pair =>
    have whole := congrArg List.length (allowed.dropWhile_of_landmark found)
    have behind := (List.dropWhile_suffix (l := r) allowed.passes).length_le
    rw [List.dropWhile_cons_of_pos passes, List.length_cons] at whole
    omega

/-- The text after its first character, if that has the property `p`. -/
def dropOne (p : Char → Bool) (cs : List Char) : List Char :=
  if cs.head?.any p then cs.tail else cs

/-- The text after the characters that one round takes inside a line: at most one blank, then at
most one comma, then at most one semicolon. -/
def afterRound (allowed : Separators) (cs : List Char) : List Char :=
  dropOne (fun c => allowed.semicolon && c == ';')
    (dropOne (fun c => allowed.comma && c == ',') (dropOne Blank.isInline cs))

/-- Whether any separator is allowed. -/
def any (allowed : Separators) : Bool :=
  allowed.comma || allowed.semicolon

end Separators

end DotText
