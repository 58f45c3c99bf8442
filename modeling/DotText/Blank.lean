set_option autoImplicit false

/- Insignificant material: blanks, line ends and comments. A landmark is a line end or a whole
comment; a `//` or `#` comment takes the line end that closes it, and a comment that nothing
closes runs to the end of the text. -/
namespace DotText.Blank

/-- Blank characters inside a line. -/
def isInline (c : Char) : Bool :=
  c == ' ' || c == '\t' || c == '\r'

/-- The text up to and including the first line end, and what follows. -/
def splitLine : List Char → List Char × List Char
  | [] => ([], [])
  | c :: cs =>
    if c = '\n' then ([c], cs)
    else (c :: (splitLine cs).1, (splitLine cs).2)

/-- The text up to and including the first `*/`, and what follows. -/
def splitBlock : List Char → List Char × List Char
  | [] => ([], [])
  | '*' :: '/' :: cs => (['*', '/'], cs)
  | c :: cs => (c :: (splitBlock cs).1, (splitBlock cs).2)

/-- The landmark at the start of a text, and what follows it. -/
def landmark? : List Char → Option (List Char × List Char)
  | '\n' :: cs => some (['\n'], cs)
  | '#' :: cs => some ('#' :: (splitLine cs).1, (splitLine cs).2)
  | '/' :: '/' :: cs => some ('/' :: '/' :: (splitLine cs).1, (splitLine cs).2)
  | '/' :: '*' :: cs => some ('/' :: '*' :: (splitBlock cs).1, (splitBlock cs).2)
  | _ => none

theorem splitLine_append (cs : List Char) : (splitLine cs).1 ++ (splitLine cs).2 = cs := by
  induction cs with
  | nil => rfl
  | cons c cs ih => by_cases h : c = '\n' <;> simp [splitLine, h, ih]

theorem splitBlock_append (cs : List Char) : (splitBlock cs).1 ++ (splitBlock cs).2 = cs := by
  fun_induction splitBlock cs with
  | case1 => rfl
  | case2 => rfl
  | case3 c cs _ ih => simp [ih]

theorem landmark?_append {cs l r : List Char} (found : landmark? cs = some (l, r)) : l ++ r = cs := by
  unfold landmark? at found
  split at found <;> simp_all only [Option.some.injEq, Prod.mk.injEq, reduceCtorEq]
  all_goals
    obtain ⟨rfl, rfl⟩ := found
    simp [splitLine_append, splitBlock_append]

theorem landmark?_ne_nil {cs l r : List Char} (found : landmark? cs = some (l, r)) : l ≠ [] := by
  unfold landmark? at found
  split at found <;> simp_all only [Option.some.injEq, Prod.mk.injEq, reduceCtorEq] <;>
    (obtain ⟨rfl, _⟩ := found; simp)

theorem landmark?_length {cs l r : List Char} (found : landmark? cs = some (l, r)) :
    r.length < cs.length := by
  have whole := congrArg List.length (landmark?_append found)
  have start := List.length_pos_iff.mpr (landmark?_ne_nil found)
  simp at whole
  omega

/-- The order in which one round over insignificant material takes landmarks: a line end, then a
block comment, a `//` comment and a `#` comment. -/
def rank : List Char → Nat
  | '\n' :: _ => 0
  | '/' :: '*' :: _ => 1
  | '/' :: _ => 2
  | _ => 3

/-- The text after all the insignificant material at its start. -/
def skip (cs : List Char) : List Char :=
  match _found : landmark? cs with
  | some (_, r) => skip r
  | none =>
    match cs with
    | [] => []
    | c :: r => if isInline c then skip r else c :: r
termination_by cs.length
decreasing_by
  · exact landmark?_length _found
  · simp

/-- What is left is the end of the text. -/
theorem skip_suffix (cs : List Char) : skip cs <:+ cs := by
  fun_induction skip cs with
  | case1 cs l r found ih =>
    exact ih.trans ⟨l, landmark?_append found⟩
  | case2 => exact List.suffix_rfl
  | case3 c r _ inline ih => exact ih.trans (List.suffix_cons c r)
  | case4 => exact List.suffix_rfl

end DotText.Blank
