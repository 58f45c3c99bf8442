import DotText.Cursor.Step

set_option autoImplicit false

/- What can be told of a sequence of operations on a cursor: which of them take something away, and
which of the others leave something in front of the place that is kept. -/
namespace DotText.Cursor

/-- Whether a line end or a comment comes next, behind characters inside a line that may be passed. -/
def meetsLandmark (allowed : Separators) (c : Cursor) : Bool :=
  (Blank.landmark? (c.rest.dropWhile allowed.passes)).isSome

namespace Step

/-- Whether an operation is one that takes something away. -/
def isErasing : Step → Bool
  | skip _ erase _ _ | skipBlanks erase _ => erase
  | _ => false

def isInsert : Step → Bool
  | insert _ => true
  | _ => false

/-- Whether an operation gets as far as taking something away, be there anything to take or not. A
token that has to be there and is not keeps it from that, unless separators go with the token. -/
def removes (s : Step) (c : Cursor) : Bool :=
  match s with
  | skip token true allowed isOptional =>
    allowed.any || isOptional || (token.split? (c.passBlanks allowed).rest).isSome
  | skipBlanks erase _ => erase
  | _ => false

theorem isErasing_of_removes {c : Cursor} {s : Step} (removes : s.removes c = true) :
    s.isErasing = true := by
  cases s with
  | skip token erase allowed isOptional =>
    cases erase with
    | false => cases removes
    | true => rfl
  | skipBlanks erase allowed => exact removes
  | _ => cases removes

/-- Whether an operation that takes nothing away finds a token with some text in it and leaves it, or
passes a line end or a comment. -/
def keeps (s : Step) (c : Cursor) : Bool :=
  match s with
  | skip token erase allowed _ =>
    c.meetsLandmark allowed ||
      (!erase && (token.split? (c.passBlanks allowed).rest).any (!·.1.isEmpty))
  | seek _ => c.meetsLandmark .none
  | skipBlanks _ allowed => c.meetsLandmark allowed
  | _ => false

/-- Whether an operation gives up a gap that has anything in it. -/
def trims (s : Step) (c : Cursor) : Bool :=
  match s with
  | trim => c.isErasing && !c.gap.isEmpty
  | _ => false

end Step

/-- Whether a condition holds of some operation of a sequence and of the place it is made at. -/
def someAlong (p : Step → Cursor → Bool) (c : Cursor) : List Step → Bool
  | [] => false
  | s :: steps => p s c || someAlong p (c.step s).1 steps

@[simp] theorem run_nil (c : Cursor) : c.run [] = c := rfl

@[simp] theorem run_cons (c : Cursor) (s : Step) (steps : List Step) :
    c.run (s :: steps) = (c.step s).1.run steps := rfl

theorem run_append (c : Cursor) (steps others : List Step) :
    c.run (steps ++ others) = (c.run steps).run others :=
  List.foldl_append

theorem someAlong_append (p : Step → Cursor → Bool) (c : Cursor) (steps others : List Step) :
    someAlong p c (steps ++ others) = (someAlong p c steps || someAlong p (c.run steps) others) := by
  induction steps generalizing c with
  | nil => rfl
  | cons s steps ih => rw [List.cons_append, someAlong, someAlong, ih, run_cons, Bool.or_assoc]

/-- The last operation of a sequence that a condition holds of leaves the cursor `c'`, and the
operations `since` come behind it. -/
structure Last (p : Step → Cursor → Bool) (c : Cursor) (steps : List Step) (c' : Cursor)
    (since : List Step) : Prop where
  split : ∃ front s, steps = front ++ s :: since ∧ p s (c.run front) = true ∧
    ((c.run front).step s).1 = c'
  never : someAlong p c' since = false

/-- Either a condition holds of no operation, or there is a last one that it holds of. -/
theorem exists_last (p : Step → Cursor → Bool) (c : Cursor) (steps : List Step) :
    someAlong p c steps = false ∨ ∃ c' since, Last p c steps c' since := by
  induction steps generalizing c with
  | nil => exact .inl rfl
  | cons s steps ih =>
    rcases ih (c.step s).1 with never | ⟨c', since, ⟨front, t, split, here, left⟩, never⟩
    · by_cases here : p s c = true
      · exact .inr ⟨_, steps, ⟨[], s, rfl, here, rfl⟩, never⟩
      · exact .inl (by rw [someAlong, never, Bool.or_false]; simpa using here)
    · exact .inr ⟨c', since, ⟨s :: front, t, by rw [split]; rfl, here, left⟩, never⟩

variable {p q : Step → Cursor → Bool} {c c' : Cursor} {steps since : List Step}

theorem Last.run_eq (last : Last p c steps c' since) : c.run steps = c'.run since := by
  obtain ⟨front, s, rfl, -, rfl⟩ := last.split
  rw [run_append, run_cons]

/-- Of a weaker condition the last operation comes no earlier. -/
theorem Last.later (last : Last p c steps c' since) (weaker : ∀ s c, p s c = true → q s c = true)
    {c'' : Cursor} {since' : List Step} (last' : Last q c steps c'' since') :
    ∃ between, since = between ++ since' ∧ c'' = c'.run between := by
  obtain ⟨front, s, split, here, rfl⟩ := last.split
  obtain ⟨front', s', split', here', rfl⟩ := last'.split
  rcases List.append_eq_append_iff.mp (split.symm.trans split') with
    ⟨as, longer, tail⟩ | ⟨as, longer, tail⟩
  · cases as with
    | nil =>
      obtain ⟨rfl, rfl⟩ := List.cons.inj tail
      exact ⟨[], rfl, by rw [longer, List.append_nil]; rfl⟩
    | cons t as =>
      obtain ⟨rfl, rfl⟩ := List.cons.inj tail
      refine ⟨as ++ [s'], by simp, ?_⟩
      rw [longer, run_append, run_append]
      rfl
  · cases as with
    | nil =>
      obtain ⟨rfl, rfl⟩ := List.cons.inj tail
      exact ⟨[], rfl, by rw [longer, List.append_nil]; rfl⟩
    | cons t as =>
      -- the earlier operation would come behind the last one of its condition
      obtain ⟨rfl, rfl⟩ := List.cons.inj tail
      have never : someAlong q _ (as ++ s :: since) = false := last'.never
      rw [someAlong_append, someAlong] at never
      rw [longer, run_append, run_cons] at here
      simp [weaker _ _ here] at never

end DotText.Cursor
