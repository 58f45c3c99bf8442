import DotText.Proofs.Loops

set_option autoImplicit false

/- A pass that takes nothing away, round by round: a few characters inside a line, then the landmarks
in the order of their ranks. What is left after a round ends where the whole ends, and each round goes
on unless nothing is left to go over. -/
namespace DotText.Cursor

/-- Move past a landmark of this rank, if one comes next. -/
def keepRanked (c : Cursor) (rank : Nat) : Cursor :=
  match Blank.landmark? c.rest with
  | some (l, r) => if Blank.rank l = rank then c.keep l r else c
  | none => c

/-- Move past the start of the rest without keeping it. -/
def pass (c : Cursor) (w rest : List Char) : Cursor :=
  { c with gap := c.gap ++ w, rest := rest }

variable {c : Cursor} {l r : List Char}

theorem text_pass {w : List Char} (split : c.rest = w ++ r) : (c.pass w r).text = c.text := by
  simp [pass, text, before, split]

theorem offset_pass (c : Cursor) (w r : List Char) :
    (c.pass w r).offset = utf8Length (c.before ++ w) := by
  simp [pass, offset, before]

theorem passBlanks_pass {allowed : Separators} {w : List Char} (split : c.rest = w ++ r)
    (passes : w.all allowed.passes = true) :
    (c.pass w r).passBlanks allowed = c.passBlanks allowed := by
  induction w generalizing c with
  | nil =>
    have same : c.pass [] r = c := by
      rw [List.nil_append] at split
      rw [pass, List.append_nil, ← split]
    rw [same]
  | cons x w ih =>
    rw [List.all_cons, Bool.and_eq_true] at passes
    have start : c.rest = x :: (w ++ r) := split
    have first : c.passBlanks allowed = (c.pass [x] (w ++ r)).passBlanks allowed :=
      passBlanks_of_passes start passes.1
    have both : c.pass (x :: w) r = (c.pass [x] (w ++ r)).pass w r := by simp [pass]
    rw [first, both, ih rfl passes.2]

theorem keepRanked_of_landmark (found : Blank.landmark? c.rest = some (l, r)) (k : Nat) :
    c.keepRanked k = if Blank.rank l = k then c.keep l r else c := by
  rw [keepRanked, found]

theorem keepRanked_of_none (missing : Blank.landmark? c.rest = none) (k : Nat) :
    c.keepRanked k = c := by
  rw [keepRanked, missing]

theorem finishRound_of_landmark (found : Blank.landmark? c.rest = some (l, r)) (k : Nat) :
    c.finishRound k = if k < Blank.rank l then (c.keep l r).finishRound (Blank.rank l) else c := by
  rw [finishRound]
  split
  · next found' =>
    rw [found] at found'
    cases found'
    rfl
  · next missing =>
    rw [found] at missing
    cases missing

theorem finishRound_of_none (missing : Blank.landmark? c.rest = none) (k : Nat) :
    c.finishRound k = c := by
  rw [finishRound]
  split
  · next found =>
    rw [missing] at found
    cases found
  · rfl

theorem finishRound_succ (c : Cursor) (k : Nat) :
    c.finishRound k = (c.keepRanked (k + 1)).finishRound (k + 1) := by
  cases found : Blank.landmark? c.rest with
  | none => rw [keepRanked_of_none found, finishRound_of_none found, finishRound_of_none found]
  | some pair =>
    obtain ⟨l, r⟩ := pair
    rw [keepRanked_of_landmark found, finishRound_of_landmark found]
    by_cases here : Blank.rank l = k + 1
    · rw [if_pos (by omega), if_pos here, here]
    · rw [if_neg here, finishRound_of_landmark found]
      by_cases later : k < Blank.rank l
      · rw [if_pos later, if_pos (by omega)]
      · rw [if_neg later, if_neg (by omega)]

theorem rank_lt (l : List Char) : Blank.rank l < 4 :=
  List.mem_range.mp (Blank.rank_mem l)

theorem passBlanks_finishRound (allowed : Separators) (k : Nat) (c : Cursor) :
    (c.finishRound k).passBlanks allowed = c.passBlanks allowed := by
  fun_induction finishRound k c with
  | case1 k c l r found later ih => rw [ih, passBlanks_of_landmark found]
  | case2 => rfl
  | case3 => rfl

theorem offset_le_finishRound (k : Nat) (c : Cursor) : c.offset ≤ (c.finishRound k).offset := by
  fun_induction finishRound k c with
  | case1 k c l r found later ih =>
    refine Nat.le_trans ?_ ih
    simp only [offset, keep, before, utf8Length_append]
    omega
  | case2 => exact Nat.le_refl _
  | case3 => exact Nat.le_refl _

/-- A round of a pass that takes nothing away. -/
def round (allowed : Separators) (c : Cursor) : Cursor :=
  let r := allowed.afterRound c.rest
  ((c.pass (c.rest.take (c.rest.length - r.length)) r).keepRanked 0).finishRound 0

theorem round_eq {allowed : Separators} {w : List Char}
    (split : c.rest = w ++ allowed.afterRound c.rest) :
    c.round allowed = ((c.pass w (allowed.afterRound c.rest)).keepRanked 0).finishRound 0 := by
  have front : c.rest.take (c.rest.length - (allowed.afterRound c.rest).length) = w := by
    have size := congrArg List.length split
    rw [List.length_append] at size
    have length : c.rest.length - (allowed.afterRound c.rest).length = w.length := by omega
    rw [length]
    exact (congrArg (List.take w.length) split).trans List.take_left
  rw [round, front]

/-- The first landmark that a round comes to is of whatever rank. -/
theorem finishRound_keepRanked (found : Blank.landmark? c.rest = some (l, r)) :
    (c.keepRanked 0).finishRound 0 = (c.keep l r).finishRound (Blank.rank l) := by
  rw [keepRanked_of_landmark found]
  by_cases first : Blank.rank l = 0
  · rw [if_pos first, first]
  · rw [if_neg first, finishRound_of_landmark found, if_pos (by omega)]

theorem text_round (allowed : Separators) (c : Cursor) : (c.round allowed).text = c.text := by
  obtain ⟨w, split, -⟩ := afterRound_split allowed c.rest
  rw [round_eq split]
  cases found : Blank.landmark? (allowed.afterRound c.rest) with
  | none => rw [keepRanked_of_none found, finishRound_of_none found, text_pass split]
  | some pair =>
    have landmark := Blank.landmark?_append found
    rw [finishRound_keepRanked found, text_finishRound, text_keep _ landmark, text_pass split]

theorem passBlanks_round (allowed : Separators) (c : Cursor) :
    (c.round allowed).passBlanks allowed = c.passBlanks allowed := by
  obtain ⟨w, split, passes⟩ := afterRound_split allowed c.rest
  rw [round_eq split]
  cases found : Blank.landmark? (allowed.afterRound c.rest) with
  | none => rw [keepRanked_of_none found, finishRound_of_none found, passBlanks_pass split passes]
  | some pair =>
    rw [finishRound_keepRanked found, passBlanks_finishRound, ← passBlanks_of_landmark found,
      passBlanks_pass split passes]

/-- A round goes on, unless nothing is left that may be passed. -/
theorem round_goes_on (allowed : Separators) (c : Cursor) :
    c.offset < (c.round allowed).offset ∨ c.round allowed = c ∧ c.passBlanks allowed = c := by
  obtain ⟨w, split, passes⟩ := afterRound_split allowed c.rest
  rw [round_eq split]
  have place := offset_pass c w (allowed.afterRound c.rest)
  rw [utf8Length_append] at place
  cases found : Blank.landmark? (allowed.afterRound c.rest) with
  | none =>
    rw [keepRanked_of_none found, finishRound_of_none found]
    cases w with
    | nil =>
      rw [List.nil_append] at split
      have stops := stops_of_afterRound split.symm
      rw [← split] at found
      refine .inr ⟨?_, passBlanks_of_stops found stops⟩
      rw [← split, pass, List.append_nil]
    | cons x w =>
      have more := utf8Length_pos (List.cons_ne_nil x w)
      left
      rw [place, offset]
      omega
  | some pair =>
    obtain ⟨l, r⟩ := pair
    left
    rw [finishRound_keepRanked found]
    refine Nat.lt_of_lt_of_le ?_ (offset_le_finishRound _ _)
    have more := utf8Length_pos (Blank.landmark?_ne_nil found)
    simp only [offset, keep, pass, before, utf8Length_append] at *
    omega

/-- No landmark is of a rank above 3. -/
theorem finishRound_three (c : Cursor) : c.finishRound 3 = c := by
  cases found : Blank.landmark? c.rest with
  | none => exact finishRound_of_none found 3
  | some pair =>
    have bound := rank_lt pair.1
    rw [finishRound_of_landmark found, if_neg (by omega)]

end DotText.Cursor
