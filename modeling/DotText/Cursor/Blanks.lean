import DotText.Cursor.Basic

set_option autoImplicit false

/- Passing over insignificant material, and taking it away. It is gone over in rounds, each of which
takes a few characters inside a line and then a few landmarks, and the first round that ends at the
offset where it began is the last. -/
namespace DotText.Cursor

/-- Move past everything that does not matter. -/
def passBlanks (allowed : Separators) (c : Cursor) : Cursor :=
  match _found : Blank.landmark? c.rest with
  | some (landmark, r) => passBlanks allowed (c.keep landmark r)
  | none =>
    match _start : c.rest with
    | [] => c
    | x :: r =>
      if allowed.passes x then passBlanks allowed { c with gap := c.gap ++ [x], rest := r } else c
termination_by c.rest.length
decreasing_by
  · exact Blank.landmark?_length _found
  · simp [_start]

theorem text_passBlanks (allowed : Separators) (c : Cursor) :
    (c.passBlanks allowed).text = c.text := by
  fun_induction passBlanks allowed c with
  | case1 c l r found ih => rw [ih, text_keep c (Blank.landmark?_append found)]
  | case2 => rfl
  | case3 c _ x r start _ ih => rw [ih]; simp [text, before, start]
  | case4 => rfl

section Passes

variable {allowed : Separators} {c : Cursor}

theorem passBlanks_of_landmark {l r : List Char} (found : Blank.landmark? c.rest = some (l, r)) :
    c.passBlanks allowed = (c.keep l r).passBlanks allowed := by
  rw [passBlanks]
  split
  · next found' =>
    rw [found] at found'
    cases found'
    rfl
  · next missing =>
    rw [found] at missing
    cases missing

theorem passBlanks_of_passes {x : Char} {r : List Char} (start : c.rest = x :: r)
    (passes : allowed.passes x = true) :
    c.passBlanks allowed = passBlanks allowed { c with gap := c.gap ++ [x], rest := r } := by
  rw [passBlanks]
  split
  · next found =>
    rw [start, Separators.landmark?_of_passes passes] at found
    cases found
  · split
    · next nothing =>
      rw [start] at nothing
      cases nothing
    · next start' =>
      rw [start] at start'
      cases start'
      exact if_pos passes

theorem passBlanks_of_stops (missing : Blank.landmark? c.rest = none)
    (stops : c.rest.head?.any allowed.passes = false) : c.passBlanks allowed = c := by
  rw [passBlanks]
  split
  · next found =>
    rw [missing] at found
    cases found
  · split
    · rfl
    · next start =>
      rw [start] at stops
      exact if_neg (by simpa using stops)

/-- Where a pass comes to rest is a matter of the text behind the place alone. -/
theorem rest_passBlanks_congr {d : Cursor} (alike : d.rest = c.rest) :
    (d.passBlanks allowed).rest = (c.passBlanks allowed).rest := by
  fun_induction passBlanks allowed c generalizing d with
  | case1 c l r found ih =>
    rw [passBlanks_of_landmark (alike ▸ found)]
    exact ih rfl
  | case2 c missing nothing =>
    rw [passBlanks_of_stops (alike ▸ missing) (by rw [alike, nothing]; rfl), alike]
  | case3 c missing x r start passes ih =>
    rw [passBlanks_of_passes (alike.trans start) passes]
    exact ih rfl
  | case4 c missing x r start stops =>
    rw [passBlanks_of_stops (alike ▸ missing) (by rw [alike, start]; simpa using stops), alike]

theorem stops_passBlanks (c : Cursor) :
    Blank.landmark? (c.passBlanks allowed).rest = none ∧
      (c.passBlanks allowed).rest.head?.any allowed.passes = false := by
  fun_induction passBlanks allowed c with
  | case1 c l r found ih => exact ih
  | case2 c missing nothing => exact ⟨missing, by rw [nothing]; rfl⟩
  | case3 c missing x r start passes ih => exact ih
  | case4 c missing x r start stops => exact ⟨missing, by rw [start]; simpa using stops⟩

end Passes

/-- Move past the landmarks that a round takes after one of this rank. -/
def finishRound (rank : Nat) (c : Cursor) : Cursor :=
  match _found : Blank.landmark? c.rest with
  | some (landmark, r) =>
    if rank < Blank.rank landmark then finishRound (Blank.rank landmark) (c.keep landmark r) else c
  | none => c
termination_by c.rest.length
decreasing_by exact Blank.landmark?_length _found

theorem text_finishRound (k : Nat) (c : Cursor) : (c.finishRound k).text = c.text := by
  fun_induction finishRound k c with
  | case1 k c l r found later ih => rw [ih, text_keep c (Blank.landmark?_append found)]
  | case2 => rfl
  | case3 => rfl

/-- Take away what is in front of the first landmark, and move past the landmark. Where nothing was
kept since the last removal, so that a whole line has gone, a line end takes the place of the line
end before the gap. -/
def cutToLandmark (c : Cursor) (landmark rest : List Char) : Cursor :=
  if c.isErasing && c.settled.getLast? == some '\n' && landmark == ['\n'] then
    { c with gap := [], rest := rest, removal := some (utf8Length c.settled.dropLast) }
  else (c.cut rest).keep landmark rest

/-- Take away what does not matter up to the first landmark, of which the rounds before `r` have
been over a part already. The round that reaches the landmark is the last one if it ends at the
offset where it began, which the removal may have moved back to; else the rest of the material is
moved past. -/
def cutRounds (allowed : Separators) (c : Cursor) (r : List Char) : Cursor :=
  let r' := allowed.afterRound r
  match Blank.landmark? r' with
  | some (landmark, rest) =>
    let reached := (c.cutToLandmark landmark rest).finishRound (Blank.rank landmark)
    if reached.offset = c.offset + (c.rest.length - r.length) then reached
    else reached.passBlanks allowed
  | none => if r'.length < r.length then cutRounds allowed c r' else c.cut r
termination_by r.length

/-- Take away what does not matter up to the first landmark, and move past what follows. -/
def cutBlanks (allowed : Separators) (c : Cursor) : Cursor :=
  cutRounds allowed c c.rest

/-- Move past what does not matter; with `erase`, take away the first of it. -/
def skipBlanks (erase : Bool) (allowed : Separators) (c : Cursor) : Cursor :=
  if erase then c.cutBlanks allowed else c.passBlanks allowed

/-- Whether a list with nothing in it comes next. -/
def atEmptyList (c : Cursor) : Bool :=
  match Blank.skip c.rest with
  | '[' :: r => (Blank.skip r).head? == some ']'
  | _ => false

end DotText.Cursor
