import DotText.Cursor.Loops
import DotText.Proofs.Passing

set_option autoImplicit false

/- The loops over insignificant material come to the same place. What an erasing pass takes away is
told by the text alone, and it leaves what a keeping pass leaves unless it stands still. -/
namespace DotText

/-- A loop comes to where `finish` says if no turn changes that, and if it is where the loop is once a
turn changes nothing. -/
theorem untilSame_eq {turn finish : List Char → List Char}
    (keeps : ∀ cs, finish (turn cs) = finish cs)
    (ends : ∀ cs, cs.length ≤ (turn cs).length → finish cs = cs) (cs : List Char) :
    untilSame turn cs = finish cs := by
  fun_induction untilSame turn cs with
  | case1 cs shorter ih => rw [ih, keeps]
  | case2 cs same => rw [ends cs (by omega)]

namespace Blank

section Comments

/-- A comment is a landmark; where there is none, a landmark is a line end. -/
theorem dropComment_cases (cs : List Char) :
    (∃ l, landmark? cs = some (l, dropComment cs)) ∨
      dropComment cs = cs ∧ (cs.head? ≠ some '\n' → landmark? cs = none) := by
  unfold dropComment
  split
  · exact .inl ⟨_, rfl⟩
  · exact .inl ⟨_, rfl⟩
  · exact .inl ⟨_, rfl⟩
  · next slashes hash block =>
    refine .inr ⟨rfl, fun solid => ?_⟩
    unfold landmark?
    split <;> simp_all

theorem skip_dropComment (cs : List Char) : skip (dropComment cs) = skip cs := by
  rcases dropComment_cases cs with ⟨l, found⟩ | ⟨same, -⟩
  · rw [skip_of_landmark found]
  · rw [same]

theorem skip_cons_of_isSpacing {c : Char} (spacing : isSpacing c = true) (r : List Char) :
    skip (c :: r) = skip r := by
  rw [isSpacing, Bool.or_eq_true, beq_iff_eq] at spacing
  rcases spacing with inline | rfl
  · exact skip_of_isInline inline r
  · exact skip_of_landmark rfl

theorem skip_dropWhile_isSpacing (cs : List Char) : skip (cs.dropWhile isSpacing) = skip cs := by
  induction cs with
  | nil => rfl
  | cons c cs ih =>
    by_cases spacing : isSpacing c = true
    · rw [List.dropWhile_cons_of_pos spacing, ih, skip_cons_of_isSpacing spacing]
    · rw [List.dropWhile_cons_of_neg spacing]

/-- Nothing insignificant comes next if that is no blank, no line end and no comment. -/
theorem skip_eq_self_of_dropComment {cs : List Char} (solid : cs.head?.any isSpacing = false)
    (same : cs.length ≤ (dropComment cs).length) : skip cs = cs := by
  have inline : cs.head?.any isInline = false ∧ cs.head? ≠ some '\n' := by
    cases cs <;> simp_all [isSpacing]
  rcases dropComment_cases cs with ⟨l, found⟩ | ⟨-, missing⟩
  · have shorter := landmark?_length found
    omega
  · exact skip_eq_self (missing inline.2) inline.1

theorem untilSame_trimAndFind (cs : List Char) : untilSame trimAndFind cs = skip cs := by
  apply untilSame_eq
  · intro cs
    rw [trimAndFind, skip_dropComment, skip_dropWhile_isSpacing]
  · intro cs same
    have first := (List.dropWhile_suffix (l := cs) isSpacing).length_le
    have second : (dropComment (cs.dropWhile isSpacing)).length ≤
        (cs.dropWhile isSpacing).length := by
      rcases dropComment_cases (cs.dropWhile isSpacing) with ⟨l, found⟩ | ⟨unchanged, -⟩
      · exact Nat.le_of_lt (landmark?_length found)
      · exact Nat.le_of_eq (congrArg List.length unchanged)
    rw [trimAndFind] at same
    have whole : cs.dropWhile isSpacing = cs :=
      (List.dropWhile_suffix isSpacing).eq_of_length (by omega)
    have solid := head?_dropWhile_any isSpacing cs
    rw [whole] at solid same
    exact skip_eq_self_of_dropComment solid same

theorem peekOne_eq (cs : List Char) :
    peekOne cs = if cs.head?.any isSpacing then cs.tail else dropComment cs := by
  cases cs with
  | nil => rfl
  | cons c r =>
    rw [peekOne, List.head?_cons, Option.any_some, List.tail_cons]
    split
    · rfl
    · unfold dropComment
      split <;> simp_all [splitLine]

theorem untilSame_peekOne (cs : List Char) : untilSame peekOne cs = skip cs := by
  apply untilSame_eq
  · intro cs
    rw [peekOne_eq]
    split
    · cases cs with
      | nil => rfl
      | cons c r => exact (skip_cons_of_isSpacing (by simpa using ‹_›) r).symm
    · exact skip_dropComment cs
  · intro cs same
    rw [peekOne_eq] at same
    split at same
    · cases cs with
      | nil => simp [skip, landmark?]
      | cons c r =>
        rw [List.tail_cons, List.length_cons] at same
        omega
    · next solid => exact skip_eq_self_of_dropComment (by simpa using solid) same

end Comments

section Rounds

variable {cs : List Char}

theorem dropRanked_of_landmark {l r : List Char} (found : landmark? cs = some (l, r)) (k : Nat) :
    dropRanked cs k = if rank l = k then r else cs := by
  rw [dropRanked, found]

theorem dropRanked_of_none (missing : landmark? cs = none) (k : Nat) : dropRanked cs k = cs := by
  rw [dropRanked, missing]

theorem foldl_dropRanked_eq_self {ks : List Nat}
    (other : ∀ l r, landmark? cs = some (l, r) → rank l ∉ ks) : ks.foldl dropRanked cs = cs := by
  induction ks with
  | nil => rfl
  | cons k ks ih =>
    have same : dropRanked cs k = cs := by
      cases found : landmark? cs with
      | none => exact dropRanked_of_none found k
      | some pair =>
        have apart := other _ _ found
        rw [List.mem_cons, not_or] at apart
        rw [dropRanked_of_landmark found, if_neg apart.1]
    rw [List.foldl_cons, same]
    exact ih fun l r found mem => other l r found (List.mem_cons_of_mem k mem)

/-- Of landmarks taken in order, those of lower rank are not there where one of higher rank is. -/
theorem foldl_dropRanked_of_landmark {ks : List Nat} (ordered : ks.Pairwise (· < ·))
    {l r : List Char} (found : landmark? cs = some (l, r)) (listed : rank l ∈ ks) :
    ks.foldl dropRanked cs = (ks.filter (rank l < ·)).foldl dropRanked r := by
  induction ks with
  | nil => cases listed
  | cons k ks ih =>
    rw [List.pairwise_cons] at ordered
    rw [List.foldl_cons, dropRanked_of_landmark found]
    by_cases here : rank l = k
    · have later : ks.filter (rank l < ·) = ks :=
        List.filter_eq_self.mpr fun j mem => decide_eq_true (here ▸ ordered.1 j mem)
      rw [if_pos here, List.filter_cons_of_neg (by simp [here]), later]
    · have mem : rank l ∈ ks := (List.mem_cons.mp listed).resolve_left here
      have before := ordered.1 _ mem
      rw [if_neg here, List.filter_cons_of_neg (by simp; omega), ih ordered.2 mem]

theorem length_dropRanked (cs : List Char) (k : Nat) : (dropRanked cs k).length ≤ cs.length := by
  cases found : landmark? cs with
  | none => exact Nat.le_of_eq (congrArg List.length (dropRanked_of_none found k))
  | some pair =>
    rw [dropRanked_of_landmark found]
    split
    · exact Nat.le_of_lt (landmark?_length found)
    · exact Nat.le_refl _

theorem length_foldl_dropRanked (ks : List Nat) (cs : List Char) :
    (ks.foldl dropRanked cs).length ≤ cs.length := by
  induction ks generalizing cs with
  | nil => exact Nat.le_refl _
  | cons k ks ih => exact Nat.le_trans (ih _) (length_dropRanked cs k)

theorem rank_mem (l : List Char) : rank l ∈ [0, 1, 2, 3] := by
  unfold rank
  split <;> simp

/-- Where a landmark comes next, a round takes it, and then those of higher rank. -/
theorem afterLandmarks_of_landmark {l r : List Char} (found : landmark? cs = some (l, r)) :
    afterLandmarks cs = ([0, 1, 2, 3].filter (rank l < ·)).foldl dropRanked r :=
  foldl_dropRanked_of_landmark (by decide) found (rank_mem l)

theorem landmark?_of_afterLandmarks (same : cs.length ≤ (afterLandmarks cs).length) :
    landmark? cs = none := by
  cases found : landmark? cs with
  | none => rfl
  | some pair =>
    rw [afterLandmarks_of_landmark found] at same
    have behind := length_foldl_dropRanked ([0, 1, 2, 3].filter (rank pair.1 < ·)) pair.2
    have shorter := landmark?_length found
    omega

end Rounds

end Blank

section Passes

variable {allowed : Separators}

namespace Separators

/-- The text behind all that may be passed. -/
def pass (allowed : Separators) (cs : List Char) : List Char :=
  ((Cursor.ofText cs).passBlanks allowed).rest

theorem rest_passBlanks (allowed : Separators) (c : Cursor) :
    (c.passBlanks allowed).rest = allowed.pass c.rest :=
  Cursor.rest_passBlanks_congr rfl

theorem pass_of_landmark {cs l r : List Char} (found : Blank.landmark? cs = some (l, r)) :
    allowed.pass cs = allowed.pass r := by
  have step : (Cursor.ofText cs).passBlanks allowed =
      ((Cursor.ofText cs).keep l r).passBlanks allowed :=
    Cursor.passBlanks_of_landmark found
  rw [pass, step, rest_passBlanks]
  rfl

theorem pass_of_passes {x : Char} (passes : allowed.passes x = true) (r : List Char) :
    allowed.pass (x :: r) = allowed.pass r := by
  have step := Cursor.passBlanks_of_passes (c := .ofText (x :: r)) rfl passes
  rw [pass, step, rest_passBlanks]

theorem pass_eq_self {cs : List Char} (missing : Blank.landmark? cs = Option.none)
    (stops : cs.head?.any allowed.passes = false) : allowed.pass cs = cs :=
  congrArg Cursor.rest (Cursor.passBlanks_of_stops (c := .ofText cs) missing stops)

theorem pass_append {w : List Char} (passes : w.all allowed.passes = true) (r : List Char) :
    allowed.pass (w ++ r) = allowed.pass r := by
  induction w with
  | nil => rfl
  | cons x w ih =>
    rw [List.all_cons, Bool.and_eq_true] at passes
    rw [List.cons_append, pass_of_passes passes.1, ih passes.2]

theorem pass_none (cs : List Char) : none.pass cs = Blank.skip cs := by
  fun_induction Blank.skip cs with
  | case1 cs l r found ih => rw [pass_of_landmark found, ih]
  | case2 missing => exact pass_eq_self missing rfl
  | case3 c r missing inline ih =>
    rw [pass_of_passes (by simpa [passes, none] using inline), ih]
  | case4 c r missing solid =>
    exact pass_eq_self missing (by simpa [passes, none] using solid)

theorem pass_foldl (ks : List Nat) (cs : List Char) :
    allowed.pass (ks.foldl Blank.dropRanked cs) = allowed.pass cs := by
  induction ks generalizing cs with
  | nil => rfl
  | cons k ks ih =>
    rw [List.foldl_cons, ih]
    cases found : Blank.landmark? cs with
    | none => rw [Blank.dropRanked_of_none found]
    | some pair =>
      rw [Blank.dropRanked_of_landmark found]
      split
      · exact (pass_of_landmark found).symm
      · rfl

theorem afterRound_eq_self {cs : List Char} (same : cs.length ≤ (allowed.afterRound cs).length) :
    allowed.afterRound cs = cs := by
  obtain ⟨w, split, -⟩ := Cursor.afterRound_split allowed cs
  have size := congrArg List.length split
  rw [List.length_append] at size
  have none : w = [] := List.eq_nil_of_length_eq_zero (by omega)
  rw [none, List.nil_append] at split
  exact split.symm

theorem untilSame_round (allowed : Separators) (cs : List Char) :
    untilSame allowed.round cs = allowed.pass cs := by
  apply untilSame_eq
  · intro cs
    obtain ⟨w, split, passes⟩ := Cursor.afterRound_split allowed cs
    have whole := pass_append passes (allowed.afterRound cs)
    rw [← split] at whole
    rw [round, Blank.afterLandmarks, pass_foldl, whole]
  · intro cs same
    have behind := Blank.length_foldl_dropRanked [0, 1, 2, 3] (allowed.afterRound cs)
    rw [round, Blank.afterLandmarks] at same
    have unmoved : allowed.afterRound cs = cs := afterRound_eq_self (by omega)
    rw [unmoved] at same
    exact pass_eq_self (Blank.landmark?_of_afterLandmarks same) (Cursor.stops_of_afterRound unmoved)

theorem dropWhile_afterRound (allowed : Separators) (cs : List Char) :
    (allowed.afterRound cs).dropWhile allowed.passes = cs.dropWhile allowed.passes := by
  obtain ⟨w, split, passes⟩ := Cursor.afterRound_split allowed cs
  have whole : (w ++ allowed.afterRound cs).dropWhile allowed.passes = _ :=
    List.dropWhile_append_of_pos (List.all_eq_true.mp passes)
  rw [← split] at whole
  exact whole.symm

theorem dropWhile_eq_self {cs : List Char} (stops : cs.head?.any allowed.passes = false) :
    cs.dropWhile allowed.passes = cs := by
  cases cs with
  | nil => rfl
  | cons c cs => exact List.dropWhile_cons_of_neg (by simpa using stops)

/-- A round that comes to a landmark is the last one. -/
theorem lastRound_of_landmark {cs l r : List Char}
    (found : Blank.landmark? (allowed.afterRound cs) = some (l, r)) :
    allowed.lastRound cs = cs ∧ cs.dropWhile allowed.passes = allowed.afterRound cs := by
  constructor
  · rw [lastRound, found]
    simp
  · rw [← dropWhile_afterRound, allowed.dropWhile_of_landmark found]

theorem lastRound_of_none {cs : List Char}
    (missing : Blank.landmark? (allowed.afterRound cs) = Option.none)
    (shorter : (allowed.afterRound cs).length < cs.length) :
    allowed.lastRound cs = allowed.lastRound (allowed.afterRound cs) := by
  rw [lastRound, if_pos ⟨by rw [missing]; rfl, shorter⟩]

end Separators

end Passes

namespace Cursor

variable {allowed : Separators} {c : Cursor} {l r : List Char}

/-- What is left of a round once it has come to a landmark takes the landmarks of higher rank. -/
theorem rest_finishRound (k : Nat) (c : Cursor) :
    (c.finishRound k).rest = ([0, 1, 2, 3].filter (k < ·)).foldl Blank.dropRanked c.rest := by
  fun_induction finishRound k c with
  | case1 k c l r found later ih =>
    have listed : Blank.rank l ∈ [0, 1, 2, 3].filter (k < ·) :=
      List.mem_filter.mpr ⟨Blank.rank_mem l, decide_eq_true later⟩
    have ordered : ([0, 1, 2, 3].filter (k < ·)).Pairwise (· < ·) :=
      List.Pairwise.filter _ (by decide)
    rw [ih, Blank.foldl_dropRanked_of_landmark ordered found listed, List.filter_filter]
    congr 2
    funext j
    rw [← Bool.decide_and]
    exact decide_eq_decide.mpr ⟨fun above => ⟨above, by omega⟩, fun above => above.1⟩
  | case2 k c l r found sooner =>
    refine (Blank.foldl_dropRanked_eq_self fun l' r' found' mem => ?_).symm
    rw [found] at found'
    cases found'
    exact sooner (of_decide_eq_true (List.mem_filter.mp mem).2)
  | case3 k c missing =>
    refine (Blank.foldl_dropRanked_eq_self fun l r found => ?_).symm
    rw [missing] at found
    cases found

/-- The place a pass comes to in the round that has come to a landmark. -/
theorem rest_reached (found : Blank.landmark? (c.behindInline allowed) = some (l, r)) :
    ((c.cutToLandmark l r).finishRound (Blank.rank l)).rest =
      Blank.afterLandmarks (c.behindInline allowed) := by
  have rest : (c.cutToLandmark l r).rest = r := by
    unfold cutToLandmark
    split <;> rfl
  rw [rest_finishRound, rest, Blank.afterLandmarks_of_landmark found]

theorem isNewline_of_landmark {cs : List Char} (found : Blank.landmark? cs = some (l, r)) :
    (l == ['\n']) = (cs.head? == some '\n') := by
  unfold Blank.landmark? at found
  split at found
  · cases found
    rfl
  · cases found
    rfl
  · cases found
    rfl
  · cases found
    rfl
  · cases found

theorem text_cutToLandmark (found : Blank.landmark? (c.behindInline allowed) = some (l, r)) :
    ∃ front, c.before = front ++ c.takenBack allowed ∧
      (c.cutToLandmark l r).text = front ++ c.behindInline allowed := by
  have split := Blank.landmark?_append found
  rw [cutToLandmark, takenBack, isNewline_of_landmark found, ← split]
  split
  · next back =>
    have newline : l = ['\n'] := by
      have same := isNewline_of_landmark found
      simp_all
    have ends : c.settled.getLast? = some '\n' := by simp_all
    obtain ⟨front, settled⟩ := List.getLast?_eq_some_iff.mp ends
    exact ⟨front, by simp [before, settled], by simp [text, before, settled, newline]⟩
  · exact ⟨c.before, by simp, by simp [text, keep, cut, before]⟩

/-- Whatever rounds come before, the landmark that is taken is the first one. -/
theorem cutRounds_of_landmark {cs : List Char}
    (found : Blank.landmark? (cs.dropWhile allowed.passes) = some (l, r)) :
    c.cutRounds allowed cs =
      let reached := (c.cutToLandmark l r).finishRound (Blank.rank l)
      if reached.offset = c.offset + (c.rest.length - (allowed.lastRound cs).length) then reached
      else reached.passBlanks allowed := by
  fun_induction cutRounds allowed c cs with
  | case1 cs cs' l' r' found' reached still =>
    obtain ⟨last, same⟩ := Separators.lastRound_of_landmark found'
    rw [same, found'] at found
    cases found
    rw [last]
    exact (if_pos still).symm
  | case2 cs cs' l' r' found' reached moved =>
    obtain ⟨last, same⟩ := Separators.lastRound_of_landmark found'
    rw [same, found'] at found
    cases found
    rw [last]
    exact (if_neg moved).symm
  | case3 cs cs' missing shorter =>
    rename_i ih
    rw [ih (by rwa [Separators.dropWhile_afterRound]),
      Separators.lastRound_of_none missing shorter]
  | case4 cs cs' missing same =>
    have unmoved : allowed.afterRound cs = cs :=
      Separators.afterRound_eq_self (Nat.le_of_not_lt same)
    have missing : Blank.landmark? (allowed.afterRound cs) = none := missing
    rw [Separators.dropWhile_eq_self (stops_of_afterRound unmoved), ← unmoved, missing] at found
    cases found

theorem cutRounds_of_none {cs : List Char}
    (missing : Blank.landmark? (cs.dropWhile allowed.passes) = none) :
    c.cutRounds allowed cs = c.cut (cs.dropWhile allowed.passes) := by
  fun_induction cutRounds allowed c cs with
  | case1 cs cs' l' r' found' =>
    rw [(Separators.lastRound_of_landmark found').2, found'] at missing
    cases missing
  | case2 cs cs' l' r' found' =>
    rw [(Separators.lastRound_of_landmark found').2, found'] at missing
    cases missing
  | case3 cs cs' missing' shorter =>
    rename_i ih
    rw [ih (by rwa [Separators.dropWhile_afterRound]), Separators.dropWhile_afterRound]
  | case4 cs cs' missing' same =>
    have unmoved : allowed.afterRound cs = cs :=
      Separators.afterRound_eq_self (Nat.le_of_not_lt same)
    rw [Separators.dropWhile_eq_self (stops_of_afterRound unmoved)]

/-- The round that comes to the first landmark is back at the offset where it began exactly if the
pass stands still. -/
theorem offset_reached_iff (found : Blank.landmark? (c.behindInline allowed) = some (l, r)) :
    let reached := (c.cutToLandmark l r).finishRound (Blank.rank l)
    reached.offset = c.offset + (c.rest.length - (allowed.lastRound c.rest).length) ↔
      c.standsStill allowed = true := by
  intro reached
  -- Both sides are lengths of what is in front of the same text, told from its start.
  obtain ⟨front, before, text⟩ := text_cutToLandmark found
  have size : reached.offset + utf8Length reached.rest =
      utf8Length front + utf8Length (c.behindInline allowed) := by
    rw [offset, ← utf8Length_append, ← utf8Length_append, ← text, ← text_finishRound]
    rfl
  have rest : reached.rest = Blank.afterLandmarks (c.behindInline allowed) := rest_reached found
  rw [rest] at size
  rw [standsStill, found, Option.isSome_some, Bool.true_and, beq_iff_eq]
  have place : c.offset = utf8Length front + utf8Length (c.takenBack allowed) := by
    rw [offset, before, utf8Length_append]
  omega

/-- What an erasing pass takes away: the characters inside a line up to the first landmark, and what
is taken back in front of the place. -/
theorem text_cutBlanks (allowed : Separators) (c : Cursor) :
    ∃ front, c.before = front ++ c.takenBack allowed ∧
      (c.cutBlanks allowed).text = front ++ c.behindInline allowed := by
  cases found : Blank.landmark? (c.behindInline allowed) with
  | none =>
    have solid : ((c.behindInline allowed).head? == some '\n') = false := by
      cases behind : c.behindInline allowed with
      | nil => rfl
      | cons x t =>
        rw [behind] at found
        by_cases newline : x = '\n'
        · rw [newline] at found
          cases found
        · simpa using newline
    refine ⟨c.before, by simp [takenBack, solid], ?_⟩
    rw [cutBlanks, cutRounds_of_none found]
    rfl
  | some pair =>
    obtain ⟨front, before, text⟩ := text_cutToLandmark found
    refine ⟨front, before, ?_⟩
    rw [cutBlanks, cutRounds_of_landmark found]
    dsimp only
    split
    · rw [text_finishRound, text]
    · rw [text_passBlanks, text_finishRound, text]

/-- A pass goes on to where it comes from what is left of the first of the material. -/
theorem pass_behindInline (allowed : Separators) (c : Cursor) :
    allowed.pass (c.behindInline allowed) = (c.passBlanks allowed).rest := by
  have all : (c.rest.takeWhile allowed.passes).all allowed.passes = true := List.all_takeWhile
  have whole := Separators.pass_append all (c.rest.dropWhile allowed.passes)
  rw [List.takeWhile_append_dropWhile] at whole
  rw [Separators.rest_passBlanks, whole]
  rfl

theorem pass_afterLandmarks (allowed : Separators) (c : Cursor) :
    allowed.pass (Blank.afterLandmarks (c.behindInline allowed)) = (c.passBlanks allowed).rest := by
  rw [Blank.afterLandmarks, Separators.pass_foldl, pass_behindInline]

/-- What an erasing pass leaves behind the place: what a keeping pass leaves, or if it stands still
what is behind the landmarks of the first round that comes to any. -/
theorem rest_cutBlanks (allowed : Separators) (c : Cursor) :
    (c.cutBlanks allowed).rest =
      if c.standsStill allowed then Blank.afterLandmarks (c.behindInline allowed)
      else (c.passBlanks allowed).rest := by
  cases found : Blank.landmark? (c.behindInline allowed) with
  | none =>
    have idle : c.standsStill allowed = false := by
      rw [standsStill, found]
      rfl
    have solid : (c.behindInline allowed).head?.any allowed.passes = false :=
      head?_dropWhile_any allowed.passes c.rest
    rw [idle, ← pass_behindInline, Separators.pass_eq_self found solid, cutBlanks,
      cutRounds_of_none found]
    rfl
  | some pair =>
    have reached := rest_reached found
    have still := offset_reached_iff found
    rw [cutBlanks, cutRounds_of_landmark found]
    dsimp only at still ⊢
    by_cases stands : c.standsStill allowed = true
    · rw [if_pos (still.mpr stands), if_pos stands, reached]
    · rw [if_neg fun here => stands (still.mp here), if_neg stands, Separators.rest_passBlanks,
        reached, pass_afterLandmarks]

/-- The loops over insignificant material all stop at the same place, and with separators among it
the rounds go as far as a pass of the cursor, which leaves the text as it is. An erasing pass takes
away the characters inside a line up to the first landmark, and what is taken back in front of the
place; it leaves behind the place what a keeping pass leaves, unless it stands still behind a landmark
with more to pass. -/
theorem passes_agree (allowed : Separators) (c : Cursor) :
    (untilSame Blank.trimAndFind c.rest = Blank.skip c.rest ∧
      untilSame Blank.peekOne c.rest = Blank.skip c.rest ∧
      untilSame Separators.none.round c.rest = Blank.skip c.rest ∧
      (c.passBlanks .none).rest = Blank.skip c.rest) ∧
    untilSame allowed.round c.rest = (c.passBlanks allowed).rest ∧
    (c.passBlanks allowed).text = c.text ∧
    (∃ front, c.before = front ++ c.takenBack allowed ∧
      (c.cutBlanks allowed).text = front ++ c.behindInline allowed) ∧
    (c.cutBlanks allowed).rest =
      (if c.standsStill allowed then Blank.afterLandmarks (c.behindInline allowed)
        else (c.passBlanks allowed).rest) ∧
    ((c.cutBlanks allowed).rest = (c.passBlanks allowed).rest ↔
      c.standsStill allowed = false ∨
        Blank.landmark? (c.cutBlanks allowed).rest = none ∧
          (c.cutBlanks allowed).rest.head?.any allowed.passes = false) := by
  have whole (some : Separators) : (c.passBlanks some).rest = some.pass c.rest :=
    Separators.rest_passBlanks some c
  refine ⟨⟨Blank.untilSame_trimAndFind _, Blank.untilSame_peekOne _, ?_, ?_⟩, ?_,
    text_passBlanks allowed c, text_cutBlanks allowed c, rest_cutBlanks allowed c, ?_⟩
  · rw [Separators.untilSame_round, Separators.pass_none]
  · rw [whole, Separators.pass_none]
  · rw [Separators.untilSame_round, whole]
  · constructor
    · intro same
      rw [same]
      exact .inr (stops_passBlanks c)
    · intro ends
      have left := rest_cutBlanks allowed c
      by_cases stands : c.standsStill allowed = true
      · obtain ⟨missing, stops⟩ := ends.resolve_left (by simp [stands])
        rw [if_pos stands] at left
        rw [left] at missing stops ⊢
        rw [← pass_afterLandmarks, Separators.pass_eq_self missing stops]
      · rw [left, if_neg stands]

/-- Behind a blank line the pass is back at the offset where its second round began, and takes that
for its end. -/
theorem skipBlanks_stops_short :
    ((ofText "  \n  x".toList).skipBlanks true .none).rest = "  x".toList ∧
      ((ofText "  \n  x".toList).skipBlanks false .none).rest = "x".toList := by
  decide +kernel

end Cursor

end DotText
