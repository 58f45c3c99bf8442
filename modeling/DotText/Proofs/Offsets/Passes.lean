import DotText.Proofs.Offsets.Looking
import DotText.Proofs.Rounds
import DotText.Proofs.Traversing

set_option autoImplicit false

/- A pass told by offsets makes the rounds that the cursor makes. One that takes nothing away stands
after each round where the cursor stands; one that takes away keeps the text as it is until it comes to
a landmark, and what it has then to take away and how far the text behind moves up are differences of
offsets that are all there. -/
namespace DotText

namespace Separators

theorem toNat_of_passes {allowed : Separators} {x : Char} (passes : allowed.passes x = true) :
    x.toNat < 0x80 := by
  rw [passes_eq, Bool.or_eq_true] at passes
  rcases passes with inline | listed
  · exact Blank.toNat_of_isInline inline
  · rcases eq_of_allows listed with rfl | rfl <;> decide

/-- What is passed inside a line are single bytes. -/
theorem utf8Length_of_passes {allowed : Separators} {w : List Char}
    (passes : w.all allowed.passes = true) : utf8Length w = w.length := by
  induction w with
  | nil => rfl
  | cons x w ih =>
    rw [List.all_cons, Bool.and_eq_true] at passes
    have first : utf8Length [x] = 1 := utf8Length_of_ascii (toNat_of_passes passes.1)
    have both : utf8Length (x :: w) = utf8Length [x] + utf8Length w := utf8Length_append [x] w
    rw [both, first, ih passes.2, List.length_cons, Nat.add_comm]

end Separators

/-- Taking away the start of the rest. -/
theorem OffsetCursor.cut?_eq {c : Cursor} {w r : List Char} (split : c.rest = w ++ r) :
    c.toOffsets.cut? c.offset (utf8Length (c.before ++ w)) = some (c.cut r).toOffsets := by
  have text : c.toOffsets.text = c.before ++ (w ++ r) := by
    rw [← split]
    rfl
  have start : c.offset = utf8Length c.before := rfl
  rw [cut?, start, text, cutBytes?_append]
  rfl

namespace OffsetCursor.Pass

section Round

variable (allowed : Separators) {s : Pass} {front rest : List Char}

theorem passByte_eq (text : s.cursor.text = front ++ rest) (place : s.place = utf8Length front)
    {test : UInt8 → Bool} {p : Char → Bool} (tells : Tells test p)
    (ascii : ∀ x, p x = true → x.toNat < 0x80) :
    ∃ w, rest = w ++ Separators.dropOne p rest ∧
      s.passByte test = { s with place := utf8Length (front ++ w) } := by
  have told := any_byteAt? text tells
  rw [← place] at told
  rw [passByte, told]
  unfold Separators.dropOne
  split
  · next here =>
    cases rest with
    | nil => cases here
    | cons x r =>
      refine ⟨[x], rfl, ?_⟩
      rw [utf8Length_append, utf8Length_of_ascii (ascii x here), place]
  · refine ⟨[], rfl, ?_⟩
    rw [List.append_nil, ← place]

/-- What one round goes over inside a line. -/
theorem passInline_eq (text : s.cursor.text = front ++ rest) (place : s.place = utf8Length front) :
    ∃ w, rest = w ++ allowed.afterRound rest ∧ w.all allowed.passes = true ∧
      s.passInline allowed = { s with place := utf8Length (front ++ w) } := by
  have listed (condition : Bool) (y : Char) (ascii : y.toNat < 0x80) (x : Char)
      (here : (condition && x == y) = true) : x.toNat < 0x80 := by
    rw [Bool.and_eq_true, beq_iff_eq] at here
    rwa [here.2]
  obtain ⟨u, splitU, passU⟩ := passByte_eq text place tells_isInlineByte
    fun _ inline => Blank.toNat_of_isInline inline
  have textU : s.cursor.text = (front ++ u) ++ Separators.dropOne Blank.isInline rest := by
    rw [List.append_assoc, ← splitU, text]
  obtain ⟨v, splitV, passV⟩ := passByte_eq (s := { s with place := utf8Length (front ++ u) }) textU rfl
    ((tells_eq ',' (by decide)).and allowed.comma) (listed _ ',' (by decide))
  have textV : s.cursor.text = (front ++ u ++ v) ++ Separators.dropOne
      (fun x => allowed.comma && x == ',') (Separators.dropOne Blank.isInline rest) := by
    rw [List.append_assoc (front ++ u), ← splitV, textU]
  obtain ⟨w, splitW, passW⟩ := passByte_eq (s := { s with place := utf8Length (front ++ u ++ v) })
    textV rfl ((tells_eq ';' (by decide)).and allowed.semicolon) (listed _ ';' (by decide))
  have whole : rest = (u ++ v ++ w) ++ allowed.afterRound rest := by
    rw [List.append_assoc, List.append_assoc, Separators.afterRound, ← splitW, ← splitV, ← splitU]
  refine ⟨u ++ v ++ w, whole, ?_, ?_⟩
  · obtain ⟨w', split, passes⟩ := Cursor.afterRound_split allowed rest
    have same : u ++ v ++ w = w' := List.append_cancel_right (whole.symm.trans split)
    rw [same, passes]
  · rw [passInline, passU, passV, passW]
    simp only [List.append_assoc]

theorem loop?_of_still {s' : Pass} (round : s.round? allowed = some s')
    (still : s'.place = s.place) : s.loop? allowed = some s' := by
  rw [loop?, round]
  exact if_pos still

theorem loop?_of_moved {s' : Pass} (round : s.round? allowed = some s')
    (moved : s'.place ≠ s.place) (less : s'.remaining < s.remaining) :
    s.loop? allowed = s'.loop? allowed := by
  rw [loop?, round]
  dsimp only
  rw [if_neg moved, dif_pos less]

/-- A pass that takes nothing away and stands at the place of a cursor; its own cursor has the place
where the pass has begun. -/
structure Passing (begun : Nat) (z : Cursor) (s : Pass) : Prop where
  cursor : s.cursor = { z.toOffsets with place := begun }
  erases : s.erases = false
  place : s.place = z.offset

variable {begun : Nat} {z : Cursor}

theorem Passing.text (passing : Passing begun z s) : s.cursor.text = z.before ++ z.rest := by
  rw [passing.cursor]
  rfl

theorem Passing.remaining (passing : Passing begun z s) : s.remaining = utf8Length z.rest := by
  rw [Pass.remaining, passing.place]
  exact remaining_eq passing.text

theorem Passing.passTo? (passing : Passing begun z s) {l r : List Char} (split : l ++ r = z.rest) :
    ∃ s', s.passTo? (utf8Length (z.before ++ l)) = some s' ∧ Passing begun (z.keep l r) s' := by
  refine ⟨_, by rw [Pass.passTo?, passing.erases, if_neg Bool.false_ne_true], ?_, rfl, ?_⟩
  · rw [passing.cursor]
    simp only [Cursor.toOffsets, Cursor.text_keep z split]
    rfl
  · simp [Cursor.offset, Cursor.keep, Cursor.before]

theorem Passing.passRanked? (passing : Passing begun z s) {k : Nat} (known : k ∈ [0, 1, 2, 3]) :
    ∃ s', s.passRanked? k = some s' ∧ Passing begun (z.keepRanked k) s' := by
  have text := passing.text
  have place : s.place = utf8Length z.before := passing.place
  rw [Pass.passRanked?, place, Cursor.keepRanked]
  cases found : Blank.landmark? z.rest with
  | none =>
    rw [landmarkEnd?_of_none text found]
    exact ⟨s, rfl, passing⟩
  | some pair =>
    obtain ⟨l, r⟩ := pair
    rw [landmarkEnd?_of_landmark text found known]
    by_cases here : Blank.rank l = k
    · simp only [if_pos here]
      exact passing.passTo? (Blank.landmark?_append found)
    · simp only [if_neg here]
      exact ⟨s, rfl, passing⟩

/-- Behind the landmark of a rank, those of higher rank are gone over in turn. -/
theorem Passing.finishRound (passing : Passing begun z s) {k n : Nat} (last : k + n = 3) :
    ∃ s', (List.range' (k + 1) n).foldlM Pass.passRanked? s = some s' ∧
      Passing begun (z.finishRound k) s' := by
  induction n generalizing k z s with
  | zero =>
    obtain rfl : k = 3 := last
    rw [Cursor.finishRound_three]
    exact ⟨s, rfl, passing⟩
  | succ n ih =>
    have known : k + 1 ∈ [0, 1, 2, 3] := List.mem_range.mpr (show k + 1 < 4 by omega)
    obtain ⟨s₁, first, passing₁⟩ := passing.passRanked? known
    obtain ⟨s₂, others, passing₂⟩ := ih passing₁ (k := k + 1) (by omega)
    refine ⟨s₂, ?_, Cursor.finishRound_succ z k ▸ passing₂⟩
    rw [List.range'_succ, List.foldlM_cons, first]
    exact others

theorem Passing.pass (passing : Passing begun z s) {w r : List Char} (split : z.rest = w ++ r) :
    Passing begun (z.pass w r) { s with place := utf8Length (z.before ++ w) } := by
  refine ⟨?_, passing.erases, (z.offset_pass w r).symm⟩
  rw [passing.cursor]
  simp only [Cursor.toOffsets, Cursor.text_pass split]
  rfl

theorem Passing.round? (passing : Passing begun z s) :
    ∃ s', s.round? allowed = some s' ∧ Passing begun (z.round allowed) s' := by
  obtain ⟨w, split, passes, inline⟩ := passInline_eq allowed passing.text passing.place
  have round : z.round allowed = _ := Cursor.round_eq split
  obtain ⟨s₁, first, passing₁⟩ := (passing.pass split).passRanked? (k := 0) (by decide)
  obtain ⟨s₂, others, passing₂⟩ := passing₁.finishRound (k := 0) (n := 3) rfl
  refine ⟨s₂, ?_, round ▸ passing₂⟩
  rw [Pass.round?, inline, List.foldlM_cons, first]
  exact others

/-- A pass that takes nothing away comes to where the cursor comes to. -/
theorem Passing.loop? {z : Cursor} {s : Pass} (passing : Passing begun z s) :
    ∃ s', s.loop? allowed = some s' ∧ Passing begun (z.passBlanks allowed) s' := by
  obtain ⟨s₁, round, passing₁⟩ := passing.round? allowed
  have places : s₁.place = s.place ↔ (z.round allowed).offset = z.offset := by
    rw [passing.place, passing₁.place]
  rcases z.round_goes_on allowed with further | ⟨same, all⟩
  · have shorter : utf8Length (z.round allowed).rest < utf8Length z.rest := by
      have whole := congrArg utf8Length (z.text_round allowed)
      rw [Cursor.text, Cursor.text, utf8Length_append, utf8Length_append] at whole
      rw [Cursor.offset, Cursor.offset] at further
      omega
    have moved : s₁.place ≠ s.place := mt places.mp (Nat.ne_of_gt further)
    have less : s₁.remaining < s.remaining := by rwa [passing₁.remaining, passing.remaining]
    rw [loop?_of_moved allowed round moved less, ← z.passBlanks_round]
    exact passing₁.loop?
  · have still : s₁.place = s.place := places.mpr (by rw [same])
    rw [loop?_of_still allowed round still, all]
    exact ⟨s₁, rfl, same ▸ passing₁⟩
termination_by utf8Length z.rest

end Round

section Cut

variable {s : Pass}

/-- What lies between the start and the landmark goes, and all offsets behind it with it. -/
theorem passTo?_of_erases (erases : s.erases = true) (front middle l rest : List Char)
    (text : s.cursor.text = front ++ (middle ++ rest)) (start : s.cutStart = utf8Length front)
    (place : s.place = utf8Length (front ++ middle)) :
    s.passTo? (utf8Length (front ++ (middle ++ l))) =
      let stop := utf8Length (front ++ l)
      some ⟨{ s.cursor with
        text := front ++ rest, removal := some (utf8Length front), mark := stop }, false, stop, stop⟩ := by
  have cut : s.cursor.cut? (utf8Length front) (utf8Length (front ++ middle)) =
      some { s.cursor with text := front ++ rest, removal := some (utf8Length front) } := by
    rw [cut?, text, cutBytes?_append]
    rfl
  have taken : subtract? (utf8Length (front ++ middle)) (utf8Length front) =
      some (utf8Length middle) := by
    rw [utf8Length_append, subtract?, if_pos (Nat.le_add_right _ _), Nat.add_sub_cancel_left]
  have stop : subtract? (utf8Length (front ++ (middle ++ l))) (utf8Length middle) =
      some (utf8Length (front ++ l)) := by
    have size : utf8Length (front ++ (middle ++ l)) = utf8Length (front ++ l) + utf8Length middle := by
      simp only [utf8Length_append]
      omega
    rw [size, subtract?, if_pos (Nat.le_add_left _ _), Nat.add_sub_cancel]
  rw [passTo?, if_pos erases, start, place, cut, Option.bind_eq_bind, Option.bind_some, taken,
    Option.bind_eq_bind, Option.bind_some, stop]
  rfl

/-- A pass that still takes away: it has gone over `w` since it began at the place of `c`. -/
structure Cutting (c : Cursor) (w r : List Char) (s : Pass) : Prop where
  cursor : s.cursor = c.toOffsets
  erases : s.erases = true
  start : s.start = c.offset
  place : s.place = utf8Length (c.before ++ w)
  rest : c.rest = w ++ r
  bytes : utf8Length w = w.length

variable {c : Cursor} {w r : List Char}

theorem Cutting.text (cutting : Cutting c w r s) : s.cursor.text = (c.before ++ w) ++ r := by
  rw [cutting.cursor, List.append_assoc, ← cutting.rest]
  rfl

theorem Cutting.remaining (cutting : Cutting c w r s) : s.remaining = utf8Length r := by
  rw [Pass.remaining, cutting.place]
  exact remaining_eq cutting.text

/-- The line end in front of the gap is looked for one byte in front of the mark. -/
theorem Cutting.cutStart (cutting : Cutting c w r s) {l rest : List Char}
    (found : Blank.landmark? r = some (l, rest)) :
    s.cutStart = if c.isErasing && c.settled.getLast? == some '\n' && l == ['\n'] then
      utf8Length c.settled - 1 else c.offset := by
  have next : (s.cursor.byteAt? s.place == some '\n'.toUInt8) = (l == ['\n']) := by
    rw [cutting.place, byteAt?_beq cutting.text '\n' (by decide), Cursor.isNewline_of_landmark found]
  have erasing : s.cursor.isErasing = c.isErasing := by rw [cutting.cursor]; rfl
  have mark : s.cursor.mark = utf8Length c.settled := by rw [cutting.cursor]; rfl
  rw [Pass.cutStart, next, erasing, mark, cutting.start]
  by_cases empty : c.settled = []
  · simp [empty, utf8Length]
  · have some : 0 < utf8Length c.settled := utf8Length_pos empty
    have text : s.cursor.text = c.settled ++ (c.gap ++ c.rest) := by
      rw [cutting.cursor, ← List.append_assoc]
      rfl
    rw [byteAt?_pred_beq text empty '\n' (by decide), decide_eq_true some, Bool.and_true]

theorem Cutting.passTo? (cutting : Cutting c w r s) {l rest : List Char}
    (found : Blank.landmark? r = some (l, rest)) :
    ∃ s', s.passTo? (utf8Length (c.before ++ w ++ l)) = some s' ∧
      Passing c.offset (c.cutToLandmark l rest) s' := by
  have split := Blank.landmark?_append found
  have start := cutting.cutStart found
  rw [Cursor.cutToLandmark]
  by_cases back : (c.isErasing && c.settled.getLast? == some '\n' && l == ['\n']) = true
  · rw [if_pos back] at start ⊢
    rw [Bool.and_eq_true, Bool.and_eq_true, beq_iff_eq, beq_iff_eq] at back
    obtain ⟨⟨-, last⟩, rfl⟩ := back
    obtain ⟨front, settled⟩ := List.getLast?_eq_some_iff.mp last
    have size : utf8Length c.settled = utf8Length front + 1 := by
      rw [settled, utf8Length_append]
      rfl
    have before : c.before = front ++ ('\n' :: c.gap) := by
      rw [Cursor.before, settled, List.append_assoc]
      rfl
    have text : s.cursor.text = front ++ (('\n' :: c.gap ++ w) ++ r) := by
      rw [cutting.text, before]
      simp
    have place : s.place = utf8Length (front ++ ('\n' :: c.gap ++ w)) := by
      rw [cutting.place, before, List.append_assoc]
    have whole : c.before ++ w ++ ['\n'] = front ++ (('\n' :: c.gap ++ w) ++ ['\n']) := by
      rw [before]
      simp
    have cut := passTo?_of_erases cutting.erases front ('\n' :: c.gap ++ w) ['\n'] r text
      (by rw [start, size, Nat.add_sub_cancel]) place
    refine ⟨_, whole ▸ cut, ?_, rfl, ?_⟩
    · rw [cutting.cursor]
      simp [Cursor.toOffsets, Cursor.text, Cursor.before, settled, ← split]
    · simp [Cursor.offset, Cursor.before, settled]
  · rw [if_neg back] at start ⊢
    have text : s.cursor.text = c.before ++ (w ++ r) := by rw [cutting.text, List.append_assoc]
    have cut := passTo?_of_erases cutting.erases c.before w l r text start cutting.place
    refine ⟨_, List.append_assoc c.before w l ▸ cut, ?_, rfl, ?_⟩
    · rw [cutting.cursor]
      simp [Cursor.toOffsets, Cursor.text, Cursor.before, Cursor.keep, Cursor.cut, Cursor.offset, ← split]
    · simp [Cursor.offset, Cursor.before, Cursor.keep, Cursor.cut]

/-- The pass takes away what is in front of the first landmark, and goes over those behind it. -/
theorem Cutting.foldlM (cutting : Cutting c w r s) {l rest : List Char}
    (found : Blank.landmark? r = some (l, rest)) {k n : Nat} (last : k + n = 4)
    (later : k ≤ Blank.rank l) :
    ∃ s', (List.range' k n).foldlM Pass.passRanked? s = some s' ∧
      Passing c.offset ((c.cutToLandmark l rest).finishRound (Blank.rank l)) s' := by
  induction n generalizing k with
  | zero =>
    have bound := Cursor.rank_lt l
    omega
  | succ n ih =>
    have known : k ∈ [0, 1, 2, 3] := List.mem_range.mpr (show k < 4 by omega)
    have ends := landmarkEnd?_of_landmark cutting.text found known
    rw [← cutting.place] at ends
    rw [List.range'_succ, List.foldlM_cons, passRanked?, ends]
    by_cases here : Blank.rank l = k
    · obtain ⟨s₁, first, passing⟩ := cutting.passTo? found
      obtain ⟨s₂, others, passing₂⟩ := passing.finishRound (k := k) (n := n) (by omega)
      refine ⟨s₂, ?_, here ▸ passing₂⟩
      simp only [if_pos here, Option.bind_eq_bind, Option.bind_some, first]
      exact others
    · simp only [if_neg here, Option.bind_eq_bind, Option.bind_some]
      exact ih (by omega) (by omega)

/-- Without a landmark the pass stays as it is. -/
theorem Cutting.foldlM_of_none (cutting : Cutting c w r s) (missing : Blank.landmark? r = none)
    (ks : List Nat) : ks.foldlM Pass.passRanked? s = some s := by
  induction ks with
  | nil => rfl
  | cons k ks ih =>
    have ends := landmarkEnd?_of_none cutting.text missing k
    rw [← cutting.place] at ends
    rw [List.foldlM_cons, passRanked?, ends]
    exact ih

theorem Cutting.passInline (cutting : Cutting c w r s) (allowed : Separators) :
    ∃ v, r = v ++ allowed.afterRound r ∧
      Cutting c (w ++ v) (allowed.afterRound r) (s.passInline allowed) := by
  obtain ⟨v, split, passes, inline⟩ := passInline_eq allowed cutting.text cutting.place
  refine ⟨v, split, ?_⟩
  rw [inline]
  refine ⟨cutting.cursor, cutting.erases, cutting.start, ?_, ?_, ?_⟩
  · rw [List.append_assoc]
  · rw [List.append_assoc, ← split, cutting.rest]
  · rw [utf8Length_append, cutting.bytes, Separators.utf8Length_of_passes passes, List.length_append]

theorem Passing.finish? {begun : Nat} {z : Cursor} (passing : Passing begun z s) :
    s.finish? = some z.toOffsets := by
  rw [Pass.finish?, passing.erases, if_neg Bool.false_ne_true, passing.cursor, passing.place]
  rfl

theorem Cutting.finish? (cutting : Cutting c w r s) : s.finish? = some (c.cut r).toOffsets := by
  rw [Pass.finish?, if_pos cutting.erases, cutting.cursor, cutting.start, cutting.place]
  exact cut?_eq cutting.rest

/-- How far a pass has come, told by what is left. -/
theorem Cutting.place_eq (cutting : Cutting c w r s) :
    s.place = c.offset + (c.rest.length - r.length) := by
  have length : c.rest.length = w.length + r.length := by
    rw [cutting.rest, List.length_append]
  rw [cutting.place, utf8Length_append, cutting.bytes, length, Nat.add_sub_cancel]
  rfl

/-- The round that reaches the landmark is the last one that takes anything away. -/
theorem Cutting.round?_of_landmark {allowed : Separators} (cutting : Cutting c w r s)
    {l rest : List Char} (found : Blank.landmark? (allowed.afterRound r) = some (l, rest)) :
    ∃ s', s.round? allowed = some s' ∧ s'.remaining < s.remaining ∧
      Passing c.offset ((c.cutToLandmark l rest).finishRound (Blank.rank l)) s' := by
  obtain ⟨v, split, inline⟩ := cutting.passInline allowed
  obtain ⟨s', round, passing⟩ := inline.foldlM found (k := 0) (n := 4) rfl (Nat.zero_le _)
  refine ⟨s', round, ?_, passing⟩
  have behind := utf8Length_le_of_suffix (Cursor.Traverses.finishRound (Blank.rank l)
    (c.cutToLandmark l rest)).suffix
  have whole := congrArg utf8Length split
  have landmark := congrArg utf8Length (Blank.landmark?_append found)
  have more := utf8Length_pos (Blank.landmark?_ne_nil found)
  rw [Cursor.rest_cutToLandmark] at behind
  rw [utf8Length_append] at whole landmark
  rw [passing.remaining, cutting.remaining]
  omega

theorem Cutting.round?_of_none {allowed : Separators} (cutting : Cutting c w r s)
    (missing : Blank.landmark? (allowed.afterRound r) = none) :
    s.round? allowed = some (s.passInline allowed) := by
  obtain ⟨v, -, inline⟩ := cutting.passInline allowed
  exact inline.foldlM_of_none missing _

/-- A pass that takes away leaves what the cursor leaves. -/
theorem Cutting.loop? (allowed : Separators) (cutting : Cutting c w r s) :
    ∃ s', s.loop? allowed = some s' ∧ s'.finish? = some (c.cutRounds allowed r).toOffsets := by
  fun_induction Cursor.cutRounds allowed c r generalizing w s with
  | case1 r r' l rest found =>
    rename_i reached stays
    obtain ⟨s₁, round, -, passing⟩ := cutting.round?_of_landmark found
    have still : s₁.place = s.place := by
      rw [passing.place, cutting.place_eq]
      exact stays
    exact ⟨s₁, loop?_of_still allowed round still, passing.finish?⟩
  | case2 r r' l rest found =>
    rename_i reached goes
    obtain ⟨s₁, round, less, passing⟩ := cutting.round?_of_landmark found
    obtain ⟨s₂, others, passing₂⟩ := passing.loop? allowed
    have moved : s₁.place ≠ s.place := by
      rw [passing.place, cutting.place_eq]
      exact goes
    refine ⟨s₂, ?_, passing₂.finish?⟩
    rw [loop?_of_moved allowed round moved less, others]
  | case3 r r' missing =>
    rename_i shorter ih
    obtain ⟨v, split, inline⟩ := cutting.passInline allowed
    obtain ⟨s₁, others, left⟩ := ih inline
    have shorter : (allowed.afterRound r).length < r.length := shorter
    have moved : (s.passInline allowed).place ≠ s.place := by
      have length := congrArg List.length cutting.rest
      rw [List.length_append] at length
      rw [inline.place_eq, cutting.place_eq]
      omega
    have less : (s.passInline allowed).remaining < s.remaining := by
      have length := congrArg List.length split
      have whole := congrArg utf8Length split
      rw [List.length_append] at length
      rw [utf8Length_append] at whole
      have more := utf8Length_pos (List.ne_nil_of_length_pos (show 0 < v.length by omega))
      rw [inline.remaining, cutting.remaining]
      omega
    refine ⟨s₁, ?_, left⟩
    rw [loop?_of_moved allowed (cutting.round?_of_none missing) moved less, others]
  | case4 r r' missing =>
    rename_i same
    obtain ⟨v, split, inline⟩ := cutting.passInline allowed
    have unmoved : allowed.afterRound r = r :=
      Separators.afterRound_eq_self (Nat.le_of_not_lt same)
    have still : (s.passInline allowed).place = s.place := by
      rw [inline.place_eq, cutting.place_eq, unmoved]
    exact ⟨s.passInline allowed, loop?_of_still allowed (cutting.round?_of_none missing) still,
      unmoved ▸ inline.finish?⟩

end Cut

end OffsetCursor.Pass

namespace OffsetCursor

variable (c : Cursor)

theorem skipBlanks?_eq (erase : Bool) (allowed : Separators) :
    c.toOffsets.skipBlanks? erase allowed = some (c.skipBlanks erase allowed).toOffsets := by
  cases erase with
  | false =>
    have start : Pass.Passing c.offset c ⟨c.toOffsets, false, c.offset, c.offset⟩ := ⟨rfl, rfl, rfl⟩
    obtain ⟨s, loop, passing⟩ := start.loop? allowed
    have loop : Pass.loop? allowed ⟨c.toOffsets, false, c.toOffsets.place, c.toOffsets.place⟩ = some s :=
      loop
    rw [skipBlanks?, loop]
    exact passing.finish?
  | true =>
    have start : Pass.Cutting c [] c.rest ⟨c.toOffsets, true, c.offset, c.offset⟩ :=
      ⟨rfl, rfl, rfl, by rw [List.append_nil]; rfl, rfl, rfl⟩
    obtain ⟨s, loop, left⟩ := start.loop? allowed
    have loop : Pass.loop? allowed ⟨c.toOffsets, true, c.toOffsets.place, c.toOffsets.place⟩ = some s :=
      loop
    rw [skipBlanks?, loop]
    exact left

end OffsetCursor

end DotText
