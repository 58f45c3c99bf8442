import DotText.Cursor.History

set_option autoImplicit false

/- When a trim takes anything away. It looks at the offset of the last removal, which is that of the
place as long as nothing is kept behind the removal; what is kept later lies beyond that offset,
unless another trim has moved the place back in the meantime. -/
namespace DotText.Cursor

/-- The way from one place to another with nothing taken away, on which some text was settled or
none was. -/
structure Onward (settles : Bool) (c c' : Cursor) : Prop where
  removal : c'.removal = c.removal
  before : c.before <+: c'.before
  stays : settles = false → c'.settled = c.settled
  grows : settles = true → ∃ w, w ≠ [] ∧ c'.settled = c.before ++ w

namespace Onward

variable {a b : Bool} {c c' c'' : Cursor}

theorem refl (c : Cursor) : Onward false c c :=
  ⟨rfl, List.prefix_rfl, fun _ => rfl, fun never => by cases never⟩

theorem trans (first : Onward a c c') (second : Onward b c' c'') : Onward (a || b) c c'' := by
  refine ⟨second.removal.trans first.removal, first.before.trans second.before, ?_, ?_⟩
  · intro none
    obtain ⟨rfl, rfl⟩ := Bool.or_eq_false_iff.mp none
    rw [second.stays rfl, first.stays rfl]
  · intro some
    cases b with
    | true =>
      obtain ⟨w, nonempty, settled⟩ := second.grows rfl
      obtain ⟨v, before⟩ := first.before
      exact ⟨v ++ w, by simp [nonempty], by rw [settled, ← before, List.append_assoc]⟩
    | false =>
      rw [Bool.or_false] at some
      obtain ⟨w, nonempty, settled⟩ := first.grows some
      exact ⟨w, nonempty, by rw [second.stays rfl, settled]⟩

theorem keep (c : Cursor) {kept : List Char} (some : kept ≠ []) (r : List Char) :
    Onward true c (c.keep kept r) := by
  refine ⟨rfl, ?_, fun never => (by cases never), fun _ => ⟨kept, some, rfl⟩⟩
  exact ⟨kept, by simp [Cursor.keep, Cursor.before]⟩

theorem keepToken (c : Cursor) (written r : List Char) :
    Onward (!written.isEmpty) c (c.keepToken written r) := by
  unfold Cursor.keepToken
  cases written with
  | nil => exact refl c
  | cons x written => exact keep c (List.cons_ne_nil x written) r

theorem pass (c : Cursor) (x : Char) (r : List Char) :
    Onward false c { c with gap := c.gap ++ [x], rest := r } := by
  refine ⟨rfl, ?_, fun _ => rfl, fun never => by cases never⟩
  exact ⟨[x], by simp [Cursor.before]⟩

/-- What has been settled on the way. -/
theorem exists_grown (onward : Onward a c c') :
    ∃ grown, c'.settled = c.settled ++ grown ∧ (grown = [] ↔ a = false) := by
  cases a with
  | false => exact ⟨[], by rw [onward.stays rfl, List.append_nil], by simp⟩
  | true =>
    obtain ⟨w, nonempty, settled⟩ := onward.grows rfl
    exact ⟨c.gap ++ w, by rw [settled, Cursor.before, List.append_assoc], by simp [nonempty]⟩

/-- What is settled without a trim in between lies behind the whole gap, so that it cannot be as short
as the gap. -/
theorem settles_nothing (onward : Onward a c c') {grown : List Char}
    (settled : c'.settled = c.settled ++ grown)
    (short : utf8Length grown ≤ utf8Length c.gap) : a = false := by
  rw [← Bool.not_eq_true]
  intro settles
  obtain ⟨w, nonempty, longer⟩ := onward.grows settles
  have size := congrArg utf8Length (settled.symm.trans longer)
  rw [Cursor.before, utf8Length_append, utf8Length_append, utf8Length_append] at size
  have more := utf8Length_pos nonempty
  omega

theorem not_isErasing (onward : Onward a c c') (idle : c.isErasing = false) :
    c'.isErasing = false := by
  obtain ⟨grown, settled, -⟩ := onward.exists_grown
  unfold isErasing at idle ⊢
  rw [onward.removal, settled, utf8Length_append]
  cases removed : c.removal with
  | none => rfl
  | some offset =>
    rw [removed, Option.any_some, decide_eq_false_iff_not] at idle
    rw [Option.any_some, decide_eq_false_iff_not]
    omega

end Onward

/-- A pass settles some text exactly if it comes to a landmark. -/
theorem onward_passBlanks (allowed : Separators) (c : Cursor) :
    Onward (c.meetsLandmark allowed) c (c.passBlanks allowed) := by
  fun_induction passBlanks allowed c with
  | case1 c l r found ih =>
    have meets : c.meetsLandmark allowed = true := by
      rw [meetsLandmark, allowed.dropWhile_of_landmark found, found]
      rfl
    rw [meets]
    exact (Onward.keep c (Blank.landmark?_ne_nil found) r).trans ih
  | case2 c missing nothing =>
    have meets : c.meetsLandmark allowed = false := by
      rw [meetsLandmark, nothing]
      rfl
    rw [meets]
    exact Onward.refl c
  | case3 c missing x r start passes ih =>
    have meets : c.meetsLandmark allowed =
        meetsLandmark allowed { c with gap := c.gap ++ [x], rest := r } := by
      rw [meetsLandmark, start, List.dropWhile_cons_of_pos passes]
      rfl
    rw [meets]
    simpa using (Onward.pass c x r).trans ih
  | case4 c missing x r start stops =>
    have meets : c.meetsLandmark allowed = false := by
      rw [meetsLandmark, start, List.dropWhile_cons_of_neg stops, ← start, missing]
      rfl
    rw [meets]
    exact Onward.refl c

theorem onward_finishRound (rank : Nat) (c : Cursor) :
    ∃ settles, Onward settles c (c.finishRound rank) := by
  fun_induction finishRound rank c with
  | case1 rank c l r found later ih =>
    obtain ⟨settles, onward⟩ := ih
    exact ⟨_, (Onward.keep c (Blank.landmark?_ne_nil found) r).trans onward⟩
  | case2 => exact ⟨_, .refl _⟩
  | case3 => exact ⟨_, .refl _⟩

/-- Something has just been taken away: at the place, or else in front of what has been kept since. -/
def Removed (c : Cursor) : Prop :=
  c.removal = some c.offset ∨ (c.removal ≠ none ∧ c.isErasing = false)

theorem isErasing_iff_of_removed {c : Cursor} (removed : c.Removed) :
    c.isErasing = true ↔ c.removal = some c.offset := by
  constructor
  · intro erasing
    rcases removed with here | ⟨-, idle⟩
    · exact here
    · rw [erasing] at idle
      cases idle
  · intro here
    rw [isErasing, here, Option.any_some, decide_eq_true_eq, offset, before, utf8Length_append]
    omega

theorem Removed.onward {settles : Bool} {c c' : Cursor} (onward : Onward settles c c')
    (some : c.removal ≠ none) (idle : c.isErasing = false) : c'.Removed :=
  .inr ⟨by rwa [onward.removal], onward.not_isErasing idle⟩

/-- With a landmark kept behind it, a removal lies in front of the settled text. -/
theorem cutToLandmark_idle (c : Cursor) {l : List Char} (some : l ≠ []) (r : List Char) :
    (c.cutToLandmark l r).removal ≠ none ∧ (c.cutToLandmark l r).isErasing = false := by
  unfold cutToLandmark
  split
  · next back =>
    refine ⟨by simp, ?_⟩
    have newline : c.settled.getLast? = Option.some '\n' := by simp_all
    obtain ⟨front, split⟩ := List.getLast?_eq_some_iff.mp newline
    have more := utf8Length_pos (List.cons_ne_nil '\n' [])
    simp only [isErasing, split, List.dropLast_concat, utf8Length_append, Option.any_some,
      decide_eq_false_iff_not]
    omega
  · refine ⟨by simp [keep, cut], ?_⟩
    have more := utf8Length_pos some
    simp only [isErasing, keep, cut, offset, before, utf8Length_append, Option.any_some,
      decide_eq_false_iff_not]
    omega

theorem removed_cutRounds (allowed : Separators) (c : Cursor) (r : List Char) :
    (c.cutRounds allowed r).Removed := by
  fun_induction cutRounds allowed c r with
  | case1 r r' l rest found =>
    obtain ⟨some, idle⟩ := c.cutToLandmark_idle (Blank.landmark?_ne_nil found) rest
    obtain ⟨_, onward⟩ := onward_finishRound (Blank.rank l) (c.cutToLandmark l rest)
    exact .onward onward some idle
  | case2 r r' l rest found reached =>
    obtain ⟨some, idle⟩ := c.cutToLandmark_idle (Blank.landmark?_ne_nil found) rest
    obtain ⟨_, onward⟩ := onward_finishRound (Blank.rank l) (c.cutToLandmark l rest)
    exact .onward (onward.trans (onward_passBlanks allowed reached)) some idle
  | case3 => assumption
  | case4 => exact .inl rfl

theorem removed_step {c : Cursor} {s : Step} (removes : s.removes c = true) :
    (c.step s).1.Removed := by
  cases s with
  | skip token erase allowed isOptional =>
    cases erase with
    | false => cases removes
    | true =>
      rw [Step.removes, Bool.or_assoc, Bool.or_eq_true] at removes
      rw [step, skip]
      dsimp only
      split
      · exact removed_cutRounds _ _ _
      · next missing =>
        by_cases optional : isOptional = true
        · rw [if_pos optional]
          exact removed_cutRounds _ _ _
        · rw [if_neg optional]
          cases any : allowed.any with
          | true =>
            rw [approach, any]
            exact removed_cutRounds _ _ _
          | false =>
            rw [approach, any] at missing
            have missing : token.split? (c.passBlanks allowed).rest = none := missing
            simp [any, optional, missing] at removes
  | skipBlanks erase allowed =>
    obtain rfl : erase = true := removes
    exact removed_cutRounds _ _ _
  | _ => cases removes

theorem trim_eq_self {c : Cursor} (quiet : Step.trim.trims c = false) : c.trim = c := by
  unfold trim
  split
  · next erasing =>
    have empty : c.gap = [] := by simpa [Step.trims, erasing] using quiet
    cases c
    cases empty
    rfl
  · rfl

/-- An operation that takes nothing away goes on from the place. -/
theorem onward_step {c : Cursor} {s : Step} (stays : s.removes c = false)
    (steady : s.isInsert = false) (quiet : s.trims c = false) :
    Onward (s.keeps c) c (c.step s).1 := by
  cases s with
  | skip token erase allowed isOptional =>
    have passed := onward_passBlanks allowed c
    cases erase with
    | false =>
      have same : c.approach false allowed = c.passBlanks allowed := rfl
      rw [step, skip, Step.keeps, same]
      dsimp only
      cases token.split? (c.passBlanks allowed).rest with
      | none => cases isOptional <;> simpa using passed
      | some found =>
        obtain ⟨written, r⟩ := found
        simpa using passed.trans (Onward.keepToken _ written r)
    | true =>
      simp only [Step.removes, Bool.or_eq_false_iff, Option.isSome_eq_false_iff,
        Option.isNone_iff_eq_none] at stays
      obtain ⟨⟨any, rfl⟩, missing⟩ := stays
      have same : c.approach true allowed = c.passBlanks allowed := by
        rw [approach, any]
        rfl
      rw [step, skip, Step.keeps, same]
      simpa [missing] using passed
  | seek token => exact onward_passBlanks .none c
  | skipBlanks erase allowed =>
    obtain rfl : erase = false := stays
    exact onward_passBlanks allowed c
  | trim =>
    rw [step, trim_eq_self quiet]
    exact Onward.refl c
  | insert s => cases steady
  | _ => exact ⟨rfl, List.prefix_rfl, fun _ => rfl, fun never => by cases never⟩

/-- Such an operation only adds to the settled text, also if it is a trim that gives a gap up. -/
theorem exists_grown_step {c : Cursor} {s : Step} (stays : s.removes c = false)
    (steady : s.isInsert = false) :
    (c.step s).1.removal = c.removal ∧
      ∃ grown, (c.step s).1.settled = c.settled ++ grown ∧ (grown = [] ↔ s.keeps c = false) := by
  cases quiet : s.trims c with
  | false =>
    have onward := onward_step stays steady quiet
    exact ⟨onward.removal, onward.exists_grown⟩
  | true =>
    cases s with
    | trim =>
      have erasing : c.isErasing = true := by
        rw [Step.trims, Bool.and_eq_true] at quiet
        exact quiet.1
      rw [step, trim, if_pos erasing]
      exact ⟨rfl, [], by simp, by simp [Step.keeps]⟩
    | _ => cases quiet

section Runs

variable {c : Cursor} {steps : List Step}

theorem exists_grown_run (stays : someAlong Step.removes c steps = false)
    (steady : steps.all (!·.isInsert) = true) :
    (c.run steps).removal = c.removal ∧
      ∃ grown, (c.run steps).settled = c.settled ++ grown ∧
        (grown = [] ↔ someAlong Step.keeps c steps = false) := by
  induction steps generalizing c with
  | nil => exact ⟨rfl, [], by simp, by simp [someAlong]⟩
  | cons s steps ih =>
    rw [someAlong, Bool.or_eq_false_iff] at stays
    rw [List.all_cons, Bool.and_eq_true, Bool.not_eq_true'] at steady
    obtain ⟨removal, first, settled, here⟩ := exists_grown_step stays.1 steady.1
    obtain ⟨removal', second, settled', later⟩ := ih stays.2 steady.2
    refine ⟨removal'.trans removal, first ++ second, ?_, ?_⟩
    · rw [run_cons, settled', settled, List.append_assoc]
    · rw [List.append_eq_nil_iff, here, later, someAlong, Bool.or_eq_false_iff]

theorem onward_run (stays : someAlong Step.removes c steps = false)
    (steady : steps.all (!·.isInsert) = true) (quiet : someAlong Step.trims c steps = false) :
    Onward (someAlong Step.keeps c steps) c (c.run steps) := by
  induction steps generalizing c with
  | nil => exact Onward.refl c
  | cons s steps ih =>
    rw [someAlong, Bool.or_eq_false_iff] at stays quiet
    rw [List.all_cons, Bool.and_eq_true, Bool.not_eq_true'] at steady
    exact (onward_step stays.1 steady.1 quiet.1).trans (ih stays.2 steady.2 quiet.2)

end Runs

theorem trim_text_ne_iff (c : Cursor) :
    c.trim.text ≠ c.text ↔ c.isErasing = true ∧ c.gap ≠ [] := by
  unfold trim
  split
  · next erasing => simp [erasing, text, before]
  · next idle => simp [idle]

/-- Behind a removal, and with none after it, what decides is how much has been settled since. -/
theorem isErasing_run_iff {c c' : Cursor} (removed : c.Removed) (removal : c'.removal = c.removal)
    {grown : List Char} (settled : c'.settled = c.settled ++ grown) :
    c'.isErasing = true ↔
      c.removal = some c.offset ∧ utf8Length grown ≤ utf8Length c.gap := by
  have same : c'.isErasing = c.removal.any (utf8Length (c.settled ++ grown) ≤ ·) := by
    rw [isErasing, removal, settled]
  rw [same, utf8Length_append]
  constructor
  · intro erasing
    have before : c.isErasing = true := by
      rw [isErasing]
      cases kept : c.removal with
      | none => simp [kept] at erasing
      | some offset =>
        rw [kept, Option.any_some, decide_eq_true_eq] at erasing
        rw [Option.any_some, decide_eq_true_eq]
        omega
    have here := (isErasing_iff_of_removed removed).mp before
    rw [here, Option.any_some, decide_eq_true_eq, offset, Cursor.before, utf8Length_append] at erasing
    exact ⟨here, by omega⟩
  · rintro ⟨here, short⟩
    rw [here, Option.any_some, decide_eq_true_eq, offset, Cursor.before, utf8Length_append]
    omega

/-- What a trim takes away behind any sequence of operations that inserts nothing. Before anything
has been removed that is nothing. Behind the last removal it is the gap, if that is not empty and if
what has been settled since is no longer than the gap that was in front of the removal. Unless an
earlier trim has already given up that gap, this means that nothing has been settled: no operation
since the last one that was to erase has kept a token, a line end or a comment. -/
theorem trim_of_history {cs : List Char} {steps : List Step}
    (steady : steps.all (!·.isInsert) = true) :
    let c := (ofText cs).run steps
    (someAlong Step.removes (ofText cs) steps = false → c.trim.text = c.text) ∧
    (someAlong Step.removes (ofText cs) steps = true →
      ∃ c' since, Last Step.removes (ofText cs) steps c' since) ∧
    ∀ c' since, Last Step.removes (ofText cs) steps c' since →
      ∃ grown, c.settled = c'.settled ++ grown ∧
        (grown = [] ↔ someAlong Step.keeps c' since = false) ∧
        (c.trim.text ≠ c.text ↔
          c.gap ≠ [] ∧ c'.removal = some c'.offset ∧ utf8Length grown ≤ utf8Length c'.gap) ∧
        (someAlong Step.trims c' since = false → c.trim.text ≠ c.text →
          ∀ c'' since', Last (fun s _ => s.isErasing) (ofText cs) steps c'' since' →
            someAlong Step.keeps c'' since' = false) := by
  intro c
  refine ⟨fun never => ?_, fun some => ?_, fun c' since last => ?_⟩
  · have removal : c.removal = none := (exists_grown_run never steady).1
    have idle : c.isErasing = false := by
      rw [isErasing, removal]
      rfl
    rw [trim, if_neg (by simp [idle])]
  · exact (exists_last Step.removes (ofText cs) steps).resolve_left (by simp [some])
  · have reached : c = c'.run since := last.run_eq
    obtain ⟨front, s, split, removes, left⟩ := last.split
    have removed : c'.Removed := left ▸ removed_step removes
    have steady' : since.all (!·.isInsert) = true := by
      rw [split, List.all_append, List.all_cons] at steady
      simp_all
    obtain ⟨removal, grown, settled, none⟩ := exists_grown_run last.never steady'
    rw [← reached] at removal settled
    refine ⟨grown, settled, none, ?_, fun quiet changes c'' since' last' => ?_⟩
    · rw [trim_text_ne_iff, isErasing_run_iff removed removal settled, and_comm]
    · have onward := onward_run last.never steady' quiet
      rw [← reached] at onward
      obtain ⟨-, here, short⟩ : _ ∧ c'.removal = some c'.offset ∧
          utf8Length grown ≤ utf8Length c'.gap := by
        rwa [trim_text_ne_iff, isErasing_run_iff removed removal settled, and_comm] at changes
      have quietly : someAlong Step.keeps c' since = false :=
        onward.settles_nothing settled short
      obtain ⟨between, split', place⟩ :=
        last.later (fun s c => Step.isErasing_of_removes) last'
      rw [split', someAlong_append, Bool.or_eq_false_iff, ← place] at quietly
      exact quietly.2

/-- Behind a word that went, the blank in front of it goes too. -/
theorem trim_behind_erased_word :
    ∃ (cs : List Char) (steps : List Step) (c' : Cursor) (since : List Step),
      cs = "a x b".toList ∧
      steps = [.skip (.ident ['a']) false .none false, .skip (.ident ['x']) true .none false,
        .countErased, .skipBlanks false .none] ∧
      steps.all (!·.isInsert) = true ∧ Last Step.removes (ofText cs) steps c' since ∧
      someAlong Step.trims c' since = false ∧
      ((ofText cs).run steps).text = "a b".toList ∧
      ((ofText cs).run steps).trim.text = "ab".toList ∧
      c'.removal = some c'.offset ∧ someAlong Step.keeps c' since = false := by
  let cs := "a x b".toList
  let a : Step := .skip (.ident ['a']) false .none false
  let x : Step := .skip (.ident ['x']) true .none false
  let since : List Step := [.countErased, .skipBlanks false .none]
  let c' := (((ofText cs).run [a]).step x).1
  have steady : (a :: x :: since).all (!·.isInsert) = true := by decide
  have last : Last Step.removes (ofText cs) (a :: x :: since) c' since :=
    ⟨⟨[a], x, rfl, by decide +kernel, rfl⟩, by decide +kernel⟩
  have asked : Last (fun s _ => s.isErasing) (ofText cs) (a :: x :: since) c' since :=
    ⟨⟨[a], x, rfl, rfl, rfl⟩, rfl⟩
  have before : ((ofText cs).run (a :: x :: since)).text = "a b".toList := by decide +kernel
  have behind : ((ofText cs).run (a :: x :: since)).trim.text = "ab".toList := by decide +kernel
  have quiet : someAlong Step.trims c' since = false := by decide +kernel
  have changes : ((ofText cs).run (a :: x :: since)).trim.text ≠
      ((ofText cs).run (a :: x :: since)).text := by
    rw [before, behind]
    decide
  obtain ⟨grown, -, -, decides, nothing⟩ := (@trim_of_history cs _ steady).2.2 c' since last
  exact ⟨cs, _, c', since, rfl, rfl, steady, last, quiet, before, behind,
    (decides.mp changes).2.1, nothing quiet changes c' since asked⟩

/-- A trim moves the place back in front of the offset of the removal, and the word that is kept next
does not reach beyond that: the blank behind it goes as if it stood in front of what was removed. -/
theorem trim_behind_kept_word :
    ∃ (cs : List Char) (steps : List Step) (c' : Cursor) (since : List Step),
      cs = "a x b c".toList ∧
      steps = [.skip (.ident ['a']) false .none false, .skip (.ident ['x']) true .none false, .trim,
        .skip (.ident ['b']) false .none false, .skipBlanks false .none] ∧
      steps.all (!·.isInsert) = true ∧
      Last (fun s _ => s.isErasing) (ofText cs) steps c' since ∧
      someAlong Step.keeps c' since = true ∧
      ((ofText cs).run steps).text = "ab c".toList ∧
      ((ofText cs).run steps).trim.text = "abc".toList := by
  refine ⟨_, _, _, _, rfl, rfl, rfl,
    ⟨⟨[.skip (.ident ['a']) false .none false], _, rfl, rfl, rfl⟩, rfl⟩, ?_, ?_, ?_⟩
  all_goals decide +kernel

end DotText.Cursor
