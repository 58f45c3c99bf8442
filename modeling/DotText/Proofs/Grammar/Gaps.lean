import DotText.Proofs.Grammar

set_option autoImplicit false

/- The gaps of the grammar are what is passed over: a gap is passed whole whatever stands behind it,
and what is passed in front of something is a gap. -/
namespace DotText.Blank

theorem splitLine_of_not_mem {body : List Char} (oneLine : '\n' ∉ body) (r : List Char) :
    splitLine (body ++ '\n' :: r) = (body ++ ['\n'], r) := by
  induction body with
  | nil => rfl
  | cons c body ih =>
    rw [List.mem_cons, not_or] at oneLine
    have other : c ≠ '\n' := Ne.symm oneLine.1
    simp [splitLine, other, ih oneLine.2]

theorem splitLine_open {body : List Char} (oneLine : '\n' ∉ body) : splitLine body = (body, []) := by
  induction body with
  | nil => rfl
  | cons c body ih =>
    rw [List.mem_cons, not_or] at oneLine
    have other : c ≠ '\n' := Ne.symm oneLine.1
    simp [splitLine, other, ih oneLine.2]

/-- A line is closed by its line end or runs to the end of the text. -/
theorem splitLine_cases (cs : List Char) :
    (∃ body r, '\n' ∉ body ∧ cs = body ++ '\n' :: r) ∨ '\n' ∉ cs := by
  induction cs with
  | nil => exact .inr (by simp)
  | cons c cs ih =>
    by_cases ends : c = '\n'
    · exact .inl ⟨[], cs, by simp, by rw [ends]; rfl⟩
    · rcases ih with ⟨body, r, oneLine, rfl⟩ | oneLine
      · exact .inl ⟨c :: body, r, by simp [Ne.symm ends, oneLine], rfl⟩
      · exact .inr (by simp [Ne.symm ends, oneLine])

/-- No `*/` begins at the first character of a comment or later. -/
theorem not_close_of_unclosed {c : Char} {body : List Char}
    (unclosed : ¬ ['*', '/'] <:+: c :: body) :
    (∀ t, c = '*' → body ≠ '/' :: t) ∧ ¬ ['*', '/'] <:+: body := by
  rw [List.infix_cons_iff, not_or] at unclosed
  refine ⟨?_, unclosed.2⟩
  rintro t rfl rfl
  exact unclosed.1 ⟨t, rfl⟩

theorem splitBlock_of_unclosed {body : List Char} (unclosed : ¬ ['*', '/'] <:+: body)
    (r : List Char) : splitBlock (body ++ '*' :: '/' :: r) = (body ++ ['*', '/'], r) := by
  induction body with
  | nil => rfl
  | cons c body ih =>
    obtain ⟨first, later⟩ := not_close_of_unclosed unclosed
    rw [List.cons_append, splitBlock, ih later]
    · rfl
    · rintro t rfl behind
      cases body with
      | nil => cases behind
      | cons x body =>
        rw [List.cons_append, List.cons.injEq] at behind
        exact first body rfl (by rw [behind.1])

theorem splitBlock_open {body : List Char} (unclosed : ¬ ['*', '/'] <:+: body) :
    splitBlock body = (body, []) := by
  induction body with
  | nil => rfl
  | cons c body ih =>
    obtain ⟨first, later⟩ := not_close_of_unclosed unclosed
    rw [splitBlock, ih later]
    exact first

/-- A block comment is closed by the first `*/` or runs to the end of the text. -/
theorem splitBlock_cases (cs : List Char) :
    (∃ body r, ¬ ['*', '/'] <:+: body ∧ cs = body ++ '*' :: '/' :: r) ∨ ¬ ['*', '/'] <:+: cs := by
  induction cs with
  | nil => exact .inr (by simp)
  | cons c cs ih =>
    by_cases ends : ∃ t, c = '*' ∧ cs = '/' :: t
    · obtain ⟨t, rfl, rfl⟩ := ends
      exact .inl ⟨[], t, by simp, rfl⟩
    have first : ¬ ['*', '/'] <+: c :: cs := by
      rintro ⟨t, split⟩
      rw [List.cons_append, List.cons.injEq] at split
      exact ends ⟨t, split.1.symm, split.2.symm⟩
    rcases ih with ⟨body, r, unclosed, rfl⟩ | unclosed
    · refine .inl ⟨c :: body, r, ?_, rfl⟩
      rw [List.infix_cons_iff, not_or]
      refine ⟨fun start => first (start.trans ?_), unclosed⟩
      exact ⟨'*' :: '/' :: r, rfl⟩
    · refine .inr ?_
      rw [List.infix_cons_iff, not_or]
      exact ⟨first, unclosed⟩

theorem landmark?_line {opener : List Char} (listed : opener ∈ [['/', '/'], ['#']])
    (cs : List Char) :
    landmark? (opener ++ cs) = some (opener ++ (splitLine cs).1, (splitLine cs).2) := by
  rw [List.mem_cons, List.mem_singleton] at listed
  rcases listed with rfl | rfl <;> rfl

theorem Gap.append {gap others : List Char} (gapped : Gap gap) (more : Gap others) :
    Gap (gap ++ others) := by
  induction gapped with
  | nil => exact more
  | blank listed _ ih => exact .blank listed ih
  | line listed oneLine _ ih => simpa using Gap.line listed oneLine ih
  | block unclosed _ ih => simpa using Gap.block unclosed ih

/-- A comment that is left open at the end of a text can be closed. -/
theorem Ending.exists_gap {cs : List Char} (ending : Ending cs) : ∃ closer, Gap (cs ++ closer) := by
  cases ending with
  | closed gapped => exact ⟨[], by rwa [List.append_nil]⟩
  | line gapped listed oneLine =>
    exact ⟨['\n'], by simpa using gapped.append (.line listed oneLine .nil)⟩
  | block gapped unclosed =>
    exact ⟨['*', '/'], by simpa using gapped.append (.block unclosed .nil)⟩

/-- A gap is passed whatever stands behind it. -/
theorem Gap.skip_append {gap : List Char} (gapped : Gap gap) (r : List Char) :
    skip (gap ++ r) = skip r := by
  induction gapped with
  | nil => rfl
  | @blank c gap listed _ ih =>
    rw [List.cons_append, ← ih]
    simp only [List.mem_cons, List.not_mem_nil, or_false] at listed
    rcases listed with rfl | rfl | rfl | rfl
    · exact skip_of_isInline rfl _
    · exact skip_of_isInline rfl _
    · exact skip_of_isInline rfl _
    · exact skip_of_landmark rfl
  | @line opener body gap listed oneLine _ ih =>
    have found := landmark?_line listed (body ++ '\n' :: (gap ++ r))
    rw [splitLine_of_not_mem oneLine] at found
    rw [← ih, List.append_assoc, List.append_assoc, List.cons_append]
    exact skip_of_landmark found
  | @block body gap unclosed _ ih =>
    have found : landmark? ('/' :: '*' :: (body ++ '*' :: '/' :: (gap ++ r))) = some _ := rfl
    rw [splitBlock_of_unclosed unclosed] at found
    rw [← ih, List.cons_append, List.cons_append, List.append_assoc, List.cons_append,
      List.cons_append]
    exact skip_of_landmark found

/-- Nothing is left behind an ending. -/
theorem Ending.skip_eq_nil {cs : List Char} (ending : Ending cs) : skip cs = [] := by
  have nothing : skip [] = [] := by simp [skip, landmark?]
  cases ending with
  | closed gapped => rw [← List.append_nil cs, gapped.skip_append, nothing]
  | @line opener body gap gapped listed oneLine =>
    have found := landmark?_line listed body
    rw [splitLine_open oneLine] at found
    rw [gapped.skip_append, skip_of_landmark found, nothing]
  | @block body gap gapped unclosed =>
    have found : landmark? ('/' :: '*' :: body) = some _ := rfl
    rw [splitBlock_open unclosed] at found
    rw [gapped.skip_append, skip_of_landmark found, nothing]

/-- What may stand in front of a gap and of an ending. -/
def Leads (l : List Char) : Prop :=
  (∀ gap, Gap gap → Gap (l ++ gap)) ∧ ∀ cs, Ending cs → Ending (l ++ cs)

theorem leads_of_gap {l : List Char} (extends_ : ∀ gap, Gap gap → Gap (l ++ gap)) : Leads l := by
  refine ⟨extends_, fun cs ending => ?_⟩
  cases ending with
  | closed gapped => exact .closed (extends_ _ gapped)
  | line gapped listed oneLine =>
    rw [← List.append_assoc]
    exact .line (extends_ _ gapped) listed oneLine
  | block gapped unclosed =>
    rw [← List.append_assoc]
    exact .block (extends_ _ gapped) unclosed

theorem leads_blank {c : Char} (listed : c ∈ [' ', '\t', '\r', '\n']) : Leads [c] :=
  leads_of_gap fun _ gapped => .blank listed gapped

theorem leads_line (opener : List Char) {cs : List Char} (listed : opener ∈ [['/', '/'], ['#']]) :
    Leads (opener ++ (splitLine cs).1) ∨
      (splitLine cs).2 = [] ∧ Ending (opener ++ (splitLine cs).1) := by
  rcases splitLine_cases cs with ⟨body, r, oneLine, rfl⟩ | oneLine
  · rw [splitLine_of_not_mem oneLine]
    refine .inl (leads_of_gap fun gap gapped => ?_)
    simpa using Gap.line listed oneLine gapped
  · rw [splitLine_open oneLine]
    exact .inr ⟨rfl, .line .nil listed oneLine⟩

/-- A landmark may stand in front of a gap, or it is an open comment at the end of the text. -/
theorem leads_of_landmark {cs l r : List Char} (found : landmark? cs = some (l, r)) :
    Leads l ∨ r = [] ∧ Ending l := by
  unfold landmark? at found
  split at found
  · cases found
    exact .inl (leads_blank (by simp))
  · cases found
    exact leads_line ['#'] (by simp)
  · cases found
    exact leads_line ['/', '/'] (by simp)
  · next t =>
    cases found
    rcases splitBlock_cases t with ⟨body, r, unclosed, rfl⟩ | unclosed
    · rw [splitBlock_of_unclosed unclosed]
      refine .inl (leads_of_gap fun gap gapped => ?_)
      simpa using Gap.block unclosed gapped
    · rw [splitBlock_open unclosed]
      exact .inr ⟨rfl, .block .nil unclosed⟩
  · cases found

theorem listed_of_isInline {c : Char} (inline : isInline c = true) :
    c ∈ [' ', '\t', '\r', '\n'] := by
  simp only [isInline, Bool.or_eq_true, beq_iff_eq] at inline
  rcases inline with (rfl | rfl) | rfl <;> simp

/-- What is passed is a gap in front of something, and an ending in front of nothing. -/
theorem gap_of_skip (cs : List Char) :
    (skip cs ≠ [] → ∃ gap, Gap gap ∧ cs = gap ++ skip cs) ∧ (skip cs = [] → Ending cs) := by
  fun_induction skip cs with
  | case1 cs l r found ih =>
    rw [← landmark?_append found]
    rcases leads_of_landmark found with leads | ⟨rfl, ending⟩
    · refine ⟨fun more => ?_, fun none => leads.2 _ (ih.2 none)⟩
      obtain ⟨gap, gapped, split⟩ := ih.1 more
      exact ⟨l ++ gap, leads.1 gap gapped, by rw [List.append_assoc, ← split]⟩
    · refine ⟨fun more => absurd (by simp [skip, landmark?]) more, fun _ => ?_⟩
      rwa [List.append_nil]
  | case2 => exact ⟨fun more => absurd rfl more, fun _ => .closed .nil⟩
  | case3 c r missing inline ih =>
    have leads := leads_blank (listed_of_isInline inline)
    refine ⟨fun more => ?_, fun none => leads.2 _ (ih.2 none)⟩
    obtain ⟨gap, gapped, split⟩ := ih.1 more
    exact ⟨c :: gap, leads.1 gap gapped, by rw [List.cons_append, ← split]⟩
  | case4 c r missing solid => exact ⟨fun _ => ⟨[], .nil, rfl⟩, by simp⟩

end DotText.Blank
