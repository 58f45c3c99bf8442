import DotText.Proofs.Grammar.Gaps
import DotText.Proofs.Quoting
import DotText.Proofs.Tokens

set_option autoImplicit false

/- The pieces of the grammar are the pieces that a text is cut into: what is longest among the words
or the numerals is what is taken, and a text is made of some pieces exactly if these are all of its
pieces and none is a stray character. -/
namespace DotText

/-- The longest start of a kind ends where nothing goes on with it, if each longer one of the kind
goes on with a character that does. -/
theorem longest_iff {kind : List Char → Prop} (goesOn : List Char → Char → Bool)
    (longer : ∀ w c, kind w → goesOn w c = true → kind (w ++ [c]))
    (between : ∀ w c t, kind w → kind (w ++ c :: t) → goesOn w c = true) (w r : List Char) :
    Longest kind w r ↔ kind w ∧ r.head?.any (goesOn w) = false := by
  constructor
  · rintro ⟨ofKind, longest⟩
    refine ⟨ofKind, ?_⟩
    cases r with
    | nil => rfl
    | cons c r =>
      rw [List.head?_cons, Option.any_some, ← Bool.not_eq_true]
      intro goes
      have more := longest (w ++ [c]) (longer w c ofKind goes) ⟨r, by simp⟩
      rw [List.length_append, List.length_singleton] at more
      omega
  · -- A longer start of the kind would go on with the very character that does not go on.
    rintro ⟨ofKind, ends⟩
    refine ⟨ofKind, fun v other within => Nat.le_of_not_lt fun more => ?_⟩
    obtain ⟨u, rfl⟩ := List.prefix_of_prefix_length_le (List.prefix_append w r) within
      (Nat.le_of_lt more)
    rw [List.prefix_append_right_inj] at within
    cases u with
    | nil => simp at more
    | cons c u =>
      obtain ⟨t, rfl⟩ := within
      have goes := between w c u ofKind other
      simp [goes] at ends

namespace Ident

theorem longest_isWord_iff (w r : List Char) :
    Longest IsWord w r ↔ IsWord w ∧ r.head?.any isRest = false := by
  refine longest_iff (fun _ => isRest) ?_ ?_ w r
  · rintro _ c ⟨x, t, rfl, start, inside⟩ goes
    exact ⟨x, t ++ [c], rfl, start, by simpa [goes] using inside⟩
  · rintro _ c t ⟨x, s, rfl, -, -⟩ ⟨y, u, same, -, inside⟩
    rw [List.cons_append, List.cons.injEq] at same
    rw [← same.2] at inside
    simp only [List.all_append, List.all_cons, Bool.and_eq_true] at inside
    exact inside.2.1

theorem not_point_of_digits {ds : List Char} (digits : ds.all Char.isDigit = true) : '.' ∉ ds :=
  fun mem => absurd (List.all_eq_true.mp digits '.' mem) (by decide)

/-- Digits and at most one point. -/
theorem Unsigned.mem {n : List Char} (unsigned : Unsigned n) :
    (∀ c ∈ n, c.isDigit = true ∨ c = '.') ∧ n.count '.' ≤ 1 := by
  cases unsigned with
  | whole digits =>
    refine ⟨fun c mem => .inl (List.all_eq_true.mp digits c mem), ?_⟩
    rw [List.count_eq_zero_of_not_mem (not_point_of_digits digits)]
    decide
  | @point ds es digits digits' =>
    constructor
    · simp only [List.mem_append, List.mem_cons]
      rintro c (mem | rfl | mem)
      · exact .inl (List.all_eq_true.mp digits c mem)
      · exact .inr rfl
      · exact .inl (List.all_eq_true.mp digits' c mem)
    · have before := List.count_eq_zero_of_not_mem (not_point_of_digits digits)
      have behind := List.count_eq_zero_of_not_mem (not_point_of_digits digits')
      rw [List.count_append, List.count_cons_self]
      omega

theorem Unsigned.append {n : List Char} (unsigned : Unsigned n) {c : Char}
    (goes : extendsNumeral n c = true) : Unsigned (n ++ [c]) := by
  cases unsigned with
  | whole digits some =>
    rw [extendsNumeral_whole digits, Bool.or_eq_true, beq_iff_eq] at goes
    rcases goes with digit | rfl
    · exact .whole (by simp [digits, digit]) (by simp)
    · exact .point digits rfl (by simp [some])
  | @point ds es digits digits' some =>
    rw [extendsNumeral_point] at goes
    rw [List.append_assoc, List.cons_append]
    exact .point digits (by simp [digits', goes]) (by simp)

theorem Unsigned.extendsNumeral {n t : List Char} {c : Char} (longer : Unsigned (n ++ c :: t)) :
    extendsNumeral n c = true := by
  obtain ⟨chars, points⟩ := longer.mem
  rw [Ident.extendsNumeral, Bool.or_eq_true]
  refine (chars c (by simp)).imp_right ?_
  rintro rfl
  rw [List.count_append, List.count_cons_self] at points
  have none : '.' ∉ n := List.count_eq_zero.mp (by omega)
  simp [none]

theorem longest_isNumeral_iff (n r : List Char) :
    Longest IsNumeral n r ↔ IsNumeral n ∧ r.head?.any (extendsNumeral n) = false := by
  refine longest_iff extendsNumeral ?_ ?_ n r
  · rintro n c (unsigned | ⟨m, rfl, unsigned⟩) goes
    · exact .inl (unsigned.append goes)
    · rw [extendsNumeral_sign] at goes
      exact .inr ⟨m ++ [c], rfl, unsigned.append goes⟩
  · rintro n c t (unsigned | ⟨m, rfl, unsigned⟩) (longer | ⟨k, same, longer⟩)
    · exact longer.extendsNumeral
    · exact absurd same unsigned.not_sign
    · exact absurd (List.append_nil _) longer.not_sign
    · rw [List.cons_append, List.cons.injEq] at same
      rw [extendsNumeral_sign]
      rw [← same.2] at longer
      exact longer.extendsNumeral

theorem IsWord.isRest {w : List Char} (word : IsWord w) : ∀ c ∈ w, isRest c = true := by
  obtain ⟨c, t, rfl, start, inside⟩ := word
  intro x mem
  rcases List.mem_cons.mp mem with rfl | mem
  · simp [Ident.isRest, start]
  · exact List.all_eq_true.mp inside x mem

theorem IsNumeral.mem {n : List Char} (numeral : IsNumeral n) :
    ∀ c ∈ n, c.isDigit = true ∨ c = '.' ∨ c = '-' := by
  intro c mem
  rcases numeral with unsigned | ⟨m, rfl, unsigned⟩
  · exact (unsigned.mem.1 c mem).imp_right .inl
  · rcases List.mem_cons.mp mem with rfl | mem
    · exact .inr (.inr rfl)
    · exact (unsigned.mem.1 c mem).imp_right .inl

/-- The longest numeral is the one that is read. -/
theorem readNumeral_iff (n r : List Char) :
    readNumeral (n ++ r) = .ok (n, r) ↔ Longest IsNumeral n r := by
  rw [longest_isNumeral_iff]
  constructor
  · intro read
    refine ⟨?_, ends_of_readNumeral read⟩
    rcases readNumeral_eq_ok.mp read with ⟨t, m, -, rfl, split⟩ | split
    · exact .inr ⟨m, rfl, (unsigned_of_split split).1⟩
    · exact .inl (unsigned_of_split split).1
  · rw [readNumeral_eq_ok]
    rintro ⟨unsigned | ⟨m, rfl, unsigned⟩, ends⟩
    · exact .inr (split_of_unsigned unsigned ends)
    · rw [extendsNumeral_sign] at ends
      exact .inl ⟨m ++ r, m, rfl, rfl, split_of_unsigned unsigned ends⟩

theorem splitQuoted?_of_unescapes {body s : List Char} (unescapes : Unescapes body s)
    (r : List Char) : splitQuoted? (body ++ '"' :: r) = some (s, r) := by
  induction unescapes with
  | nil => rfl
  | quote _ ih => simp [splitQuoted?, ih]
  | pair _ _ ih => simp [splitQuoted?, ih]
  | plain _ plain _ ih => simp [splitQuoted?, plain, ih]

theorem unescapes_of_splitQuoted? {cs s r : List Char} (found : splitQuoted? cs = some (s, r)) :
    Unescapes (escape s) s := by
  fun_induction splitQuoted? cs generalizing s with
  | case1 => cases found
  | case2 =>
    obtain ⟨rfl, -⟩ := Prod.mk.inj (Option.some.inj found)
    exact .nil
  | case3 cs ih =>
    obtain ⟨⟨t, q⟩, inner, same⟩ := Option.map_eq_some_iff.mp found
    cases same
    exact .quote (ih inner)
  | case4 c cs notQuote ih =>
    obtain ⟨⟨t, q⟩, inner, same⟩ := Option.map_eq_some_iff.mp found
    cases same
    have other : c ≠ '"' := notQuote
    simpa [escape, other] using Unescapes.pair other (ih inner)
  | case5 c cs notQuote notEscapedQuote notEscape ih =>
    obtain ⟨⟨t, q⟩, inner, same⟩ := Option.map_eq_some_iff.mp found
    cases same
    have other : c ≠ '"' := notQuote
    have plain := ne_backslash_of_splitQuoted? inner notEscape
    simpa [escape, other] using Unescapes.plain other plain (ih inner)

end Ident

namespace Lexeme

theorem opens_of_writtenAs {p : Lexeme} {w r : List Char} (written : p.WrittenAs w r) :
    (∀ x, p ≠ .stray x) ∧ ∃ c t, w ++ r = c :: t ∧ p.Opens c t r := by
  cases written with
  | word longest =>
    obtain ⟨⟨c, t, rfl, start, inside⟩, ends⟩ := (Ident.longest_isWord_iff _ _).mp longest
    have boundary := takeWhile_of_boundary inside ends
    exact ⟨by simp, c, t ++ r, rfl, start, by rw [boundary.1], boundary.2.symm⟩
  | numeral longest =>
    have read := (Ident.readNumeral_iff _ _).mpr longest
    cases w with
    | nil => exact absurd rfl (Ident.readNumeral_ne_nil read)
    | cons c t =>
      refine ⟨by simp, c, t ++ r, rfl, ?_, read⟩
      rcases longest.1 with unsigned | ⟨m, same, -⟩
      · rcases unsigned.mem.1 c (by simp) with digit | rfl
        · simp [Ident.startsNumeral, digit]
        · rfl
      · cases same
        rfl
  | @quoted body s _ unescapes =>
    refine ⟨by simp, '"', body ++ '"' :: r, by simp, rfl, ?_⟩
    exact Ident.splitQuoted?_of_unescapes unescapes r
  | @html s _ balanced =>
    refine ⟨by simp, '<', s ++ '>' :: r, by simp, rfl, ?_⟩
    exact Html.splitClosed?_of_isBalanced ((Html.isBalanced_iff s).mpr balanced) r
  | op kind =>
    refine ⟨by simp, ?_⟩
    cases kind with
    | graph => exact ⟨'-', '-' :: r, rfl, .inl ⟨rfl, rfl, rfl⟩⟩
    | digraph => exact ⟨'-', '>' :: r, rfl, .inl ⟨rfl, rfl, rfl⟩⟩
  | @punctuation c _ listed =>
    refine ⟨by simp, c, r, rfl, .inr ⟨?_, rfl, rfl⟩⟩
    simpa [isPunctuation, or_assoc] using listed
  | @separator c _ listed =>
    exact ⟨by simp, c, r, rfl, by simpa using listed, rfl, rfl⟩

theorem writtenAs_of_opens {p : Lexeme} {c : Char} {t r : List Char} (opens : p.Opens c t r)
    (known : ∀ x, p ≠ .stray x) : p.WrittenAs p.written r := by
  have split : c :: t = p.written ++ r := written_of_first (first_of_opens p opens known)
  cases p with
  | word w =>
    obtain ⟨start, rfl, rfl⟩ := opens
    refine .word ((Ident.longest_isWord_iff _ _).mpr ⟨⟨c, _, rfl, start, ?_⟩, ?_⟩)
    · exact all_takeWhile Ident.isRest t
    · exact head?_dropWhile_any Ident.isRest t
  | numeral n =>
    have read := opens.2
    rw [split] at read
    exact .numeral ((Ident.readNumeral_iff n r).mp read)
  | quoted s => exact .quoted (Ident.unescapes_of_splitQuoted? opens.2)
  | html s => exact .html ((Html.isBalanced_iff s).mp (Html.isBalanced_of_splitClosed? opens.2))
  | mark m =>
    rcases opens with ⟨op, rfl, rfl⟩ | ⟨punctuation, rfl, rfl⟩
    · cases t with
      | nil => simp [startsOp] at op
      | cons x t =>
        have op : c = '-' ∧ (x = '-' ∨ x = '>') := by simpa [startsOp] using op
        obtain ⟨rfl, rfl | rfl⟩ := op
        · exact .op .graph
        · exact .op .digraph
    · refine .punctuation ?_
      simpa [isPunctuation, or_assoc] using punctuation
  | separator x =>
    obtain ⟨listed, rfl, rfl⟩ := opens
    exact .separator (by simpa using listed)
  | stray x => exact absurd rfl (known x)

/-- A gap says nothing. -/
theorem all_append_of_gap {gap : List Char} (gapped : Blank.Gap gap) (r : List Char) :
    all (gap ++ r) = all r := by
  rw [← all_skip, gapped.skip_append, all_skip]

/-- A text that is made of some pieces is cut into these. -/
theorem Make.all_eq {ps : List Lexeme} {cs : List Char} (make : Make ps cs) :
    all cs = ps ∧ ∀ x, .stray x ∉ ps := by
  induction make with
  | ending ending => exact ⟨all_of_skip_nil ending.skip_eq_nil, by simp⟩
  | @piece gap w r p ps gapped written _ ih =>
    obtain ⟨known, c, t, split, opens⟩ := opens_of_writtenAs written
    have takes := takes_of_opens opens known
    constructor
    · rw [all_append_of_gap gapped, split, takes.1, ih.1]
      rfl
    · intro x mem
      rcases List.mem_cons.mp mem with same | mem
      · exact known x same.symm
      · exact ih.2 x mem

/-- A text is made of what it is cut into, if nothing of it is a stray character. -/
theorem make_of_all {ps : List Lexeme} {cs : List Char} (pieces : all cs = ps)
    (known : ∀ x, .stray x ∉ ps) : Make ps cs := by
  induction ps generalizing cs with
  | nil => exact .ending ((Blank.gap_of_skip cs).2 (all_eq_nil.mp pieces))
  | cons p ps ih =>
    have solid : Blank.skip cs ≠ [] := fun nothing => by simp [all_of_skip_nil nothing] at pieces
    obtain ⟨gap, gapped, split⟩ := (Blank.gap_of_skip cs).1 solid
    obtain ⟨c, t, start⟩ := List.exists_cons_of_ne_nil solid
    rw [all_of_skip_cons start, List.cons.injEq] at pieces
    have here : ∀ x, p ≠ .stray x := fun x same => known x (by simp [same])
    have opens := opens_first c t
    rw [pieces.1] at opens
    have whole := written_of_first (first_of_opens p opens here)
    rw [split, start, whole]
    refine .piece gapped (writtenAs_of_opens opens here) (ih pieces.2 fun x mem => ?_)
    exact known x (List.mem_cons_of_mem p mem)

theorem make_iff (ps : List Lexeme) (cs : List Char) :
    Make ps cs ↔ all cs = ps ∧ ∀ x, .stray x ∉ ps :=
  ⟨Make.all_eq, fun both => make_of_all both.1 both.2⟩

end Lexeme

end DotText
