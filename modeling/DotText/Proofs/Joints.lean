import DotText.Proofs.Parts

set_option autoImplicit false

/- Where a piece is gone on with by what comes behind it, the text has another piece there than its
parts. -/
namespace DotText

namespace Ident

/-- A numeral begins one with any text behind it. -/
theorem Unsigned.splits {n : List Char} (unsigned : Unsigned n) (r : List Char) :
    ∃ found, splitUnsigned? (n ++ r) = some found := by
  unfold splitUnsigned?
  cases unsigned with
  | whole digits some =>
    have longer : (n ++ r).takeWhile Char.isDigit ≠ [] := by
      rw [List.takeWhile_append_of_pos (List.all_eq_true.mp digits)]
      simp [some]
    split <;> simp [longer]
  | @point ds es digits digits' some =>
    have boundary := takeWhile_of_boundary (r := '.' :: (es ++ r)) digits (by simp [Char.isDigit])
    rw [List.append_assoc, List.cons_append, boundary.1, boundary.2]
    simp only [List.takeWhile_append_of_pos (List.all_eq_true.mp digits')]
    rw [if_neg]
    · exact ⟨_, rfl⟩
    · intro none
      simp only [Bool.and_eq_true, List.isEmpty_iff, List.append_eq_nil_iff] at none
      exact some ⟨none.1, none.2.1⟩

theorem readNumeral_append_eq_ok {cs n r : List Char} (read : readNumeral cs = .ok (n, r))
    (r' : List Char) : ∃ n' rest, readNumeral (n ++ r') = .ok (n', rest) := by
  simp only [readNumeral_eq_ok] at read ⊢
  rcases read with ⟨t, m, rfl, rfl, split⟩ | split
  · obtain ⟨⟨m', rest⟩, again⟩ := (unsigned_of_split split).1.splits r'
    exact ⟨'-' :: m', rest, .inl ⟨m ++ r', m', rfl, rfl, again⟩⟩
  · obtain ⟨⟨n', rest⟩, again⟩ := (unsigned_of_split split).1.splits r'
    exact ⟨n', rest, .inr again⟩

end Ident

/-- A longer word in place of a word, or another numeral in place of a numeral. -/
inductive Lexeme.Alters : Lexeme → Lexeme → Prop where
  | word {w w' : List Char} : w.length < w'.length → Alters (.word w) (.word w')
  | numeral {n n' : List Char} : n ≠ n' → Alters (.numeral n) (.numeral n')

namespace Lexeme.Alters

variable {p other : Lexeme}

theorem ne (alters : p.Alters other) : p ≠ other := by
  cases alters with
  | word longer =>
    rintro same
    cases same
    exact absurd longer (Nat.lt_irrefl _)
  | numeral differ => exact fun same => differ (Lexeme.numeral.inj same)

theorem isRunning (alters : p.Alters other) : p.isRunning = true ∧ other.isRunning = true := by
  cases alters <;> exact ⟨rfl, rfl⟩

theorem not_isSeparator (alters : p.Alters other) :
    p.isSeparator = false ∧ other.isSeparator = false := by
  cases alters <;> exact ⟨rfl, rfl⟩

end Lexeme.Alters

namespace Part

open Lexeme (first_of_opens)

/-- A piece that is gone on with becomes another piece. -/
theorem Whole.alters {p : Lexeme} (whole : (piece p).Whole) {r : List Char}
    (extended : r.head?.any p.extendedBy = true) :
    ∃ other others, Lexeme.all (p.written ++ r) = other :: others ∧ p.Alters other := by
  obtain ⟨known, c, cs, r', first⟩ := whole
  have opens := Lexeme.opens_first c cs
  rw [first] at opens
  cases p with
  | word w =>
    obtain ⟨start, rfl, -⟩ := opens
    have solid := Blank.skip_of_not_mayBegin (Ident.not_mayBegin_of_isStart start)
    have all := Lexeme.all_of_skip_cons (solid (cs.takeWhile Ident.isRest ++ r))
    rw [first_of_opens (.word _) ⟨start, rfl, rfl⟩ (by simp)] at all
    refine ⟨_, _, all, .word ?_⟩
    simp only [List.takeWhile_append_of_pos (List.all_eq_true.mp (all_takeWhile Ident.isRest cs)),
      List.length_cons, List.length_append]
    cases r with
    | nil => cases extended
    | cons x r =>
      have goes : Ident.isRest x = true := extended
      rw [List.takeWhile_cons_of_pos goes, List.length_cons]
      omega
  | numeral n =>
    obtain ⟨start, read⟩ := opens
    have solid := Blank.skip_of_not_mayBegin (Ident.not_mayBegin_of_startsNumeral start)
    obtain ⟨m, rfl⟩ := Ident.head_of_readNumeral read
    obtain ⟨n', rest, again⟩ := Ident.readNumeral_append_eq_ok read r
    have all := Lexeme.all_of_skip_cons (solid (m ++ r))
    have taken : Lexeme.first c (m ++ r) = (.numeral n', rest) :=
      first_of_opens _ ⟨start, again⟩ (by simp)
    rw [taken] at all
    refine ⟨_, _, all, .numeral ?_⟩
    rintro rfl
    have behind : rest = r := List.append_cancel_left (Ident.readNumeral_append again)
    have ends := Lexeme.ends_of_first taken
    rw [behind, extended] at ends
    cases ends
  | _ => cases r <;> cases extended

/-- What goes on with a piece begins no blank and no mark. -/
theorem starts_of_extendedBy {p : Lexeme} {c : Char} (extended : p.extendedBy c = true) :
    Ident.isStart c = true ∨ (Ident.startsNumeral c = true ∧ c ≠ '-') := by
  cases p with
  | word =>
    simp only [Lexeme.extendedBy, Ident.isRest, Bool.or_eq_true] at extended
    refine extended.imp_right fun digit => ⟨by simp [Ident.startsNumeral, digit], ?_⟩
    rintro rfl
    cases digit
  | numeral =>
    simp only [Lexeme.extendedBy, Ident.extendsNumeral, Bool.or_eq_true, Bool.and_eq_true,
      beq_iff_eq] at extended
    rcases extended with digit | ⟨rfl, -⟩
    · refine .inr ⟨by simp [Ident.startsNumeral, digit], ?_⟩
      rintro rfl
      cases digit
    · exact .inr ⟨rfl, by decide⟩
  | _ => cases extended

/-- A piece that begins as words or numerals do is one of these. -/
theorem isRunning_of_first {q : Lexeme} {c : Char} {cs r : List Char}
    (first : Lexeme.first c cs = (q, r)) (known : ∀ x, q ≠ .stray x)
    (starts : Ident.isStart c = true ∨ (Ident.startsNumeral c = true ∧ c ≠ '-')) :
    q.isRunning = true := by
  have marks : ∀ x ∈ ['"', '<', '{', '}', '[', ']', '=', ':', ',', ';'],
      Ident.isStart x = false ∧ Ident.startsNumeral x = false := forall_mem_of_all (by decide)
  have other : c ∉ ['"', '<', '{', '}', '[', ']', '=', ':', ',', ';'] := by
    intro listed
    obtain ⟨word, numeral⟩ := marks c listed
    rw [word, numeral] at starts
    simp at starts
  have sign : c ≠ '-' := by
    rintro rfl
    exact starts.elim (by decide) fun starts => starts.2 rfl
  have opens := Lexeme.opens_first c cs
  rw [first] at opens
  cases q with
  | word | numeral => rfl
  | quoted | html =>
    rw [opens.1] at other
    simp at other
  | mark =>
    rcases opens with ⟨op, -⟩ | ⟨punctuation, -⟩
    · simp [Lexeme.startsOp, sign] at op
    · simp only [Lexeme.isPunctuation, Bool.or_eq_true, beq_iff_eq] at punctuation
      simp only [List.mem_cons, List.not_mem_nil, or_false] at other
      grind
  | separator =>
    rcases opens.1 with rfl | rfl <;> simp at other
  | stray x => exact absurd rfl (known x)

/-- What goes on with a piece begins a word or a numeral. -/
theorem head_of_extended {p : Lexeme} {parts : List Part} (whole : ∀ part ∈ parts, part.Whole)
    {tail : List Char} (ends : ∀ c, tail.head? = some c → endsPieces c = true)
    (extended : (textOf parts ++ tail).head?.any p.extendedBy = true) :
    ∃ q behind, pieces parts = q :: behind ∧ q.isRunning = true := by
  cases parts with
  | nil =>
    cases tail with
    | nil => cases extended
    | cons c t =>
      have goes : p.extendedBy c = true := extended
      rw [extendedBy_of_endsPieces (ends c rfl) p] at goes
      cases goes
  | cons part parts =>
    have this := whole part List.mem_cons_self
    cases part with
    | blank cs =>
      obtain ⟨c, t, rfl, begins⟩ := this.mayBegin
      have goes : p.extendedBy c = true := extended
      rw [extendedBy_of_endsPieces (endsPieces_of_mayBegin begins) p] at goes
      cases goes
    | piece q =>
      obtain ⟨known, c, cs, r, first⟩ := this
      obtain ⟨w, split⟩ : ∃ w, q.written = c :: w := by
        have written := Lexeme.written_append_first c cs
        have some := Lexeme.written_first_ne_nil c cs
        rw [first] at written some
        cases shape : q.written with
        | nil => exact absurd shape some
        | cons x w =>
          rw [shape, List.cons_append, List.cons.injEq] at written
          exact ⟨w, by rw [written.1]⟩
      have starts := starts_of_extendedBy (c := c) (by simpa [text, split] using extended)
      exact ⟨q, pieces parts, rfl, isRunning_of_first first known starts⟩

/-- Where parts are not apart, the text has another piece than they do, in front of a word or a
numeral of theirs. -/
theorem joint {parts : List Part} (whole : ∀ part ∈ parts, part.Whole) {tail : List Char}
    (ends : ∀ c, tail.head? = some c → endsPieces c = true) (joined : apart tail parts = false) :
    ∃ before p q behind other behind',
      (pieces parts).filter (!·.isSeparator) = before ++ p :: q :: behind ∧
      Lexeme.significant (textOf parts ++ tail) = before ++ other :: behind' ∧
      p.Alters other ∧ q.isRunning = true := by
  induction parts with
  | nil => cases joined
  | cons part parts ih =>
    have rest := fun part mem => whole part (List.mem_cons_of_mem _ mem)
    have this := whole part List.mem_cons_self
    rw [textOf_cons, List.append_assoc]
    cases part with
    | blank cs =>
      obtain ⟨before, p, q, behind, other, behind', split, split', differs⟩ := ih rest joined
      refine ⟨before, p, q, behind, other, behind', split, ?_, differs⟩
      rw [← split', Lexeme.significant, Lexeme.significant, text, ← Lexeme.all_skip, this.2,
        Lexeme.all_skip]
    | piece p =>
      cases extended : (textOf parts ++ tail).head?.any p.extendedBy with
      | true =>
        obtain ⟨other, others, split, alters⟩ := this.alters extended
        obtain ⟨q, behind, next, running⟩ := head_of_extended rest ends extended
        refine ⟨[], p, q, behind.filter (!·.isSeparator), other, others.filter (!·.isSeparator), ?_,
          ?_, alters, running⟩
        · have solid : q.isSeparator = false := by
            cases q <;> first | rfl | cases running
          simp [next, alters.not_isSeparator.1, solid]
        · rw [Lexeme.significant, text, split]
          simp [alters.not_isSeparator.2]
      | false =>
        rw [apart, extended, Bool.not_false, Bool.true_and] at joined
        obtain ⟨before, p', q, behind, other, behind', split, split', differs⟩ := ih rest joined
        refine ⟨[p].filter (!·.isSeparator) ++ before, p', q, behind, other, behind', ?_, ?_, differs⟩
        · rw [pieces_piece, ← List.singleton_append, List.filter_append, split, List.append_assoc]
        · rw [Lexeme.significant, text, this.all_append extended, ← List.singleton_append,
            List.filter_append, List.append_assoc, ← split', Lexeme.significant]

/-- Parts are apart if the text says what they say. -/
theorem apart_of_significant {parts : List Part} (whole : ∀ part ∈ parts, part.Whole)
    {tail : List Char} (ends : ∀ c, tail.head? = some c → endsPieces c = true)
    (same : Lexeme.significant (textOf parts ++ tail) = (pieces parts).filter (!·.isSeparator)) :
    apart tail parts = true := by
  rw [← Bool.not_eq_false]
  intro joined
  obtain ⟨before, p, q, behind, other, behind', split, split', alters, -⟩ := joint whole ends joined
  rw [split, split', List.append_cancel_left_eq, List.cons.injEq] at same
  exact alters.ne same.1.symm

theorem endsPieces_of_blank {tail : List Char} (blank : Blank.skip tail = []) (c : Char)
    (first : tail.head? = some c) : endsPieces c = true := by
  obtain ⟨t, rfl⟩ := List.head?_eq_some_iff.mp first
  apply endsPieces_of_mayBegin
  cases begins : Blank.mayBegin c with
  | true => rfl
  | false =>
    rw [Blank.skip_of_not_mayBegin begins] at blank
    cases blank

/-- With nothing but insignificant material behind them parts are as apart as by themselves. -/
theorem apart_of_blank {parts : List Part} {tail : List Char} (blank : Blank.skip tail = []) :
    apart tail parts = apart [] parts :=
  apart_of_endsPieces (endsPieces_of_blank blank)

/-- A text says what its parts say exactly where the parts are apart. -/
theorem significant_iff {parts : List Part} (whole : ∀ part ∈ parts, part.Whole) {tail : List Char}
    (blank : Blank.skip tail = []) :
    Lexeme.significant (textOf parts ++ tail) = (pieces parts).filter (!·.isSeparator) ↔
      apart [] parts = true := by
  rw [← apart_of_blank blank]
  refine ⟨apart_of_significant whole (endsPieces_of_blank blank), fun separate => ?_⟩
  rw [Lexeme.significant, all_textOf whole separate, Lexeme.all_of_skip_nil blank, List.append_nil]

end Part

end DotText
