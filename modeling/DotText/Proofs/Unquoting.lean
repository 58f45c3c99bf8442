import DotText.Proofs.Grammar.Texts

set_option autoImplicit false

/- Quoting and reading undo each other. A quoted identifier is read from one text alone, which is its
text quoted again, and just the texts that keep their backslashes paired come back; a text that may
stand bare comes back bare. -/
namespace DotText.Ident

/-- A text is read up to its closing quote exactly where it stands quoted and quoting keeps it. -/
theorem splitQuoted?_eq_some_iff {cs s r : List Char} :
    splitQuoted? cs = some (s, r) ↔ cs = escape s ++ '"' :: r ∧ Paired s := by
  have quotable := isQuotable_iff false s
  rw [show List.replicate false.toNat '\\' ++ s = s from rfl] at quotable
  constructor
  · intro found
    exact ⟨splitQuoted?_eq_some found,
      quotable.mp (isQuotable_of_unescapes (unescapes_of_splitQuoted? found))⟩
  · rintro ⟨rfl, paired⟩
    exact splitQuoted?_escape (quotable.mpr paired) r

/-- A name is read between quotes exactly from its own quotation, and only a paired one. -/
theorem read_quoted_eq_ok_iff {cs r : List Char} {name : String} :
    Ident.read ('"' :: cs) = .ok (name, r) ↔
      '"' :: cs = quote name.toList ++ r ∧ Paired name.toList := by
  have quoted : '"' :: cs = quote name.toList ++ r ↔ cs = escape name.toList ++ '"' :: r := by
    simp [quote]
  rw [quoted, ← splitQuoted?_eq_some_iff, Ident.read, readText]
  cases splitQuoted? cs with
  | none => simp
  | some found =>
    obtain ⟨s, r'⟩ := found
    simp [← String.toList_inj]

/-- A text that may stand bare is a word of identifier characters that is not reserved. -/
theorem word_of_isBare {s : List Char} (bare : isBare s = true) :
    ∃ c t, s = c :: t ∧ isStart c = true ∧ t.all isRest = true ∧ isKeyword s = false := by
  cases s with
  | nil => cases bare
  | cons c t =>
    simp only [isBare, Bool.and_eq_true, Bool.not_eq_true'] at bare
    obtain ⟨⟨start, inside⟩, free⟩ := bare
    refine ⟨c, t, rfl, isStart_of_isWrittenStart c start, ?_, free⟩
    rw [List.all_eq_true] at inside ⊢
    intro x mem
    have written := inside x mem
    rw [isWrittenRest, Bool.or_eq_true] at written
    rw [isRest, Bool.or_eq_true]
    exact written.imp_left (isStart_of_isWrittenStart x)

/-- A bare text is read back in front of anything that does not go on with it. -/
theorem read_bare {name : String} (bare : isBare name.toList = true) {r : List Char}
    (ends : r.head?.any isRest = false) : Ident.read (name.toList ++ r) = .ok (name, r) := by
  obtain ⟨c, t, split, start, inside, free⟩ := word_of_isBare bare
  have boundary := takeWhile_of_boundary inside ends
  have first : Lexeme.first c (t ++ r) = (.word (c :: t), r) :=
    Lexeme.first_of_opens (.word _) ⟨start, by rw [boundary.1], boundary.2.symm⟩ (by simp)
  have named : (Lexeme.word (c :: t)).name? = some name := by
    rw [Lexeme.name?, ← split, free, String.ofList_toList]
    rfl
  rw [split, List.cons_append]
  exact read_of_first first named

/-- What is read between quotes is the quotation of its text, and the text is found again as the
token that is looked for; a quotation is read as its text exactly if the backslashes of that are
paired, whatever stands behind it; and a text that may stand bare is read where it ends. -/
theorem reading_undoes_quoting (name : String) (r : List Char) :
    (∀ cs, Ident.read ('"' :: cs) = .ok (name, r) →
      '"' :: cs = quote name.toList ++ r ∧
        (Token.ident name.toList).split? ('"' :: cs) = some (quote name.toList, r)) ∧
    (Ident.read (quote name.toList ++ r) = .ok (name, r) ↔ Paired name.toList) ∧
    (isBare name.toList = true → r.head?.any isRest = false →
      Ident.read (name.toList ++ r) = .ok (name, r)) := by
  refine ⟨fun cs read => ?_, ?_, fun bare => read_bare bare⟩
  · obtain ⟨spelled, -⟩ := read_quoted_eq_ok_iff.mp read
    exact ⟨spelled, Token.split?_of_text rfl rfl spelled⟩
  · have split : quote name.toList ++ r = '"' :: (escape name.toList ++ '"' :: r) := by
      simp [quote]
    rw [split, read_quoted_eq_ok_iff, ← split]
    simp

/-- A name with a pair of backslashes in front of a quote, read from its quotation and not bare, and
a bare name with accented letters. -/
theorem read_of_backslashes :
    (Ident.read ('"' :: "a\\\\\\\"b\" -> c".toList) = .ok ("a\\\\\"b", " -> c".toList) ∧
      '"' :: "a\\\\\\\"b\" -> c".toList = quote "a\\\\\"b".toList ++ " -> c".toList ∧
      (Token.ident "a\\\\\"b".toList).split? ('"' :: "a\\\\\\\"b\" -> c".toList) =
        some (quote "a\\\\\"b".toList, " -> c".toList)) ∧
    (isBare "été".toList = true ∧ "->x".toList.head?.any isRest = false ∧
      Ident.read ("été".toList ++ "->x".toList) = .ok ("été", "->x".toList)) := by
  have read : Ident.read ('"' :: "a\\\\\\\"b\" -> c".toList) =
      .ok ("a\\\\\"b", " -> c".toList) := by
    decide +kernel
  have bare : isBare "été".toList = true := by decide +kernel
  have ends : "->x".toList.head?.any isRest = false := by decide +kernel
  exact ⟨⟨read, (reading_undoes_quoting "a\\\\\"b" " -> c".toList).1 _ read⟩,
    bare, ends, (reading_undoes_quoting "été" "->x".toList).2.2 bare ends⟩

end DotText.Ident
