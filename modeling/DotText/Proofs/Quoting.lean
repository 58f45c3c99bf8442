import DotText.Proofs.Grammar
import DotText.Tree.WellFormed

set_option autoImplicit false

/- Which texts come back from between quotes, and which labels come back from between brackets. A
text is lost where a run of backslashes of odd length has a quote behind it: one of its own, in
front of which quoting puts one more backslash, or the quote that closes the text. -/
namespace DotText

namespace Ident

/-- Every whole run of backslashes that a quote or the end of the text comes behind is of even
length. -/
def Paired (s : List Char) : Prop :=
  ∀ start n behind, s = start ++ (List.replicate n '\\' ++ behind) → start.getLast? ≠ some '\\' →
    behind = [] ∨ behind.head? = some '"' → n % 2 = 0

theorem paired_nil : Paired [] := by
  rintro start n behind split - -
  have empty := congrArg List.length split
  simp only [List.length_nil, List.length_append, List.length_replicate] at empty
  omega

theorem not_paired_backslash : ¬ Paired ['\\'] :=
  fun paired => absurd (paired [] 1 [] rfl (by simp) (.inl rfl)) (by decide)

/-- A text in front of which no run of backslashes is left open is paired by itself. -/
theorem Paired.of_append (l : List Char) {s : List Char} (paired : Paired (l ++ s))
    (closed : l.getLast? ≠ some '\\') : Paired s := by
  intro start n behind split last
  refine paired (l ++ start) n behind (by rw [split, List.append_assoc]) ?_
  cases start with
  | nil => rwa [List.append_nil]
  | cons c start => simpa [List.getLast?_append, List.getLast?_cons] using last

theorem paired_cons {c : Char} (plain : c ≠ '\\') (s : List Char) : Paired (c :: s) ↔ Paired s := by
  refine ⟨fun paired => Paired.of_append [c] paired (by simpa using plain), ?_⟩
  intro paired start n behind split last ends
  cases start with
  | nil =>
    cases n with
    | zero => rfl
    | succ n =>
      rw [List.nil_append, List.replicate_succ, List.cons_append, List.cons.injEq] at split
      exact absurd split.1 plain
  | cons d start =>
    rw [List.cons_append, List.cons.injEq] at split
    refine paired start n behind split.2 ?_ ends
    cases start with
    | nil => simp
    | cons x start => simpa using last

/-- A backslash and the character behind it stand apart from what comes behind them. -/
theorem paired_pair (c : Char) (s : List Char) :
    Paired ('\\' :: c :: s) ↔ c ≠ '"' ∧ Paired s := by
  constructor
  · intro paired
    have other : c ≠ '"' := by
      rintro rfl
      exact absurd (paired [] 1 ('"' :: s) rfl (by simp) (.inr rfl)) (by decide)
    refine ⟨other, ?_⟩
    by_cases backslash : c = '\\'
    · -- The pair lengthens a run at the start of the text by two.
      subst backslash
      intro start n behind split last ends
      cases start with
      | nil =>
        have longer := paired [] (n + 2) behind (by rw [split]; rfl) (by simp) ends
        omega
      | cons d start =>
        exact paired ('\\' :: '\\' :: d :: start) n behind (by rw [split]; rfl) (by simpa using last)
          ends
    · exact Paired.of_append ['\\', c] paired (by simpa using backslash)
  · -- A run begins with the pair, or behind it: not inside, where a backslash is in front of it.
    rintro ⟨other, paired⟩ start n behind split last ends
    match start, n with
    | [], 0 => rfl
    | [], 1 =>
      obtain rfl : c :: s = behind := by simpa using split
      simp [other] at ends
    | [], n + 2 =>
      have split : '\\' = c ∧ s = List.replicate n '\\' ++ behind := by
        simpa [List.replicate_succ, eq_comm] using split
      have even := paired [] n behind split.2 (by simp) ends
      omega
    | [d], n =>
      obtain ⟨rfl, -⟩ : '\\' = d ∧ _ := by simpa using split
      simp at last
    | d :: x :: start, n =>
      have split : '\\' = d ∧ c = x ∧ s = start ++ (List.replicate n '\\' ++ behind) := by
        simpa using split
      refine paired start n behind split.2.2 ?_ ends
      cases start with
      | nil => simp
      | cons y start => simpa using last

/-- Quoting keeps a text exactly if its backslashes are paired. -/
theorem isQuotable_iff (odd : Bool) (s : List Char) :
    isQuotable odd s = true ↔ Paired (List.replicate odd.toNat '\\' ++ s) := by
  fun_induction isQuotable odd s with
  | case1 odd => cases odd <;> simp [paired_nil, not_paired_backslash]
  | case2 odd cs ih =>
    cases odd with
    | false => exact ih
    | true => simpa [paired_pair] using ih
  | case3 odd c cs plain ih =>
    cases odd with
    | false => simpa [paired_cons plain] using ih
    | true => simp [paired_pair, ih]

theorem isSpellable_iff (name : String) : isSpellable name = true ↔ Paired name.toList :=
  isQuotable_iff false name.toList

/-- A text that quoting keeps comes back; `odd` says whether it has a backslash in front of it that
nothing is paired with yet. -/
theorem splitQuoted?_escape {odd : Bool} {s : List Char} (quotable : isQuotable odd s = true)
    (r : List Char) :
    splitQuoted? (List.replicate odd.toNat '\\' ++ (escape s ++ '"' :: r)) =
      some (List.replicate odd.toNat '\\' ++ s, r) := by
  fun_induction isQuotable odd s with
  | case1 odd =>
    obtain rfl : odd = false := by simpa using quotable
    rfl
  | case2 odd cs ih =>
    have inner := ih quotable
    cases odd with
    | false => exact inner
    | true =>
      rw [show List.replicate (!true).toNat '\\' = [] from rfl, List.nil_append] at inner
      simp [escape, splitQuoted?, inner]
  | case3 odd c cs plain ih =>
    simp only [Bool.and_eq_true, Bool.not_eq_true', Bool.and_eq_false_iff] at quotable
    have inner := ih quotable.2
    rw [show List.replicate false.toNat '\\' = [] from rfl, List.nil_append] at inner
    cases odd with
    | false => by_cases quote : c = '"' <;> simp [escape, splitQuoted?, quote, plain, inner]
    | true =>
      have other : c ≠ '"' := by simpa using quotable.1
      simp [escape, splitQuoted?, other, inner]

/-- What stands between quotes is there for a text that quoting keeps. -/
theorem isQuotable_of_unescapes {body s : List Char} (unescapes : Unescapes body s) :
    isQuotable false s = true := by
  induction unescapes with
  | nil => rfl
  | quote _ ih => simpa [isQuotable] using ih
  | @pair c _ _ other _ ih => by_cases backslash : c = '\\' <;> simp [isQuotable, other, backslash, ih]
  | plain other plain _ ih => simpa [isQuotable, plain] using ih

end Ident

namespace Html

/-- Brackets are balanced behind `depth` open ones if those are what is closed too much. -/
theorem isBalanced_iff_count (depth : Nat) (s : List Char) :
    isBalanced depth s = true ↔
      (∀ start, start <+: s → start.count '>' ≤ start.count '<' + depth) ∧
        s.count '>' = s.count '<' + depth := by
  induction s generalizing depth with
  | nil =>
    rw [isBalanced, beq_iff_eq]
    refine ⟨fun none => ⟨fun start within => ?_, by simp [none]⟩, fun both => ?_⟩
    · simp [List.prefix_nil.mp within]
    · simpa using both.2.symm
  | cons c s ih =>
    have starts {p : List Char → Prop} : (∀ start, start <+: c :: s → p start) ↔
        p [] ∧ ∀ start, start <+: s → p (c :: start) := by
      simp only [List.prefix_cons_iff]
      constructor
      · exact fun all => ⟨all [] (.inl rfl), fun start within => all _ (.inr ⟨start, rfl, within⟩)⟩
      · rintro ⟨first, later⟩ start (rfl | ⟨t, rfl, within⟩)
        · exact first
        · exact later t within
    rw [starts, isBalanced]
    split
    · next opens =>
      subst opens
      simp [ih, Nat.add_right_comm _ 1, Nat.add_assoc]
    split
    · next closes =>
      subst closes
      cases depth with
      | zero =>
        simp only [bne_self_eq_false, Bool.false_and, Bool.false_eq_true, false_iff]
        rintro ⟨⟨-, starts⟩, -⟩
        have first := starts [] (List.nil_prefix)
        simp at first
      | succ depth => simp [ih, ← Nat.add_assoc]
    · next opens closes => simp [ih, opens, closes]

theorem isBalanced_iff (s : List Char) : isBalanced 0 s = true ↔ Balanced s :=
  isBalanced_iff_count 0 s

theorem splitClosed?_of_isBalanced {depth : Nat} {s : List Char}
    (balanced : isBalanced depth s = true) (r : List Char) :
    splitClosed? depth (s ++ '>' :: r) = some (s, r) := by
  fun_induction isBalanced depth s with
  | case1 depth =>
    obtain rfl : depth = 0 := by simpa using balanced
    rfl
  | case2 depth cs ih => simp [splitClosed?, ih balanced]
  | case3 depth cs _ ih =>
    cases depth with
    | zero => simp at balanced
    | succ depth =>
      have inner := ih (by simpa using balanced)
      rw [Nat.add_sub_cancel] at inner
      simp [splitClosed?, inner]
  | case4 depth c cs opens closes ih => simp [splitClosed?, opens, closes, ih balanced]

theorem isBalanced_of_splitClosed? {depth : Nat} {cs s r : List Char}
    (found : splitClosed? depth cs = some (s, r)) : isBalanced depth s = true := by
  fun_induction splitClosed? depth cs generalizing s with
  | case1 => cases found
  | case2 => simp_all [isBalanced]
  | case3 cs outer ih =>
    obtain ⟨⟨t, q⟩, inner, same⟩ := Option.map_eq_some_iff.mp found
    cases same
    simp [isBalanced, ih inner]
  | case4 depth c cs stays ih =>
    obtain ⟨⟨t, q⟩, inner, same⟩ := Option.map_eq_some_iff.mp found
    cases same
    have balanced := ih inner
    by_cases opens : c = '<' <;> simp_all [isBalanced]

end Html

end DotText
