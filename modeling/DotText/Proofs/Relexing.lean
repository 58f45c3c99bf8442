import DotText.Proofs.Lexing

set_option autoImplicit false

/- A piece stays what it is when the text behind it changes, unless the new text goes on with it.
Only words and numerals can be gone on with. -/
namespace DotText

/-- A quoted text ends at its quote, whatever follows. -/
theorem Ident.splitQuoted?_append {cs s r : List Char} (found : splitQuoted? cs = some (s, r))
    (r' : List Char) : splitQuoted? (escape s ++ '"' :: r') = some (s, r') := by
  fun_induction splitQuoted? cs generalizing s with
  | case1 => cases found
  | case2 => simp_all [escape, splitQuoted?]
  | case3 cs ih =>
    obtain ⟨⟨t, q⟩, inner, same⟩ := Option.map_eq_some_iff.mp found
    cases same
    simp [escape, splitQuoted?, ih inner]
  | case4 c cs notQuote ih =>
    obtain ⟨⟨t, q⟩, inner, same⟩ := Option.map_eq_some_iff.mp found
    cases same
    have other : c ≠ '"' := notQuote
    simp [escape, other, splitQuoted?, ih inner]
  | case5 c cs notQuote notEscapedQuote notEscape ih =>
    obtain ⟨⟨t, q⟩, inner, same⟩ := Option.map_eq_some_iff.mp found
    cases same
    have other : c ≠ '"' := notQuote
    have plain := ne_backslash_of_splitQuoted? inner notEscape
    simp [escape, other, splitQuoted?, ih inner, plain]

theorem Html.splitClosed?_append {depth : Nat} {cs s r : List Char}
    (found : splitClosed? depth cs = some (s, r)) (r' : List Char) :
    splitClosed? depth (s ++ '>' :: r') = some (s, r') := by
  fun_induction splitClosed? depth cs generalizing s with
  | case1 => cases found
  | case2 => simp_all [splitClosed?]
  | case3 cs outer ih =>
    obtain ⟨⟨t, q⟩, inner, same⟩ := Option.map_eq_some_iff.mp found
    cases same
    simp [splitClosed?, ih inner]
  | case4 depth c cs stays ih =>
    obtain ⟨⟨t, q⟩, inner, same⟩ := Option.map_eq_some_iff.mp found
    cases same
    simp [splitClosed?, stays, ih inner]

theorem all_takeWhile (p : Char → Bool) (cs : List Char) : (cs.takeWhile p).all p = true := by
  induction cs with
  | nil => rfl
  | cons c cs ih => by_cases h : p c <;> simp_all [List.takeWhile]

namespace Ident

/-- Digits, perhaps a point and more digits, and at least one digit. -/
inductive Unsigned : List Char → Prop where
  | whole {ds : List Char} : ds.all Char.isDigit = true → ds ≠ [] → Unsigned ds
  | point {ds es : List Char} : ds.all Char.isDigit = true → es.all Char.isDigit = true →
      ¬(ds = [] ∧ es = []) → Unsigned (ds ++ '.' :: es)

/-- Whether a numeral would go on with this character. -/
def extendsNumeral (n : List Char) (c : Char) : Bool :=
  c.isDigit || (c == '.' && !n.contains '.')

theorem extendsNumeral_whole {ds : List Char} (digits : ds.all Char.isDigit = true) (c : Char) :
    extendsNumeral ds c = (c.isDigit || c == '.') := by
  have none : ds.contains '.' = false := by
    rw [← Bool.not_eq_true, List.contains_iff_mem]
    intro mem
    exact absurd (List.all_eq_true.mp digits '.' mem) (by decide)
  simp only [extendsNumeral, none, Bool.not_false, Bool.and_true]

theorem extendsNumeral_point (ds es : List Char) (c : Char) :
    extendsNumeral (ds ++ '.' :: es) c = c.isDigit := by
  simp [extendsNumeral]

theorem unsigned_of_split {cs n r : List Char} (found : splitUnsigned? cs = some (n, r)) :
    Unsigned n ∧ r.head?.any (extendsNumeral n) = false := by
  have whole := all_takeWhile Char.isDigit cs
  have ends := head?_dropWhile_any Char.isDigit cs
  unfold splitUnsigned? at found
  split at found
  · next t point =>
    simp only [Option.ite_none_left_eq_some, Option.some.injEq, Prod.mk.injEq, Bool.and_eq_true,
      List.isEmpty_iff] at found
    obtain ⟨some, rfl, rfl⟩ := found
    refine ⟨.point whole (all_takeWhile _ t) some, ?_⟩
    simpa only [funext (extendsNumeral_point _ _)] using head?_dropWhile_any Char.isDigit t
  · next other =>
    simp only [Option.ite_none_left_eq_some, Option.some.injEq, Prod.mk.injEq,
      List.isEmpty_iff] at found
    obtain ⟨some, rfl, rfl⟩ := found
    refine ⟨.whole whole some, ?_⟩
    rw [funext (extendsNumeral_whole whole)]
    cases behind : cs.dropWhile Char.isDigit with
    | nil => rfl
    | cons c t =>
      rw [behind] at ends
      have plain : c ≠ '.' := by
        rintro rfl
        exact other t behind
      simpa [plain] using ends

theorem split_of_unsigned {n r : List Char} (unsigned : Unsigned n)
    (ends : r.head?.any (extendsNumeral n) = false) : splitUnsigned? (n ++ r) = some (n, r) := by
  cases unsigned with
  | whole digits some =>
    rw [funext (extendsNumeral_whole digits)] at ends
    have boundary := takeWhile_of_boundary (r := r) digits (by cases r <;> simp_all)
    unfold splitUnsigned?
    rw [boundary.1, boundary.2]
    split
    · simp at ends
    · simp [some]
  | @point ds es digits digits' some =>
    rw [funext (extendsNumeral_point ds es)] at ends
    have boundary := takeWhile_of_boundary (r := '.' :: (es ++ r)) digits (by simp [Char.isDigit])
    have boundary' := takeWhile_of_boundary (r := r) digits' ends
    rw [List.append_assoc, List.cons_append]
    unfold splitUnsigned?
    rw [boundary.1, boundary.2]
    simp only [boundary'.1, boundary'.2]
    rw [if_neg]
    simpa using some

theorem extendsNumeral_sign (n : List Char) : extendsNumeral ('-' :: n) = extendsNumeral n := by
  funext c
  simp [extendsNumeral]

theorem Unsigned.not_sign {n r cs : List Char} (unsigned : Unsigned n) : n ++ r ≠ '-' :: cs := by
  cases unsigned with
  | whole digits some =>
    cases n with
    | nil => exact absurd rfl some
    | cons d ds =>
      rintro same
      cases same
      simp [Char.isDigit] at digits
  | @point ds es digits =>
    cases ds with
    | nil => simp
    | cons d ds =>
      rintro same
      cases same
      simp [Char.isDigit] at digits

theorem head_of_readNumeral {c : Char} {cs n r : List Char}
    (read : readNumeral (c :: cs) = .ok (n, r)) : ∃ m, n = c :: m := by
  have whole := readNumeral_append read
  cases n with
  | nil => exact absurd rfl (readNumeral_ne_nil read)
  | cons x m =>
    cases whole
    exact ⟨m, rfl⟩

/-- A numeral is read to where nothing goes on with it. -/
theorem ends_of_readNumeral {cs n r : List Char} (read : readNumeral cs = .ok (n, r)) :
    r.head?.any (extendsNumeral n) = false := by
  rcases readNumeral_eq_ok.mp read with ⟨t, m, rfl, rfl, split⟩ | split
  · rw [extendsNumeral_sign]
    exact (unsigned_of_split split).2
  · exact (unsigned_of_split split).2

theorem readNumeral_append_of_ends {cs n r : List Char} (read : readNumeral cs = .ok (n, r))
    {r' : List Char} (ends : r'.head?.any (extendsNumeral n) = false) :
    readNumeral (n ++ r') = .ok (n, r') := by
  rw [readNumeral_eq_ok] at read ⊢
  rcases read with ⟨t, m, rfl, rfl, split⟩ | split
  · rw [extendsNumeral_sign] at ends
    exact .inl ⟨m ++ r', m, rfl, rfl, split_of_unsigned (unsigned_of_split split).1 ends⟩
  · exact .inr (split_of_unsigned (unsigned_of_split split).1 ends)

end Ident

namespace Lexeme

/-- Whether the piece would go on with this character, if that came right behind it. -/
def extendedBy : Lexeme → Char → Bool
  | word _, c => Ident.isRest c
  | numeral n, c => Ident.extendsNumeral n c
  | _, _ => false

/-- Whether the piece is one that some character goes on with. -/
def isRunning : Lexeme → Bool
  | word _ | numeral _ => true
  | _ => false

/-- A piece is taken to where nothing goes on with it. -/
theorem ends_of_first {piece : Lexeme} {c : Char} {cs r : List Char}
    (first : Lexeme.first c cs = (piece, r)) : r.head?.any piece.extendedBy = false := by
  have opens := opens_first c cs
  rw [first] at opens
  cases piece with
  | word =>
    obtain ⟨-, -, rfl⟩ := opens
    exact head?_dropWhile_any _ cs
  | numeral => exact Ident.ends_of_readNumeral opens.2
  | _ => cases r <;> rfl

/-- A piece of a text, other than a stray character, stays one in front of any text that does not
go on with it. -/
theorem first_append {piece : Lexeme} {c : Char} {cs r : List Char}
    (found : Lexeme.first c cs = (piece, r)) (known : ∀ x, piece ≠ .stray x) {r' : List Char}
    (ends : r'.head?.any piece.extendedBy = false) :
    ∃ t, piece.written ++ r' = c :: t ∧ Lexeme.first c t = (piece, r') := by
  have opens := opens_first c cs
  rw [found] at opens
  cases piece with
  | quoted s =>
    obtain ⟨rfl, split⟩ := opens
    refine ⟨Ident.escape s ++ '"' :: r', by simp [written, Ident.quote], ?_⟩
    exact first_of_opens (.quoted s) ⟨rfl, Ident.splitQuoted?_append split r'⟩ known
  | html s =>
    obtain ⟨rfl, split⟩ := opens
    refine ⟨s ++ '>' :: r', by simp [written], ?_⟩
    exact first_of_opens (.html s) ⟨rfl, Html.splitClosed?_append split r'⟩ known
  | numeral n =>
    obtain ⟨digit, read⟩ := opens
    obtain ⟨m, rfl⟩ := Ident.head_of_readNumeral read
    refine ⟨m ++ r', rfl, first_of_opens (.numeral (c :: m)) ⟨digit, ?_⟩ known⟩
    exact Ident.readNumeral_append_of_ends read ends
  | word w =>
    obtain ⟨start, rfl, rfl⟩ := opens
    have boundary := takeWhile_of_boundary (all_takeWhile Ident.isRest cs) ends
    refine ⟨cs.takeWhile Ident.isRest ++ r', rfl, ?_⟩
    refine first_of_opens (.word _) ⟨start, ?_, ?_⟩ known
    · rw [boundary.1]
    · rw [boundary.2]
  | mark m =>
    rcases opens with ⟨op, rfl, rfl⟩ | ⟨punctuation, rfl, rfl⟩
    · obtain ⟨x, t, rfl⟩ : ∃ x t, cs = x :: t := by
        cases cs with
        | nil => simp [startsOp] at op
        | cons x t => exact ⟨x, t, rfl⟩
      refine ⟨x :: r', rfl, first_of_opens (.mark [c, x]) (.inl ⟨?_, rfl, rfl⟩) known⟩
      simpa [startsOp] using op
    · exact ⟨r', rfl, first_of_opens _ (.inr ⟨punctuation, rfl, rfl⟩) known⟩
  | separator x =>
    obtain ⟨listed, rfl, rfl⟩ := opens
    exact ⟨r', rfl, first_of_opens _ ⟨listed, rfl, rfl⟩ known⟩
  | stray x => exact absurd rfl (known x)

end Lexeme

end DotText
