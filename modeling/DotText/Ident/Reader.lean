import DotText.Ident
import DotText.Reader

set_option autoImplicit false

/- Reading identifiers: quoted texts, numerals and bare words. Between quotes only `\"` stands for
another text, a quote; a backslash before any other character is kept with that character. -/
namespace DotText.Ident

/-- The text of a quoted identifier whose opening quote is behind us, and what follows its closing
quote. -/
def splitQuoted? : List Char → Option (List Char × List Char)
  | [] => none
  | '"' :: cs => some ([], cs)
  | '\\' :: '"' :: cs => (splitQuoted? cs).map fun (s, r) => ('"' :: s, r)
  | '\\' :: c :: cs => (splitQuoted? cs).map fun (s, r) => ('\\' :: c :: s, r)
  | c :: cs => (splitQuoted? cs).map fun (s, r) => (c :: s, r)

/-- A quoted identifier is spelled exactly as quoting its text spells it. -/
theorem splitQuoted?_eq_some {cs s r : List Char} (found : splitQuoted? cs = some (s, r)) :
    cs = escape s ++ '"' :: r := by
  fun_induction splitQuoted? cs generalizing s with
  | case1 => simp at found
  | case2 => simp_all [escape]
  | case3 cs ih =>
    obtain ⟨⟨t, q⟩, inner, same⟩ := Option.map_eq_some_iff.mp found
    cases same
    rw [ih inner]
    rfl
  | case4 c cs notQuote ih =>
    obtain ⟨⟨t, q⟩, inner, same⟩ := Option.map_eq_some_iff.mp found
    cases same
    have other : c ≠ '"' := notQuote
    simp [escape, other, ih inner]
  | case5 c cs notQuote notEscapedQuote notEscape ih =>
    obtain ⟨⟨t, q⟩, inner, same⟩ := Option.map_eq_some_iff.mp found
    cases same
    have other : c ≠ '"' := notQuote
    simp [escape, other, ih inner]

/-- A backslash stands between quotes only with a character behind it. -/
theorem ne_backslash_of_splitQuoted? {c : Char} {cs : List Char} {found : List Char × List Char}
    (inner : splitQuoted? cs = some found)
    (notEscape : ∀ x t, c = '\\' → cs = x :: t → False) : c ≠ '\\' := by
  rintro rfl
  cases cs with
  | nil => cases inner
  | cons x t => exact notEscape x t rfl rfl

/-- A numeral without sign: digits, at most one point, and a digit before or after the point. -/
def splitUnsigned? (cs : List Char) : Option (List Char × List Char) :=
  let whole := cs.takeWhile Char.isDigit
  match cs.dropWhile Char.isDigit with
  | '.' :: r =>
    let part := r.takeWhile Char.isDigit
    if whole.isEmpty && part.isEmpty then none
    else some (whole ++ '.' :: part, r.dropWhile Char.isDigit)
  | r => if whole.isEmpty then none else some (whole, r)

def readUnsigned (cs : List Char) : Except Failure (List Char × List Char) :=
  match splitUnsigned? cs with
  | some found => .ok found
  | none => .error ⟨.numeral, cs⟩

/-- A numeral that goes wrong after its sign is missing from there on. -/
def readNumeral (cs : List Char) : Except Failure (List Char × List Char) :=
  match cs with
  | '-' :: r =>
    match readUnsigned r with
    | .ok (n, r') => .ok ('-' :: n, r')
    | .error failure => .error failure
  | _ => readUnsigned cs

theorem splitUnsigned?_append {cs n r : List Char} (found : splitUnsigned? cs = some (n, r)) :
    n ++ r = cs := by
  have whole : cs.takeWhile Char.isDigit ++ cs.dropWhile Char.isDigit = cs :=
    List.takeWhile_append_dropWhile
  unfold splitUnsigned? at found
  split at found
  · next r' point =>
    simp only [Option.ite_none_left_eq_some, Option.some.injEq, Prod.mk.injEq] at found
    obtain ⟨_, rfl, rfl⟩ := found
    rw [List.append_assoc, List.cons_append, List.takeWhile_append_dropWhile, ← point, whole]
  · simp only [Option.ite_none_left_eq_some, Option.some.injEq, Prod.mk.injEq] at found
    obtain ⟨_, rfl, rfl⟩ := found
    exact whole

theorem splitUnsigned?_ne_nil {cs n r : List Char} (found : splitUnsigned? cs = some (n, r)) :
    n ≠ [] := by
  unfold splitUnsigned? at found
  split at found
  · simp only [Option.ite_none_left_eq_some, Option.some.injEq, Prod.mk.injEq] at found
    obtain ⟨_, rfl, _⟩ := found
    simp
  · simp only [Option.ite_none_left_eq_some, Option.some.injEq, Prod.mk.injEq,
      Bool.not_eq_true, List.isEmpty_eq_false_iff] at found
    obtain ⟨digits, rfl, _⟩ := found
    exact digits

theorem readUnsigned_eq_ok {cs : List Char} {found : List Char × List Char} :
    readUnsigned cs = .ok found ↔ splitUnsigned? cs = some found := by
  unfold readUnsigned
  cases splitUnsigned? cs <;> simp

theorem splitUnsigned?_sign (cs : List Char) : splitUnsigned? ('-' :: cs) = none := by
  simp [splitUnsigned?, Char.isDigit]

/-- A numeral is one without sign, or a minus with one behind it. -/
theorem readNumeral_eq_ok {cs n r : List Char} :
    readNumeral cs = .ok (n, r) ↔
      (∃ t m, cs = '-' :: t ∧ n = '-' :: m ∧ splitUnsigned? t = some (m, r)) ∨
        splitUnsigned? cs = some (n, r) := by
  constructor
  · intro read
    unfold readNumeral at read
    split at read
    · next t =>
      cases unsigned : readUnsigned t with
      | error failure => simp [unsigned] at read
      | ok found =>
        simp only [unsigned, Except.ok.injEq, Prod.mk.injEq] at read
        obtain ⟨rfl, rfl⟩ := read
        exact .inl ⟨t, found.1, rfl, rfl, readUnsigned_eq_ok.mp unsigned⟩
    · exact .inr (readUnsigned_eq_ok.mp read)
  · rintro (⟨t, m, rfl, rfl, found⟩ | found)
    · simp [readNumeral, readUnsigned_eq_ok.mpr found]
    · unfold readNumeral
      split
      · rw [splitUnsigned?_sign] at found
        cases found
      · exact readUnsigned_eq_ok.mpr found

theorem readNumeral_append {cs n r : List Char} (read : readNumeral cs = .ok (n, r)) :
    n ++ r = cs := by
  rcases readNumeral_eq_ok.mp read with ⟨t, m, rfl, rfl, split⟩ | split
  · rw [List.cons_append, splitUnsigned?_append split]
  · exact splitUnsigned?_append split

theorem readNumeral_ne_nil {cs n r : List Char} (read : readNumeral cs = .ok (n, r)) : n ≠ [] := by
  rcases readNumeral_eq_ok.mp read with ⟨t, m, rfl, rfl, -⟩ | split
  · exact List.cons_ne_nil _ _
  · exact splitUnsigned?_ne_nil split

/-- A bare identifier takes as many characters as it can. -/
def readBare (cs : List Char) : Except Failure (List Char × List Char) :=
  if cs.head?.any isStart then .ok (cs.takeWhile isRest, cs.dropWhile isRest)
  else .error ⟨.identifier, cs⟩

/-- Whether a numeral, right or wrong, begins with this character. -/
def startsNumeral (c : Char) : Bool :=
  c == '-' || c == '.' || c.isDigit

/-- Read an identifier and give its text. A quoted one that does not end is missing its quote at
the end of the text. -/
def readText (cs : List Char) : Except Failure (List Char × List Char) :=
  match cs with
  | '"' :: r =>
    match splitQuoted? r with
    | some found => .ok found
    | none => .error ⟨.closingQuote, []⟩
  | _ =>
    if cs.head?.any startsNumeral then readNumeral cs
    else if atKeyword cs then .error ⟨.unreservedIdentifier, cs⟩
    else readBare cs

def read (cs : List Char) : Except Failure (String × List Char) :=
  match readText cs with
  | .ok (s, r) => .ok (String.ofList s, r)
  | .error failure => .error failure

end DotText.Ident
