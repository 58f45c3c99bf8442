import DotText.Lexeme

set_option autoImplicit false

/- The pieces of a text and the readers of single words agree: what a reader takes is the first
piece of the text, and a piece that a reader may take is taken whole. -/
namespace DotText

namespace Blank

theorem skip_of_landmark {cs l r : List Char} (found : landmark? cs = some (l, r)) :
    skip cs = skip r := by
  rw [skip]
  split
  · next l' r' found' =>
    rw [found, Option.some.injEq, Prod.mk.injEq] at found'
    rw [found'.2]
  · next missing => simp [found] at missing

theorem landmark?_of_isInline {c : Char} (inline : isInline c = true) (cs : List Char) :
    landmark? (c :: cs) = none := by
  unfold landmark?
  split <;> simp_all [isInline]

theorem skip_of_isInline {c : Char} (inline : isInline c = true) (cs : List Char) :
    skip (c :: cs) = skip cs := by
  rw [skip]
  split
  · next found => simp [landmark?_of_isInline inline] at found
  · simp [inline]

/-- The characters that insignificant material may begin with. -/
def mayBegin (c : Char) : Bool :=
  isInline c || c == '\n' || c == '#' || c == '/'

theorem skip_of_not_mayBegin {c : Char} (solid : mayBegin c = false) (cs : List Char) :
    skip (c :: cs) = c :: cs := by
  have missing : landmark? (c :: cs) = none := by
    unfold landmark?
    split <;> simp_all [mayBegin]
  simp only [mayBegin, Bool.or_eq_false_iff] at solid
  rw [skip]
  split
  · next found => simp [missing] at found
  · simp [solid]

theorem skip_eq_self {cs : List Char} (missing : landmark? cs = none)
    (solid : cs.head?.any isInline = false) : skip cs = cs := by
  rw [skip]
  split
  · next found => simp [missing] at found
  · cases cs with
    | nil => rfl
    | cons c r => simp_all

theorem skip_skip (cs : List Char) : skip (skip cs) = skip cs := by
  fun_induction skip cs with
  | case1 cs l r found ih => exact ih
  | case2 => simp [skip, landmark?]
  | case3 c r missing inline ih => exact ih
  | case4 c r missing solid => exact skip_eq_self missing (by simpa using solid)

end Blank

/-- Whether a condition holds of some characters is found out by going over them. -/
theorem forall_mem_of_all {p : Char → Prop} [DecidablePred p] {cs : List Char}
    (all : cs.all (p ·) = true) : ∀ c ∈ cs, p c := by
  simpa using all

/-- A run of characters that all have a property, as long as it can be, is what `takeWhile`
takes. -/
theorem takeWhile_of_boundary {p : Char → Bool} {w r : List Char} (inside : w.all p = true)
    (ends : r.head?.any p = false) : (w ++ r).takeWhile p = w ∧ (w ++ r).dropWhile p = r := by
  induction w with
  | nil => cases r <;> simp_all
  | cons c w ih => simp_all

theorem head?_dropWhile_any (p : Char → Bool) (cs : List Char) :
    (cs.dropWhile p).head?.any p = false := by
  induction cs with
  | nil => rfl
  | cons c cs ih => by_cases h : p c <;> simp_all [List.dropWhile]

namespace Ident

theorem isAlpha_of_toLower_isLower {c : Char} (lower : c.toLower.isLower = true) :
    c.isAlpha = true := by
  unfold Char.toLower at lower
  split at lower
  · next upper =>
    have upper : c.isUpper = true := decide_eq_true upper
    show (c.isUpper || c.isLower) = true
    rw [upper, Bool.true_or]
  · show (c.isUpper || c.isLower) = true
    rw [lower, Bool.or_true]

theorem le_of_isLower {c : Char} (lower : c.isLower = true) : 'a'.val.toNat ≤ c.val.toNat := by
  have bounds : (decide (c.val ≥ 'a'.val) && decide (c.val ≤ 'z'.val)) = true := lower
  rw [Bool.and_eq_true, decide_eq_true_eq, ge_iff_le, UInt32.le_iff_toNat_le] at bounds
  exact bounds.1

theorem le_of_isAlpha {c : Char} (alpha : c.isAlpha = true) : 'A'.val.toNat ≤ c.val.toNat := by
  have either : (c.isUpper || c.isLower) = true := alpha
  rcases Bool.or_eq_true_iff.mp either with upper | lower
  · have bounds : 'A'.val ≤ c.val ∧ c.val ≤ 'Z'.val := of_decide_eq_true upper
    exact UInt32.le_iff_toNat_le.mp bounds.1
  · exact Nat.le_trans (by decide) (le_of_isLower lower)

/-- The words of the language are made of small letters. -/
theorem keywords_isLower {keyword : String} (listed : keyword ∈ keywords) :
    keyword.toList.all Char.isLower = true := by
  simp only [keywords, List.mem_cons, List.not_mem_nil, or_false] at listed
  rcases listed with rfl | rfl | rfl | rfl | rfl | rfl <;> decide

theorem isAlpha_of_eqIgnoringCase {word w : List Char} (letters : word.all Char.isLower = true)
    (same : eqIgnoringCase word w = true) : w.all Char.isAlpha = true := by
  have folded : word.map Char.toLower = w.map Char.toLower := eq_of_beq same
  rw [List.all_eq_true]
  intro c mem
  apply isAlpha_of_toLower_isLower
  have image : c.toLower ∈ word.map Char.toLower := folded ▸ List.mem_map_of_mem mem
  obtain ⟨x, inWord, fold⟩ := List.mem_map.mp image
  have lower := List.all_eq_true.mp letters x inWord
  have fixed : x.toLower = x := by
    unfold Char.toLower
    split
    · next upper =>
      have first := le_of_isLower lower
      simp only [ge_iff_le, UInt32.le_iff_toNat_le] at upper
      have bounds : 'Z'.val.toNat < 'a'.val.toNat := by decide
      omega
    · rfl
  rw [← fold, fixed]
  exact lower

theorem isRest_of_eqIgnoringCase {word w : List Char} (letters : word.all Char.isLower = true)
    (same : eqIgnoringCase word w = true) : w.all isRest = true := by
  have alpha := isAlpha_of_eqIgnoringCase letters same
  rw [List.all_eq_true] at alpha ⊢
  intro c mem
  simp [isRest, isStart, alpha c mem]

/-- A word of the language is found exactly where it is the whole run of identifier characters. -/
theorem dropWord?_of_boundary {word w r : List Char} (letters : word.all Char.isLower = true)
    (inside : w.all isRest = true) (ends : r.head?.any isRest = false) :
    dropWord? word (w ++ r) = if eqIgnoringCase word w then some r else none := by
  split
  · next same => exact dropWord?_eq_some.mpr ⟨w, rfl, same, ends⟩
  · next other =>
    rw [Option.eq_none_iff_forall_ne_some]
    intro r' found
    obtain ⟨w', split, same, ends'⟩ := dropWord?_eq_some.mp found
    have first := takeWhile_of_boundary inside ends
    have second := takeWhile_of_boundary (isRest_of_eqIgnoringCase letters same) ends'
    rw [← split] at second
    rw [← first.1, second.1] at other
    exact other same

theorem atKeyword_of_boundary {w r : List Char} (inside : w.all isRest = true)
    (ends : r.head?.any isRest = false) : atKeyword (w ++ r) = isKeyword w := by
  unfold atKeyword isKeyword
  apply Bool.eq_iff_iff.mpr
  simp only [List.any_eq_true]
  constructor
  · rintro ⟨keyword, listed, found⟩
    rw [dropWord?_of_boundary (keywords_isLower listed) inside ends] at found
    refine ⟨keyword, listed, ?_⟩
    split at found
    · assumption
    · cases found
  · rintro ⟨keyword, listed, same⟩
    refine ⟨keyword, listed, ?_⟩
    rw [dropWord?_of_boundary (keywords_isLower listed) inside ends]
    simp [same]

/-- The run of identifier characters that a word begins. -/
theorem word_of_isStart {c : Char} (start : isStart c = true) (t : List Char) :
    (c :: t.takeWhile isRest).all isRest = true ∧
      c :: t = (c :: t.takeWhile isRest) ++ t.dropWhile isRest := by
  simp [isRest, start, List.takeWhile_append_dropWhile]

theorem atKeyword_of_isStart {c : Char} (start : isStart c = true) (t : List Char) :
    atKeyword (c :: t) = isKeyword (c :: t.takeWhile isRest) := by
  obtain ⟨inside, split⟩ := word_of_isStart start t
  rw [split]
  exact atKeyword_of_boundary inside (head?_dropWhile_any isRest t)

theorem not_mayBegin_of_isStart {c : Char} (start : isStart c = true) :
    Blank.mayBegin c = false := by
  have solid : ∀ x ∈ [' ', '\t', '\r', '\n', '#', '/'], isStart x = false :=
    forall_mem_of_all (by decide)
  have other : ∀ x ∈ [' ', '\t', '\r', '\n', '#', '/'], c ≠ x := by
    rintro x listed rfl
    simp [solid c listed] at start
  simp_all [Blank.mayBegin, Blank.isInline]

theorem not_mayBegin_of_startsNumeral {c : Char} (start : startsNumeral c = true) :
    Blank.mayBegin c = false := by
  have solid : ∀ x ∈ [' ', '\t', '\r', '\n', '#', '/'], startsNumeral x = false :=
    forall_mem_of_all (by decide)
  have other : ∀ x ∈ [' ', '\t', '\r', '\n', '#', '/'], c ≠ x := by
    rintro x listed rfl
    simp [solid c listed] at start
  simp_all [Blank.mayBegin, Blank.isInline]

theorem isDigit_of_isStart {c : Char} (start : isStart c = true) : c.isDigit = false := by
  rw [← Bool.not_eq_true]
  intro digit
  simp only [Char.isDigit, Bool.and_eq_true, decide_eq_true_eq, ge_iff_le,
    UInt32.le_iff_toNat_le] at digit
  have bounds : '9'.val.toNat = 57 ∧ 'A'.val.toNat = 65 := by decide
  simp only [isStart, Bool.or_eq_true, decide_eq_true_eq, beq_iff_eq] at start
  rcases start with (alpha | rfl) | beyond
  · have first := le_of_isAlpha alpha
    omega
  · exact absurd digit (by decide)
  · have beyond : 128 ≤ c.val.toNat := beyond
    omega

theorem startsNumeral_of_isStart {c : Char} (start : isStart c = true) :
    startsNumeral c = false := by
  have sign : c ≠ '-' := by rintro rfl; exact absurd start (by decide)
  have point : c ≠ '.' := by rintro rfl; exact absurd start (by decide)
  simp [startsNumeral, sign, point, isDigit_of_isStart start]

theorem startsOp_of_readNumeral {c : Char} {cs : List Char} {found : List Char × List Char}
    (read : readNumeral (c :: cs) = .ok found) : Lexeme.startsOp c cs = false := by
  rw [← Bool.not_eq_true]
  intro op
  simp only [Lexeme.startsOp, Bool.and_eq_true, Bool.or_eq_true, beq_iff_eq] at op
  obtain ⟨rfl, second⟩ := op
  have none : splitUnsigned? cs = none := by
    cases cs with
    | nil => simp at second
    | cons x cs =>
      simp only [List.head?_cons, Option.some.injEq] at second
      rcases second with rfl | rfl <;> simp [splitUnsigned?, Char.isDigit]
  simp [readNumeral, readUnsigned, none] at read

end Ident

namespace Lexeme

theorem all_of_skip_nil {cs : List Char} (nothing : Blank.skip cs = []) : all cs = [] := by
  rw [all]
  split
  · rfl
  · next found => simp [next?, nothing] at found

theorem all_of_skip_cons {cs t : List Char} {c : Char} (start : Blank.skip cs = c :: t) :
    all cs = (first c t).1 :: all (first c t).2 := by
  rw [all]
  split
  · next missing => simp [next?, start] at missing
  · next piece r found =>
    simp only [next?, start, Option.some.injEq] at found
    rw [found]

/-- Insignificant material at the start of a text holds no pieces. -/
theorem all_skip (cs : List Char) : all (Blank.skip cs) = all cs := by
  have again := Blank.skip_skip cs
  cases start : Blank.skip cs with
  | nil =>
    rw [start] at again
    rw [all_of_skip_nil start, all_of_skip_nil again]
  | cons c t =>
    rw [start] at again
    rw [all_of_skip_cons start, all_of_skip_cons again]

theorem all_eq_nil {cs : List Char} : all cs = [] ↔ Blank.skip cs = [] := by
  constructor
  · intro empty
    cases start : Blank.skip cs with
    | nil => rfl
    | cons c t => simp [all_of_skip_cons start] at empty
  · exact all_of_skip_nil

/-- What is known of the text `c :: cs` when its first piece is this one, with `r` behind it. -/
def Opens : Lexeme → Char → List Char → List Char → Prop
  | quoted s, c, cs, r => c = '"' ∧ Ident.splitQuoted? cs = some (s, r)
  | html s, c, cs, r => c = '<' ∧ Html.splitClosed? 0 cs = some (s, r)
  | numeral n, c, cs, r => Ident.startsNumeral c = true ∧ Ident.readNumeral (c :: cs) = .ok (n, r)
  | word w, c, cs, r =>
    Ident.isStart c = true ∧ w = c :: cs.takeWhile Ident.isRest ∧ r = cs.dropWhile Ident.isRest
  | mark m, c, cs, r =>
    (startsOp c cs = true ∧ m = c :: cs.take 1 ∧ r = cs.drop 1) ∨
      (isPunctuation c = true ∧ m = [c] ∧ r = cs)
  | separator x, c, cs, r => (c = ',' ∨ c = ';') ∧ x = c ∧ r = cs
  | stray x, c, cs, r => x = c ∧ r = cs

theorem opens_first (c : Char) (cs : List Char) : (first c cs).1.Opens c cs (first c cs).2 := by
  unfold first
  split
  · next quote => cases found : Ident.splitQuoted? cs <;> simp [Opens, quote, found]
  split
  · next bracket => cases found : Html.splitClosed? 0 cs <;> simp [Opens, bracket, found]
  split
  · next op => simp [Opens, op]
  split
  · next digit => cases read : Ident.readNumeral (c :: cs) <;> simp [Opens, digit, read]
  split
  · next start => simp [Opens, start]
  split
  · next punctuation => simp [Opens, punctuation]
  split
  · next separator => simpa [Opens] using separator
  · simp [Opens]

theorem first_of_opens (piece : Lexeme) {c : Char} {cs r : List Char} (opens : piece.Opens c cs r)
    (known : ∀ x, piece ≠ .stray x) : first c cs = (piece, r) := by
  cases piece with
  | quoted s =>
    obtain ⟨rfl, found⟩ := opens
    simp [first, found]
  | html s =>
    obtain ⟨rfl, found⟩ := opens
    simp [first, found]
  | numeral n =>
    obtain ⟨digit, read⟩ := opens
    have quote : c ≠ '"' := by rintro rfl; exact absurd digit (by decide)
    have bracket : c ≠ '<' := by rintro rfl; exact absurd digit (by decide)
    simp [first, quote, bracket, Ident.startsOp_of_readNumeral read, digit, read]
  | word w =>
    obtain ⟨start, rfl, rfl⟩ := opens
    have quote : c ≠ '"' := by rintro rfl; exact absurd start (by decide)
    have bracket : c ≠ '<' := by rintro rfl; exact absurd start (by decide)
    have sign : c ≠ '-' := by rintro rfl; exact absurd start (by decide)
    simp [first, quote, bracket, startsOp, sign, Ident.startsNumeral_of_isStart start, start]
  | mark m =>
    rcases opens with ⟨op, rfl, rfl⟩ | ⟨punctuation, rfl, rfl⟩
    · have sign : c = '-' := by simp only [startsOp, Bool.and_eq_true, beq_iff_eq] at op; exact op.1
      subst sign
      simp [first, op]
    · have listed : c ∈ ['{', '}', '[', ']', '=', ':'] := by
        simpa [isPunctuation, or_assoc] using punctuation
      have plain : ∀ x ∈ ['{', '}', '[', ']', '=', ':'], x ≠ '"' ∧ x ≠ '<' ∧ x ≠ '-' ∧
          Ident.startsNumeral x = false ∧ Ident.isStart x = false :=
        forall_mem_of_all (by decide)
      obtain ⟨quote, bracket, sign, digit, start⟩ := plain c listed
      simp [first, quote, bracket, startsOp, sign, digit, start, punctuation]
  | separator x =>
    obtain ⟨listed, rfl, rfl⟩ := opens
    rcases listed with rfl | rfl <;>
      simp [first, startsOp, Ident.startsNumeral, Ident.isStart, isPunctuation]
  | stray x => exact absurd rfl (known x)

/-- The text `cs` consists of these pieces and then of `r`. -/
def Takes (cs : List Char) (pieces : List Lexeme) (r : List Char) : Prop :=
  all cs = pieces ++ all r ∧ pieces.length + r.length ≤ cs.length

theorem Takes.refl (cs : List Char) : Takes cs [] cs :=
  ⟨rfl, by simp⟩

theorem Takes.append {cs r r' : List Char} {pieces others : List Lexeme} (start : Takes cs pieces r)
    (next : Takes r others r') : Takes cs (pieces ++ others) r' := by
  refine ⟨by rw [start.1, next.1, List.append_assoc], ?_⟩
  have first := start.2
  have second := next.2
  rw [List.length_append]
  omega

theorem Takes.skip {cs r : List Char} {pieces : List Lexeme} (takes : Takes cs pieces r) :
    Takes cs pieces (Blank.skip r) := by
  refine ⟨by rw [takes.1, all_skip], ?_⟩
  have whole := takes.2
  have shorter := (Blank.skip_suffix r).length_le
  omega

theorem Takes.of_skip {cs r : List Char} {pieces : List Lexeme}
    (takes : Takes (Blank.skip cs) pieces r) : Takes cs pieces r := by
  refine ⟨by rw [← all_skip, takes.1], ?_⟩
  have whole := takes.2
  have shorter := (Blank.skip_suffix cs).length_le
  omega

theorem takes_of_first {piece : Lexeme} {c : Char} {cs r : List Char}
    (first : Lexeme.first c cs = (piece, r)) (solid : Blank.skip (c :: cs) = c :: cs) :
    Takes (c :: cs) [piece] r := by
  have shorter : r.length ≤ cs.length := by simpa [first] using length_first c cs
  refine ⟨by rw [all_of_skip_cons solid, first]; rfl, ?_⟩
  simp only [List.length_cons, List.length_nil]
  omega

theorem not_mayBegin_of_isPunctuation {c : Char} (punctuation : isPunctuation c = true) :
    Blank.mayBegin c = false := by
  have listed : c ∈ ['{', '}', '[', ']', '=', ':'] := by
    simpa [isPunctuation, or_assoc] using punctuation
  have solid : ∀ x ∈ ['{', '}', '[', ']', '=', ':'], Blank.mayBegin x = false :=
    forall_mem_of_all (by decide)
  exact solid c listed

/-- No piece begins the way insignificant material does. -/
theorem not_mayBegin_of_opens {piece : Lexeme} {c : Char} {cs r : List Char}
    (opens : piece.Opens c cs r) (known : ∀ x, piece ≠ .stray x) : Blank.mayBegin c = false := by
  cases piece with
  | quoted | html =>
    rw [opens.1]
    decide
  | numeral => exact Ident.not_mayBegin_of_startsNumeral opens.1
  | word => exact Ident.not_mayBegin_of_isStart opens.1
  | mark =>
    rcases opens with ⟨op, -, -⟩ | ⟨punctuation, -, -⟩
    · simp only [startsOp, Bool.and_eq_true, beq_iff_eq] at op
      rw [op.1]
      decide
    · exact not_mayBegin_of_isPunctuation punctuation
  | separator => rcases opens.1 with rfl | rfl <;> decide
  | stray x => exact absurd rfl (known x)

theorem takes_of_opens {piece : Lexeme} {c : Char} {cs r : List Char} (opens : piece.Opens c cs r)
    (known : ∀ x, piece ≠ .stray x) : Takes (c :: cs) [piece] r :=
  takes_of_first (first_of_opens piece opens known)
    (Blank.skip_of_not_mayBegin (not_mayBegin_of_opens opens known) cs)

end Lexeme

end DotText
