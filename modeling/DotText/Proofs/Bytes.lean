import DotText.Cursor.Bytes
import DotText.Ident

set_option autoImplicit false

/- What can be told of a text by its bytes. A character below U+0080 is one byte, and that byte stands
for nothing else; every byte of another character is 0x80 or more. So a look at one byte finds an
ASCII character exactly where there is one, and never a part of another. -/
namespace DotText

theorem utf8Length_le_of_suffix {cs ds : List Char} (suffix : cs <:+ ds) :
    utf8Length cs ≤ utf8Length ds := by
  obtain ⟨front, whole⟩ := suffix
  rw [← whole, utf8Length_append]
  exact Nat.le_add_left _ _

theorem encode_of_ascii {c : Char} (ascii : c.toNat < 0x80) :
    String.utf8EncodeChar c = [c.toUInt8] := by
  apply String.utf8EncodeChar_eq_singleton
  rw [Char.utf8Size_eq_one_iff, UInt32.le_iff_toNat_le]
  have small : c.val.toNat < 0x80 := ascii
  have bound : (127 : UInt32).toNat = 127 := rfl
  omega

theorem utf8Length_of_ascii {c : Char} (ascii : c.toNat < 0x80) : utf8Length [c] = 1 := by
  rw [← length_utf8, utf8_cons, encode_of_ascii ascii]
  rfl

theorem le_of_mem_encode {c : Char} (wide : 0x80 ≤ c.toNat) {b : UInt8}
    (mem : b ∈ String.utf8EncodeChar c) : 0x80 ≤ b.toNat := by
  have high (x y : UInt8) (big : 0x80 ≤ y.toNat) : 0x80 ≤ (x ||| y).toNat := by
    rw [UInt8.toNat_or]
    exact Nat.le_trans big Nat.right_le_or
  rcases c.utf8Size_eq with one | two | three | four
  · rw [Char.utf8Size_eq_one_iff, UInt32.le_iff_toNat_le] at one
    have large : 0x80 ≤ c.val.toNat := wide
    have bound : (127 : UInt32).toNat = 127 := rfl
    omega
  · rw [String.utf8EncodeChar_eq_cons_cons two] at mem
    simp only [List.mem_cons, List.not_mem_nil, or_false] at mem
    rcases mem with rfl | rfl <;> exact high _ _ (by decide)
  · rw [String.utf8EncodeChar_eq_cons_cons_cons three] at mem
    simp only [List.mem_cons, List.not_mem_nil, or_false] at mem
    rcases mem with rfl | rfl | rfl <;> exact high _ _ (by decide)
  · rw [String.utf8EncodeChar_eq_cons_cons_cons_cons four] at mem
    simp only [List.mem_cons, List.not_mem_nil, or_false] at mem
    rcases mem with rfl | rfl | rfl | rfl <;> exact high _ _ (by decide)

/-- No character begins with the bytes of another. -/
theorem encode_append_inj {c d : Char} {bs ds : List UInt8}
    (same : String.utf8EncodeChar c ++ bs = String.utf8EncodeChar d ++ ds) : c = d ∧ bs = ds := by
  have decoded := congrArg (fun l => ByteArray.utf8DecodeChar? (List.toByteArray l) 0) same
  simp only [List.toByteArray_append, ByteArray.utf8DecodeChar?_utf8EncodeChar_append,
    Option.some.injEq] at decoded
  subst decoded
  exact ⟨rfl, List.append_cancel_left same⟩

theorem utf8_isPrefix_iff (cs ds : List Char) : utf8 cs <+: utf8 ds ↔ cs <+: ds := by
  induction cs generalizing ds with
  | nil => exact ⟨fun _ => List.nil_prefix, fun _ => List.nil_prefix⟩
  | cons c cs ih =>
    cases ds with
    | nil =>
      rw [utf8_cons]
      constructor
      · intro front
        have empty := List.prefix_nil.mp front
        exact absurd (List.append_eq_nil_iff.mp empty).1 String.utf8EncodeChar_ne_nil
      · intro front
        exact absurd (List.prefix_nil.mp front) (List.cons_ne_nil c cs)
    | cons d ds =>
      rw [List.cons_prefix_cons, ← ih, utf8_cons, utf8_cons]
      constructor
      · rintro ⟨bs, whole⟩
        rw [List.append_assoc] at whole
        obtain ⟨same, rest⟩ := encode_append_inj whole
        exact ⟨same, bs, rest⟩
      · rintro ⟨rfl, bs, rest⟩
        exact ⟨bs, by rw [List.append_assoc, rest]⟩

/-- A test of bytes tells of each byte of a character what a test of characters tells of it. -/
def Tells (test : UInt8 → Bool) (p : Char → Bool) : Prop :=
  ∀ c, ∀ b ∈ String.utf8EncodeChar c, test b = p c

namespace Tells

variable {test test' : UInt8 → Bool} {p p' : Char → Bool}

/-- It is enough to know of the ASCII characters, if the others are all told alike. -/
theorem of_ascii (answer : Bool) (low : ∀ c : Char, c.toNat < 0x80 → test c.toUInt8 = p c)
    (high : ∀ b : UInt8, 0x80 ≤ b.toNat → test b = answer)
    (wide : ∀ c : Char, 0x80 ≤ c.toNat → p c = answer) : Tells test p := by
  intro c b mem
  by_cases ascii : c.toNat < 0x80
  · rw [encode_of_ascii ascii, List.mem_singleton] at mem
    rw [mem, low c ascii]
  · have large : 0x80 ≤ c.toNat := by omega
    rw [high b (le_of_mem_encode large mem), wide c large]

theorem or (first : Tells test p) (second : Tells test' p') :
    Tells (fun b => test b || test' b) (fun c => p c || p' c) := by
  intro c b mem
  simp only [first c b mem, second c b mem]

theorem and (condition : Bool) (first : Tells test p) :
    Tells (fun b => condition && test b) (fun c => condition && p c) := by
  intro c b mem
  simp only [first c b mem]

end Tells

theorem toNat_toUInt8 {c : Char} (ascii : c.toNat < 0x80) : c.toUInt8.toNat = c.toNat := by
  have value : c.toUInt8.toNat = c.toNat % 256 := rfl
  omega

theorem tells_eq (x : Char) (ascii : x.toNat < 0x80) : Tells (· == x.toUInt8) (· == x) := by
  apply Tells.of_ascii false
  · intro c small
    apply Bool.eq_iff_iff.mpr
    rw [beq_iff_eq, beq_iff_eq]
    constructor
    · intro same
      have values := congrArg UInt8.toNat same
      rw [toNat_toUInt8 small, toNat_toUInt8 ascii] at values
      exact Char.toNat_inj.mp values
    · intro same
      rw [same]
  · intro b large
    apply beq_eq_false_iff_ne.mpr
    intro same
    rw [same, toNat_toUInt8 ascii] at large
    omega
  · intro c large
    apply beq_eq_false_iff_ne.mpr
    intro same
    rw [same] at large
    omega

/-- A range of ASCII characters is a range of bytes. -/
theorem tells_range (first last : Char) (low : first.toNat < 0x80) (high : last.toNat < 0x80) :
    Tells (fun b => first.toUInt8 ≤ b && b ≤ last.toUInt8)
      (fun c => first.toNat ≤ c.toNat ∧ c.toNat ≤ last.toNat) := by
  apply Tells.of_ascii false
  · intro c small
    simp only [UInt8.le_iff_toNat_le, toNat_toUInt8 low, toNat_toUInt8 high, toNat_toUInt8 small,
      Bool.decide_and]
  · intro b large
    have beyond : ¬b ≤ last.toUInt8 := by
      rw [UInt8.le_iff_toNat_le, toNat_toUInt8 high]
      omega
    simp [beyond]
  · intro c large
    exact decide_eq_false (by omega)

theorem tells_wide : Tells (fun b => 0x80 ≤ b) (fun c => 0x80 ≤ c.toNat) := by
  apply Tells.of_ascii true
  · intro c small
    simp only [UInt8.le_iff_toNat_le, toNat_toUInt8 small]
    rfl
  · intro b large
    exact decide_eq_true (UInt8.le_iff_toNat_le.mpr large)
  · intro c large
    exact decide_eq_true large

theorem tells_isIdentByte : Tells isIdentByte Ident.isRest := by
  have small := tells_range 'a' 'z' (by decide) (by decide)
  have capital := tells_range 'A' 'Z' (by decide) (by decide)
  have digit := tells_range '0' '9' (by decide) (by decide)
  have whole := (((small.or capital).or digit).or (tells_eq '_' (by decide))).or tells_wide
  intro c b mem
  have told : isIdentByte b = _ := whole c b mem
  have lower : c.isLower = decide ('a'.toNat ≤ c.toNat ∧ c.toNat ≤ 'z'.toNat) :=
    (Bool.decide_and _ _).symm
  have upper : c.isUpper = decide ('A'.toNat ≤ c.toNat ∧ c.toNat ≤ 'Z'.toNat) := rfl
  have number : c.isDigit = decide ('0'.toNat ≤ c.toNat ∧ c.toNat ≤ '9'.toNat) :=
    (Bool.decide_and _ _).symm
  have letter : c.isAlpha = (c.isUpper || c.isLower) := rfl
  simp only [← lower, ← upper, ← number] at told
  rw [told, Ident.isRest, Ident.isStart, letter]
  ac_rfl

theorem Blank.toNat_of_isInline {c : Char} (inline : isInline c = true) : c.toNat < 0x80 := by
  rw [isInline, Bool.or_eq_true, Bool.or_eq_true, beq_iff_eq, beq_iff_eq, beq_iff_eq] at inline
  rcases inline with (rfl | rfl) | rfl <;> decide

theorem tells_isInlineByte : Tells isInlineByte Blank.isInline :=
  ((tells_eq ' ' (by decide)).or (tells_eq '\t' (by decide))).or (tells_eq '\r' (by decide))

/-- Of the byte at an offset, a test tells of the character that begins there. -/
theorem any_getElem?_utf8 {test : UInt8 → Bool} {p : Char → Bool} (tells : Tells test p)
    (front rest : List Char) :
    ((utf8 (front ++ rest))[utf8Length front]?).any test = rest.head?.any p := by
  rw [utf8_append, ← length_utf8, List.getElem?_append_right (Nat.le_refl _), Nat.sub_self]
  cases rest with
  | nil => rfl
  | cons c rest =>
    rw [utf8_cons]
    cases encoded : String.utf8EncodeChar c with
    | nil => exact absurd encoded String.utf8EncodeChar_ne_nil
    | cons b bs =>
      have mem : b ∈ String.utf8EncodeChar c := by
        rw [encoded]
        exact List.mem_cons_self
      exact tells c b mem

/-- The byte in front of an offset is the last one of the character that ends there. -/
theorem exists_getElem?_utf8_pred {front : List Char} (some : front ≠ []) (rest : List Char) :
    ∃ b x, (utf8 (front ++ rest))[utf8Length front - 1]? = Option.some b ∧
      front.getLast? = Option.some x ∧ b ∈ String.utf8EncodeChar x := by
  obtain ⟨start, x, rfl⟩ : ∃ start x, front = start ++ [x] :=
    ⟨front.dropLast, front.getLast some, (List.dropLast_concat_getLast some).symm⟩
  have inside : utf8Length (start ++ [x]) - 1 < (utf8 (start ++ [x])).length := by
    have more := utf8Length_pos some
    rw [length_utf8]
    omega
  have last : utf8 [x] = String.utf8EncodeChar x := by
    rw [utf8_cons]
    exact List.append_nil _
  refine ⟨(String.utf8EncodeChar x).getLast String.utf8EncodeChar_ne_nil, x, ?_,
    List.getLast?_concat, List.getLast_mem _⟩
  rw [utf8_append, List.getElem?_append_left inside, ← length_utf8, ← List.getLast?_eq_getElem?,
    utf8_append, last, List.getLast?_append,
    List.getLast?_eq_some_getLast String.utf8EncodeChar_ne_nil, Option.some_or]

theorem toNat_toLower (c : Char) :
    c.toLower.toNat = if 'A'.toNat ≤ c.toNat ∧ c.toNat ≤ 'Z'.toNat then c.toNat + 32 else c.toNat := by
  unfold Char.toLower
  split
  · next capital =>
    have ordered : 'A'.toNat ≤ c.toNat ∧ c.toNat ≤ 'Z'.toNat := capital
    rw [if_pos ordered]
    have last : 'Z'.toNat = 90 := rfl
    have sum : (c.val + ('a'.val - 'A'.val)).toNat = (c.val.toNat + 32) % 2 ^ 32 :=
      UInt32.toNat_add _ _
    have value : c.val.toNat = c.toNat := rfl
    change (c.val + ('a'.val - 'A'.val)).toNat = _
    omega
  · next other =>
    have apart : ¬('A'.toNat ≤ c.toNat ∧ c.toNat ≤ 'Z'.toNat) := other
    rw [if_neg apart]

/-- The letters are made small byte by byte. -/
theorem map_lowerByte_encode (c : Char) :
    (String.utf8EncodeChar c).map lowerByte = String.utf8EncodeChar c.toLower := by
  have lower := toNat_toLower c
  have capital := tells_range 'A' 'Z' (by decide) (by decide)
  by_cases ordered : 'A'.toNat ≤ c.toNat ∧ c.toNat ≤ 'Z'.toNat
  · have last : 'Z'.toNat = 90 := rfl
    have ascii : c.toNat < 0x80 := by omega
    rw [if_pos ordered] at lower
    have small : c.toLower.toNat < 0x80 := by omega
    have mem : c.toUInt8 ∈ String.utf8EncodeChar c := by
      rw [encode_of_ascii ascii]
      exact List.mem_singleton_self _
    have step : lowerByte c.toUInt8 = c.toUInt8 + 0x20 :=
      if_pos ((capital c _ mem).trans (decide_eq_true ordered))
    have same : c.toUInt8 + 0x20 = c.toLower.toUInt8 := by
      apply UInt8.toNat_inj.mp
      rw [UInt8.toNat_add, toNat_toUInt8 ascii, toNat_toUInt8 small, lower]
      have size : (0x20 : UInt8).toNat = 32 := rfl
      omega
    rw [encode_of_ascii ascii, encode_of_ascii small, List.map_singleton, step, same]
  · rw [if_neg ordered] at lower
    rw [Char.toNat_inj.mp lower]
    have same (b : UInt8) (mem : b ∈ String.utf8EncodeChar c) : lowerByte b = b := by
      have missing := (capital c b mem).trans (decide_eq_false ordered)
      exact if_neg (Bool.eq_false_iff.mp missing)
    rw [List.map_congr_left same, List.map_id']

theorem map_lowerByte_utf8 (cs : List Char) :
    (utf8 cs).map lowerByte = utf8 (cs.map Char.toLower) := by
  induction cs with
  | nil => rfl
  | cons c cs ih =>
    rw [utf8_cons, List.map_append, map_lowerByte_encode, ih, List.map_cons, utf8_cons]

end DotText
