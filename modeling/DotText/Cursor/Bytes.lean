import DotText.Cursor.Basic

set_option autoImplicit false

/- A text as it lies in memory, in UTF-8. A part of it is told by offsets in bytes, and there is such
a part only where a character begins at the offset or the text ends there. -/
namespace DotText

/-- A text in UTF-8. -/
def utf8 (cs : List Char) : List UInt8 :=
  cs.flatMap String.utf8EncodeChar

theorem utf8_cons (c : Char) (cs : List Char) :
    utf8 (c :: cs) = String.utf8EncodeChar c ++ utf8 cs :=
  List.flatMap_cons

theorem utf8_append (cs ds : List Char) : utf8 (cs ++ ds) = utf8 cs ++ utf8 ds :=
  List.flatMap_append

theorem length_utf8 (cs : List Char) : (utf8 cs).length = utf8Length cs := by
  induction cs with
  | nil => rfl
  | cons c cs ih => rw [utf8_cons, List.length_append, String.length_utf8EncodeChar, ih, utf8Length]

/-- Whether a character begins at the offset or the text ends there. -/
def IsBoundary (cs : List Char) (offset : Nat) : Prop :=
  ∃ front, front <+: cs ∧ utf8Length front = offset

/-- The text up to an offset and the text from there on. -/
def splitAtByte? : Nat → List Char → Option (List Char × List Char)
  | 0, cs => some ([], cs)
  | _ + 1, [] => none
  | n + 1, c :: cs =>
    if c.utf8Size ≤ n + 1 then
      (splitAtByte? (n + 1 - c.utf8Size) cs).map fun (front, rest) => (c :: front, rest)
    else none

theorem splitAtByte?_append (front rest : List Char) :
    splitAtByte? (utf8Length front) (front ++ rest) = some (front, rest) := by
  induction front with
  | nil => simp [utf8Length, splitAtByte?]
  | cons c front ih =>
    have size := c.utf8Size_pos
    obtain ⟨n, length⟩ : ∃ n, utf8Length (c :: front) = n + 1 :=
      ⟨c.utf8Size + utf8Length front - 1, by rw [utf8Length]; omega⟩
    have left : n + 1 - c.utf8Size = utf8Length front := by
      rw [← length, utf8Length, Nat.add_sub_cancel_left]
    have within : c.utf8Size ≤ n + 1 := by
      rw [← length, utf8Length]
      exact Nat.le_add_right _ _
    rw [length, List.cons_append, splitAtByte?, if_pos within, left, ih]
    rfl

/-- The text without what lies between two offsets. -/
def cutBytes? (start stop : Nat) (cs : List Char) : Option (List Char) :=
  if start < stop then do
    let (front, _) ← splitAtByte? start cs
    let (_, rest) ← splitAtByte? stop cs
    some (front ++ rest)
  else some cs

theorem cutBytes?_append (front middle rest : List Char) :
    cutBytes? (utf8Length front) (utf8Length (front ++ middle)) (front ++ (middle ++ rest)) =
      some (front ++ rest) := by
  cases middle with
  | nil => rw [List.append_nil, cutBytes?, if_neg (Nat.lt_irrefl _), List.nil_append]
  | cons c middle =>
    have some : utf8Length front < utf8Length (front ++ c :: middle) := by
      have more := utf8Length_pos (List.cons_ne_nil c middle)
      rw [utf8Length_append]
      omega
    rw [cutBytes?, if_pos some, splitAtByte?_append, ← List.append_assoc, splitAtByte?_append]
    rfl

/-- A difference of offsets, which cannot be negative. -/
def subtract? (m n : Nat) : Option Nat :=
  if n ≤ m then some (m - n) else none

/-- The offset of the first place where `part` stands in a text. -/
def offsetOf? (part : List Char) : List Char → Option Nat
  | [] => if part.isEmpty then some 0 else none
  | c :: cs =>
    if part.isPrefixOf (c :: cs) then some 0 else (offsetOf? part cs).map (c.utf8Size + ·)

/-- The size of `part`, if a text begins with it. -/
def sizeAtStart? (part cs : List Char) : Option Nat :=
  if part.isPrefixOf cs then some (utf8Length part) else none

/-- The bytes of blanks inside a line. -/
def isInlineByte (b : UInt8) : Bool :=
  b == ' '.toUInt8 || b == '\t'.toUInt8 || b == '\r'.toUInt8

/-- The bytes that keep two words apart where statements stand next to each other. -/
def separatesByte (b : UInt8) : Bool :=
  isInlineByte b || b == '\n'.toUInt8 || b == ';'.toUInt8

/-- The bytes of the characters that a bare identifier may go on with. -/
def isIdentByte (b : UInt8) : Bool :=
  ('a'.toUInt8 ≤ b && b ≤ 'z'.toUInt8) || ('A'.toUInt8 ≤ b && b ≤ 'Z'.toUInt8) ||
    ('0'.toUInt8 ≤ b && b ≤ '9'.toUInt8) || b == '_'.toUInt8 || 0x80 ≤ b

/-- A byte with a letter from A to Z made small. -/
def lowerByte (b : UInt8) : UInt8 :=
  if 'A'.toUInt8 ≤ b && b ≤ 'Z'.toUInt8 then b + 0x20 else b

end DotText
