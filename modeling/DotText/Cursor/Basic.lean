import DotText.Cursor.Separators

set_option autoImplicit false

/- A place in a text that is being edited. What lies before the place is split in two: the text up
to the last token or landmark that was kept, and the gap after it, which is given up when nothing
but removals follows. -/
namespace DotText

/-- The size of a text in UTF-8. -/
def utf8Length : List Char → Nat
  | [] => 0
  | c :: cs => c.utf8Size + utf8Length cs

theorem utf8Length_append (cs ds : List Char) :
    utf8Length (cs ++ ds) = utf8Length cs + utf8Length ds := by
  induction cs with
  | nil => exact (Nat.zero_add _).symm
  | cons c cs ih => rw [List.cons_append, utf8Length, ih, utf8Length, Nat.add_assoc]

theorem utf8Length_pos {cs : List Char} (some : cs ≠ []) : 0 < utf8Length cs := by
  cases cs with
  | nil => exact absurd rfl some
  | cons c cs => exact Nat.add_pos_left c.utf8Size_pos _

/-- A text and a place in it, and what has been removed so far. -/
structure Cursor where
  /-- The text up to the last token or landmark that was kept. -/
  settled : List Char
  /-- The text from there to the place. -/
  gap : List Char
  /-- The text after the place. -/
  rest : List Char
  /-- Where the last removal was, in bytes from the start. -/
  removal : Option Nat
  /-- How many elements have been counted as erased. -/
  erased : Nat
  deriving DecidableEq

namespace Cursor

def ofText (cs : List Char) : Cursor :=
  ⟨[], [], cs, none, 0⟩

/-- The text before the place. -/
def before (c : Cursor) : List Char :=
  c.settled ++ c.gap

/-- The whole text. -/
def text (c : Cursor) : List Char :=
  c.before ++ c.rest

/-- The place, in bytes from the start. -/
def offset (c : Cursor) : Nat :=
  utf8Length c.before

/-- Whether the last removal lies no further back than the settled text, as it does until something
is kept after it. The offset of a removal stays what it was when text in front of it is trimmed or
inserted. -/
def isErasing (c : Cursor) : Bool :=
  c.removal.any (utf8Length c.settled ≤ ·)

/-- Move past `kept`, the start of the rest, and settle everything before the new place. -/
def keep (c : Cursor) (kept rest : List Char) : Cursor :=
  { c with settled := c.before ++ kept, gap := [], rest := rest }

theorem text_keep (c : Cursor) {kept r : List Char} (start : kept ++ r = c.rest) :
    (c.keep kept r).text = c.text := by
  simp [keep, text, before, ← start]

/-- Take away the start of the rest, so that `rest` remains. -/
def cut (c : Cursor) (rest : List Char) : Cursor :=
  { c with rest := rest, removal := some c.offset }

/-- Give up the gap behind a removal, if nothing was kept after that. -/
def trim (c : Cursor) : Cursor :=
  if c.isErasing then { c with gap := [] } else c

/-- Put a text in front of the place. -/
def insert (s : List Char) (c : Cursor) : Cursor :=
  { c with gap := c.gap ++ s }

def countErased (c : Cursor) : Cursor :=
  { c with erased := c.erased + 1 }

/-- Whether the place is at the start or after a character that keeps two words apart. -/
def followsSeparator (c : Cursor) : Bool :=
  match c.before.getLast? with
  | none => true
  | some x => Separators.ofStatements.passes x || x == '\n'

/-- Whether the place begins a line, other than the first. -/
def followsNewline (c : Cursor) : Bool :=
  c.before.getLast? == some '\n'

end Cursor

end DotText
