import DotText.Cursor.Blanks

set_option autoImplicit false

/- Three loops over insignificant material, each of another shape: one that drops blanks and then
finds the end of a comment, one that takes a single character or comment at a time, and one that
goes in rounds. And what taking the material away comes to, told without a loop. -/
namespace DotText

/-- Repeat a turn until it leaves the text as it is. -/
def untilSame (turn : List Char → List Char) (cs : List Char) : List Char :=
  if (turn cs).length < cs.length then untilSame turn (turn cs) else cs
termination_by cs.length

namespace Blank

/-- Blanks and line ends. -/
def isSpacing (c : Char) : Bool :=
  isInline c || c == '\n'

/-- The text behind the comment at its start, if there is one. -/
def dropComment (cs : List Char) : List Char :=
  match cs with
  | '/' :: '/' :: _ | '#' :: _ => (splitLine cs).2
  | '/' :: '*' :: r => (splitBlock r).2
  | _ => cs

/-- Drop all blanks and line ends, and then one comment. -/
def trimAndFind (cs : List Char) : List Char :=
  dropComment (cs.dropWhile isSpacing)

/-- Drop one blank or line end, or else one comment. -/
def peekOne (cs : List Char) : List Char :=
  match cs with
  | [] => []
  | c :: r =>
    if isSpacing c then r
    else
      match cs with
      | '/' :: '*' :: r => (splitBlock r).2
      | '/' :: '/' :: r | '#' :: r => (splitLine r).2
      | _ => cs

/-- The text behind a landmark of this rank, if one comes next. -/
def dropRanked (cs : List Char) (k : Nat) : List Char :=
  match landmark? cs with
  | some (l, r) => if rank l = k then r else cs
  | none => cs

/-- The text behind the landmarks that one round takes: at most one line end, then at most one block
comment, one `//` comment and one `#` comment. -/
def afterLandmarks (cs : List Char) : List Char :=
  [0, 1, 2, 3].foldl dropRanked cs

end Blank

namespace Separators

/-- One round over insignificant material: a few characters inside a line, then a few landmarks. -/
def round (allowed : Separators) (cs : List Char) : List Char :=
  Blank.afterLandmarks (allowed.afterRound cs)

/-- The text at the start of the round that comes to a landmark, or to something else that is no
character inside a line. -/
def lastRound (allowed : Separators) (cs : List Char) : List Char :=
  if (Blank.landmark? (allowed.afterRound cs)).isNone ∧ (allowed.afterRound cs).length < cs.length
  then lastRound allowed (allowed.afterRound cs) else cs
termination_by cs.length
decreasing_by rename_i more; exact more.2

end Separators

namespace Cursor

/-- The text behind the characters inside a line that may be passed. -/
def behindInline (allowed : Separators) (c : Cursor) : List Char :=
  c.rest.dropWhile allowed.passes

/-- What an erasing pass takes away in front of the place: the line end before the gap, with the gap,
if nothing was kept since the last removal and another line end takes its place. -/
def takenBack (allowed : Separators) (c : Cursor) : List Char :=
  if c.isErasing && c.settled.getLast? == some '\n' && (c.behindInline allowed).head? == some '\n'
  then '\n' :: c.gap else []

/-- Whether an erasing pass stops behind the first landmark and those of the same round: they measure
as much as the rounds before and what is taken back, so that the pass is at the offset again where
the round began. -/
def standsStill (allowed : Separators) (c : Cursor) : Bool :=
  let behind := c.behindInline allowed
  (Blank.landmark? behind).isSome &&
    utf8Length behind == utf8Length (Blank.afterLandmarks behind) + utf8Length (c.takenBack allowed) +
      (c.rest.length - (allowed.lastRound c.rest).length)

end Cursor

end DotText
