import DotText.Cursor.Bytes
import DotText.Cursor.Step

set_option autoImplicit false

/- A cursor that has nothing but the text and offsets into it, in bytes. An operation comes to nothing
where it would take a part of the text that begins or ends inside a character or outside the text,
where a difference of offsets would be negative, and where a loop would not get on. -/
namespace DotText

/-- The size of a token in bytes, if it stands at the start of `cs`. -/
def Token.size? (token : Token) (cs : List Char) : Option Nat :=
  match token with
  | keyword word =>
    let size := (utf8 word).length
    if size ≤ (utf8 cs).length &&
        ((utf8 cs).take size).map lowerByte == (utf8 word).map lowerByte &&
        !((utf8 cs)[size]?.any isIdentByte) then
      some size
    else none
  | ident name => sizeAtStart? (if cs.head? = some '"' then Ident.quote name else name) cs
  | html label =>
    match cs with
    | '<' :: r =>
      if label.isPrefixOf r && (r.drop label.length).head? == some '>' then
        some (utf8Length label + 2)
      else none
    | _ => none
  | mark text => sizeAtStart? text cs

/-- A text, a place in it, and what has been removed so far, told by offsets. -/
structure OffsetCursor where
  text : List Char
  place : Nat
  /-- The end of the last token or landmark that was kept. -/
  mark : Nat
  /-- Where the last removal was. -/
  removal : Option Nat
  /-- How many elements have been counted as erased. -/
  erased : Nat
  deriving DecidableEq

/-- The offsets of a cursor. -/
def Cursor.toOffsets (c : Cursor) : OffsetCursor :=
  ⟨c.text, c.offset, utf8Length c.settled, c.removal, c.erased⟩

namespace OffsetCursor

def ofText (cs : List Char) : OffsetCursor :=
  ⟨cs, 0, 0, none, 0⟩

/-- The mark comes no later than the place and the place no later than the end of the text, and at both
of them the text can be taken apart. -/
structure InPlace (c : OffsetCursor) : Prop where
  ordered : c.mark ≤ c.place
  within : c.place ≤ utf8Length c.text
  mark : IsBoundary c.text c.mark
  place : IsBoundary c.text c.place

def byteAt? (c : OffsetCursor) (i : Nat) : Option UInt8 :=
  (utf8 c.text)[i]?

def textFrom? (c : OffsetCursor) (i : Nat) : Option (List Char) :=
  (splitAtByte? i c.text).map Prod.snd

/-- How much of the text lies from `i` on. -/
def remaining (c : OffsetCursor) (i : Nat) : Nat :=
  utf8Length c.text - i

/-- Where `part` ends, if it stands anywhere from `i` on, or else the end of the text. -/
def endOf (part : List Char) (c : OffsetCursor) (i : Nat) : Nat :=
  match (c.textFrom? i).bind (offsetOf? part) with
  | some n => i + n + utf8Length part
  | none => utf8Length c.text

/-- Where the landmark of this rank ends that begins at `i`, if there is one. -/
def landmarkEnd? (c : OffsetCursor) (i : Nat) : Nat → Option (Option Nat)
  | 0 => some (if c.byteAt? i == some '\n'.toUInt8 then some (i + 1) else none)
  | 1 => do
    let rest ← c.textFrom? i
    some (if ['/', '*'].isPrefixOf rest then some (c.endOf ['*', '/'] (i + 2)) else none)
  | 2 => do
    let rest ← c.textFrom? i
    some (if ['/', '/'].isPrefixOf rest then some (c.endOf ['\n'] (i + 2)) else none)
  | _ => some (if c.byteAt? i == some '#'.toUInt8 then some (c.endOf ['\n'] (i + 1)) else none)

/-- Whether nothing has been kept behind the last removal. -/
def isErasing (c : OffsetCursor) : Bool :=
  c.removal.any (c.mark ≤ ·)

/-- Take away what lies between two offsets. -/
def cut? (start stop : Nat) (c : OffsetCursor) : Option OffsetCursor := do
  let text ← cutBytes? start stop c.text
  some { c with text := text, removal := some start }

/-- A pass over insignificant material: the cursor that makes it, whether it still takes away what it
goes over, how far it has come, and where what it is to take away begins. -/
structure Pass where
  cursor : OffsetCursor
  erases : Bool
  place : Nat
  start : Nat

namespace Pass

/-- Go over one byte, if it is such a byte. -/
def passByte (test : UInt8 → Bool) (s : Pass) : Pass :=
  if (s.cursor.byteAt? s.place).any test then { s with place := s.place + 1 } else s

/-- Go over at most one blank, one comma and one semicolon. -/
def passInline (allowed : Separators) (s : Pass) : Pass :=
  ((s.passByte isInlineByte).passByte fun b => allowed.comma && b == ','.toUInt8).passByte
    fun b => allowed.semicolon && b == ';'.toUInt8

/-- Where a pass that comes to a landmark is to take away from: as a rule where it has begun, but from
the line end in front of the gap on, if nothing was kept since the last removal and the landmark is
another line end. -/
def cutStart (s : Pass) : Nat :=
  let c := s.cursor
  if c.isErasing && 0 < c.mark && c.byteAt? (c.mark - 1) == some '\n'.toUInt8 &&
      c.byteAt? s.place == some '\n'.toUInt8 then
    c.mark - 1
  else s.start

/-- Go over a landmark that ends at `stop`. Of a pass that takes away, what is in front of the landmark
goes, and from there on it takes nothing away. -/
def passTo? (stop : Nat) (s : Pass) : Option Pass :=
  if s.erases then do
    let c ← s.cursor.cut? s.cutStart s.place
    let taken ← subtract? s.place s.cutStart
    let stop ← subtract? stop taken
    some ⟨{ c with mark := stop }, false, stop, stop⟩
  else some ⟨{ s.cursor with mark := stop }, false, stop, stop⟩

/-- Go over the landmark of a rank, if there is one. -/
def passRanked? (s : Pass) (rank : Nat) : Option Pass := do
  match ← s.cursor.landmarkEnd? s.place rank with
  | some stop => s.passTo? stop
  | none => some s

/-- One round: a few bytes inside a line, then a few landmarks. -/
def round? (allowed : Separators) (s : Pass) : Option Pass :=
  [0, 1, 2, 3].foldlM passRanked? (s.passInline allowed)

/-- How much of the text is still in front of a pass. -/
def remaining (s : Pass) : Nat :=
  s.cursor.remaining s.place

/-- Go in rounds, up to one that ends at the offset where it began. Every other round has to leave less
of the text. -/
def loop? (allowed : Separators) (s : Pass) : Option Pass :=
  match s.round? allowed with
  | none => none
  | some s' =>
    if s'.place = s.place then some s'
    else if _less : s'.remaining < s.remaining then loop? allowed s' else none
termination_by s.remaining

/-- What a pass leaves. One that has met no landmark takes away all that it went over. -/
def finish? (s : Pass) : Option OffsetCursor :=
  if s.erases then s.cursor.cut? s.start s.place else some { s.cursor with place := s.place }

end Pass

/-- Move past what does not matter; with `erase`, take away the first of it. -/
def skipBlanks? (erase : Bool) (allowed : Separators) (c : OffsetCursor) : Option OffsetCursor := do
  let s ← Pass.loop? allowed ⟨c, erase, c.place, c.place⟩
  s.finish?

/-- Take away a token that ends at `stop`, and the first of what does not matter behind it. -/
def cutToken? (stop : Nat) (c : OffsetCursor) : Option OffsetCursor := do
  let c ← c.cut? c.place stop
  c.skipBlanks? true .none

/-- Move past a token that ends at `stop`. Of a token without text nothing is kept. -/
def keepToken (stop : Nat) (c : OffsetCursor) : OffsetCursor :=
  { c with place := stop, mark := if c.place < stop then stop else c.mark }

/-- Move past a token, or with `erase` take it away. -/
def skip? (token : Token) (erase : Bool) (allowed : Separators) (isOptional : Bool)
    (c : OffsetCursor) : Option (OffsetCursor × Except Mismatch Bool) := do
  let c ← c.skipBlanks? (erase && allowed.any) allowed
  let rest ← c.textFrom? c.place
  let size := token.size? rest
  if size.isNone && !isOptional then some (c, .error (token.mismatch rest))
  else
    let stop := c.place + size.getD 0
    if erase then
      let c ← c.cutToken? stop
      some (c, .ok size.isSome)
    else some (c.keepToken stop, .ok size.isSome)

/-- Move to a token, which has to be there. -/
def seek? (token : Token) (c : OffsetCursor) : Option (OffsetCursor × Except Mismatch Unit) := do
  let c ← c.skipBlanks? false .none
  let rest ← c.textFrom? c.place
  some (c, if (token.size? rest).isSome then .ok () else .error (token.mismatch rest))

/-- Give up what lies between the mark and the place behind a removal, if nothing was kept after
that. -/
def trim? (c : OffsetCursor) : Option OffsetCursor :=
  if c.isErasing && c.mark ≤ c.place then do
    let text ← cutBytes? c.mark c.place c.text
    some { c with text := text, place := c.mark }
  else some c

/-- Put a text in front of the place. -/
def insert? (s : List Char) (c : OffsetCursor) : Option OffsetCursor := do
  let (front, rest) ← splitAtByte? c.place c.text
  some { c with text := front ++ s ++ rest, place := c.place + utf8Length s }

/-- Where the blank, line end or comment ends that begins at `i`, if there is one. -/
def blankEnd? (c : OffsetCursor) (i : Nat) : Option (Option Nat) := do
  let rest ← c.textFrom? i
  some <|
    if rest.head?.any fun x => Blank.isInline x || x == '\n' then some (i + 1)
    else if ['/', '*'].isPrefixOf rest then some (c.endOf ['*', '/'] (i + 2))
    else if ['/', '/'].isPrefixOf rest then some (c.endOf ['\n'] (i + 2))
    else if ['#'].isPrefixOf rest then some (c.endOf ['\n'] (i + 1))
    else none

/-- Where the insignificant material that begins at `i` ends. Every part of it has to leave less of the
text. -/
def peek? (c : OffsetCursor) (i : Nat) : Option Nat :=
  match c.blankEnd? i with
  | none => none
  | some none => some i
  | some (some next) =>
    if _less : c.remaining next < c.remaining i then c.peek? next else none
termination_by c.remaining i

/-- Whether a list with nothing in it comes next. -/
def atEmptyList? (c : OffsetCursor) : Option Bool := do
  let first ← c.peek? c.place
  if c.byteAt? first == some '['.toUInt8 then
    let second ← c.peek? (first + 1)
    some (c.byteAt? second == some ']'.toUInt8)
  else some false

/-- Whether the place is at the start or after a byte that keeps two words apart. -/
def followsSeparator? (c : OffsetCursor) : Option Bool :=
  if c.place = 0 then some true else (c.byteAt? (c.place - 1)).map separatesByte

/-- Whether the place begins a line, other than the first. -/
def followsNewline? (c : OffsetCursor) : Option Bool :=
  if 0 < c.place then (c.byteAt? (c.place - 1)).map (· == '\n'.toUInt8) else some false

/-- What an operation leaves and what it answers. -/
def step? (c : OffsetCursor) :
    Cursor.Step → Option (OffsetCursor × Except Mismatch (Option Bool))
  | .skip token erase allowed isOptional => do
    let (c, answer) ← c.skip? token erase allowed isOptional
    some (c, answer.map some)
  | .seek token => do
    let (c, answer) ← c.seek? token
    some (c, answer.map fun _ => none)
  | .skipBlanks erase allowed => (c.skipBlanks? erase allowed).map fun c => (c, .ok none)
  | .trim => c.trim?.map fun c => (c, .ok none)
  | .insert s => (c.insert? s).map fun c => (c, .ok none)
  | .countErased => some ({ c with erased := c.erased + 1 }, .ok none)
  | .atEmptyList => c.atEmptyList?.map fun answer => (c, .ok (some answer))
  | .followsSeparator => c.followsSeparator?.map fun answer => (c, .ok (some answer))
  | .followsNewline => c.followsNewline?.map fun answer => (c, .ok (some answer))

/-- What a sequence of operations leaves, whatever they answer. -/
def run? (c : OffsetCursor) (steps : List Cursor.Step) : Option OffsetCursor :=
  steps.foldlM (fun c s => (c.step? s).map Prod.fst) c

end OffsetCursor

end DotText
