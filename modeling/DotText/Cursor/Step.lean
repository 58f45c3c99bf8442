import DotText.Cursor.Skip

set_option autoImplicit false

/- The operations on a cursor as values, so that sequences of them can be spoken of. -/
namespace DotText

/-- An operation on a cursor. -/
inductive Cursor.Step where
  | skip (token : Token) (erase : Bool) (allowed : Separators) (isOptional : Bool)
  | seek (token : Token)
  | skipBlanks (erase : Bool) (allowed : Separators)
  | trim
  | insert (s : List Char)
  | countErased
  | atEmptyList
  | followsSeparator
  | followsNewline
  deriving DecidableEq

namespace Cursor

/-- What an operation leaves and what it answers; a question is answered by `some` truth value.
After a mismatch the cursor stays where the token was missing. -/
def step (c : Cursor) : Step → Cursor × Except Mismatch (Option Bool)
  | .skip token erase allowed isOptional =>
    let (c, answer) := c.skip token erase allowed isOptional
    (c, answer.map some)
  | .seek token =>
    let (c, answer) := c.seek token
    (c, answer.map fun _ => none)
  | .skipBlanks erase allowed => (c.skipBlanks erase allowed, .ok none)
  | .trim => (c.trim, .ok none)
  | .insert s => (c.insert s, .ok none)
  | .countErased => (c.countErased, .ok none)
  | .atEmptyList => (c, .ok (some c.atEmptyList))
  | .followsSeparator => (c, .ok (some c.followsSeparator))
  | .followsNewline => (c, .ok (some c.followsNewline))

/-- What a sequence of operations leaves, whatever they answer. -/
def run (c : Cursor) (steps : List Step) : Cursor :=
  steps.foldl (fun c s => (c.step s).1) c

/-- The state after each operation, with its answer. -/
def trace (c : Cursor) : List Step → List (Cursor × Except Mismatch (Option Bool))
  | [] => []
  | s :: steps =>
    let reached := c.step s
    reached :: trace reached.1 steps

end Cursor

end DotText
