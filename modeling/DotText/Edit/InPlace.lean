import DotText.Edit.Walk

set_option autoImplicit false

/- Erasing from a text and inserting into it, with the rest of the text left as it is. -/
namespace DotText

/-- A text with something erased from it, and how many node statements, endpoints and operators
that is. -/
structure Erasure where
  text : List Char
  count : Nat
  deriving DecidableEq

/-- Erase a target from a text, which the tree was read from. -/
def Graph.eraseFrom (g : Graph) (target : Target) (cs : List Char) : Except Mismatch Erasure := do
  let c ← Walk.document target g (.ofText cs)
  let c ← Walk.mark ['}'] false c
  return ⟨c.text, c.erased⟩

/-- Put a text in front of the last brace of a text that the tree was read from; with `freshLine`,
on a line of its own. -/
def Graph.insertInto (g : Graph) (snippet : List Char) (freshLine : Bool) (cs : List Char) :
    Except Mismatch (List Char) := do
  let c ← Walk.document .nothing g (.ofText cs)
  match c.seek (.mark ['}']) with
  | (_, .error m) => .error m
  | (c, .ok _) =>
    let c := if freshLine && !c.followsNewline then c.insert ['\n'] else c
    return (c.insert snippet).text

end DotText
