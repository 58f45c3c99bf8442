import DotText.Space
import DotText.Tree

set_option autoImplicit false

/- Names of edges: the names of two nodes with an operator between them. -/
namespace DotText.EdgeName

/-- The text before the first place where `op` stands, and the text after it. -/
def splitAtOp? (op : List Char) : List Char → Option (List Char × List Char)
  | [] => none
  | c :: cs =>
    if op.isPrefixOf (c :: cs) then some ([], (c :: cs).drop op.length)
    else (splitAtOp? op cs).map fun (tail, head) => (c :: tail, head)

/-- The two names around `op`, if it stands once between two names. White space around a name does
not belong to it. -/
def splitBy? (op : List Char) (cs : List Char) : Option (List Char × List Char) :=
  match splitAtOp? op cs with
  | none => none
  | some (tail, head) =>
    let tail := Space.trim tail
    let head := Space.trim head
    if !tail.isEmpty && !head.isEmpty && (splitAtOp? op head).isNone then some (tail, head) else none

/-- The two names of the nodes that an edge name joins. It is tried as a name with `--` first. -/
def split? (cs : List Char) : Option (List Char × List Char) :=
  [Kind.graph, .digraph].findSome? fun kind => splitBy? kind.edgeOp.toList cs

end DotText.EdgeName
