import DotText.Tree

set_option autoImplicit false

/- What a deletion is about, and what of a tree it erases. All of this is decided by the tree. -/
namespace DotText

/-- What is to be deleted. -/
inductive Target where
  /-- Nothing at all. -/
  | nothing
  /-- Every statement about the node of this name, and every end of an edge that names it. -/
  | node (name : String)
  /-- The edge between two neighbours in a chain, each given by its name or its qualified name. -/
  | edge (tail head : String)
  deriving DecidableEq

namespace Target

/-- Whether a mention of this node goes. -/
def erasesNode (target : Target) (ref : NodeRef) : Bool :=
  match target with
  | node name => name == ref.id
  | _ => false

/-- Whether this end of an edge goes. A subgraph stays, whatever is erased in it. -/
def erasesEndpoint (target : Target) : Endpoint → Bool
  | .node ref => target.erasesNode ref
  | .subgraph .. => false

/-- Whether a name is that of the node, with or without its port. -/
def names (name : String) (ref : NodeRef) : Bool :=
  name == ref.id || name == ref.qualifiedName

/-- Whether two neighbours in a chain are the ends of the edge to delete. -/
def cuts (target : Target) (left right : Endpoint) : Bool :=
  match target, left, right with
  | edge tail head, .node l, .node r => names tail l && names head r
  | _, _, _ => false

/-- Whether the operator between two neighbours goes: an end of it goes, or it is itself the edge
to delete. -/
def erasesOp (target : Target) (left right : Endpoint) : Bool :=
  target.erasesEndpoint left || target.erasesEndpoint right || target.cuts left right

/-- Whether some operator of a chain goes. -/
def erasesSomeOp (target : Target) : List Endpoint → Bool
  | left :: right :: es => target.erasesOp left right || erasesSomeOp target (right :: es)
  | _ => false

/-- Whether the last operator of a chain goes. -/
def erasesLastOp (target : Target) : List Endpoint → Bool
  | [left, right] => target.erasesOp left right
  | _ :: es => erasesLastOp target es
  | [] => false

/-- Whether the last endpoint that stays in a chain still has an operator in front of it, where
`linked` says so of the first one. -/
def leavesLink (target : Target) (linked : Bool) : List Endpoint → Bool
  | left :: right :: es =>
    leavesLink target
      (if target.erasesEndpoint right then linked else !target.erasesOp left right) (right :: es)
  | _ => linked

/-- Whether the attributes of a chain go. They belong to its last edge, and go when that is no edge
any more. -/
def erasesAttributes (target : Target) (endpoints : List Endpoint) : Bool :=
  target.erasesSomeOp endpoints && !target.leavesLink false endpoints

/-- Whether nothing is left of a statement. -/
def erasesStatement (target : Target) : Statement → Bool
  | .node ref _ => target.erasesNode ref
  | .edge endpoints _ => endpoints.all target.erasesEndpoint
  | .attr .. | .subgraph .. => false

end Target

end DotText
