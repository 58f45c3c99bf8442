import DotText.Edit.Target
import DotText.Tree.Element

set_option autoImplicit false

/- The elements of a document that a target is about, each judged by itself. -/
namespace DotText

/-- Whether an endpoint is the node of this name. -/
def Endpoint.isNode (name : String) : Endpoint → Bool
  | .node ref => name == ref.id
  | .subgraph .. => false

namespace Element

/-- Whether an element is a statement about the node of this name. -/
def isStatementOf (name : String) : Element → Bool
  | .statement (.node ref _) => name == ref.id
  | .statement _ | .endpoint .. => false

/-- Whether an element is an endpoint that is the node of this name. -/
def isEndpointOf (name : String) : Element → Bool
  | .endpoint _ _ e => e.isNode name
  | .statement _ => false

/-- Whether an operator stands in front of an element and has the node of this name next to it. -/
def hasOperatorAt (name : String) : Element → Bool
  | .endpoint _ (some left) e => left.isNode name || e.isNode name
  | .endpoint _ none _ | .statement _ => false

/-- Whether an operator stands in front of an element and leads from one of these nodes to the other,
each given by its name or its qualified name. -/
def hasOperatorBetween (tail head : String) : Element → Bool
  | .endpoint _ (some (.node l)) (.node r) => Target.names tail l && Target.names head r
  | .endpoint .. | .statement _ => false

end Element

/-- Every chain in a document, at any depth, has an edge. -/
def Graph.Linked (g : Graph) : Prop :=
  ∀ path endpoints attrs, g.at? path = some (.statement (.edge endpoints attrs)) →
    2 ≤ endpoints.length

/-- How many of some elements a target is about. A node is in its statements, its ends of edges and
the operators next to those, and an edge is its operators. -/
def Target.countAmong (places : List Place) : Target → Nat
  | nothing => 0
  | node name =>
    places.countP (·.2.isStatementOf name) + places.countP (·.2.isEndpointOf name) +
      places.countP (·.2.hasOperatorAt name)
  | edge tail head => places.countP (·.2.hasOperatorBetween tail head)

end DotText
