import DotText.Tree

set_option autoImplicit false

/- The elements of a document, at any depth: its statements and the endpoints of its edges. An element
is found by its path, which numbers the elements to go into on the way down, from 0 on at each step. -/
namespace DotText

/-- A statement, or an endpoint with the attributes of its chain and the endpoint in front of it. -/
inductive Element where
  | statement (s : Statement)
  | endpoint (attrs : List Attribute) (left : Option Endpoint) (e : Endpoint)

namespace Element

/-- The endpoints of a chain, or the statements of a block. -/
def children : Element → List Element
  | .statement (.edge endpoints attrs) =>
    ((none :: endpoints.map some).zip endpoints).map fun (left, e) => endpoint attrs left e
  | .statement (.subgraph _ body) | .endpoint _ _ (.subgraph _ body) => body.map statement
  | .statement (.node ..) | .statement (.attr ..) | .endpoint _ _ (.node _) => []

def at? : Element → List Nat → Option Element
  | element, [] => some element
  | element, i :: path => element.children[i]?.bind fun child => child.at? path

end Element

/-- The element of a document at a path. -/
def Graph.at? (g : Graph) : List Nat → Option Element
  | [] => none
  | i :: path => g.body[i]?.bind fun s => (Element.statement s).at? path

/-- Whether of the elements at two paths the first one is over before the second one is. An element
is over when all that is inside it is; two elements of which neither is inside the other are over in
their order in the text. -/
inductive EndsBefore : List Nat → List Nat → Prop where
  | inside {i : Nat} {path : List Nat} : EndsBefore (i :: path) []
  | earlier {i j : Nat} {path other : List Nat} : i < j → EndsBefore (i :: path) (j :: other)
  | deeper {i : Nat} {path other : List Nat} : EndsBefore path other →
      EndsBefore (i :: path) (i :: other)

/-- An element at its path. -/
abbrev Place := List Nat × Element

/-- All the elements of a document at their paths, in the order in which they are over. -/
structure Graph.Lists (g : Graph) (places : List Place) : Prop where
  inOrder : places.Pairwise fun first second => EndsBefore first.1 second.1
  complete : ∀ path element, (path, element) ∈ places ↔ g.at? path = some element

end DotText
