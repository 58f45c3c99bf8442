import DotText.Tree.Printer

set_option autoImplicit false

/- The normal form of a tree: what its canonical text says. -/
namespace DotText

/-- A value that is built as an identifier is read as text. -/
def Value.normal : Value → Value
  | .ident s => .text s
  | value => value

def Attribute.normal (a : Attribute) : Attribute :=
  ⟨a.key, a.value.normal⟩

mutual

def Statement.normal : Statement → Statement
  | .node ref attrs => .node ref (attrs.map Attribute.normal)
  | .edge endpoints attrs => .edge (Endpoint.normalAll endpoints) (attrs.map Attribute.normal)
  | .attr target attrs => .attr target (attrs.map Attribute.normal)
  | .subgraph id body => .subgraph id (Statement.normalAll false body)

def Endpoint.normal : Endpoint → Endpoint
  | .node ref => .node ref
  | .subgraph id body => .subgraph id (Statement.normalAll false body)

def Endpoint.normalAll : List Endpoint → List Endpoint
  | [] => []
  | e :: es => e.normal :: Endpoint.normalAll es

/-- The statements that are written, where `afterSubgraph` says whether the last one is a
subgraph. -/
def Statement.normalAll (afterSubgraph : Bool) : List Statement → List Statement
  | [] => []
  | s :: ss =>
    if afterSubgraph && s.isHollow then Statement.normalAll afterSubgraph ss
    else s.normal :: Statement.normalAll s.isSubgraph ss

end

/-- The tree that the canonical text of a tree is read as. -/
def Graph.normal (g : Graph) : Graph :=
  { g with body := Statement.normalAll false g.body }

end DotText
