import DotText.Index.Table
import DotText.Tree

set_option autoImplicit false

/- The nodes and edges that a document declares, by name, with their attributes. A chain of edges
declares one edge for each pair of neighbours, and a subgraph at the end of an edge stands for all
the nodes mentioned in it. -/
namespace DotText

abbrev Attributes := Table Value

/-- The table with these attributes set one after another. -/
def Attributes.merge (table : Attributes) (attrs : List Attribute) : Attributes :=
  attrs.foldl (fun t a => t.set a.key a.value) table

/-- Something declared: its name and the attributes that the declaration gives it. -/
structure Declaration where
  name : String
  attrs : List Attribute

/-- The table of all that is declared. Declarations of one name are merged. -/
def Declaration.collect (declarations : List Declaration) : Table Attributes :=
  declarations.foldl (fun t d => t.alter d.name fun a => (a.getD .empty).merge d.attrs) .empty

mutual

/-- The mentions of nodes in a statement. Only a node statement gives attributes. -/
def Statement.nodes : Statement → List Declaration
  | .node ref attrs => [⟨ref.id, attrs⟩]
  | .edge endpoints _ => Endpoint.nodesOfAll endpoints
  | .attr .. => []
  | .subgraph _ body => Statement.nodesOfAll body

def Endpoint.nodes : Endpoint → List Declaration
  | .node ref => [⟨ref.id, []⟩]
  | .subgraph _ body => Statement.nodesOfAll body

def Statement.nodesOfAll : List Statement → List Declaration
  | [] => []
  | s :: ss => s.nodes ++ Statement.nodesOfAll ss

def Endpoint.nodesOfAll : List Endpoint → List Declaration
  | [] => []
  | e :: es => e.nodes ++ Endpoint.nodesOfAll es

end

/-- The nodes that an endpoint stands for, each once. -/
def Endpoint.names (e : Endpoint) : List String :=
  (e.nodes.map Declaration.name).eraseDups

/-- The name of the edge between two nodes. -/
def Kind.edgeName (kind : Kind) (tail head : String) : String :=
  tail ++ kind.edgeOp ++ head

/-- The edges from each of some nodes to each of others. -/
def Declaration.edges (kind : Kind) (attrs : List Attribute) (tails heads : List String) :
    List Declaration :=
  tails.flatMap fun tail => heads.map fun head => ⟨kind.edgeName tail head, attrs⟩

mutual

/-- The edges that a statement declares, those in its subgraphs included. -/
def Statement.edges (kind : Kind) : Statement → List Declaration
  | .node .. => []
  | .edge endpoints attrs => Endpoint.edgesOfChain kind attrs [] endpoints
  | .attr .. => []
  | .subgraph _ body => Statement.edgesOfAll kind body

/-- The edges declared inside an endpoint. -/
def Endpoint.edges (kind : Kind) : Endpoint → List Declaration
  | .node _ => []
  | .subgraph _ body => Statement.edgesOfAll kind body

/-- The edges of a chain that goes on from the nodes `tails`. Edges inside an endpoint come before
those that lead to it. -/
def Endpoint.edgesOfChain (kind : Kind) (attrs : List Attribute) (tails : List String) :
    List Endpoint → List Declaration
  | [] => []
  | e :: es =>
    e.edges kind ++ Declaration.edges kind attrs tails e.names ++
      Endpoint.edgesOfChain kind attrs e.names es

def Statement.edgesOfAll (kind : Kind) : List Statement → List Declaration
  | [] => []
  | s :: ss => s.edges kind ++ Statement.edgesOfAll kind ss

end

/-- What a document declares. Names are in the order in which the document first has them. -/
structure Index where
  kind : Kind
  nodes : Table Attributes
  edges : Table Attributes

def Graph.index (g : Graph) : Index where
  kind := g.kind
  nodes := Declaration.collect (Statement.nodesOfAll g.body)
  edges := Declaration.collect (Statement.edgesOfAll g.kind g.body)

/-- Whether two documents declare the same things with the same attributes, in whatever order. -/
def Index.agrees (a b : Index) : Bool :=
  a.kind == b.kind && a.nodes.agrees (Table.agrees (· == ·)) b.nodes &&
    a.edges.agrees (Table.agrees (· == ·)) b.edges

end DotText
