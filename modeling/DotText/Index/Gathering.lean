import DotText.Index
import DotText.Tree.Element

set_option autoImplicit false

/- What each element of a document declares by itself, what it is for attributes to be put on top of
others, and for a table to have gathered all that some declarations say. -/
namespace DotText

/-- The node that a node statement is about, with its attributes, or the one that an endpoint is. -/
def Element.ownNodes : Element → List Declaration
  | .statement (.node ref attrs) => [⟨ref.id, attrs⟩]
  | .endpoint _ _ (.node ref) => [⟨ref.id, []⟩]
  | .statement _ | .endpoint .. => []

/-- The two names of an edge with the operator of the document between them. -/
def Kind.joined (kind : Kind) (tail head : String) : String :=
  match kind with
  | .graph => tail ++ "--" ++ head
  | .digraph => tail ++ "->" ++ head

/-- The edges that the operator in front of an endpoint stands for: from each node of the endpoint
before it to each node of the one behind it, with the attributes of the chain. -/
def Element.ownEdges (kind : Kind) : Element → List Declaration
  | .endpoint attrs (some left) e =>
    left.names.flatMap fun tail => e.names.map fun head => ⟨kind.joined tail head, attrs⟩
  | .endpoint _ none _ | .statement _ => []

/-- The attributes that some declarations give a name, in order. -/
def Declaration.given (name : String) (ds : List Declaration) : List Attribute :=
  (ds.filter (·.name = name)).flatMap Declaration.attrs

/-- The keys of a table come as they are first given, each with the value that it is given last. -/
structure Attributes.Merges (table : Attributes) (given : List Attribute) : Prop where
  keys : table.keys = (given.map Attribute.key).eraseDups
  values : ∀ key, table.get? key = (given.filter (·.key = key)).getLast?.map Attribute.value

/-- The second attributes are the first ones with what is given on top of them: new keys come last, as
they are first given, a key that is given has the value that it is given last, and any other key has
the value that it had. -/
structure Attributes.Overlays (before : Attributes) (given : List Attribute) (after : Attributes) :
    Prop where
  keys : after.keys =
    before.keys ++ ((given.map Attribute.key).filter (· ∉ before.keys)).eraseDups
  last : ∀ key a, (given.filter (·.key = key)).getLast? = some a → after.get? key = some a.value
  kept : ∀ key, (∀ a ∈ given, a.key ≠ key) → after.get? key = before.get? key

/-- A table has the names that are declared, as they are first declared, each with all the attributes
that it is given. -/
structure Table.Gathers (table : Table Attributes) (ds : List Declaration) : Prop where
  keys : table.keys = (ds.map Declaration.name).eraseDups
  attrs : ∀ name ∈ table.keys,
    ∃ attrs, table.get? name = some attrs ∧ Attributes.Merges attrs (Declaration.given name ds)

mutual

/-- A statement without the attribute statements inside it. -/
def Statement.withoutDefaults : Statement → Statement
  | .node ref attrs => .node ref attrs
  | .edge endpoints attrs => .edge (Endpoint.withoutDefaultsInAll endpoints) attrs
  | .attr target attrs => .attr target attrs
  | .subgraph id body => .subgraph id (Statement.withoutDefaultsInAll body)

def Endpoint.withoutDefaults : Endpoint → Endpoint
  | .node ref => .node ref
  | .subgraph id body => .subgraph id (Statement.withoutDefaultsInAll body)

def Endpoint.withoutDefaultsInAll : List Endpoint → List Endpoint
  | [] => []
  | e :: es => e.withoutDefaults :: Endpoint.withoutDefaultsInAll es

/-- The statements of a block but for attribute statements, at any depth. -/
def Statement.withoutDefaultsInAll : List Statement → List Statement
  | [] => []
  | s :: ss =>
    match s with
    | .attr .. => Statement.withoutDefaultsInAll ss
    | .node .. | .edge .. | .subgraph .. =>
      s.withoutDefaults :: Statement.withoutDefaultsInAll ss

end

/-- A document without its attribute statements. -/
def Graph.withoutDefaults (g : Graph) : Graph :=
  { g with body := Statement.withoutDefaultsInAll g.body }

end DotText
