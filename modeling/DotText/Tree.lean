set_option autoImplicit false

/- The tree of a DOT document. Statements keep the order of the text and nothing of its layout;
identifiers are stored without their quotes and HTML labels without their outer brackets. -/
namespace DotText

/-- Whether the edges of a document have a direction. -/
inductive Kind where
  | graph
  | digraph
  deriving DecidableEq

/-- The word that opens a document of this kind. -/
def Kind.keyword : Kind → String
  | .graph => "graph"
  | .digraph => "digraph"

/-- The one edge operator that a document of this kind may use. -/
def Kind.edgeOp : Kind → String
  | .graph => "--"
  | .digraph => "->"

/-- Where an edge meets a node: a port, and on it perhaps a compass point. -/
structure Port where
  id : String
  compass : Option String := none
  deriving DecidableEq

/-- A mention of a node. Only `id` decides which node is meant. -/
structure NodeRef where
  id : String
  port : Option Port := none
  deriving DecidableEq

/-- The name with its port and compass point: `id`, `id:port` or `id:port:compass`. -/
def NodeRef.qualifiedName (ref : NodeRef) : String :=
  match ref.port with
  | none => ref.id
  | some ⟨port, none⟩ => ref.id ++ ":" ++ port
  | some ⟨port, some compass⟩ => ref.id ++ ":" ++ port ++ ":" ++ compass

/-- The value of an attribute. Reading gives `text` and `html`; `ident` is a value that was built
as an identifier, and is written as text is. -/
inductive Value where
  | text (content : String)
  | ident (content : String)
  | html (content : String)
  deriving DecidableEq

/-- The value without quotes or outer brackets. -/
def Value.content : Value → String
  | .text s | .ident s | .html s => s

def Value.isHtml : Value → Bool
  | .html _ => true
  | _ => false

/-- An entry `key = value` of an attribute list. -/
structure Attribute where
  key : String
  value : Value
  deriving DecidableEq

/-- The attribute of this key that holds plain text. -/
def Attribute.ofText (key content : String) : Attribute :=
  ⟨key, .text content⟩

/-- What an attribute statement sets the defaults of. -/
inductive AttrTarget where
  | graph
  | node
  | edge
  deriving DecidableEq

def AttrTarget.keyword : AttrTarget → String
  | .graph => "graph"
  | .node => "node"
  | .edge => "edge"

mutual

/-- One declaration in a block. A subgraph has braces and perhaps an identifier; `k = v` alone is
an attribute statement about the graph. -/
inductive Statement where
  | node (ref : NodeRef) (attrs : List Attribute)
  | edge (endpoints : List Endpoint) (attrs : List Attribute)
  | attr (target : AttrTarget) (attrs : List Attribute)
  | subgraph (id : Option String) (body : List Statement)

/-- One end of an edge: a node, or a subgraph that stands for all the nodes in it. -/
inductive Endpoint where
  | node (ref : NodeRef)
  | subgraph (id : Option String) (body : List Statement)

end

/-- A whole document. -/
structure Graph where
  strict : Bool
  kind : Kind
  id : Option String
  body : List Statement

/-- The document of this kind that declares nothing. -/
def Graph.empty (kind : Kind) : Graph :=
  ⟨false, kind, none, []⟩

end DotText
