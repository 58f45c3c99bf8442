import DotText.Document

set_option autoImplicit false

/- A document that is edited in place, one part after another, and asked about in between. What fails
half-way leaves the document as it is by then. -/
namespace DotText

/-- What works on a document in place. -/
abbrev Editor := EStateM EditError Document

namespace Editor

/-- Read a text, and take it over with the tree and the index that it makes. -/
def commit (text : String) : Editor Unit := do
  match Graph.ofText text with
  | .error e => throw (.unreadable e)
  | .ok tree =>
    modify fun d => { d with index := tree.index }
    modify fun d => { d with tree := tree }
    modify fun d => { d with text := text }

def append (s : Statement) : Editor Unit := do
  let d ← get
  match d.tree.insertInto (d.line s) d.layout.freshLine d.text.toList with
  | .error m => throw (.mismatch m)
  | .ok text => commit (String.ofList text)

def erase (target : Target) : Editor Nat := do
  let d ← get
  match d.tree.eraseFrom target d.text.toList with
  | .error m => throw (.mismatch m)
  | .ok erasure =>
    if erasure.count = 0 then
      return 0
    commit (String.ofList erasure.text)
    return erasure.count

end Editor

/-- What an edit deletes. One that deletes nothing, or has no name of an edge, has no target. -/
def Edit.target? : Edit → Option Target
  | .deleteNode name => some (.node name)
  | .deleteEdge name =>
    (EdgeName.split? name.toList).map fun (tail, head) =>
      .edge (String.ofList tail) (String.ofList head)
  | .insertNode .. | .insertEdge .. | .reread => none

/-- Make an edit in place. -/
def Edit.perform : Edit → Editor (Option Nat)
  | .insertNode name entries => do
    Editor.append (.node ⟨name, none⟩ (Document.attributes entries))
    return none
  | .insertEdge tail head entries => do
    Editor.append (.edge [.node ⟨tail, none⟩, .node ⟨head, none⟩] (Document.attributes entries))
    return none
  | .deleteNode name => return some (← Editor.erase (.node name))
  | .deleteEdge name => do
    match EdgeName.split? name.toList with
    | none => throw (.notAnEdge name)
    | some (tail, head) =>
      return some (← Editor.erase (.edge (String.ofList tail) (String.ofList head)))
  | .reread => do
    Editor.commit (← get).text
    return none

/-- What a document can be asked. -/
inductive Question where
  | text
  | tree
  | index
  | layout
  | nodeAttributes (name : String)
  | edgeAttributes (name : String)
  | canonicalText
  deriving DecidableEq

inductive Answer where
  | text (s : String)
  | tree (g : Graph)
  | index (index : Index)
  | layout (layout : Layout)
  | attributes (found : Option Attributes)

def Document.answer (d : Document) : Question → Answer
  | .text => .text d.text
  | .tree => .tree d.tree
  | .index => .index d.index
  | .layout => .layout d.layout
  | .nodeAttributes name => .attributes (d.index.nodes.get? name)
  | .edgeAttributes name => .attributes (d.index.edges.get? name)
  | .canonicalText => .text d.canonicalText

/-- What a document that is open is used for. -/
inductive Request where
  | edit (change : Edit)
  | ask (question : Question)
  deriving DecidableEq

inductive Response where
  | edited (count : Option Nat)
  | answered (answer : Answer)

def Request.serve : Request → Editor Response
  | .edit change => return .edited (← change.perform)
  | .ask question => return .answered ((← get).answer question)

/-- What a request deletes. -/
def Request.target? : Request → Option Target
  | .edit change => change.target?
  | .ask _ => none

namespace Document

/-- The document that a request leaves, whether it fails or not. -/
def after (d : Document) (request : Request) : Document :=
  match request.serve d with
  | .ok _ d' => d'
  | .error _ d' => d'

/-- The document that some requests leave, one after another. -/
def afterAll (d : Document) (requests : List Request) : Document :=
  requests.foldl after d

end Document

end DotText
