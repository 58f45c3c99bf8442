import DotText.Edit.EdgeName
import DotText.Edit.InPlace
import DotText.Index
import DotText.SyntaxError
import DotText.Tree.Printer

set_option autoImplicit false

/- A document open for editing: its text, and the tree and the index that were made from it. An edit
changes the text and reads it again; what cannot be read is not kept. -/
namespace DotText

/-- How inserted statements are laid out. -/
structure Layout where
  /-- What stands in front of an inserted statement. -/
  indent : String := "    "
  /-- Whether an inserted statement gets a line of its own. -/
  freshLine : Bool := true
  deriving DecidableEq

/-- Why an edit cannot be made. -/
inductive EditError where
  /-- The text is no document, or would be none after the edit. -/
  | unreadable (e : SyntaxError)
  /-- The text does not have what the tree has. -/
  | mismatch (m : Mismatch)
  /-- A text that names no edge. -/
  | notAnEdge (name : String)
  deriving DecidableEq

def EditError.message : EditError → String
  | .unreadable e => e.message
  | .mismatch m => m.message
  | .notAnEdge name =>
    "invalid edge " ++ String.ofList (Visible.quoted name.toList) ++
      ": expected `A->B` or `A--B`"

structure Document where
  text : String
  tree : Graph
  index : Index
  layout : Layout

namespace Document

/-- Open a text for editing. -/
def ofText (layout : Layout) (text : String) : Except SyntaxError Document := do
  let tree ← Graph.ofText text
  return ⟨text, tree, tree.index, layout⟩

/-- The document with another text, if that is a document. -/
def commit (d : Document) (text : List Char) : Except EditError Document :=
  match ofText d.layout (String.ofList text) with
  | .ok d => .ok d
  | .error e => .error (.unreadable e)

/-- The line that a statement is inserted as. -/
def line (d : Document) (s : Statement) : List Char :=
  d.layout.indent.toList ++ s.render d.tree.kind.edgeOp.toList ++ ['\n']

/-- Put a statement at the end of the document. -/
def append (d : Document) (s : Statement) : Except EditError Document :=
  match d.tree.insertInto (d.line s) d.layout.freshLine d.text.toList with
  | .ok text => d.commit text
  | .error m => .error (.mismatch m)

/-- Erase a target, and count what is erased. With nothing to erase the document stays as it is. -/
def erase (d : Document) (target : Target) : Except EditError (Document × Nat) :=
  match d.tree.eraseFrom target d.text.toList with
  | .error m => .error (.mismatch m)
  | .ok erasure =>
    if erasure.count = 0 then .ok (d, 0) else (d.commit erasure.text).map (·, erasure.count)

/-- The attributes that an insertion gives: those of its keys that have a value. -/
def attributes (entries : List (String × Option String)) : List Attribute :=
  entries.filterMap fun (key, value) => value.map (Attribute.ofText key)

/-- Declare a node. -/
def insertNode (d : Document) (name : String) (entries : List (String × Option String)) :
    Except EditError Document :=
  d.append (.node ⟨name, none⟩ (attributes entries))

/-- Declare an edge between two nodes. -/
def insertEdge (d : Document) (tail head : String) (entries : List (String × Option String)) :
    Except EditError Document :=
  d.append (.edge [.node ⟨tail, none⟩, .node ⟨head, none⟩] (attributes entries))

/-- Delete a node and every end of an edge at it. -/
def deleteNode (d : Document) (name : String) : Except EditError (Document × Nat) :=
  d.erase (.node name)

/-- Delete the edge of this name from every chain that has it. -/
def deleteEdge (d : Document) (name : String) : Except EditError (Document × Nat) :=
  match EdgeName.split? name.toList with
  | none => .error (.notAnEdge name)
  | some (tail, head) => d.erase (.edge (String.ofList tail) (String.ofList head))

/-- Read the text once more. -/
def reread (d : Document) : Except EditError Document :=
  d.commit d.text.toList

/-- The document on one line. -/
def canonicalText (d : Document) : String :=
  d.tree.toText

end Document

/-- An edit of a document. -/
inductive Edit where
  | insertNode (name : String) (entries : List (String × Option String))
  | insertEdge (tail head : String) (entries : List (String × Option String))
  | deleteNode (name : String)
  | deleteEdge (name : String)
  | reread
  deriving DecidableEq

/-- Make an edit. A deletion answers how many elements it erased. -/
def Edit.apply (d : Document) : Edit → Except EditError (Document × Option Nat)
  | .insertNode name entries => (d.insertNode name entries).map (·, none)
  | .insertEdge tail head entries => (d.insertEdge tail head entries).map (·, none)
  | .deleteNode name => (d.deleteNode name).map fun (d, n) => (d, some n)
  | .deleteEdge name => (d.deleteEdge name).map fun (d, n) => (d, some n)
  | .reread => d.reread.map (·, none)

namespace Document

/-- The document after an attempt at an edit, with its answer. One that fails changes nothing. -/
def attempt (d : Document) (edit : Edit) : Document × Except EditError (Option Nat) :=
  match edit.apply d with
  | .ok (d', answer) => (d', .ok answer)
  | .error e => (d, .error e)

/-- The document after attempts at some edits. -/
def run (d : Document) (edits : List Edit) : Document :=
  edits.foldl (fun d edit => (d.attempt edit).1) d

end Document

end DotText
