import DotText.Ident
import DotText.Tree

set_option autoImplicit false

/- Writing a tree as one line of text. Statements are a space apart, every identifier is bare where
it may be, and an anonymous subgraph with nothing in it is left out where the statement written
before it is a subgraph too. -/
namespace DotText

def Value.render : Value → List Char
  | .text s | .ident s => Ident.spell s.toList
  | .html s => '<' :: (s.toList ++ ['>'])

def Attribute.render (a : Attribute) : List Char :=
  Ident.spell a.key.toList ++ '=' :: a.value.render

/-- A list of attributes with the space in front of it; nothing for no attributes. -/
def Attribute.renderList (attrs : List Attribute) : List Char :=
  if attrs.isEmpty then []
  else " [".toList ++ [' '].intercalate (attrs.map Attribute.render) ++ [']']

/-- A colon and an identifier, if there is one. -/
def Port.renderPart : Option String → List Char
  | none => []
  | some s => ':' :: Ident.spell s.toList

def Port.render (port : Port) : List Char :=
  renderPart (some port.id) ++ renderPart port.compass

def NodeRef.render (ref : NodeRef) : List Char :=
  Ident.spell ref.id.toList ++ (ref.port.map Port.render).getD []

/-- What stands before the brace of a subgraph; an anonymous one has no keyword. -/
def Endpoint.renderHeader : Option String → List Char
  | none => []
  | some id => "subgraph ".toList ++ Ident.spell id.toList ++ [' ']

def Statement.isSubgraph : Statement → Bool
  | .subgraph .. => true
  | _ => false

/-- An anonymous subgraph with nothing in it. -/
def Statement.isHollow : Statement → Bool
  | .subgraph none [] => true
  | _ => false

mutual

def Statement.render (op : List Char) : Statement → List Char
  | .node ref attrs => ref.render ++ Attribute.renderList attrs
  | .edge endpoints attrs =>
    (' ' :: (op ++ [' '])).intercalate (Endpoint.renderAll op endpoints) ++
      Attribute.renderList attrs
  | .attr target attrs => target.keyword.toList ++ Attribute.renderList attrs
  | .subgraph id body =>
    Endpoint.renderHeader id ++ '{' :: ([' '].intercalate (Statement.renderAll op false body) ++
      ['}'])

def Endpoint.render (op : List Char) : Endpoint → List Char
  | .node ref => ref.render
  | .subgraph id body =>
    Endpoint.renderHeader id ++ '{' :: ([' '].intercalate (Statement.renderAll op false body) ++
      ['}'])

def Endpoint.renderAll (op : List Char) : List Endpoint → List (List Char)
  | [] => []
  | e :: es => e.render op :: Endpoint.renderAll op es

/-- The texts of the statements that are written, where `afterSubgraph` says whether the last one
written is a subgraph. -/
def Statement.renderAll (op : List Char) (afterSubgraph : Bool) : List Statement → List (List Char)
  | [] => []
  | s :: ss =>
    if afterSubgraph && s.isHollow then Statement.renderAll op afterSubgraph ss
    else s.render op :: Statement.renderAll op s.isSubgraph ss

end

/-- The canonical text of a document. -/
def Graph.render (g : Graph) : List Char :=
  (if g.strict then "strict ".toList else []) ++ g.kind.keyword.toList ++ [' '] ++
    (g.id.map fun id => Ident.spell id.toList ++ [' ']).getD [] ++
    '{' :: ([' '].intercalate (Statement.renderAll g.kind.edgeOp.toList false g.body) ++ ['}'])

def Graph.toText (g : Graph) : String :=
  String.ofList g.render

end DotText
