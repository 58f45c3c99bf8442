import DotText.Cursor.Skip
import DotText.Edit.Target
import DotText.Tree

set_option autoImplicit false

/- Walking over a tree and over a text that it was read from, side by side, and erasing from the
text what a target erases from the tree. Whatever the tree does not record, such as blanks,
comments and empty attribute lists, is found again in the text. -/
namespace DotText

/-- A part of a walk: it moves a cursor on, or finds that the text does not have what the tree
has. -/
abbrev Walk := Cursor → Except Mismatch Cursor

namespace Walk

/-- Go over a token and take it away with `erase`. -/
def skip (token : Token) (erase : Bool) (allowed : Separators) (isOptional : Bool) : Walk := fun c =>
  match c.skip token erase allowed isOptional with
  | (c, .ok _) => .ok c
  | (_, .error m) => .error m

/-- Go over a token that has to be there. -/
def token (token : Token) (erase : Bool) : Walk :=
  skip token erase .none false

/-- Go over a token that may be absent. -/
def optionalToken (token : Token) (erase : Bool) : Walk :=
  skip token erase .none true

/-- Go over a token inside a list, with the commas and semicolons in front of it. -/
def entryToken (token : Token) (erase isOptional : Bool) : Walk :=
  skip token erase .ofEntries isOptional

def keyword (word : String) : Walk :=
  token (.keyword word.toList) false

def ident (name : String) (erase : Bool) : Walk :=
  token (.ident name.toList) erase

def mark (text : List Char) (erase : Bool) : Walk :=
  token (.mark text) erase

/-- Go over the lists with nothing in them that come next. -/
def emptyLists (erase : Bool) (c : Cursor) : Except Mismatch Cursor :=
  if c.atEmptyList then do
    let c' ← mark [']'] erase (← mark ['['] erase c)
    if c'.rest.length < c.rest.length then emptyLists erase c' else return c'
  else return c
termination_by c.rest.length

/-- The token that a value is written as. -/
def valueToken : Value → Token
  | .html s => .html s.toList
  | .text s | .ident s => .ident s.toList

/-- Go over an entry of a list, with the brackets next to it. -/
def entry (erase : Bool) (a : Attribute) (c : Cursor) : Except Mismatch Cursor := do
  let c ← emptyLists erase c
  let c ← optionalToken (.mark ['[']) erase c
  let c ← entryToken (.ident a.key.toList) erase false c
  let c ← mark ['='] erase c
  let c ← token (valueToken a.value) erase c
  entryToken (.mark [']']) erase true c

/-- Go over lists that hold these attributes between them. -/
def attributes (erase : Bool) : List Attribute → Walk
  | [], c => emptyLists erase c
  | a :: as, c => do attributes erase as (← entry erase a c)

/-- Go over a colon and a name, if there is one. -/
def portPart (erase : Bool) : Option String → Walk
  | none, c => return c
  | some name, c => do ident name erase (← mark [':'] erase c)

/-- Go over a mention of a node. -/
def nodeRef (erase : Bool) (ref : NodeRef) (c : Cursor) : Except Mismatch Cursor := do
  let c ← ident ref.id erase c
  match ref.port with
  | none => return c
  | some port => portPart erase port.compass (← portPart erase (some port.id) c)

/-- Count an element that is erased. -/
def count (erase : Bool) (c : Cursor) : Cursor :=
  if erase then c.countErased else c

/-- Go over the keyword and the name in front of the brace of a subgraph. -/
def header (id : Option String) (c : Cursor) : Except Mismatch Cursor := do
  let c ← optionalToken (.keyword "subgraph".toList) false c
  match id with
  | none => return c
  | some name => ident name false c

/-- Keep the words next to an operator that was erased apart, where no separator does it. -/
def spaceApart (c : Cursor) : Cursor :=
  if c.followsSeparator then c else c.insert [' ']

/-- Go over the operator between two neighbours; `survivor` says whether an endpoint before it
stays. -/
def operator (target : Target) (op : List Char) (survivor : Bool) (left right : Endpoint)
    (c : Cursor) : Except Mismatch Cursor := do
  if target.erasesOp left right then
    let c := (← mark op true c).countErased
    return if survivor && !target.erasesEndpoint right then spaceApart c else c
  else mark op false c

/-- Go over the keyword of an attribute statement, which one about the graph may lack. -/
def attrKeyword : AttrTarget → Walk
  | .graph => optionalToken (.keyword AttrTarget.graph.keyword.toList) false
  | target => keyword target.keyword

mutual

/-- Go over a statement. -/
def statement (target : Target) (op : List Char) : Statement → Walk
  | .node ref attrs, c => do
    let erase := target.erasesNode ref
    return count erase (← attributes erase attrs (← nodeRef erase ref c))
  | .edge endpoints attrs, c => do
    let c ← attributes (target.erasesAttributes endpoints) attrs (← chain target op endpoints c)
    return if target.erasesLastOp endpoints then c.trim else c
  | .attr kind attrs, c => do attributes false attrs (← attrKeyword kind c)
  | .subgraph id body, c => do
    mark ['}'] false (← statements target op body (← mark ['{'] false (← header id c)))

/-- Go over one end of an edge. -/
def endpoint (target : Target) (op : List Char) : Endpoint → Walk
  | .node ref, c => do
    let erase := target.erasesNode ref
    return count erase (← nodeRef erase ref c)
  | .subgraph id body, c => do
    mark ['}'] false (← statements target op body (← mark ['{'] false (← header id c)))

/-- Go over the endpoints of a chain and the operators between them. -/
def chain (target : Target) (op : List Char) : List Endpoint → Walk
  | [], c => return c
  | e :: es, c => do
    links target op (!target.erasesEndpoint e) e es (← endpoint target op e c)

/-- Go over the endpoints after `left`, each with the operator in front of it. -/
def links (target : Target) (op : List Char) (survivor : Bool) (left : Endpoint) :
    List Endpoint → Walk
  | [], c => return c
  | e :: es, c => do
    let c ← endpoint target op e (← operator target op survivor left e c)
    links target op (survivor || !target.erasesEndpoint e) e es c

/-- Go over the statements of a block. A statement takes the separator after it along when nothing
is left of it. -/
def statements (target : Target) (op : List Char) : List Statement → Walk
  | [], c => return c.trim
  | s :: ss, c => do
    let c ← statement target op s c
    statements target op ss (c.skipBlanks (target.erasesStatement s) .ofStatements)

end

/-- Go over what stands in front of the statements of a document. -/
def opening (g : Graph) (c : Cursor) : Except Mismatch Cursor := do
  let c ← if g.strict then keyword "strict" c else pure c
  let c ← keyword g.kind.keyword c
  let c ← match g.id with
    | none => pure c
    | some id => ident id false c
  mark ['{'] false c

/-- Go over a document up to its last brace. -/
def document (target : Target) (g : Graph) (c : Cursor) : Except Mismatch Cursor := do
  statements target g.kind.edgeOp.toList g.body (← opening g c)

end Walk

end DotText
