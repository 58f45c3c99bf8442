import DotText.Html
import DotText.Tree

set_option autoImplicit false

/- Which trees there are texts for. A tree is readable when some text is read as it, and writable
when its canonical text says all that it says. -/
namespace DotText

/-- Whether quoting a text and reading it gives the text back: no quote and no end may follow an
odd number of backslashes. `odd` says whether such a number stands in front. -/
def Ident.isQuotable (odd : Bool) : List Char → Bool
  | [] => !odd
  | c :: cs =>
    if c = '\\' then isQuotable (!odd) cs
    else !(odd && c == '"') && isQuotable false cs

/-- Whether a name has a spelling that reads back. -/
def Ident.isSpellable (name : String) : Bool :=
  isQuotable false name.toList

/-- Whether all angle brackets are closed, of which `depth` are open in front. -/
def Html.isBalanced (depth : Nat) : List Char → Bool
  | [] => depth == 0
  | c :: cs =>
    if c = '<' then isBalanced (depth + 1) cs
    else if c = '>' then depth != 0 && isBalanced (depth - 1) cs
    else isBalanced depth cs

/-- The values that have a text. -/
def Value.isWritable : Value → Bool
  | .text s | .ident s => Ident.isSpellable s
  | .html s => Html.isBalanced 0 s.toList

/-- The values that a text is read as. -/
def Value.isReadable : Value → Bool
  | .ident _ => false
  | value => value.isWritable

/-- The names in a mention of a node. -/
def NodeRef.names (ref : NodeRef) : List String :=
  match ref.port with
  | none => [ref.id]
  | some port => ref.id :: port.id :: port.compass.toList

/-- The names of an endpoint, without those inside it. -/
def Endpoint.ownNames : Endpoint → List String
  | .node ref => ref.names
  | .subgraph id _ => id.toList

/-- The names of a statement, without those of its attributes and of the statements in it. -/
def Statement.ownNames : Statement → List String
  | .node ref _ => ref.names
  | .edge endpoints _ => endpoints.flatMap Endpoint.ownNames
  | .attr .. => []
  | .subgraph id _ => id.toList

def Statement.ownAttrs : Statement → List Attribute
  | .node _ attrs | .edge _ attrs | .attr _ attrs => attrs
  | .subgraph .. => []

/-- Whether a chain has an edge. -/
def Statement.isLinked : Statement → Bool
  | .edge endpoints _ => 2 ≤ endpoints.length
  | _ => true

/-- Whether an attribute statement says something. -/
def Statement.isGiving : Statement → Bool
  | .attr _ attrs => !attrs.isEmpty
  | _ => true

mutual

/-- Whether a property holds of a statement and of every statement in it, at any depth. -/
def Statement.everywhere (p : Statement → Bool) : Statement → Bool
  | .node ref attrs => p (.node ref attrs)
  | .edge endpoints attrs => p (.edge endpoints attrs) && Endpoint.everywhereInAll p endpoints
  | .attr target attrs => p (.attr target attrs)
  | .subgraph id body => p (.subgraph id body) && Statement.everywhereInAll p body

def Endpoint.everywhere (p : Statement → Bool) : Endpoint → Bool
  | .node _ => true
  | .subgraph _ body => Statement.everywhereInAll p body

def Statement.everywhereInAll (p : Statement → Bool) : List Statement → Bool
  | [] => true
  | s :: ss => s.everywhere p && Statement.everywhereInAll p ss

def Endpoint.everywhereInAll (p : Statement → Bool) : List Endpoint → Bool
  | [] => true
  | e :: es => e.everywhere p && Endpoint.everywhereInAll p es

end

section Everywhere

variable {p q : Statement → Bool}

mutual

/-- What follows from a property of one statement follows everywhere. -/
theorem Statement.everywhere_imp (implies : ∀ s, p s = true → q s = true) :
    (s : Statement) → s.everywhere p = true → s.everywhere q = true
  | .node _ _, all | .attr _ _, all => implies _ all
  | .edge endpoints _, all => by
    rw [Statement.everywhere, Bool.and_eq_true] at all ⊢
    exact ⟨implies _ all.1, Endpoint.everywhereInAll_imp implies endpoints all.2⟩
  | .subgraph _ body, all => by
    rw [Statement.everywhere, Bool.and_eq_true] at all ⊢
    exact ⟨implies _ all.1, Statement.everywhereInAll_imp implies body all.2⟩

theorem Endpoint.everywhere_imp (implies : ∀ s, p s = true → q s = true) :
    (e : Endpoint) → e.everywhere p = true → e.everywhere q = true
  | .node _, _ => rfl
  | .subgraph _ body, all => Statement.everywhereInAll_imp implies body all

theorem Statement.everywhereInAll_imp (implies : ∀ s, p s = true → q s = true) :
    (ss : List Statement) →
      Statement.everywhereInAll p ss = true → Statement.everywhereInAll q ss = true
  | [], _ => rfl
  | s :: ss, all => by
    rw [Statement.everywhereInAll, Bool.and_eq_true] at all ⊢
    exact ⟨Statement.everywhere_imp implies s all.1, Statement.everywhereInAll_imp implies ss all.2⟩

theorem Endpoint.everywhereInAll_imp (implies : ∀ s, p s = true → q s = true) :
    (es : List Endpoint) →
      Endpoint.everywhereInAll p es = true → Endpoint.everywhereInAll q es = true
  | [], _ => rfl
  | e :: es, all => by
    rw [Endpoint.everywhereInAll, Bool.and_eq_true] at all ⊢
    exact ⟨Endpoint.everywhere_imp implies e all.1, Endpoint.everywhereInAll_imp implies es all.2⟩

end

end Everywhere

/-- Whether the parts of a statement have spellings that read back, its values judged by
`allowed`. -/
def Statement.isSpellable (allowed : Value → Bool) (s : Statement) : Bool :=
  s.ownNames.all Ident.isSpellable &&
    s.ownAttrs.all fun a => Ident.isSpellable a.key && allowed a.value

/-- Whether some text is read as this tree. -/
def Graph.isReadable (g : Graph) : Bool :=
  g.id.all Ident.isSpellable &&
    Statement.everywhereInAll (fun s => s.isLinked && s.isSpellable Value.isReadable) g.body

/-- Whether the canonical text of a tree says all that the tree says. -/
def Graph.isWritable (g : Graph) : Bool :=
  g.id.all Ident.isSpellable &&
    Statement.everywhereInAll
      (fun s => s.isLinked && s.isGiving && s.isSpellable Value.isWritable) g.body

/-- Whether every attribute statement in a document says something. -/
def Graph.isGiving (g : Graph) : Bool :=
  Statement.everywhereInAll Statement.isGiving g.body

end DotText
