import DotText.Index
import DotText.Proofs.Printing.Trees

set_option autoImplicit false

/- The normal form of a tree is written as the tree is, and where no value was built as an identifier
it declares what the tree declares. -/
namespace DotText

@[simp] theorem Value.render_normal (value : Value) : value.normal.render = value.render := by
  cases value <;> rfl

@[simp] theorem Attribute.render_normal (a : Attribute) : a.normal.render = a.render := by
  simp [render, normal]

@[simp] theorem Attribute.renderList_normal (attrs : List Attribute) :
    renderList (attrs.map Attribute.normal) = renderList attrs := by
  have entries : (attrs.map Attribute.normal).map render = attrs.map render := by
    simp [Function.comp_def]
  simp [renderList, entries]

@[simp] theorem Statement.isSubgraph_normal (s : Statement) : s.normal.isSubgraph = s.isSubgraph := by
  cases s <;> rfl

/-- The first statement of a block stays, so none but an empty block becomes empty. -/
@[simp] theorem Statement.isHollow_normal (s : Statement) : s.normal.isHollow = s.isHollow := by
  cases s with
  | subgraph id body =>
    cases body with
    | nil => rfl
    | cons s ss => cases id <;> simp [normal, normalAll, isHollow]
  | _ => rfl

section Rendering

variable (op : List Char)

mutual

theorem Statement.render_normal : (s : Statement) → s.normal.render op = s.render op
  | .node _ _ => by simp [Statement.normal, Statement.render]
  | .edge endpoints _ => by
    simp [Statement.normal, Statement.render, Endpoint.renderAll_normalAll endpoints]
  | .attr _ _ => by simp [Statement.normal, Statement.render]
  | .subgraph _ body => by
    simp [Statement.normal, Statement.render, Statement.renderAll_normalAll false body]

theorem Endpoint.render_normal : (e : Endpoint) → e.normal.render op = e.render op
  | .node _ => rfl
  | .subgraph _ body => by
    simp [Endpoint.normal, Endpoint.render, Statement.renderAll_normalAll false body]

theorem Endpoint.renderAll_normalAll : (es : List Endpoint) →
    Endpoint.renderAll op (Endpoint.normalAll es) = Endpoint.renderAll op es
  | [] => rfl
  | e :: es => by
    simp [Endpoint.normalAll, Endpoint.renderAll, Endpoint.render_normal e,
      Endpoint.renderAll_normalAll es]

theorem Statement.renderAll_normalAll : (after : Bool) → (ss : List Statement) →
    Statement.renderAll op after (Statement.normalAll after ss) = Statement.renderAll op after ss
  | _, [] => rfl
  | after, s :: ss => by
    rw [Statement.normalAll, Statement.renderAll]
    split
    · exact Statement.renderAll_normalAll after ss
    · next kept =>
      rw [Statement.renderAll, Statement.isHollow_normal, if_neg kept, Statement.isSubgraph_normal,
        Statement.render_normal s, Statement.renderAll_normalAll s.isSubgraph ss]

end

end Rendering

theorem Graph.render_normal (g : Graph) : g.normal.render = g.render := by
  have body := Statement.renderAll_normalAll g.kind.edgeOp.toList false g.body
  rw [Graph.render, Graph.render, ← body]
  rfl

def Value.isIdent : Value → Bool
  | .ident _ => true
  | _ => false

/-- Whether no value of a statement was built as an identifier, those of the statements in it
apart. -/
def Statement.isPlain (s : Statement) : Bool :=
  s.ownAttrs.all fun a => !a.value.isIdent

/-- Whether no value in a document was built as an identifier. -/
def Graph.isPlain (g : Graph) : Bool :=
  Statement.everywhereInAll Statement.isPlain g.body

theorem Value.normal_of_not_isIdent {value : Value} (plain : value.isIdent = false) :
    value.normal = value := by
  cases value with
  | ident => cases plain
  | _ => rfl

theorem Attribute.map_normal {attrs : List Attribute}
    (plain : attrs.all (fun a => !a.value.isIdent) = true) :
    attrs.map Attribute.normal = attrs := by
  simp only [List.all_eq_true, Bool.not_eq_true'] at plain
  refine (List.map_congr_left fun a mem => ?_).trans (List.map_id attrs)
  rw [Attribute.normal, Value.normal_of_not_isIdent (plain a mem)]
  rfl

/-- What is left out declares nothing. -/
theorem Statement.declares_nothing {s : Statement} (hollow : s.isHollow = true) (kind : Kind) :
    s.nodes = [] ∧ s.edges kind = [] := by
  match s, hollow with
  | .subgraph none [], _ => exact ⟨rfl, rfl⟩

section Declarations

variable (kind : Kind)

mutual

theorem Statement.declares_normal : (s : Statement) → s.everywhere Statement.isPlain = true →
    s.normal.nodes = s.nodes ∧ s.normal.edges kind = s.edges kind
  | .node _ attrs, plain => by
    have entries : attrs.map Attribute.normal = attrs := Attribute.map_normal plain
    simp [Statement.normal, entries]
  | .edge endpoints attrs, plain => by
    rw [Statement.everywhere, Bool.and_eq_true] at plain
    have entries : attrs.map Attribute.normal = attrs := Attribute.map_normal plain.1
    have ends := Endpoint.declares_normalAll endpoints plain.2
    simp [Statement.normal, entries, Statement.nodes, Statement.edges, ends]
  | .attr _ _, _ => ⟨rfl, rfl⟩
  | .subgraph _ body, plain => by
    rw [Statement.everywhere, Bool.and_eq_true] at plain
    exact Statement.declares_normalAll false body plain.2

theorem Endpoint.declares_normal : (e : Endpoint) → e.everywhere Statement.isPlain = true →
    e.normal.nodes = e.nodes ∧ e.normal.edges kind = e.edges kind
  | .node _, _ => ⟨rfl, rfl⟩
  | .subgraph _ body, plain => Statement.declares_normalAll false body plain

theorem Endpoint.declares_normalAll : (es : List Endpoint) →
    Endpoint.everywhereInAll Statement.isPlain es = true →
    Endpoint.nodesOfAll (Endpoint.normalAll es) = Endpoint.nodesOfAll es ∧
      ∀ attrs tails, Endpoint.edgesOfChain kind attrs tails (Endpoint.normalAll es) =
        Endpoint.edgesOfChain kind attrs tails es
  | [], _ => ⟨rfl, fun _ _ => rfl⟩
  | e :: es, plain => by
    rw [Endpoint.everywhereInAll, Bool.and_eq_true] at plain
    obtain ⟨nodes, edges⟩ := Endpoint.declares_normal e plain.1
    obtain ⟨others, links⟩ := Endpoint.declares_normalAll es plain.2
    have names : e.normal.names = e.names := by rw [Endpoint.names, nodes, Endpoint.names]
    simp [Endpoint.normalAll, Endpoint.nodesOfAll, Endpoint.edgesOfChain, nodes, edges, others,
      links, names]

theorem Statement.declares_normalAll : (after : Bool) → (ss : List Statement) →
    Statement.everywhereInAll Statement.isPlain ss = true →
    Statement.nodesOfAll (Statement.normalAll after ss) = Statement.nodesOfAll ss ∧
      Statement.edgesOfAll kind (Statement.normalAll after ss) = Statement.edgesOfAll kind ss
  | _, [], _ => ⟨rfl, rfl⟩
  | after, s :: ss, plain => by
    rw [Statement.everywhereInAll, Bool.and_eq_true] at plain
    rw [Statement.normalAll]
    split
    · -- The statement is left out, and the next one is judged by the subgraph in front of both.
      next skipped =>
      rw [Bool.and_eq_true] at skipped
      obtain ⟨nodes, edges⟩ := Statement.declares_nothing skipped.2 kind
      have others := Statement.declares_normalAll after ss plain.2
      simp [Statement.nodesOfAll, Statement.edgesOfAll, nodes, edges, others]
    · have first := Statement.declares_normal s plain.1
      have others := Statement.declares_normalAll s.isSubgraph ss plain.2
      simp [Statement.nodesOfAll, Statement.edgesOfAll, first, others]

end

end Declarations

theorem Graph.index_normal {g : Graph} (plain : g.isPlain = true) : g.normal.index = g.index := by
  have declared := Statement.declares_normalAll g.kind false g.body plain
  simp [Graph.index, Graph.normal, declared]

/-- A writable tree that is written and read again is its normal form, and nothing more is lost: the
normal form is written as the tree is, and declares what the tree declares where no value was built
as an identifier. -/
theorem Graph.ofText_toText (g : Graph) :
    (g.isWritable = true → Graph.ofText g.toText = .ok g.normal) ∧
      g.normal.toText = g.toText ∧ (g.isPlain = true → g.normal.index = g.index) := by
  refine ⟨fun writable => ?_, ?_, Graph.index_normal⟩
  · rw [Graph.ofText_eq_ok, Graph.toText, String.toList_ofList]
    exact Graph.read_render writable
  · rw [Graph.toText, Graph.render_normal, Graph.toText]

/-- Of two empty subgraphs one comes back, and a value that is a word of the language comes back. -/
theorem Graph.ofText_toText_of_hollow :
    let g : Graph := ⟨true, .digraph, some "g\"",
      [.subgraph none [], .subgraph none [], .node ⟨"a", some ⟨"p", none⟩⟩ [⟨"k", .text "node"⟩]]⟩
    let h : Graph := ⟨true, .digraph, some "g\"",
      [.subgraph none [], .node ⟨"a", some ⟨"p", none⟩⟩ [⟨"k", .text "node"⟩]]⟩
    g.isWritable = true ∧ g.isPlain = true ∧ Graph.ofText g.toText = .ok h ∧ h.index = g.index := by
  intro g h
  have writable : g.isWritable = true := by decide +kernel
  have plain : g.isPlain = true := by decide +kernel
  have normal : g.normal = h := rfl
  have both := Graph.ofText_toText g
  exact ⟨writable, plain, normal ▸ both.1 writable, normal ▸ both.2.2 plain⟩

end DotText
