import DotText.Proofs.Counting
import DotText.Proofs.Declared
import DotText.Proofs.Deletion
import DotText.Proofs.Documents

set_option autoImplicit false

/- Deleting one node and then another. Where the deletions go through as they should, a document
ends up with the same nodes and edges in either order. -/
namespace DotText

theorem namesWithout_comm (name other : String) (names : List String) :
    namesWithout name (namesWithout other names) =
      namesWithout other (namesWithout name names) := by
  simp only [namesWithout, List.filter_filter, Bool.and_comm]

theorem linksWithout_comm (name other : String) (ps : List (String × String)) :
    linksWithout name (linksWithout other ps) = linksWithout other (linksWithout name ps) := by
  simp only [linksWithout, List.filter_filter, Bool.and_comm]

namespace Graph

variable (g : Graph)

theorem keys_nodes : g.index.nodes.keys =
    (Declaration.names (Statement.nodesOfAll g.body)).foldl Declaration.addName [] :=
  Declaration.keys_collect _

theorem keys_edges : g.index.edges.keys =
    ((Statement.linksOfAll g.body).map fun p => g.kind.edgeName p.1 p.2).foldl
      Declaration.addName [] := by
  rw [← Statement.names_edgesOfAll]
  exact Declaration.keys_collect _

/-- The nodes of a document but for one are those that are left when it goes. -/
theorem mem_keys_nodes_prune (name other : String) :
    other ∈ (g.prune (.node name)).index.nodes.keys ↔
      other ∈ g.index.nodes.keys ∧ other ≠ name := by
  rw [index, index, Declaration.mem_keys_collect, Declaration.mem_keys_collect, prune,
    Statement.names_pruneAll, namesWithout, List.mem_filter, bne_iff_ne]

/-- In whichever order two nodes go from a tree, the same nodes and edges are left. -/
theorem index_prune_prune (name other : String) :
    let first := (g.prune (.node name)).prune (.node other)
    let second := (g.prune (.node other)).prune (.node name)
    first.index.nodes.keys = second.index.nodes.keys ∧
      first.index.edges.keys = second.index.edges.keys := by
  intro first second
  constructor
  · rw [keys_nodes, keys_nodes]
    simp only [first, second, prune, Statement.names_pruneAll, namesWithout_comm name other]
  · rw [keys_edges, keys_edges]
    simp only [first, second, prune, Statement.links_pruneAll, linksWithout_comm name other]

end Graph

namespace Document

open Walk (Move)

variable {d : Document}

/-- Whether every token is reached when a target is erased, every separator goes that is to go, and
every token that is kept stays apart from what is in front of it. -/
def erasesCleanly (d : Document) (target : Target) : Bool :=
  [Move.reaches, Move.sweeps, Move.keepsApart].all fun holds =>
    Move.allAlong holds (Move.whole target d.tree) (.ofText d.text.toList)

/-- A clean deletion goes through, and leaves the tree without what is erased. -/
theorem erase_of_erasesCleanly (current : d.Current) {target : Target}
    (clean : d.erasesCleanly target = true) :
    ∃ d', d.erase target = .ok (d', d.tree.countErased target) ∧ d'.Current ∧
      d'.tree = d.tree.prune target := by
  simp only [erasesCleanly, List.all_cons, List.all_nil, Bool.and_true, Bool.and_eq_true] at clean
  obtain ⟨e, erased, -, exact⟩ := Graph.read_of_erased current.tree clean.1
  have read := exact clean.2.1 clean.2.2
  have count := Graph.count_of_eraseFrom erased
  by_cases none : e.count = 0
  · have zero := count.symm.trans none
    have same := Graph.eraseFrom_of_countErased current.tree zero
    cases erased.symm.trans same
    refine ⟨d, ?_, current, Except.ok.inj (current.tree.symm.trans read)⟩
    simp only [erase, same, if_pos, zero]
  · let g := d.tree.prune target
    let d' : Document := ⟨String.ofList e.text, g, g.index, d.layout⟩
    have committed : d.commit e.text = .ok d' :=
      commit_eq_ok.mpr (ofText_eq_ok.mpr ⟨g, by rwa [String.toList_ofList], rfl⟩)
    refine ⟨d', ?_, (current_of_commit committed).1, rfl⟩
    simp only [erase, erased, if_neg none, committed]
    rw [count]
    rfl

theorem attempt_deleteNode (current : d.Current) {name : String}
    (clean : d.erasesCleanly (.node name) = true) :
    (d.attempt (.deleteNode name)).1.Current ∧
      (d.attempt (.deleteNode name)).1.tree = d.tree.prune (.node name) := by
  obtain ⟨d', erased, current', tree⟩ := erase_of_erasesCleanly current clean
  have applied : (Edit.deleteNode name).apply d =
      .ok (d', some (d.tree.countErased (.node name))) := by
    rw [Edit.apply, deleteNode, erased]
    rfl
  rw [attempt, applied]
  exact ⟨current', tree⟩

/-- Whatever document has come about, two nodes may be deleted from it in either order if each of
the deletions is clean. The same nodes and edges are left, and no nodes but those two are gone. -/
theorem index_of_two_deletions (reachable : d.Reachable) {name other : String}
    (clean : d.erasesCleanly (.node name) = true)
    (behind : (d.run [.deleteNode name]).erasesCleanly (.node other) = true)
    (clean' : d.erasesCleanly (.node other) = true)
    (behind' : (d.run [.deleteNode other]).erasesCleanly (.node name) = true) :
    let first := d.run [.deleteNode name, .deleteNode other]
    let second := d.run [.deleteNode other, .deleteNode name]
    first.index.nodes.keys = second.index.nodes.keys ∧
      first.index.edges.keys = second.index.edges.keys ∧
      ∀ node, node ∈ first.index.nodes.keys ↔
        node ∈ d.index.nodes.keys ∧ node ≠ name ∧ node ≠ other := by
  have twice {x y : String} (clean : d.erasesCleanly (.node x) = true)
      (behind : (d.run [.deleteNode x]).erasesCleanly (.node y) = true) :
      (d.run [.deleteNode x, .deleteNode y]).index =
        ((d.tree.prune (.node x)).prune (.node y)).index := by
    obtain ⟨current, tree⟩ := attempt_deleteNode reachable.current clean
    obtain ⟨current', tree'⟩ := attempt_deleteNode current behind
    rw [← tree, ← tree']
    exact current'.index
  intro first second
  obtain ⟨nodes, edges⟩ := d.tree.index_prune_prune name other
  rw [← twice clean behind, ← twice clean' behind'] at nodes edges
  refine ⟨nodes, edges, fun node => ?_⟩
  have left := twice clean behind
  rw [left, Graph.mem_keys_nodes_prune, Graph.mem_keys_nodes_prune, reachable.current.index,
    and_assoc]

/-- One node begins a chain, and the other is mentioned inside an end of it. -/
theorem index_of_two_in_chain :
    let text := "digraph\x7bx->\x7by;b\x7d->d;y\x7d"
    ∃ d : Document, d.Reachable ∧ d.text = text ∧
      (d.run [.deleteNode "x", .deleteNode "y"]).index.edges.keys =
        (d.run [.deleteNode "y", .deleteNode "x"]).index.edges.keys ∧
      "b" ∈ (d.run [.deleteNode "x", .deleteNode "y"]).index.nodes.keys := by
  intro text
  let g : Graph := ⟨false, .digraph, none,
    [.edge [.node ⟨"x", none⟩, .subgraph none [.node ⟨"y", none⟩ [], .node ⟨"b", none⟩ []],
      .node ⟨"d", none⟩] [], .node ⟨"y", none⟩ []]⟩
  let d : Document := ⟨text, g, g.index, {}⟩
  have opened : ofText {} text = .ok d := ofText_eq_ok.mpr ⟨g, by decide +kernel, rfl⟩
  have reachable : d.Reachable := ⟨{}, _, d, [], opened, rfl⟩
  have clean : d.erasesCleanly (.node "x") = true ∧
      (d.run [.deleteNode "x"]).erasesCleanly (.node "y") = true ∧
      d.erasesCleanly (.node "y") = true ∧
      (d.run [.deleteNode "y"]).erasesCleanly (.node "x") = true := by
    decide +kernel
  obtain ⟨-, edges, nodes⟩ :=
    index_of_two_deletions reachable clean.1 clean.2.1 clean.2.2.1 clean.2.2.2
  exact ⟨d, reachable, rfl, edges, (nodes "b").mpr (by decide +kernel)⟩

/-- Of a chain that falls apart at two neighbours the ends are left. They stay apart in one order
and are joined in the other, since the blank that parts a chain goes with the end in front of it. -/
theorem nodes_of_parted_chain :
    ∃ d : Document, d.Reachable ∧ d.text = "digraph\x7ba->x->y->b\x7d" ∧
      (d.run [.deleteNode "x", .deleteNode "y"]).index.nodes.keys = ["a", "b"] ∧
      (d.run [.deleteNode "y", .deleteNode "x"]).index.nodes.keys = ["ab"] := by
  let g : Graph := ⟨false, .digraph, none, [.edge [.node ⟨"a", none⟩, .node ⟨"x", none⟩,
    .node ⟨"y", none⟩, .node ⟨"b", none⟩] []]⟩
  let d : Document := ⟨"digraph\x7ba->x->y->b\x7d", g, g.index, {}⟩
  have opened : ofText {} "digraph\x7ba->x->y->b\x7d" = .ok d :=
    ofText_eq_ok.mpr ⟨g, by decide +kernel, rfl⟩
  exact ⟨d, ⟨{}, _, d, [], opened, rfl⟩, rfl, by decide +kernel, by decide +kernel⟩

end Document

end DotText
