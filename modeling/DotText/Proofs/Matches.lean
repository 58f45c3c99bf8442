import DotText.Edit.Matches
import DotText.Proofs.Counting
import DotText.Proofs.Documents
import DotText.Proofs.Gathering
import DotText.Proofs.Grammar.Trees
import DotText.Proofs.Keeping
import DotText.Proofs.WellFormed
import Mathlib.Algebra.GroupWithZero.Nat

set_option autoImplicit false

/- What a deletion counts is in the tree, whatever text it works on: the elements that the target is
about. With none of them the text stays as it is, and with a node there are some exactly if the index
has the node. -/
namespace DotText

open Walk (Move)

theorem Table.get?_eq_none_iff {α : Type} (t : Table α) (key : String) :
    t.get? key = none ↔ key ∉ t.keys := by
  simp only [get?, keys, Option.map_eq_none_iff, List.find?_eq_none, List.mem_map, not_exists,
    not_and, decide_eq_true_eq]

namespace Target

variable (target : Target)

theorem countAmong_append (places others : List Place) :
    target.countAmong (places ++ others) =
      target.countAmong places + target.countAmong others := by
  cases target with
  | nothing => rfl
  | node name =>
    simp only [countAmong, List.countP_append]
    omega
  | edge tail head => exact List.countP_append

/-- Where an element stands does not matter. -/
theorem countAmong_under (i : Nat) (places : List Place) :
    target.countAmong (places.map (Place.under i)) = target.countAmong places := by
  cases target with
  | nothing => rfl
  | node name =>
    simp only [countAmong, List.countP_map]
    rfl
  | edge tail head => exact List.countP_map

theorem erasesEndpoint_node (name : String) (e : Endpoint) :
    (node name).erasesEndpoint e = e.isNode name := by
  cases e <;> rfl

/-- How many of the operators, endpoints and statements that an element is made of go. -/
def countElement : Element → Nat
  | .statement s => target.countIn s
  | .endpoint _ left e =>
    (if left.any (target.erasesOp · e) then 1 else 0) + target.countInEndpoint e

/-- An operator goes with the endpoint behind it, or by itself. -/
theorem countAmong_endpoint (attrs : List Attribute) (left : Option Endpoint) (e : Endpoint) :
    target.countAmong [([], .endpoint attrs left e)] =
      (if left.any (target.erasesOp · e) then 1 else 0) + if target.erasesEndpoint e then 1 else 0 := by
  cases target with
  | nothing =>
    cases left <;> cases e <;> simp [countAmong, erasesOp_nothing, erasesEndpoint, erasesNode]
  | node name =>
    cases left with
    | none =>
      simp [countAmong, erasesEndpoint_node, Element.isStatementOf, Element.isEndpointOf,
        Element.hasOperatorAt]
    | some left =>
      simp [countAmong, erasesOp, erasesEndpoint_node, cuts, Element.isStatementOf,
        Element.isEndpointOf, Element.hasOperatorAt, Nat.add_comm]
  | edge tail head =>
    cases left with
    | none => cases e <;> simp [countAmong, erasesEndpoint, erasesNode, Element.hasOperatorBetween]
    | some left =>
      cases left <;> cases e <;>
        simp [countAmong, erasesOp, erasesEndpoint, erasesNode, cuts, Element.hasOperatorBetween]

/-- What goes of an element goes of its children or is the element itself. -/
theorem countElement_eq (element : Element) : target.countElement element =
    (element.children.map target.countElement).sum + target.countAmong [([], element)] := by
  have block (ss : List Statement) :
      target.countInAll ss = ((ss.map .statement).map target.countElement).sum := by
    induction ss with
    | nil => rfl
    | cons s ss ih => rw [countInAll, ih]; rfl
  have chain (attrs : List Attribute) (left : Option Endpoint) (es : List Endpoint) :
      target.countOps (left.toList ++ es) + target.countInEndpoints es =
        ((((left :: es.map some).zip es).map fun p => Element.endpoint attrs p.1 p.2).map
          target.countElement).sum := by
    induction es generalizing left with
    | nil => cases left <;> rfl
    | cons e es ih =>
      have others := ih (some e)
      have first : target.countOps (left.toList ++ e :: es) =
          (if left.any (target.erasesOp · e) then 1 else 0) + target.countOps (e :: es) := by
        cases left <;> simp [countOps]
      rw [List.map_cons, List.zip_cons_cons, List.map_cons, List.map_cons, List.sum_cons, ← others,
        first, countInEndpoints]
      simp only [countElement, Option.toList_some, List.singleton_append]
      omega
  match element with
  | .statement (.node ref attrs) =>
    cases target <;>
      simp [countElement, countIn, erasesNode, countAmong, Element.isStatementOf,
        Element.isEndpointOf, Element.hasOperatorAt, Element.hasOperatorBetween, Element.children]
  | .statement (.attr kind attrs) => cases target <;> rfl
  | .statement (.edge endpoints attrs) =>
    have whole := chain attrs none endpoints
    rw [Option.toList_none, List.nil_append] at whole
    have own : target.countAmong [([], .statement (.edge endpoints attrs))] = 0 := by
      cases target <;> rfl
    rw [own, countElement, countIn, whole]
    rfl
  | .statement (.subgraph id body) =>
    have own : target.countAmong [([], .statement (.subgraph id body))] = 0 := by
      cases target <;> rfl
    rw [own, countElement, countIn, block]
    rfl
  | .endpoint attrs left (.node ref) =>
    rw [countAmong_endpoint, countElement, countInEndpoint, erasesEndpoint, Element.children]
    exact (Nat.zero_add _).symm
  | .endpoint attrs left (.subgraph id body) =>
    rw [countAmong_endpoint, countElement, countInEndpoint, erasesEndpoint, Element.children,
      block]
    exact Nat.add_comm _ _

/-- What goes of an element is counted among all that is inside it. -/
theorem countAmong_places (element : Element) :
    target.countAmong element.places = target.countElement element := by
  have children (k : Nat) (elements : List Element)
      (each : ∀ child ∈ elements, target.countAmong child.places = target.countElement child) :
      target.countAmong (Element.placesFrom k elements) =
        (elements.map target.countElement).sum := by
    induction elements generalizing k with
    | nil => cases target <;> rfl
    | cons child elements ih =>
      rw [List.forall_mem_cons] at each
      rw [Element.placesFrom_cons, countAmong_append, countAmong_under, each.1, ih (k + 1) each.2]
      rfl
  induction element using Element.induction with
  | step element ih =>
    rw [Element.places, Element.within_eq, countAmong_append, children 0 element.children ih,
      countElement_eq]

end Target

namespace Graph

variable (g : Graph)

theorem countAmong_places (target : Target) : target.countAmong g.places = g.countErased target := by
  have whole := target.countAmong_places g.block
  have own : target.countAmong [([], g.block)] = 0 := by cases target <;> rfl
  rw [Element.places, Target.countAmong_append, own] at whole
  exact whole

/-- The index does not have a node exactly if no element declares it. -/
theorem get?_nodes_eq_none_iff (name : String) : g.index.nodes.get? name = none ↔
    ∀ place ∈ g.places, ∀ d ∈ place.2.ownNodes, d.name ≠ name := by
  rw [Table.get?_eq_none_iff, index, Declaration.mem_keys_collect, ← flatMap_ownNodes,
    Declaration.names, List.mem_map]
  constructor
  · intro absent place mem d own named
    exact absent ⟨d, List.mem_flatMap.mpr ⟨place, mem, own⟩, named⟩
  · rintro absent ⟨d, mem, named⟩
    obtain ⟨place, mem, own⟩ := List.mem_flatMap.mp mem
    exact absent place mem d own named

/-- Nothing goes with a node exactly if the index does not have it. -/
theorem countErased_node_eq_zero_iff (name : String) :
    g.countErased (.node name) = 0 ↔ g.index.nodes.get? name = none := by
  simp only [get?_nodes_eq_none_iff, ← g.countAmong_places, Target.countAmong, Nat.add_eq_zero_iff,
    List.countP_eq_zero]
  constructor
  · rintro ⟨⟨statements, endpoints⟩, -⟩ ⟨path, element⟩ mem d own rfl
    match element with
    | .statement (.node ref attrs) =>
      rw [List.mem_singleton.mp own] at statements
      exact statements _ mem (beq_self_eq_true ref.id)
    | .endpoint _ _ (.node ref) =>
      rw [List.mem_singleton.mp own] at endpoints
      exact endpoints _ mem (beq_self_eq_true ref.id)
  · intro absent
    have plain : ∀ path attrs left e, g.at? path = some (.endpoint attrs left e) →
        e.isNode name = false := by
      intro path attrs left e there
      match e with
      | .node ref =>
        have other := absent _ ((g.mem_places_iff _ _).mpr there) _ List.mem_cons_self
        exact beq_eq_false_iff_ne.mpr (Ne.symm other)
      | .subgraph .. => rfl
    refine ⟨⟨?_, ?_⟩, ?_⟩
    · rintro ⟨path, element⟩ mem matches_
      match element with
      | .statement (.node ref attrs) =>
        exact absent _ mem _ List.mem_cons_self (beq_iff_eq.mp matches_).symm
    · rintro ⟨path, element⟩ mem matches_
      match element with
      | .endpoint attrs left e =>
        have other := plain path attrs left e ((g.mem_places_iff _ _).mp mem)
        rw [Element.isEndpointOf, other] at matches_
        cases matches_
    · rintro ⟨path, element⟩ mem matches_
      match element with
      | .endpoint attrs (some left) e =>
        have there := (g.mem_places_iff _ _).mp mem
        obtain ⟨path', left', there'⟩ := g.exists_left there
        rw [Element.hasOperatorAt, plain _ _ _ _ there, plain _ _ _ _ there'] at matches_
        cases matches_

theorem linked_iff :
    Statement.everywhereInAll Statement.isLinked g.body = true ↔ g.Linked := by
  rw [everywhereInAll_iff]
  simp only [Statement.isLinked_iff]
  constructor
  · rintro all path endpoints attrs there
    exact all path _ there endpoints attrs rfl
  · rintro all path s there endpoints attrs rfl
    exact all path endpoints attrs there

variable {g} {target : Target} {cs : List Char} {e : Erasure}

/-- Where nothing is counted the text is as it was, even if it is not the one that the tree is of. -/
theorem text_of_eraseFrom (linked : g.Linked) (erased : g.eraseFrom target cs = .ok e)
    (none : e.count = 0) : e.text = cs := by
  have zero := (count_of_eraseFrom erased).symm.trans none
  have calm := Move.calm_of_countErased (g.linked_iff.mpr linked) zero
  rw [g.eraseFrom_eq_run] at erased
  obtain ⟨c, ran, rfl⟩ := map_eq_ok.mp erased
  exact (Move.keeps_run calm (Move.allAlong_keepsGap calm rfl) ran).text

end Graph

namespace Document

variable {d d' : Document}

theorem eraseFrom_of_erase {target : Target} {n : Nat} (erased : d.erase target = .ok (d', n)) :
    ∃ e, d.tree.eraseFrom target d.text.toList = .ok e ∧ e.count = n := by
  unfold erase at erased
  split at erased
  · cases erased
  · next e found =>
    split at erased
    · next none =>
      cases erased
      exact ⟨e, found, none⟩
    · obtain ⟨_, -, same⟩ := map_eq_ok.mp erased
      cases same
      exact ⟨e, found, rfl⟩

/-- A deletion that goes through counts nothing exactly if the index does not have the node. -/
theorem deleteNode_eq_zero_iff (current : d.Current) {name : String} {n : Nat}
    (deleted : d.deleteNode name = .ok (d', n)) : n = 0 ↔ d.index.nodes.get? name = none := by
  obtain ⟨e, erased, rfl⟩ := eraseFrom_of_erase deleted
  rw [Graph.count_of_eraseFrom erased, Graph.countErased_node_eq_zero_iff, current.index]

end Document

/-- A deletion from any text counts the elements of the tree that the target is about, and with none
of them it leaves the text as it is. So it counts nothing of a node exactly if the index of the
document does not have the node. -/
theorem count_of_matches :
    (∀ g : Graph, g.Linked → ∀ target cs e, g.eraseFrom target cs = .ok e →
      (∃ places, g.Lists places ∧ e.count = target.countAmong places) ∧
        (e.count = 0 → e.text = cs)) ∧
    ∀ d : Document, d.Reachable → ∀ name d' n, d.deleteNode name = .ok (d', n) →
      (n = 0 ↔ d.index.nodes.get? name = none) := by
  refine ⟨fun g linked target cs e erased => ⟨⟨g.places, g.lists_places, ?_⟩, ?_⟩, ?_⟩
  · rw [Graph.count_of_eraseFrom erased, g.countAmong_places]
  · exact Graph.text_of_eraseFrom linked erased
  · intro d reachable name d' n deleted
    exact Document.deleteNode_eq_zero_iff reachable.current deleted

/-- A node is in a chain, in a block of the chain and by itself, and the text does not end with the
tree. A document without the node has nothing to delete. -/
theorem count_of_node_in_block :
    ∃ (g : Graph) (cs : List Char) (e : Erasure) (places : List Place),
      cs = "digraph\x7bx -> \x7bx:p -> b\x7d -> c; x\x7d\x7d".toList ∧
      (∀ g', Graph.read cs ≠ .ok g') ∧ g.Linked ∧ g.eraseFrom (.node "x") cs = .ok e ∧
      g.Lists places ∧ e.count = (Target.node "x").countAmong places ∧ e.count = 5 ∧
      ∃ d d' : Document, d.Reachable ∧ d.tree = g ∧ d.deleteNode "p" = .ok (d', 0) ∧
        d.index.nodes.get? "p" = none := by
  let x : Endpoint := .node ⟨"x", none⟩
  let block : Endpoint :=
    .subgraph none [.edge [.node ⟨"x", some ⟨"p", none⟩⟩, .node ⟨"b", none⟩] []]
  let g : Graph :=
    ⟨false, .digraph, none, [.edge [x, block, .node ⟨"c", none⟩] [], .node ⟨"x", none⟩ []]⟩
  let cs := "digraph\x7bx -> \x7bx:p -> b\x7d -> c; x\x7d\x7d".toList
  let d : Document := ⟨"digraph\x7bx -> \x7bx:p -> b\x7d -> c; x\x7d", g, g.index, {}⟩
  obtain ⟨matched, absent⟩ := count_of_matches
  have unread : (Graph.read cs).isOk = false := by decide +kernel
  have linked : g.Linked := g.linked_iff.mp rfl
  have counted : (g.eraseFrom (.node "x") cs).map Erasure.count = .ok 5 := by decide +kernel
  obtain ⟨e, erased, five⟩ := map_eq_ok.mp counted
  obtain ⟨⟨places, listed, count⟩, -⟩ := matched g linked _ cs e erased
  have opened : Document.ofText {} d.text = .ok d :=
    Document.ofText_eq_ok.mpr ⟨g, by decide +kernel, rfl⟩
  have reachable : d.Reachable := ⟨_, _, d, [], opened, rfl⟩
  have deleted : (d.deleteNode "p").map Prod.snd = .ok 0 := by decide +kernel
  obtain ⟨⟨d', n⟩, deleted, rfl⟩ := map_eq_ok.mp deleted
  refine ⟨g, cs, e, places, rfl, ?_, linked, erased, listed, count, five, d, d', reachable, rfl,
    deleted, (absent d reachable "p" d' 0 deleted).mp rfl⟩
  intro g' read
  rw [read] at unread
  cases unread

end DotText
