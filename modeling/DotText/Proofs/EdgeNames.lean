import DotText.Proofs.Documents
import DotText.Proofs.Gathering

set_option autoImplicit false

/- Names of edges, put together and taken apart. The index has every edge between two neighbours under
the name that is put together from their names; where that name shows where the one ends and the
other begins, it is taken apart into the two again, and deletes the edge between them. -/
namespace DotText

namespace Space

/-- A text that has no white space at its ends. -/
def Trimmed (cs : List Char) : Prop :=
  ∀ c, cs.head? = some c ∨ cs.getLast? = some c → isSpace c = false

theorem length_trim_le (cs : List Char) :
    (trim cs).length ≤ (cs.dropWhile isSpace).length ∧
      (cs.dropWhile isSpace).length ≤ cs.length := by
  rw [trim, List.length_reverse]
  have finish := (List.dropWhile_suffix isSpace (l := (cs.dropWhile isSpace).reverse)).length_le
  rw [List.length_reverse] at finish
  exact ⟨finish, (List.dropWhile_suffix isSpace).length_le⟩

theorem dropWhile_eq_self_iff (cs : List Char) :
    cs.dropWhile isSpace = cs ↔ ∀ c, cs.head? = some c → isSpace c = false := by
  cases cs with
  | nil => simp
  | cons c cs =>
    rw [List.dropWhile_cons]
    split
    · next space =>
      have shorter := (List.dropWhile_suffix isSpace (l := cs)).length_le
      constructor
      · intro same
        have longer := congrArg List.length same
        rw [List.length_cons] at longer
        omega
      · intro first
        rw [first c rfl] at space
        cases space
    · next other => simpa using other

theorem trim_eq_self_iff (cs : List Char) : trim cs = cs ↔ Trimmed cs := by
  have last (c : Char) : cs.reverse.head? = some c ↔ cs.getLast? = some c := by
    rw [List.head?_reverse]
  constructor
  · intro same c atEnd
    obtain ⟨finish, start⟩ := length_trim_le cs
    rw [same] at finish
    have kept := (List.dropWhile_suffix isSpace (l := cs)).eq_of_length (by omega)
    rcases atEnd with first | final
    · exact (dropWhile_eq_self_iff cs).mp kept c first
    · rw [trim, kept] at same
      have kept' : cs.reverse.dropWhile isSpace = cs.reverse := List.reverse_eq_iff.mp same
      exact (dropWhile_eq_self_iff cs.reverse).mp kept' c ((last c).mpr final)
  · intro trimmed
    have start := (dropWhile_eq_self_iff cs).mpr fun c first => trimmed c (.inl first)
    have finish := (dropWhile_eq_self_iff cs.reverse).mpr fun c final =>
      trimmed c (.inr ((last c).mp final))
    rw [trim, start, finish, List.reverse_reverse]

end Space

namespace EdgeName

/-- A text falls apart at the first place where the operator stands. -/
theorem splitAtOp?_eq_some_iff {op : List Char} (nonempty : op ≠ []) {cs tail head : List Char} :
    splitAtOp? op cs = some (tail, head) ↔
      cs = tail ++ (op ++ head) ∧ ∀ x y, cs = x ++ (op ++ y) → tail.length ≤ x.length := by
  induction cs generalizing tail with
  | nil => simp [splitAtOp?, nonempty]
  | cons c cs ih =>
    by_cases here : op <+: c :: cs
    · obtain ⟨r, split⟩ := here
      have starts : op.isPrefixOf (c :: cs) = true := List.isPrefixOf_iff_prefix.mpr ⟨r, split⟩
      rw [splitAtOp?, if_pos starts, ← split, List.drop_left, Option.some.injEq, Prod.mk.injEq]
      constructor
      · rintro ⟨rfl, rfl⟩
        exact ⟨rfl, fun _ _ _ => Nat.zero_le _⟩
      · rintro ⟨whole, first⟩
        obtain rfl := List.eq_nil_of_length_eq_zero (Nat.le_zero.mp (first [] r rfl))
        exact ⟨rfl, List.append_cancel_left whole⟩
    · have starts : ¬ op.isPrefixOf (c :: cs) = true := mt List.isPrefixOf_iff_prefix.mp here
      rw [splitAtOp?, if_neg starts, Option.map_eq_some_iff]
      constructor
      · rintro ⟨⟨tail, head⟩, found, same⟩
        cases same
        obtain ⟨whole, first⟩ := ih.mp found
        refine ⟨by rw [whole, List.cons_append], fun x y split => ?_⟩
        cases x with
        | nil => exact absurd ⟨y, split.symm⟩ here
        | cons d x =>
          rw [List.cons_append, List.cons.injEq] at split
          exact Nat.succ_le_succ (first x y split.2)
      · rintro ⟨whole, first⟩
        cases tail with
        | nil => exact absurd ⟨head, whole.symm⟩ here
        | cons d tail =>
          rw [List.cons_append, List.cons.injEq] at whole
          obtain ⟨rfl, whole⟩ := whole
          refine ⟨(tail, head), ih.mpr ⟨whole, fun x y split => ?_⟩, rfl⟩
          exact Nat.le_of_succ_le_succ (first (c :: x) y (by rw [split, List.cons_append]))

theorem splitAtOp?_eq_none_iff {op : List Char} (nonempty : op ≠ []) {cs : List Char} :
    splitAtOp? op cs = none ↔ ¬ op <:+: cs := by
  induction cs with
  | nil => simp [splitAtOp?, nonempty]
  | cons c cs ih =>
    rw [splitAtOp?, List.infix_cons_iff, not_or, ← ih, ← List.isPrefixOf_iff_prefix]
    split
    · next here => simp [here]
    · next other => simp [other]

/-- Where a text is put together from two names, it is taken apart into these exactly if the operator is
found at its place and nothing is trimmed. -/
theorem splitBy?_append {op op' tail head : List Char} (nonempty : op ≠ [])
    (size : op.length = op'.length) :
    splitBy? op (tail ++ (op' ++ head)) = some (tail, head) ↔
      op = op' ∧ Space.Trimmed tail ∧ Space.Trimmed head ∧ tail ≠ [] ∧ head ≠ [] ∧
        (∀ x y, tail ++ (op' ++ head) = x ++ (op ++ y) → tail.length ≤ x.length) ∧
        ¬ op <:+: head := by
  simp only [← Space.trim_eq_self_iff]
  constructor
  · intro found
    unfold splitBy? at found
    split at found
    · cases found
    next x y splits =>
    obtain ⟨whole, first⟩ := (splitAtOp?_eq_some_iff nonempty).mp splits
    simp only [Option.ite_none_right_eq_some, Bool.and_eq_true, Bool.not_eq_true',
      List.isEmpty_eq_false_iff, Option.isNone_iff_eq_none, splitAtOp?_eq_none_iff nonempty,
      Option.some.injEq, Prod.mk.injEq] at found
    obtain ⟨⟨⟨tailSome, headSome⟩, once⟩, trimmed, trimmed'⟩ := found
    -- Trimming makes neither side longer, and so it has taken nothing away.
    have shorter := Space.length_trim_le x
    have shorter' := Space.length_trim_le y
    have sizes := congrArg List.length whole
    simp only [List.length_append] at sizes
    rw [trimmed] at shorter
    rw [trimmed'] at shorter'
    obtain ⟨rfl, rest⟩ := List.append_inj whole (by omega)
    obtain ⟨rfl, rfl⟩ := List.append_inj rest (by omega)
    rw [trimmed] at tailSome
    rw [trimmed'] at headSome once
    exact ⟨rfl, trimmed, trimmed', tailSome, headSome, first, once⟩
  · rintro ⟨rfl, trimmed, trimmed', tailSome, headSome, first, once⟩
    have splits := (splitAtOp?_eq_some_iff nonempty).mpr ⟨rfl, first⟩
    simp only [splitBy?, splits, trimmed, trimmed']
    simp [tailSome, headSome, (splitAtOp?_eq_none_iff nonempty).mpr once]

/-- The name of the edge between two nodes shows which nodes these are. Both have names without white
space at their ends, the operator is first found between the two and not again in the second one, and
a name with `->` is not one with `--` as well. -/
structure Clear (kind : Kind) (tail head : String) : Prop where
  tailSome : tail ≠ ""
  headSome : head ≠ ""
  tailTrimmed : Space.Trimmed tail.toList
  headTrimmed : Space.Trimmed head.toList
  first : ∀ x y, (kind.edgeName tail head).toList = x ++ (kind.edgeOp.toList ++ y) →
    tail.toList.length ≤ x.length
  once : ¬ kind.edgeOp.toList <:+: head.toList
  directed : kind = .digraph →
    splitBy? Kind.graph.edgeOp.toList (kind.edgeName tail head).toList = none

theorem toList_edgeName (kind : Kind) (tail head : String) :
    (kind.edgeName tail head).toList = tail.toList ++ (kind.edgeOp.toList ++ head.toList) := by
  rw [Kind.edgeName, String.toList_append, String.toList_append, List.append_assoc]

theorem splitBy?_edgeName (kind other : Kind) (tail head : String) :
    splitBy? other.edgeOp.toList (kind.edgeName tail head).toList =
        some (tail.toList, head.toList) ↔
      other = kind ∧ tail ≠ "" ∧ head ≠ "" ∧ Space.Trimmed tail.toList ∧
        Space.Trimmed head.toList ∧
        (∀ x y, (kind.edgeName tail head).toList = x ++ (kind.edgeOp.toList ++ y) →
          tail.toList.length ≤ x.length) ∧
        ¬ kind.edgeOp.toList <:+: head.toList := by
  have nonempty : other.edgeOp.toList ≠ [] := by cases other <;> decide
  have size : other.edgeOp.toList.length = kind.edgeOp.toList.length := by
    cases other <;> cases kind <;> rfl
  have same : other.edgeOp.toList = kind.edgeOp.toList ↔ other = kind := by
    cases other <;> cases kind <;> decide
  rw [toList_edgeName, splitBy?_append nonempty size, same, ne_eq, ne_eq,
    String.toList_eq_nil_iff, String.toList_eq_nil_iff]
  constructor
  · rintro ⟨rfl, trimmed, trimmed', tailSome, headSome, first, once⟩
    exact ⟨rfl, tailSome, headSome, trimmed, trimmed', first, once⟩
  · rintro ⟨rfl, tailSome, headSome, trimmed, trimmed', first, once⟩
    exact ⟨rfl, trimmed, trimmed', tailSome, headSome, first, once⟩

/-- The name of an edge is taken apart into the names of its nodes exactly if it shows them. -/
theorem split?_edgeName_iff (kind : Kind) (tail head : String) :
    split? (kind.edgeName tail head).toList = some (tail.toList, head.toList) ↔
      Clear kind tail head := by
  have undirected := splitBy?_edgeName kind .graph tail head
  have directed := splitBy?_edgeName kind .digraph tail head
  have tries (cs : List Char) : split? cs =
      (splitBy? Kind.graph.edgeOp.toList cs).or (splitBy? Kind.digraph.edgeOp.toList cs) := by
    simp only [split?, List.findSome?_cons, List.findSome?_nil]
    cases splitBy? Kind.graph.edgeOp.toList cs <;>
      cases splitBy? Kind.digraph.edgeOp.toList cs <;> rfl
  rw [tries, Option.or_eq_some_iff, undirected, directed]
  constructor
  · rintro (⟨rfl, tailSome, headSome, trimmed, trimmed', first, once⟩ |
      ⟨none, rfl, tailSome, headSome, trimmed, trimmed', first, once⟩)
    · exact ⟨tailSome, headSome, trimmed, trimmed', first, once, nofun⟩
    · exact ⟨tailSome, headSome, trimmed, trimmed', first, once, fun _ => none⟩
  · rintro ⟨tailSome, headSome, trimmed, trimmed', first, once, none⟩
    cases kind with
    | graph => exact .inl ⟨rfl, tailSome, headSome, trimmed, trimmed', first, once⟩
    | digraph => exact .inr ⟨none rfl, rfl, tailSome, headSome, trimmed, trimmed', first, once⟩

end EdgeName

namespace Graph

/-- The index has the edge between two neighbours in a chain. -/
theorem edge_of_neighbors (g : Graph) {path : List Nat} {endpoints : List Endpoint}
    {attrs : List Attribute} (chain : g.at? path = some (.statement (.edge endpoints attrs)))
    {i : Nat} {left right : NodeRef} (before : endpoints[i]? = some (.node left))
    (behind : endpoints[i + 1]? = some (.node right)) :
    ∃ found, g.index.edges.get? (g.kind.edgeName left.id right.id) = some found := by
  have there : g.at? (path ++ [i + 1]) =
      some (.endpoint attrs (some (.node left)) (.node right)) := by
    rw [g.at?_concat chain, Element.getElem?_children_edge, behind, Nat.add_sub_cancel, before]
    rfl
  have own (ref : NodeRef) : ref.id ∈ (Endpoint.node ref).names := by
    simp [Endpoint.names, Endpoint.nodes, List.eraseDups_cons]
  have listed := g.mem_keys_of_operator there (own left) (own right)
  rw [← Kind.edgeName_eq_joined] at listed
  obtain ⟨found, value, -⟩ := (Declaration.gathers_collect _).attrs _ listed
  exact ⟨found, value⟩

end Graph

namespace Document

/-- Whatever document has come about, the index has an edge between every two neighbouring nodes under
the name that is put together from theirs. This name is taken apart into the two exactly if it shows
them, and then to delete the edge of this name is to delete the edge between the two. -/
theorem edgeName_of_neighbors {d : Document} (reachable : d.Reachable) {path : List Nat}
    {endpoints : List Endpoint} {attrs : List Attribute}
    (chain : d.tree.at? path = some (.statement (.edge endpoints attrs)))
    {i : Nat} {left right : NodeRef} (before : endpoints[i]? = some (.node left))
    (behind : endpoints[i + 1]? = some (.node right)) :
    let name := d.tree.kind.edgeName left.id right.id
    (∃ found, d.index.edges.get? name = some found) ∧
      (EdgeName.split? name.toList = some (left.id.toList, right.id.toList) ↔
        EdgeName.Clear d.tree.kind left.id right.id) ∧
      (EdgeName.Clear d.tree.kind left.id right.id →
        d.deleteEdge name = d.erase (.edge left.id right.id)) := by
  intro name
  have splits := EdgeName.split?_edgeName_iff d.tree.kind left.id right.id
  refine ⟨?_, splits, fun clear => ?_⟩
  · rw [reachable.current.index]
    exact d.tree.edge_of_neighbors chain before behind
  · rw [deleteEdge, splits.mpr clear]
    simp only [String.ofList_toList]

/-- The name of an edge inside a subgraph, with a port at the one node and a minus at the start of the
other. -/
theorem edgeName_of_minus :
    let text := "graph\x7bsubgraph s\x7ba:p -- \"-b\"\x7d\x7d"
    ∃ d : Document, d.Reachable ∧ d.text = text ∧
      (∃ found, d.index.edges.get? "a---b" = some found) ∧
      EdgeName.split? "a---b".toList = some ("a".toList, "-b".toList) ∧
      d.deleteEdge "a---b" = d.erase (.edge "a" "-b") := by
  intro text
  let g : Graph := ⟨false, .graph, none, [.subgraph (some "s")
    [.edge [.node ⟨"a", some ⟨"p", none⟩⟩, .node ⟨"-b", none⟩] []]]⟩
  let d : Document := ⟨text, g, g.index, {}⟩
  have opened : ofText {} text = .ok d := ofText_eq_ok.mpr ⟨g, by decide +kernel, rfl⟩
  have reachable : d.Reachable := ⟨{}, _, d, [], opened, rfl⟩
  have chain : d.tree.at? [0, 0] = some (.statement
    (.edge [.node ⟨"a", some ⟨"p", none⟩⟩, .node ⟨"-b", none⟩] [])) := rfl
  obtain ⟨found, splits, deletes⟩ := edgeName_of_neighbors reachable chain (i := 0) rfl rfl
  have apart : EdgeName.split? "a---b".toList = some ("a".toList, "-b".toList) := by
    decide +kernel
  exact ⟨d, reachable, rfl, found, apart, deletes (splits.mp apart)⟩

/-- The name of an edge that begins with the name of another one has the operator twice, and names no
edge. -/
theorem notAnEdge_of_arrow :
    ∃ d : Document, d.Reachable ∧ d.text = "digraph\x7b\"a->b\"->c\x7d" ∧
      d.tree.body = [.edge [.node ⟨"a->b", none⟩, .node ⟨"c", none⟩] []] ∧
      d.index.edges.keys = [d.tree.kind.edgeName "a->b" "c"] ∧
      EdgeName.split? (d.tree.kind.edgeName "a->b" "c").toList = none ∧
      d.deleteEdge (d.tree.kind.edgeName "a->b" "c") = .error (.notAnEdge "a->b->c") := by
  let g : Graph := ⟨false, .digraph, none, [.edge [.node ⟨"a->b", none⟩, .node ⟨"c", none⟩] []]⟩
  let d : Document := ⟨"digraph\x7b\"a->b\"->c\x7d", g, g.index, {}⟩
  have opened : ofText {} "digraph\x7b\"a->b\"->c\x7d" = .ok d :=
    ofText_eq_ok.mpr ⟨g, by decide +kernel, rfl⟩
  have apart : EdgeName.split? (d.tree.kind.edgeName "a->b" "c").toList = none := by
    decide +kernel
  refine ⟨d, ⟨{}, _, d, [], opened, rfl⟩, rfl, rfl, by decide +kernel, apart, ?_⟩
  rw [deleteEdge, apart]
  rfl

end Document

end DotText
