import DotText.Proofs.Agreement
import DotText.Proofs.Erasing
import DotText.Proofs.Runs

set_option autoImplicit false

/- What is left of a document once a node or an edge is deleted from its text. -/
namespace DotText.Graph

open Walk (Move)

variable {g : Graph} {cs : List Char}

/-- A node takes its statements along, and falls out of every chain, so that the runs between its
endpoints are left. Where every token is reached, the text that is left is read as that tree exactly
if it is read at all and every token that is kept stays apart from what is in front of it; it is read
where every separator goes that is to go. To delete goes through exactly where every token is found
that has to be there. -/
theorem eraseNode_of_read (found : Graph.read cs = .ok g) (name : String) :
    (∀ endpoints attrs, (Target.node name).prune (.edge endpoints attrs) =
      Target.ofRuns attrs ((((Target.node name).pruneEndpoints endpoints).splitOnP
        (Target.node name).erasesEndpoint).filter (!·.isEmpty))) ∧
    (Move.allAlong Move.reaches (Move.whole (.node name) g) (.ofText cs) = true →
      ∃ e, g.eraseFrom (.node name) cs = .ok e ∧
        (Graph.read e.text = .ok (g.prune (.node name)) ↔
          Move.allAlong Move.keepsApart (Move.whole (.node name) g) (.ofText cs) = true ∧
            ∃ t, Graph.read e.text = .ok t) ∧
        (Move.allAlong Move.sweeps (Move.whole (.node name) g) (.ofText cs) = true →
          Move.allAlong Move.keepsApart (Move.whole (.node name) g) (.ofText cs) = true →
            Graph.read e.text = .ok (g.prune (.node name)))) ∧
    ((∃ e, g.eraseFrom (.node name) cs = .ok e) ↔
      Move.allAlong Move.finds (Move.whole (.node name) g) (.ofText cs) = true) := by
  refine ⟨fun endpoints attrs => ?_, read_of_erased found, g.eraseFrom_eq_ok_iff (.node name) cs⟩
  rw [Target.prune, Target.runs_node]

/-- A node goes from between its neighbours, and its statement with the semicolon behind it. -/
theorem eraseNode_of_chain :
    ∃ g e, Graph.read "digraph{a->x->b; x [k=v]; c}".toList = .ok g ∧
      g.eraseFrom (.node "x") "digraph{a->x->b; x [k=v]; c}".toList = .ok e ∧
      Graph.read e.text = .ok (g.prune (.node "x")) := by
  have found : Graph.read "digraph{a->x->b; x [k=v]; c}".toList =
      .ok ⟨false, .digraph, none,
        [.edge [.node ⟨"a", none⟩, .node ⟨"x", none⟩, .node ⟨"b", none⟩] [],
          .node ⟨"x", none⟩ [⟨"k", .text "v"⟩], .node ⟨"c", none⟩ []]⟩ := by
    decide +kernel
  obtain ⟨-, erases, -⟩ := eraseNode_of_read found "x"
  obtain ⟨e, erased, -, exact⟩ := erases (by decide +kernel)
  exact ⟨_, e, found, erased, exact (by decide +kernel) (by decide +kernel)⟩

/-- All of the second statement goes, with the blanks on both sides and the semicolon in front of the
third, which joins the first. -/
theorem read_of_joined_statements :
    ∃ g e, Graph.read "digraph{a; x->x; b}".toList = .ok g ∧
      g.eraseFrom (.node "x") "digraph{a; x->x; b}".toList = .ok e ∧
      e.text = "digraph{ab}".toList ∧ Graph.read e.text ≠ .ok (g.prune (.node "x")) :=
  ⟨⟨false, .digraph, none,
      [.node ⟨"a", none⟩ [], .edge [.node ⟨"x", none⟩, .node ⟨"x", none⟩] [],
        .node ⟨"b", none⟩ []]⟩,
    ⟨"digraph{ab}".toList, 3⟩, by decide +kernel, by decide +kernel, rfl, by decide +kernel⟩

/-- An edge falls out of every chain that has its ends next to each other, and all endpoints are
left. Where every token is reached, the text that is left is read as that tree exactly if it is read
at all and every token that is kept stays apart from what is in front of it; it is read where every
separator goes that is to go, and has nothing more to delete. To delete goes through exactly where
every token is found that has to be there. -/
theorem eraseEdge_of_read (found : Graph.read cs = .ok g) (tail head : String) :
    (∀ endpoints attrs, (Target.edge tail head).prune (.edge endpoints attrs) =
      Target.ofRuns attrs (((Target.edge tail head).pruneEndpoints endpoints).splitBy
        fun left right => !(Target.edge tail head).cuts left right)) ∧
    (Move.allAlong Move.reaches (Move.whole (.edge tail head) g) (.ofText cs) = true →
      ∃ e, g.eraseFrom (.edge tail head) cs = .ok e ∧
        (Graph.read e.text = .ok (g.prune (.edge tail head)) ↔
          Move.allAlong Move.keepsApart (Move.whole (.edge tail head) g) (.ofText cs) = true ∧
            ∃ t, Graph.read e.text = .ok t) ∧
        (Move.allAlong Move.sweeps (Move.whole (.edge tail head) g) (.ofText cs) = true →
          Move.allAlong Move.keepsApart (Move.whole (.edge tail head) g) (.ofText cs) = true →
            Graph.read e.text = .ok (g.prune (.edge tail head))) ∧
        (Graph.read e.text = .ok (g.prune (.edge tail head)) →
          (g.prune (.edge tail head)).eraseFrom (.edge tail head) e.text = .ok ⟨e.text, 0⟩)) ∧
    ((∃ e, g.eraseFrom (.edge tail head) cs = .ok e) ↔
      Move.allAlong Move.finds (Move.whole (.edge tail head) g) (.ofText cs) = true) := by
  refine ⟨fun endpoints attrs => ?_, fun reaches => ?_,
    g.eraseFrom_eq_ok_iff (.edge tail head) cs⟩
  · rw [Target.prune, Target.runs_edge]
  · obtain ⟨e, erased, exactly, exact⟩ := read_of_erased found reaches
    exact ⟨e, erased, exactly, exact, fun read =>
      eraseFrom_of_countErased read (g.countErased_prune (.edge tail head))⟩

/-- An edge goes from a chain, and the lists stay with the edge behind it. -/
theorem eraseEdge_of_chain :
    ∃ g e, Graph.read "digraph{a:p -> b -> c [k=v]; d}".toList = .ok g ∧
      g.eraseFrom (.edge "a:p" "b") "digraph{a:p -> b -> c [k=v]; d}".toList = .ok e ∧
      Graph.read e.text = .ok (g.prune (.edge "a:p" "b")) ∧
      (g.prune (.edge "a:p" "b")).eraseFrom (.edge "a:p" "b") e.text = .ok ⟨e.text, 0⟩ := by
  have found : Graph.read "digraph{a:p -> b -> c [k=v]; d}".toList =
      .ok ⟨false, .digraph, none,
        [.edge [.node ⟨"a", some ⟨"p", none⟩⟩, .node ⟨"b", none⟩, .node ⟨"c", none⟩]
          [⟨"k", .text "v"⟩], .node ⟨"d", none⟩ []]⟩ := by
    decide +kernel
  obtain ⟨-, erases, -⟩ := eraseEdge_of_read found "a:p" "b"
  obtain ⟨e, erased, -, exact, again⟩ := erases (by decide +kernel)
  have read := exact (by decide +kernel) (by decide +kernel)
  exact ⟨_, e, found, erased, read, again read⟩

/-- The bracket that closes the lists is not taken for one behind two line ends, and is missed where
the brace is to be. -/
theorem mismatch_in_lists :
    ∃ g, Graph.read "digraph\x7ba->b [k=v  \n  \n  ]\x7d".toList = .ok g ∧
      g.eraseFrom (.edge "a" "b") "digraph\x7ba->b [k=v  \n  \n  ]\x7d".toList =
        .error ⟨"\x7d".toList, "]\x7d".toList⟩ :=
  ⟨⟨false, .digraph, none, [.edge [.node ⟨"a", none⟩, .node ⟨"b", none⟩] [⟨"k", .text "v"⟩]]⟩,
    by decide +kernel, by decide +kernel⟩

end DotText.Graph
