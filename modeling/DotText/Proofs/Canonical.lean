import DotText.Proofs.NormalForm
import DotText.Proofs.Readable
import DotText.Tree.Equality

set_option autoImplicit false

/- The canonical text of a document that is read: it is read again where every attribute statement
says something, and then it says the same. -/
namespace DotText

theorem Value.isWritable_of_isReadable {value : Value} (readable : value.isReadable = true) :
    value.isWritable = true := by
  cases value with
  | ident => cases readable
  | _ => exact readable

theorem Value.not_isIdent_of_isReadable {value : Value} (readable : value.isReadable = true) :
    value.isIdent = false := by
  cases value with
  | ident => cases readable
  | _ => rfl

theorem Statement.isPrintable_of_isReadable (s : Statement) (readable : s.isReadable = true) :
    s.isPrintable = true := by
  simp only [isReadable, isPrintable, isSpellable, Bool.and_eq_true, List.all_eq_true]
    at readable ⊢
  obtain ⟨linked, names, entries⟩ := readable
  exact ⟨linked, names, fun a mem =>
    ⟨(entries a mem).1, Value.isWritable_of_isReadable (entries a mem).2⟩⟩

theorem Statement.isPlain_of_isReadable (s : Statement) (readable : s.isReadable = true) :
    s.isPlain = true := by
  simp only [isReadable, isPlain, isSpellable, Bool.and_eq_true, List.all_eq_true,
    Bool.not_eq_true'] at readable ⊢
  exact fun a mem => Value.not_isIdent_of_isReadable (readable.2.2 a mem).2

namespace Graph

variable {g : Graph}

theorem isPlain_of_isReadable (readable : g.isReadable = true) : g.isPlain = true := by
  rw [isReadable, Bool.and_eq_true] at readable
  exact Statement.everywhereInAll_imp Statement.isPlain_of_isReadable g.body readable.2

/-- The canonical text of a tree that can be read is read as its normal form, or not at all where
an attribute statement says nothing. -/
theorem read_render_iff (readable : g.isReadable = true) (t : Graph) :
    Graph.read g.render = .ok t ↔ g.isGiving = true ∧ t = g.normal := by
  rw [isReadable, Bool.and_eq_true] at readable
  have printable :=
    Statement.everywhereInAll_imp Statement.isPrintable_of_isReadable g.body readable.2
  obtain ⟨head, ls, pieces, opening, shown⟩ := Graph.shown_of_render readable.1 printable
  rw [Graph.read_iff_spelled, pieces]
  cases giving : g.isGiving with
  | true =>
    have normal : g.normal.Spelled (head ++ .mark ['{'] :: (ls ++ [.mark ['}']])) :=
      .document opening (shown.spells giving)
    rw [← pieces, ← Graph.read_iff_spelled] at normal
    rw [← pieces, ← Graph.read_iff_spelled, normal, Except.ok.injEq, eq_comm]
    simp
  | false =>
    refine iff_of_false (fun spelled => ?_) (by simp)
    have lacks := shown.lacks giving [.mark ['}']] fun _ same => by cases same; rfl
    rw [spelled.isBracketed opening] at lacks
    cases lacks

/-- The canonical text of a document is read exactly if no attribute statement in it is empty. What
is read then has the same index and the same canonical text. -/
theorem ofText_toText_iff {text : String} (found : Graph.ofText text = .ok g) :
    ((∃ t, Graph.ofText g.toText = .ok t) ↔ g.isGiving = true) ∧
      ∀ t, Graph.ofText g.toText = .ok t → t.index = g.index ∧ t.toText = g.toText := by
  have readable := Graph.isReadable_of_read (Graph.ofText_eq_ok.mp found)
  have again (t : Graph) : Graph.ofText g.toText = .ok t ↔ g.isGiving = true ∧ t = g.normal := by
    rw [Graph.ofText_eq_ok, Graph.toText, String.toList_ofList]
    exact read_render_iff readable t
  simp only [again]
  refine ⟨⟨?_, fun giving => ⟨_, giving, rfl⟩⟩, ?_⟩
  · rintro ⟨_, giving, -⟩
    exact giving
  rintro t ⟨-, rfl⟩
  exact ⟨g.index_normal (isPlain_of_isReadable readable), by
    rw [Graph.toText, Graph.render_normal, Graph.toText]⟩

/-- An assignment, two lists in a row, a comma behind the last entry and an empty list come back in
another form. -/
theorem ofText_toText_of_shapes :
    ∃ g t, Graph.ofText "digraph \x7bk=v node[a=1,][] x->\x7b\x7d y []\x7d" = .ok g ∧
      Graph.ofText g.toText = .ok t ∧ t.index = g.index ∧ t.toText = g.toText := by
  let g : Graph := ⟨false, .digraph, none,
    [.attr .graph [⟨"k", .text "v"⟩], .attr .node [⟨"a", .text "1"⟩],
      .edge [.node ⟨"x", none⟩, .subgraph none []] [], .node ⟨"y", none⟩ []]⟩
  have found : Graph.ofText "digraph \x7bk=v node[a=1,][] x->\x7b\x7d y []\x7d" = .ok g := by
    decide +kernel
  obtain ⟨reads, same⟩ := ofText_toText_iff found
  obtain ⟨t, again⟩ := reads.mpr rfl
  exact ⟨g, t, found, again, same t again⟩

/-- The brackets of an empty attribute statement are left out, and the keyword alone is not read. -/
theorem unread_of_empty_statement :
    ∃ g, Graph.ofText "digraph\x7bnode []\x7d" = .ok g ∧ g.toText = "digraph \x7bnode\x7d" ∧
      ¬ ∃ t, Graph.ofText g.toText = .ok t := by
  let g : Graph := ⟨false, .digraph, none, [.attr .node []]⟩
  have written : g.toText = "digraph \x7bnode\x7d" := by decide +kernel
  have fails : (Graph.ofText g.toText).toOption = none := by decide +kernel
  refine ⟨g, by decide +kernel, written, fun ⟨t, read⟩ => ?_⟩
  rw [read] at fails
  cases fails

end Graph

end DotText
