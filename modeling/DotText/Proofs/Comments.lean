import DotText.Proofs.Erasing

set_option autoImplicit false

/- What becomes of the comments and the tokens of a text that a target is erased from. -/
namespace DotText

open Walk (Move)

/-- A text that an edit makes of another, stretch by stretch. All the parts of the old text are
there, and no comment among them is taken away; the new text is made of those that are kept, and of
single spaces; and of the pieces that say something those are kept and taken away that the marks
tell. -/
structure Stretch.Edits (marks : List Mark) (cs left : List Char) (ss : List Stretch) : Prop where
  parts : parts ss = Part.ofText cs
  text : textOf ss = left
  comments : ss.all sparesComments = true
  spaces : spacesApart [] ss = true
  marks : (Stretch.marks ss).filter (!·.lexeme.isSeparator) =
    marks.filter (!·.lexeme.isSeparator)

/-- Where every token is reached, no comment and no token goes but those of what is erased. -/
theorem Graph.stretches_of_erased {g : Graph} {cs : List Char} (found : Graph.read cs = .ok g)
    {target : Target}
    (reaches : Move.allAlong Move.reaches (Move.whole target g) (.ofText cs) = true) :
    ∃ e, g.eraseFrom target cs = .ok e ∧
      (∃ marks, g.Marked target marks ∧ Lexeme.all cs = Mark.lexemes marks) ∧
      ∀ {marks : List Mark}, g.Marked target marks → Lexeme.all cs = Mark.lexemes marks →
        ∃ ss, Stretch.Edits marks cs e.text ss := by
  obtain ⟨marks, marked, split⟩ := Graph.marked_of_read found target
  obtain ⟨e, -, -, erased, -⟩ := marked.erased split reaches
  refine ⟨e, erased, ⟨marks, marked, split⟩, fun {marks} marked split => ?_⟩
  obtain ⟨c, nothing, ran, ev, follows, same, -⟩ := Move.goes_whole marked split (.inl reaches)
  rw [g.eraseFrom_eq_run, ran] at erased
  cases erased
  obtain ⟨front, back, aligned, whole, told⟩ := follows.aligns _ _ (Cursor.aligned_ofText cs)
  have silent : Part.pieces (Part.ofText c.rest) = [] := by rw [Part.pieces_ofText, nothing]
  refine ⟨front ++ back ++ (Part.ofText c.rest).map .kept, ?_, ?_, ?_, ?_, ?_⟩
  · simpa [Cursor.ofText] using whole
  · rw [Stretch.textOf_append, ← aligned.before, Stretch.textOf_map_kept, Part.textOf_ofText]
    rfl
  · rw [List.all_append, aligned.spares, Bool.true_and, List.all_map]
    exact List.all_eq_true.mpr fun _ _ => rfl
  · rw [Stretch.spacesApart_append, aligned.spaces, Stretch.spacesApart_map_kept]
    rfl
  · rw [Stretch.marks_append, List.filter_append, told, Stretch.marks_map_kept, silent]
    simpa [Mark.all] using same

/-- Comments stay that stand behind an end that goes, inside lists that go, and between two line
ends. The neighbours of the end that falls out of the second chain get a space between them. -/
theorem Graph.stretches_of_lists :
    let cs := "digraph\x7ba -> x // c\n\n; x [k=v /* d */ , j=1]; b->x->c\x7d".toList
    ∃ g e marks ss, Graph.read cs = .ok g ∧ g.eraseFrom (.node "x") cs = .ok e ∧
      g.Marked (.node "x") marks ∧ Stretch.Edits marks cs e.text ss ∧
      e.text = "digraph\x7ba // c\n\n; /* d */ b c\x7d".toList := by
  intro cs
  let g : Graph := ⟨false, .digraph, none,
    [.edge [.node ⟨"a", none⟩, .node ⟨"x", none⟩] [],
      .node ⟨"x", none⟩ [⟨"k", .text "v"⟩, ⟨"j", .text "1"⟩],
      .edge [.node ⟨"b", none⟩, .node ⟨"x", none⟩, .node ⟨"c", none⟩] []]⟩
  have found : Graph.read cs = .ok g := by decide +kernel
  have left : g.eraseFrom (.node "x") cs =
      .ok ⟨"digraph\x7ba // c\n\n; /* d */ b c\x7d".toList, 6⟩ := by
    decide +kernel
  have reaches : Move.allAlong Move.reaches (Move.whole (.node "x") g) (.ofText cs) = true := by
    decide +kernel
  obtain ⟨e, erased, ⟨marks, marked, split⟩, edits⟩ := Graph.stretches_of_erased found reaches
  obtain ⟨ss, edits⟩ := edits marked split
  refine ⟨g, e, marks, ss, found, erased, marked, edits, ?_⟩
  rw [left] at erased
  cases erased
  rfl

/-- A pass stops short in front of a semicolon and a comment, which are taken for the identifier
that is spelled like them: the start of the comment goes, and the brace inside it is found. -/
theorem Graph.comment_of_identifier :
    let cs := "digraph\x7b\";#\"  \n  \n;#\x7d\n\";#\"\x7d".toList
    ∃ g e, Graph.read cs = .ok g ∧ g.eraseFrom (.node ";#") cs = .ok e ∧
      .blank "#\x7d\n".toList ∈ Part.ofText cs ∧ ¬ "#\x7d\n".toList <:+: e.text := by
  refine ⟨⟨false, .digraph, none, [.node ⟨";#", none⟩ [], .node ⟨";#", none⟩ []]⟩,
    ⟨"digraph\x7b\n\n\x7d\n\";#\"\x7d".toList, 2⟩, ?_, ?_, ?_, ?_⟩
  all_goals decide +kernel

end DotText
