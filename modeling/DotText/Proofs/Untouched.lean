import DotText.Proofs.Keeping
import DotText.Proofs.Places
import DotText.Proofs.Sources
import DotText.Tree.Equality

set_option autoImplicit false

/- What becomes of the source of a statement that a deletion does not touch. -/
namespace DotText

open Walk (Move)

namespace Walk.Move

open Marking

variable {target : Target}

/-- The walk comes to a statement, with nothing but separators pending in front of the statement. -/
theorem comes_to {g : Graph} {cs : List Char} {marks : List Mark} (marked : g.Marked target marks)
    (split : Lexeme.all cs = Mark.lexemes marks)
    (reaches : allAlong reaches (whole target g) (.ofText cs) = true) {before : List Move}
    {s : Statement} (stands : g.Stands target before s) :
    ∃ front own seps left behind after c,
      whole target g = before ++ (entire target g.kind.edgeOp.toList s ++ after) ∧
      OfStatement target g.kind.edgeOp.toList s own ∧ Lexeme.Separates .ofStatements seps ∧
      left.all Lexeme.isSeparator = true ∧ BehindStatement behind ∧
      Lexeme.all c.rest =
        left ++ (Mark.lexemes (own ++ Mark.all (target.erasesStatement s) seps) ++ behind) ∧
      Goes before [] (.ofText cs) front left c ∧
      Ready left (entire target g.kind.edgeOp.toList s ++ after) c := by
  obtain ⟨front, own, seps, back, after, moves, pieces, spelled, separates, steps, rest⟩ :=
    around_whole marked stands
  have behind : BehindStatement (Mark.lexemes back) := by simpa using rest [] trivial
  obtain ⟨piece, others, first, starts⟩ := spelled.head
  have tells : piece.isSeparator = false := by
    cases piece <;> first | rfl | cases starts
  have next : BehindStatement
      (Mark.lexemes (own ++ Mark.all (target.erasesStatement s) seps) ++ Mark.lexemes back) := by
    rw [Mark.lexemes_append, first]
    exact ⟨_, _, rfl, Lexeme.goesOn_of_startsStatement starts, tells⟩
  have ready : Ready [] (before ++ (entire target g.kind.edgeOp.toList s ++ after)) (.ofText cs) :=
    .inl (moves ▸ reaches)
  obtain ⟨left, c, loose, -, restEq, goes⟩ := steps (.ofText cs) [] _ rfl (fun _ => rfl) next
    ⟨piece, by simp [first], tells⟩ (by simpa [Cursor.ofText, pieces] using split) ready.first
  exact ⟨front, own, seps, left, _, after, c, moves, spelled, separates, loose, behind, restEq,
    goes, ready.second goes⟩

/-- A walk over a statement that nothing is erased from, and over the blanks behind it, goes over
the parts of the statement and over some of the separators next to it. -/
theorem goes_over_untouched {op : List Char} {s : Statement} {own : List Mark}
    {seps left behind : List Lexeme} {c : Cursor} (spelled : OfStatement target op s own)
    (separates : Lexeme.Separates .ofStatements seps) (untouched : target.countIn s = 0)
    (loose : left.all Lexeme.isSeparator = true) (rest : BehindStatement behind)
    (start : Lexeme.all c.rest =
      left ++ (Mark.lexemes (own ++ Mark.all (target.erasesStatement s) seps) ++ behind))
    (ready : Ready left (entire target op s) c) :
    ∃ took left' c', run (statement target op s) c = .ok c' ∧
      run (entire target op s) c = .ok (c'.passBlanks .ofStatements) ∧
      left'.all Lexeme.isSeparator = true ∧
      Part.ofText c.rest = took ++ Part.ofText (c'.passBlanks .ofStatements).rest ∧
      Part.pieces took ++ left' = left ++ (Mark.lexemes own ++ seps) := by
  obtain ⟨left', c₁, loose', -, start', gone⟩ :=
    InStep.statement spelled separates c left behind loose (by simp) rest rest.tells start ready
  obtain ⟨c', walked, blanks⟩ := run_append_eq_ok.mp gone.ran
  have stays := (calm_statement spelled untouched).2
  rw [stays] at blanks start
  cases blanks
  obtain ⟨ev, follows, -⟩ := gone.follows
  obtain ⟨took, splits, said⟩ := follows.splits
  refine ⟨took, left', c', walked, gone.ran, loose', splits, ?_⟩
  have takes := follows.takes
  rw [start, start', ← said, Mark.lexemes_append, Mark.lexemes_all, ← List.append_assoc,
    ← List.append_assoc (Part.pieces took)] at takes
  exact (List.append_cancel_right takes).symm

end Walk.Move

/-- Where every token is reached, a statement that nothing is erased from keeps its source at its
place if the walk over the statement keeps the text. It does so exactly if it gives up no gap at the
end of a block. -/
theorem Graph.source_of_untouched {g : Graph} {cs : List Char} (found : Graph.read cs = .ok g)
    {target : Target}
    (reaches : Move.allAlong Move.reaches (Move.whole target g) (.ofText cs) = true)
    {before : List Move} {s : Statement} (stands : g.Stands target before s)
    (untouched : target.countIn s = 0) :
    ∃ e c c', g.eraseFrom target cs = .ok e ∧ Move.run before (.ofText cs) = .ok c ∧
      Move.run (Move.statement target g.kind.edgeOp.toList s) c = .ok c' ∧
      (c'.text = c.text ↔
        Move.allAlong Move.keepsGap (Move.statement target g.kind.edgeOp.toList s) c = true) ∧
      ∃ ss lead source behind, Stretch.parts ss ++ (lead ++ source ++ behind) = Part.ofText cs ∧
        Stretch.textOf ss = c.before ∧ s.Sourced g.kind.edgeOp.toList lead source ∧
        (c'.text = c.text → c.before ++ Part.textOf (lead ++ source) <+: e.text) := by
  obtain ⟨marks, marked, split⟩ := Graph.marked_of_read found target
  obtain ⟨last, -, whole⟩ := Move.goes_whole marked split (.inl reaches)
  obtain ⟨front, own, seps, left, behind, after, c, moves, spelled, separates, loose, rest, start,
    goes, ready⟩ := Move.comes_to marked split reaches stands
  obtain ⟨took, left', c', walked, gone, loose', splits, pieces⟩ :=
    Move.goes_over_untouched spelled separates untouched loose rest start ready.first
  obtain ⟨piece, others, first, -⟩ := spelled.head
  obtain ⟨lead, source, trail, rfl, sourced⟩ :=
    Statement.Sourced.exists_of_pieces spelled.spelled ⟨piece, others, first⟩ loose loose' pieces
  obtain ⟨ev, follows, -⟩ := goes.follows
  obtain ⟨ss, ss', aligned, parts, -⟩ := follows.aligns _ _ (Cursor.aligned_ofText cs)
  have erased : g.eraseFrom target cs = .ok ⟨last.text, last.erased⟩ := by
    rw [g.eraseFrom_eq_run, whole.ran]
    rfl
  refine ⟨_, c, c', erased, goes.ran, walked,
    Move.text_run_iff (Move.calm_statement spelled untouched).1 walked, ss ++ ss', lead, source,
    trail ++ Part.ofText (c'.passBlanks .ofStatements).rest, ?_, aligned.before.symm, sourced,
    fun kept => ?_⟩
  · simpa [splits, Cursor.ofText] using parts
  -- The source is settled behind the statement, and what is settled is there at the end.
  · have ran := whole.ran
    rw [moves, Move.run_append_eq_ok] at ran
    obtain ⟨_, same, ran⟩ := ran
    cases goes.ran.symm.trans same
    obtain ⟨_, same, ran⟩ := Move.run_append_eq_ok.mp ran
    cases gone.symm.trans same
    have kept' := (c'.text_passBlanks .ofStatements).trans kept
    have light := (Move.settles_run gone).passes ((Move.settles_run goes.ran).passes rfl)
    refine (sourced.settled kept' splits light).trans ((Move.settles_run ran).settled.trans ?_)
    rw [Cursor.text, Cursor.before, List.append_assoc]
    exact List.prefix_append _ _

/-- A block keeps the blank in front of its brace when a statement in front of the block goes. -/
theorem Graph.source_of_block :
    let cs := "digraph\x7bx; \x7bb ; c \x7d d\x7d".toList
    let s : Statement := .subgraph none [.node ⟨"b", none⟩ [], .node ⟨"c", none⟩ []]
    ∃ g e c before lead source, Graph.read cs = .ok g ∧ g.Stands (.node "x") before s ∧
      g.eraseFrom (.node "x") cs = .ok e ∧ Move.run before (.ofText cs) = .ok c ∧
      s.Sourced g.kind.edgeOp.toList lead source ∧
      c.before ++ Part.textOf (lead ++ source) <+: e.text := by
  intro cs s
  let g : Graph := ⟨false, .digraph, none, [.node ⟨"x", none⟩ [], s, .node ⟨"d", none⟩ []]⟩
  have found : Graph.read cs = .ok g := by decide +kernel
  have reaches : Move.allAlong Move.reaches (Move.whole (.node "x") g) (.ofText cs) = true := by
    decide +kernel
  have stands : g.Stands (.node "x") (Move.opening g ++
      (Move.statement (.node "x") "->".toList (.node ⟨"x", none⟩ []) ++
        [.skipBlanks true .ofStatements])) s :=
    .inBody (.later .here)
  have place : Move.run (Move.opening g ++
      (Move.statement (.node "x") "->".toList (.node ⟨"x", none⟩ []) ++
        [.skipBlanks true .ofStatements])) (.ofText cs) =
      .ok ⟨"digraph\x7b".toList, [], "\x7bb ; c \x7d d\x7d".toList, some 8, 1⟩ := by
    decide +kernel
  obtain ⟨e, c, c', erased, ran, -, same, -, lead, source, -, -, -, sourced, kept⟩ :=
    Graph.source_of_untouched found reaches stands (by decide)
  refine ⟨g, e, c, _, lead, source, found, stands, erased, ran, sourced, kept (same.mpr ?_)⟩
  cases place.symm.trans ran
  decide +kernel

/-- The blanks and the separator in front of the brace of a block are given up, since the last
removal is recorded behind four blanks that are gone by now. -/
theorem Graph.block_behind_chain :
    let cs := "digraph\x7ba    ->x;\x7bb ; \x7d\x7d".toList
    let s : Statement := .subgraph none [.node ⟨"b", none⟩ []]
    ∃ g e before front source behind, Graph.read cs = .ok g ∧ g.Stands (.node "x") before s ∧
      Target.countIn (.node "x") s = 0 ∧ g.eraseFrom (.node "x") cs = .ok e ∧
      Part.ofText cs = front ++ source ++ behind ∧ s.Sourced "->".toList [] source ∧
      ¬ Part.textOf source <:+: e.text := by
  intro cs s
  let g : Graph := ⟨false, .digraph, none,
    [.edge [.node ⟨"a", none⟩, .node ⟨"x", none⟩] [], s]⟩
  have b : (Lexeme.word ['b']).name? = some "b" := by decide
  let source : List Part := [.piece (.mark ['{']), .piece (.word ['b']), .blank [' '],
    .piece (.separator ';'), .blank [' '], .piece (.mark ['}'])]
  refine ⟨g, ⟨"digraph\x7ba;\x7bb\x7d\x7d".toList, 2⟩, _, (Part.ofText cs).take 10, source,
    [.piece (.mark ['}'])], by decide +kernel, .inBody (.later .here), by decide,
    by decide +kernel, by decide +kernel, ⟨rfl, ?_, ⟨_, _, rfl⟩, ⟨source.dropLast, _, rfl⟩⟩,
    by decide +kernel⟩
  exact .subgraph (.block .bare (.cons (.node (.plain b) .done) (.one rfl) .nil))

end DotText
