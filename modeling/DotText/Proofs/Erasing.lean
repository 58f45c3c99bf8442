import DotText.Proofs.InStep.Documents
import DotText.Proofs.Keeping
import DotText.Proofs.Pruning
import DotText.Proofs.Reading.Unique
import DotText.Tree.Equality

set_option autoImplicit false

/- What a text is made of once a target is erased from it: the pieces that survive, but for
separators that went with a gap, and insignificant material. -/
namespace DotText

open Lexeme (Drops)
open DotText.Part (textOf pieces apart)
open Walk (Move)

namespace Mark

/-- The pieces that stay and say something. -/
def remaining (marks : List Mark) : List Lexeme :=
  (survivors marks).filter (!·.isSeparator)

/-- What stays and says something is fixed by what says something. -/
theorem remaining_eq {marks others : List Mark}
    (same : marks.filter (!·.lexeme.isSeparator) = others.filter (!·.lexeme.isSeparator)) :
    remaining marks = remaining others := by
  have swap : ∀ marks : List Mark, remaining marks =
      ((marks.filter (!·.lexeme.isSeparator)).filter (!·.erased)).map Mark.lexeme := by
    intro marks
    rw [remaining, survivors, lexemes, List.filter_map, List.filter_filter, List.filter_filter]
    congr 2
    funext mark
    exact Bool.and_comm _ _
  rw [swap, swap, same]

end Mark

theorem Cursor.made_ofText (cs : List Char) : (Cursor.ofText cs).Made [] [] :=
  ⟨rfl, rfl, by simp, rfl⟩

/-- Where every token is reached, erasing goes through; the text that is left is made of whole
parts, which are apart exactly where every token that is kept stays apart from what is in front of
it. -/
theorem Graph.Marked.erased {g : Graph} {target : Target} {marks : List Mark} {cs : List Char}
    (marked : g.Marked target marks) (found : Lexeme.all cs = Mark.lexemes marks)
    (reaches : Move.allAlong Move.reaches (Move.whole target g) (.ofText cs) = true) :
    ∃ e parts tail, g.eraseFrom target cs = .ok e ∧ e.text = textOf parts ++ tail ∧
      (∀ part ∈ parts, part.Whole) ∧ Blank.skip tail = [] ∧
      apart [] parts = Move.allAlong Move.keepsApart (Move.whole target g) (.ofText cs) ∧
      (pieces parts).filter (!·.isSeparator) = Mark.remaining marks ∧
      (Move.allAlong Move.sweeps (Move.whole target g) (.ofText cs) = true →
        Drops (Mark.survivors marks) (pieces parts)) := by
  obtain ⟨c, rest, ran, ev, follows, same, exact⟩ :=
    Move.goes_whole marked found (.inl reaches)
  obtain ⟨parts, loose, made, drops, separate⟩ := follows.makes (Cursor.made_ofText cs)
  rw [List.append_nil, Part.pieces_nil, List.nil_append] at drops
  refine ⟨⟨c.text, c.erased⟩, parts ++ loose, c.rest, ?_, ?_, made.whole, ?_, separate, ?_, ?_⟩
  · rw [g.eraseFrom_eq_run, ran]
    rfl
  · rw [Cursor.text, made.before]
  · exact Lexeme.all_eq_nil.mp rest
  · rw [drops.filter_eq]
    exact Mark.remaining_eq same
  · intro sweeps
    rw [← (exact rfl sweeps).2]
    exact drops

/-- Where every token is reached, the text that is left says what the text said but for what went,
exactly if every token that is kept stays apart from what is in front of it. Otherwise some word or
numeral that stays has become another one, in front of a second one that stays. -/
theorem Graph.significant_of_erased {g : Graph} {cs : List Char} (found : Graph.read cs = .ok g)
    {target : Target}
    (reaches : Move.allAlong Move.reaches (Move.whole target g) (.ofText cs) = true) :
    ∃ e, g.eraseFrom target cs = .ok e ∧
      (∃ marks, g.Marked target marks ∧ Lexeme.all cs = Mark.lexemes marks) ∧
      ∀ {marks : List Mark}, g.Marked target marks → Lexeme.all cs = Mark.lexemes marks →
        (Lexeme.significant e.text = Mark.remaining marks ↔
          Move.allAlong Move.keepsApart (Move.whole target g) (.ofText cs) = true) ∧
        (Move.allAlong Move.keepsApart (Move.whole target g) (.ofText cs) = false →
          ∃ before p q behind other behind', Mark.remaining marks = before ++ p :: q :: behind ∧
            Lexeme.significant e.text = before ++ other :: behind' ∧ p.Alters other ∧
            q.isRunning = true) := by
  obtain ⟨marks, marked, split⟩ := Graph.marked_of_read found target
  obtain ⟨e, -, -, erased, -⟩ := marked.erased split reaches
  refine ⟨e, erased, ⟨marks, marked, split⟩, fun {marks} marked split => ?_⟩
  obtain ⟨e', parts, tail, erased', text, whole, blank, separate, tells, -⟩ :=
    marked.erased split reaches
  rw [erased] at erased'
  cases erased'
  rw [text, ← tells, ← separate]
  refine ⟨Part.significant_iff whole blank, fun joined => ?_⟩
  rw [← Part.apart_of_blank blank] at joined
  exact Part.joint whole (Part.endsPieces_of_blank blank) joined

/-- The two neighbours of a node that goes are put apart. -/
theorem Graph.significant_of_chain :
    ∃ g e marks, Graph.read "digraph{a->x->b; c}".toList = .ok g ∧
      g.eraseFrom (.node "x") "digraph{a->x->b; c}".toList = .ok e ∧
      g.Marked (.node "x") marks ∧
      Lexeme.all "digraph{a->x->b; c}".toList = Mark.lexemes marks ∧
      Lexeme.significant e.text = Mark.remaining marks := by
  have found : Graph.read "digraph{a->x->b; c}".toList =
      .ok ⟨false, .digraph, none,
        [.edge [.node ⟨"a", none⟩, .node ⟨"x", none⟩, .node ⟨"b", none⟩] [],
          .node ⟨"c", none⟩ []]⟩ := by
    decide +kernel
  obtain ⟨e, erased, ⟨marks, marked, split⟩, tells⟩ :=
    Graph.significant_of_erased found (by decide +kernel : Move.allAlong Move.reaches
      (Move.whole (.node "x") _) (.ofText _) = true)
  exact ⟨_, e, marks, found, erased, marked, split,
    (tells marked split).1.mpr (by decide +kernel)⟩

/-- The blanks behind a chain go with its last end, and the end that stays joins the next
statement. -/
theorem Graph.significant_of_joined :
    ∃ g e marks, Graph.read "digraph{a -> x b}".toList = .ok g ∧
      g.eraseFrom (.node "x") "digraph{a -> x b}".toList = .ok e ∧
      g.Marked (.node "x") marks ∧
      Lexeme.all "digraph{a -> x b}".toList = Mark.lexemes marks ∧
      Mark.remaining marks =
        [.word "digraph".toList, .mark ['{'], .word ['a'], .word ['b'], .mark ['}']] ∧
      Lexeme.significant e.text =
        [.word "digraph".toList, .mark ['{'], .word ['a', 'b'], .mark ['}']] := by
  have keyword : (Lexeme.word "digraph".toList).isKeyword Kind.digraph.keyword = true := by decide
  have a : (Lexeme.word ['a']).name? = some "a" := by decide
  have x : (Lexeme.word ['x']).name? = some "x" := by decide
  have b : (Lexeme.word ['b']).name? = some "b" := by decide
  let g : Graph := ⟨false, .digraph, none,
    [.edge [.node ⟨"a", none⟩, .node ⟨"x", none⟩] [], .node ⟨"b", none⟩ []]⟩
  refine ⟨g, ⟨"digraph{ab}".toList, 2⟩, _, by decide +kernel, by decide +kernel,
    .document (.plain keyword) (.cons (.edge (.node (.plain a)) (.cons (.node (.plain x)) .nil) .done)
      .none (.cons (.node (.plain b) .done) .none .nil)), ?_, ?_, ?_⟩
  all_goals decide +kernel

/-- Where every token is reached, the text that is left is read as the tree that is left exactly if
it is read as some tree and every token that is kept stays apart from what is in front of it. It is
read where moreover every separator goes that is to go. -/
theorem Graph.read_of_erased {g : Graph} {cs : List Char} (found : Graph.read cs = .ok g)
    {target : Target}
    (reaches : Move.allAlong Move.reaches (Move.whole target g) (.ofText cs) = true) :
    ∃ e, g.eraseFrom target cs = .ok e ∧
      (Graph.read e.text = .ok (g.prune target) ↔
        Move.allAlong Move.keepsApart (Move.whole target g) (.ofText cs) = true ∧
          ∃ t, Graph.read e.text = .ok t) ∧
      (Move.allAlong Move.sweeps (Move.whole target g) (.ofText cs) = true →
        Move.allAlong Move.keepsApart (Move.whole target g) (.ofText cs) = true →
          Graph.read e.text = .ok (g.prune target)) := by
  obtain ⟨marks, marked, split⟩ := Graph.marked_of_read found target
  obtain ⟨e, parts, tail, erased, text, whole, blank, separate, tells, drops⟩ :=
    marked.erased split reaches
  obtain ⟨kept, prunes, same⟩ := marked.pruned
  have spelled : (pieces parts).filter (!·.isSeparator) =
      (Mark.lexemes kept).filter (!·.isSeparator) := by
    rw [tells, Mark.remaining, same]
  have all : Move.allAlong Move.keepsApart (Move.whole target g) (.ofText cs) = true →
      Lexeme.all e.text = pieces parts := by
    intro keepsApart
    rw [keepsApart, ← Part.apart_of_blank blank] at separate
    rw [text, Part.all_textOf whole separate, Lexeme.all_of_skip_nil blank, List.append_nil]
  refine ⟨e, erased, ⟨fun read => ⟨?_, _, read⟩, ?_⟩, fun sweeps keepsApart => ?_⟩
  · rw [← separate]
    exact prunes.apart_of_read whole blank spelled (text ▸ read)
  · rintro ⟨keepsApart, t, read⟩
    obtain ⟨marks', marked', split'⟩ := Graph.marked_of_read read .nothing
    rw [all keepsApart] at split'
    have known : ∀ p ∈ Mark.lexemes marks', (Part.piece p).Whole := fun p mem =>
      Part.whole_of_mem_pieces whole (split' ▸ mem)
    rw [read, marked'.unique prunes known (by rw [← split', spelled])]
  · obtain ⟨left, spells, same'⟩ := prunes.drops (same ▸ drops sweeps)
    exact Graph.read_of_marked spells ((all keepsApart).trans same'.symm)

end DotText
