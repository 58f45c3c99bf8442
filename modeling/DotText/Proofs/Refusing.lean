import DotText.Proofs.Reading.Failing
import DotText.Proofs.Reading.Unique
import DotText.SyntaxError
import DotText.Tree.Equality

set_option autoImplicit false

/- A text that is no document is refused no later than it must be: what is in front of the place
that the error names is the beginning of some document. -/
namespace DotText

open Lexeme (Takes)

/-- The place is the one right behind the text: on the line of its last character, or on the next
one if that ends a line. -/
structure Position.IsBehind (place : Position) (before : List Char) : Prop where
  line : place.line = before.count '\n' + 1
  column : ∃ lines last, before = lines ++ last ∧ (lines = [] ∨ ∃ front, lines = front ++ ['\n']) ∧
    '\n' ∉ last ∧ place.column = last.length + 1

theorem Position.isBehind_after (before : List Char) : (Position.after before).IsBehind before := by
  refine ⟨rfl, ((before.reverse.dropWhile (· != '\n')).reverse),
    ((before.reverse.takeWhile (· != '\n')).reverse), ?_, ?_, ?_, ?_⟩
  · rw [← List.reverse_append, List.takeWhile_append_dropWhile, List.reverse_reverse]
  · cases behind : before.reverse.dropWhile (· != '\n') with
    | nil => exact .inl rfl
    | cons c cs =>
      have stops := List.head?_dropWhile_not (· != '\n') before.reverse
      rw [behind] at stops
      obtain rfl : c = '\n' := by simpa using stops
      exact .inr ⟨cs.reverse, List.reverse_cons⟩
  · intro mem
    simpa using List.all_eq_true.mp List.all_takeWhile _ (List.mem_reverse.mp mem)
  · rw [List.length_reverse]
    rfl

theorem Kind.rest_of_read {cs : List Char} {f : Failure} (failed : Kind.read cs = .error f) :
    f.rest = cs := by
  unfold Kind.read at failed
  split at failed
  · cases failed
  · cases failed
    rfl

namespace Graph

/-- Pieces of a document. -/
def IsSpelled (ls : List Lexeme) : Prop := ∃ g : Graph, g.Spelled ls

/-- Pieces of a document that does not begin with `strict`. -/
def IsPlain (ls : List Lexeme) : Prop := ∃ g : Graph, g.strict = false ∧ g.Spelled ls

theorem isPlain_document {kind : Kind} {id : Option String} {head ls : List Lexeme}
    {body : List Statement} (opening : DocumentHead kind false id head)
    (listed : Statement.Listed kind.edgeOp.toList body ls) :
    IsPlain (head ++ .mark ['{'] :: (ls ++ [.mark ['}']])) :=
  ⟨⟨false, kind, id, body⟩, rfl, .document opening listed⟩

/-- The words of the smallest document. -/
theorem isPlain_empty : IsPlain [.word "graph".toList, .mark ['{'], .mark ['}']] := by
  have keyword : (Lexeme.word "graph".toList).isKeyword Kind.graph.keyword = true := by decide
  exact isPlain_document (.plain keyword) .nil

theorem isSpelled_strict {w : Lexeme} (same : w.isKeyword "strict" = true) {ls : List Lexeme}
    (plain : IsPlain ls) : IsSpelled (w :: ls) := by
  obtain ⟨g, notStrict, spelled⟩ := plain
  cases spelled with
  | document opening listed =>
    rw [notStrict] at opening
    have spelled : Spelled ⟨true, g.kind, g.id, g.body⟩ _ := .document (.strict same opening) listed
    exact ⟨_, spelled⟩

/-- Reading a document behind the word `strict`, if that is there. -/
theorem unfinished_of_plain {strict : Bool} {cs : List Char} {f : Failure}
    (failed : (do
      let (kind, r) ← Kind.read cs
      let (id, r) ← readBlockId (Blank.skip r)
      let (body, r) ← readBraces (readStatements kind) r
      let r := Blank.skip r
      if r.isEmpty then return (⟨strict, kind, id, body⟩ : Graph)
      else .error ⟨.endOfText, r⟩) = .error f) :
    Unfinished IsPlain cs f.rest := by
  rcases bind_eq_error.mp failed with failed | ⟨⟨kind, r₁⟩, readKind, rest⟩
  · rw [Kind.rest_of_read failed]
    exact .here cs _ (by decide) isPlain_empty
  have leavesKind := (Kind.leaving_read readKind).skip
  rcases bind_eq_error.mp rest with failed | ⟨⟨id, r₂⟩, readId, rest⟩
  · obtain ⟨k, same, takes⟩ := Kind.takes_of_read readKind
    refine (failing_readBlockId failed).behind leavesKind takes.skip ?_
    rintro _ ⟨n, s, rfl, named⟩
    exact ⟨[.mark ['{'], .mark ['}']], by decide, isPlain_document (.named same named) .nil⟩
  obtain ⟨head, opening, takesHead⟩ := takes_of_opening readKind readId
  have leavesHead := leavesKind.trans (leaving_readBlockId readId)
  rcases bind_eq_error.mp rest with failed | ⟨⟨body, r₃⟩, readBody, rest⟩
  · refine (failing_readBraces (understood_readStatements kind) failed).behind leavesHead takesHead ?_
    rintro _ ⟨ss, inner, listed, rfl⟩
    exact ⟨[], by simp, by simpa using isPlain_document opening listed⟩
  obtain ⟨marks, block, takesBody⟩ :=
    takes_of_readBraces (takes_of_readStatements .nothing kind) readBody
  have leavesBody := leavesHead.trans (leaving_readBraces (leaving_readStatements kind) readBody)
  dsimp only at rest
  split at rest
  · exact absurd rest pure_ne_error
  · cases rest
    exact .at_ leavesBody.skip (takesHead.append takesBody).skip [] (by simp)
      (by simpa using isPlain_document opening block.spelled)

theorem failing_read {cs : List Char} {f : Failure} (failed : Graph.read cs = .error f) :
    Unfinished IsSpelled cs f.rest := by
  unfold Graph.read at failed
  dsimp only at failed
  refine .skip ?_
  split at failed
  · next r word =>
    obtain ⟨w, same, heads⟩ := Ident.heads_of_dropWord? (by decide) word
    refine (unfinished_of_plain failed).behind (Leaves.of_heads heads).skip heads.takes.skip ?_
    intro ls plain
    exact ⟨[], by simp, by simpa using isSpelled_strict same plain⟩
  · refine (unfinished_of_plain failed).imp ?_
    rintro ls ⟨g, -, spelled⟩
    exact ⟨g, spelled⟩

/-- A text that stops in the middle of a document can be gone on with up to the document's end. -/
theorem exists_completion {cs rest : List Char} (unfinished : Unfinished IsSpelled cs rest) :
    ∃ before completion g, cs = before ++ rest ∧ Graph.read (before ++ completion) = .ok g := by
  obtain ⟨ls, more, halts, listed, g, spelled⟩ := unfinished
  obtain ⟨before, closer, split, closes⟩ := halts.exists_closer
  obtain ⟨t, pieces⟩ := Part.exists_text fun p mem => Lexeme.whole_of_stock p (listed mem)
  refine ⟨before, closer ++ t, g, split, ?_⟩
  rwa [Graph.read_iff_spelled, closes, pieces]

/-- Where a text is refused, the error names a place in it, and the text in front of the place is the
beginning of a document. -/
theorem refused_at_dead_end {text : String} {e : SyntaxError} (refused : ofText text = .error e) :
    ∃ before behind, text.toList = before ++ behind ∧ e.position.IsBehind before ∧
      ∃ completion g, ofText (String.ofList (before ++ completion)) = .ok g := by
  unfold ofText at refused
  split at refused
  · cases refused
  · next f failed =>
    cases refused
    obtain ⟨before, completion, g, split, read⟩ := exists_completion (failing_read failed)
    refine ⟨before, f.rest, split, ?_, completion, g, ?_⟩
    · have front : text.toList.take (text.toList.length - f.rest.length) = before := by
        simp [split]
      rw [Failure.locate, front]
      exact Position.isBehind_after before
    · rwa [ofText_eq_ok, String.toList_ofList]

/-- Behind a backslash at the end of a text, a quote does not end the string yet. -/
theorem refused_in_string :
    ∃ text e, ofText text = .error e ∧ text = "digraph \x7b\n  a -> \"b\\" ∧
      e = ⟨⟨2, 11⟩, .closingQuote, []⟩ ∧
      ∃ before behind, text.toList = before ++ behind ∧ e.position.IsBehind before ∧
        ∃ completion g, ofText (String.ofList (before ++ completion)) = .ok g := by
  have refused : ofText "digraph \x7b\n  a -> \"b\\" = .error ⟨⟨2, 11⟩, .closingQuote, []⟩ := by
    decide +kernel
  exact ⟨_, _, refused, rfl, rfl, refused_at_dead_end refused⟩

end Graph

end DotText
