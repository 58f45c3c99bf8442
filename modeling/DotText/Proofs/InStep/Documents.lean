import DotText.Proofs.InStep.Statements

set_option autoImplicit false

/- A walk over a document goes over the pieces of the document. -/
namespace DotText.Walk.Move

theorem InStep.kindAndName {kind : Kind} {id : Option String} {head : List Lexeme}
    (spelled : DocumentHead kind false id head) (before : Bool) :
    InStep before
      (.skip (.keyword kind.keyword.toList) false .none false ::
          (match id with
            | none => []
            | some id => [ident id false]) ++ [mark ['{'] false])
      (Mark.all false (head ++ [.mark ['{']])) false (fun _ => True) := by
  have brace := InStep.single (Token.spells_mark ['{']) false .none false false (fun _ => True)
  cases spelled with
  | plain same => exact brace.afterToken (Token.spells_keyword same) false .none false before
  | named same named =>
    have name := brace.afterToken (Token.spells_ident named) false .none false false
    exact name.afterToken (Token.spells_keyword same) false .none false before

theorem InStep.opening {g : Graph} {head : List Lexeme}
    (spelled : DocumentHead g.kind g.strict g.id head) :
    InStep false (Move.opening g) (Mark.all false (head ++ [.mark ['{']])) false
      (fun _ => True) := by
  obtain ⟨strict, kind, id, body⟩ := g
  unfold Move.opening
  cases spelled with
  | plain same => exact InStep.kindAndName (.plain same) false
  | named same named => exact InStep.kindAndName (.named same named) false
  | strict same plain =>
    exact (InStep.kindAndName plain false).afterToken (Token.spells_keyword same) false .none false
      false

/-- Up to the last brace of a document the walk goes over what is spelled there. -/
theorem goes_document {g : Graph} {target : Target} {head : List Lexeme} {marks : List Mark}
    {cs : List Char} (spelled : DocumentHead g.kind g.strict g.id head)
    (block : Marking.OfBlock target g.kind.edgeOp.toList g.body marks)
    (found : Lexeme.all cs =
      head ++ .mark ['{'] :: (Mark.lexemes marks ++ [.mark ['}']]))
    (ready : Ready [] (document target g) (.ofText cs)) :
    ∃ left c', left.all Lexeme.isSeparator = true ∧
      Lexeme.all c'.rest = left ++ [.mark ['}']] ∧
      Goes (document target g) [] (.ofText cs)
        (Mark.all false (head ++ [.mark ['{']]) ++ marks) left c' := by
  have steps := (InStep.opening spelled).append ((InStep.statements block).fresh false)
    (fun _ _ _ => trivial)
  obtain ⟨left, c', loose, -, rest, goes⟩ := steps (.ofText cs) [] [.mark ['}']] rfl (fun _ => rfl)
    ⟨[], rfl⟩ ⟨_, List.mem_singleton.mpr rfl, rfl⟩ (by simpa [Cursor.ofText] using found) ready
  exact ⟨left, c', loose, rest, goes⟩

/-- A walk over a whole document goes over all of its pieces. -/
theorem goes_whole {g : Graph} {target : Target} {marks : List Mark} {cs : List Char}
    (marked : g.Marked target marks) (found : Lexeme.all cs = Mark.lexemes marks)
    (ready : Ready [] (whole target g) (.ofText cs)) :
    ∃ c', Lexeme.all c'.rest = [] ∧ Goes (whole target g) [] (.ofText cs) marks [] c' := by
  cases marked with
  | document spelled block =>
    obtain ⟨left, c₁, loose, rest₁, goes₁⟩ := goes_document spelled block
      (by simpa using found) ready.first
    obtain ⟨c', rest, goes⟩ := goes_token (Token.spells_mark ['}']) .none loose
      (by simp) rest₁ (ready.second goes₁)
    exact ⟨c', rest, goes₁.append goes⟩

end DotText.Walk.Move
