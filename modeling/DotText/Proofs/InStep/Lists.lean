import DotText.Proofs.InStep

set_option autoImplicit false

/- Attribute lists are gone over as they are spelled. Lists with nothing in them are met in front of
an entry, at the end of all entries, and in front of the bracket that an entry follows. -/
namespace DotText.Walk.Move

open Attribute (Listed)

/-- The moves over lists are in step behind any number of lists with nothing in them, and where a
bracket is open also from the entry on that was gone over last. -/
def ListsInStep (erase : Bool) : Bool → List Attribute → List Lexeme → Prop
  | false, attrs, ls =>
    ∀ n, InStep false (attributes erase attrs) (Mark.all erase (pairs n ++ ls)) false Lexeme.Ends
  | true, attrs, ls =>
    (∀ n, InStep false (attributes erase attrs) (Mark.all erase (pairs n ++ .mark ['['] :: ls))
      false Lexeme.Ends) ∧
    ∀ seps, Lexeme.Separates .ofEntries seps →
      InStep false (.skip (.mark [']']) erase .ofEntries true :: attributes erase attrs)
        (Mark.all erase (seps ++ ls)) false Lexeme.Ends

theorem not_mark_of_name? {piece : Lexeme} {name : String} (named : piece.name? = some name)
    (m : List Char) : piece ≠ .mark m := by
  rintro rfl
  cases named

/-- A name is neither a bracket nor a separator. -/
theorem lacks_of_name? {piece : Lexeme} {name : String} (named : piece.name? = some name)
    (m : List Char) (others : List Lexeme) : Lacks (.mark m) (piece :: others) :=
  ⟨piece, others, rfl, not_mark_of_name? named m, Lexeme.not_isSeparator_of_name? named⟩

/-- The moves over an entry, from its key on. -/
theorem InStep.assignment (erase : Bool) {key : String} {value : Value} {k v : Lexeme}
    {ms : List Move} {marks : List Mark} {after : Bool} {follow : List Lexeme → Prop}
    (steps : InStep false ms marks after follow) (named : k.name? = some key)
    (valued : v.value? = some value) (before : Bool) :
    InStep before
      (.skip (.ident key.toList) erase .ofEntries false :: mark ['='] erase ::
        .skip (valueToken value) erase .none false :: ms)
      (⟨k, erase⟩ :: ⟨.mark ['='], erase⟩ :: ⟨v, erase⟩ :: marks) after follow :=
  ((steps.afterToken (spells_valueToken valued) erase .none false false).afterToken
    (Token.spells_mark ['=']) erase .none false false).afterToken (Token.spells_ident named) erase
      .ofEntries false before

/-- The moves over an entry with no bracket in front of it. -/
theorem InStep.bareAssignment (erase : Bool) {key : String} {value : Value} {k v : Lexeme}
    {ms : List Move} {marks : List Mark} {after : Bool} {follow : List Lexeme → Prop}
    (steps : InStep false ms marks after follow) (named : k.name? = some key)
    (valued : v.value? = some value) :
    InStep true
      (.emptyLists erase :: optional (.mark ['[']) erase ::
        .skip (.ident key.toList) erase .ofEntries false :: mark ['='] erase ::
        .skip (valueToken value) erase .none false :: ms)
      (⟨k, erase⟩ :: ⟨.mark ['='], erase⟩ :: ⟨v, erase⟩ :: marks) after follow := by
  have bracket := (InStep.absent (.mark ['[']) erase .none rfl .none).append
    (InStep.assignment erase steps named valued true) (fun _ _ _ => lacks_of_name? named _ _)
  exact (InStep.noLists erase).append bracket
    (fun _ _ _ => ⟨k, _, rfl, not_mark_of_name? named _⟩)

theorem listsInStep {erase opened : Bool} {attrs : List Attribute} {ls : List Lexeme}
    (listed : Listed opened attrs ls) : ListsInStep erase opened attrs ls := by
  induction listed with
  | done =>
    intro n
    rw [List.append_nil]
    refine (InStep.emptyLists erase n).mono ?_
    rintro tail ends others rfl
    exact ends.not_mark (m := ['[']) rfl rfl
  | opened _ ih => exact ih.1
  | @closed attrs ls _ ih =>
    constructor
    · intro n
      have steps := ih (n + 1)
      rwa [pairs_append, List.append_assoc] at steps
    · intro seps separates
      have bracket := InStep.separated (Token.spells_mark [']']) separates erase true false
        (fun _ => True)
      have steps := bracket.append (ih 0) (fun _ _ _ => trivial)
      rw [← Mark.all_append, List.append_assoc] at steps
      exact steps
  | @entry key value attrs k v seps ls named valued separates _ ih =>
    have behind := ih.2 seps separates
    constructor
    · intro n
      have bracket := (InStep.assignment erase behind named valued false).afterToken
        (Token.spells_mark ['[']) erase .none true false
      have steps := (InStep.emptyLists erase n).append bracket ?_
      · rw [Mark.all_append]
        exact steps
      · rintro tail - - others same
        simp only [Mark.lexemes_cons, List.cons_append, List.cons.injEq] at same
        exact not_mark_of_name? named _ same.2.1
    · intro before separates'
      have steps := (InStep.absent (.mark [']']) erase .ofEntries rfl separates').append
        (InStep.bareAssignment erase behind named valued) (fun _ _ _ => lacks_of_name? named _ _)
      rw [Mark.all_append]
      exact steps.fresh false

/-- Lists in brackets are gone over. -/
theorem InStep.attributes (erase : Bool) {attrs : List Attribute} {ls : List Lexeme}
    (listed : Listed false attrs ls) :
    InStep false (Move.attributes erase attrs) (Mark.all erase ls) false Lexeme.Ends :=
  listsInStep listed 0

end DotText.Walk.Move
