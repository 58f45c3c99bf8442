import DotText.Edit.Marking
import DotText.Proofs.Joints
import DotText.Proofs.Reading.Words

set_option autoImplicit false

/- One tree has several spellings: a name may be quoted or not, a word of the language may be in any
letter case, brackets and the word in front of a block may be there or not. Where two spellings of a
tree differ first, it is for one of these reasons. -/
namespace DotText

namespace Lexeme

/-- Whether words or numerals may stand for each other in the spelling of a tree, in front of these
pieces: they name the same, or are the same word of the language, or a mark comes next. -/
def Exchanges (p q : Lexeme) (behind behind' : List Lexeme) : Prop :=
  (p.name?.isSome = true ∧ p.name? = q.name?) ∨
    (∃ keyword, p.isKeyword keyword = true ∧ q.isKeyword keyword = true) ∨
    (behind.head?.any isRunning = false ∧ behind'.head?.any isRunning = false)

/-- Where the pieces differ first, words or numerals differ only if they may stand for each
other. -/
def Alike : List Lexeme → List Lexeme → Prop
  | p :: behind, q :: behind' =>
    if p = q then Alike behind behind'
    else p.isRunning = true → q.isRunning = true → Exchanges p q behind behind'
  | _, _ => True

namespace Alike

variable {p q : Lexeme} {ls ls' : List Lexeme}

theorem cons (p : Lexeme) (alike : Alike ls ls') : Alike (p :: ls) (p :: ls') := by
  rw [Alike, if_pos rfl]
  exact alike

theorem of_exchanges (alike : Alike ls ls') (exchanges : Exchanges p q ls ls') :
    Alike (p :: ls) (q :: ls') := by
  rw [Alike]
  split
  · exact alike
  · exact fun _ _ => exchanges

theorem name {name : String} (alike : Alike ls ls') (first : p.name? = some name)
    (second : q.name? = some name) : Alike (p :: ls) (q :: ls') :=
  alike.of_exchanges (.inl ⟨by rw [first]; rfl, first.trans second.symm⟩)

theorem keyword {keyword : String} (alike : Alike ls ls') (first : p.isKeyword keyword = true)
    (second : q.isKeyword keyword = true) : Alike (p :: ls) (q :: ls') :=
  alike.of_exchanges (.inr (.inl ⟨keyword, first, second⟩))

theorem not_running (differ : p ≠ q) (stands : p.isRunning = false ∨ q.isRunning = false)
    (ls ls' : List Lexeme) : Alike (p :: ls) (q :: ls') := by
  rw [Alike, if_neg differ]
  intro first second
  rcases stands with stands | stands
  · rw [stands] at first
    cases first
  · rw [stands] at second
    cases second

theorem value {value : Value} (alike : Alike ls ls') (first : p.value? = some value)
    (second : q.value? = some value) : Alike (p :: ls) (q :: ls') := by
  by_cases same : p = q
  · rw [same]
    exact alike.cons q
  · cases named : p.name? with
    | some name =>
      rw [Value.value?_of_name? named] at first
      cases first
      cases p with
      | html => cases named
      | _ =>
        cases q with
        | html => cases second
        | _ =>
          simp only [value?, Option.map_eq_some_iff] at second
          obtain ⟨name', named', same'⟩ := second
          cases same'
          exact alike.name named named'
    | none =>
      cases p with
      | html => exact not_running same (.inl rfl) _ _
      | _ =>
        simp only [value?, named, Option.map_none] at first
        cases first

/-- A mark in front of the one and not of the other. -/
theorem mark_left {m : List Char} (other : ls'.head? ≠ some (.mark m)) (ls : List Lexeme) :
    Alike (.mark m :: ls) ls' := by
  cases ls' with
  | nil => trivial
  | cons q ls' => exact not_running (fun same => other (congrArg some same.symm)) (.inl rfl) _ _

theorem mark_right {m : List Char} (other : ls.head? ≠ some (.mark m)) (ls' : List Lexeme) :
    Alike ls (.mark m :: ls') := by
  cases ls with
  | nil => trivial
  | cons p ls => exact not_running (fun same => other (congrArg some same)) (.inr rfl) _ _

/-- At the first difference words or numerals may stand for each other. -/
theorem exchanges {before : List Lexeme} (alike : Alike (before ++ p :: ls) (before ++ q :: ls'))
    (differ : p ≠ q) (first : p.isRunning = true) (second : q.isRunning = true) :
    Exchanges p q ls ls' := by
  induction before with
  | nil =>
    rw [List.nil_append, List.nil_append, Alike, if_neg differ] at alike
    exact alike first second
  | cons x before ih =>
    rw [List.cons_append, List.cons_append, Alike, if_pos rfl] at alike
    exact ih alike

end Alike

/-- A longer word or another numeral does not stand for what it came from in front of a word or a
numeral. -/
theorem Alters.not_exchanges {p q other : Lexeme} (alters : p.Alters other)
    (running : q.isRunning = true) (behind behind' : List Lexeme) :
    ¬Exchanges p other (q :: behind) behind' := by
  rintro (⟨named, same⟩ | ⟨keyword, same, same'⟩ | ⟨ends, -⟩)
  · apply alters.ne
    cases alters with
    | word =>
      obtain ⟨name, first⟩ := Option.isSome_iff_exists.mp named
      rw [first] at same
      simp only [name?, Option.ite_none_left_eq_some, Option.some.injEq] at first
      have second := same.symm
      simp only [name?, Option.ite_none_left_eq_some, Option.some.injEq] at second
      rw [String.ofList_injective (first.2.trans second.2.symm)]
    | numeral =>
      simp only [name?, Option.some.injEq] at same
      rw [String.ofList_injective same]
  · cases alters with
    | word longer =>
      have size := congrArg List.length (eq_of_beq same)
      have size' := congrArg List.length (eq_of_beq same')
      simp only [List.length_map] at size size'
      omega
    | numeral => cases same
  · rw [List.head?_cons, Option.any_some, running] at ends
    cases ends

/-- No separator comes next. -/
def Solid (ls : List Lexeme) : Prop :=
  ∀ c, ls.head? ≠ some (.separator c)

theorem Separates.alike {allowed : Separators} {seps seps' ls ls' : List Lexeme}
    (first : Separates allowed seps) (second : Separates allowed seps') (alike : Alike ls ls')
    (solid : Solid ls) (solid' : Solid ls') : Alike (seps ++ ls) (seps' ++ ls') := by
  cases first with
  | none =>
    cases second with
    | none => exact alike
    | @one c =>
      cases ls with
      | nil => trivial
      | cons p ls =>
        exact Alike.not_running (fun same => solid c (congrArg some same)) (.inr rfl) _ _
  | @one c =>
    cases second with
    | none =>
      cases ls' with
      | nil => trivial
      | cons p ls' =>
        exact Alike.not_running (fun same => solid' c (congrArg some same.symm)) (.inl rfl) _ _
    | @one c' =>
      by_cases same : c = c'
      · rw [same]
        exact alike.cons _
      · exact Alike.not_running (fun same' => same (by cases same'; rfl)) (.inl rfl) _ _

end Lexeme

open Lexeme (Alike Solid Ends)

variable {ls ls' : List Lexeme}

theorem NodeRef.Spelled.alike {ref : NodeRef} {name name' : List Lexeme}
    (first : ref.Spelled name) (second : ref.Spelled name') (alike : Alike ls ls') :
    Alike (name ++ ls) (name' ++ ls') := by
  cases first with
  | plain named =>
    cases second with
    | plain named' => exact alike.name named named'
  | port named port =>
    cases second with
    | port named' port' => exact ((alike.name port port').cons _).name named named'
  | compass named port compass =>
    cases second with
    | compass named' port' compass' =>
      exact ((((alike.name compass compass').cons _).name port port').cons _).name named named'

theorem Attribute.Listed.solid {attrs : List Attribute} {pieces : List Lexeme}
    (listed : Listed true attrs pieces) (ls : List Lexeme) : Solid (pieces ++ ls) := by
  obtain ⟨piece, others, rfl, start⟩ := listed.head
  rintro c same
  cases same
  rcases start with mark | named
  · cases mark
  · cases named

theorem head?_ne_mark_of_name? {piece : Lexeme} {name : String} (named : piece.name? = some name)
    (m : List Char) (ls : List Lexeme) : (piece :: ls).head? ≠ some (.mark m) := by
  rintro same
  cases same
  cases named

/-- Two spellings of the same lists, whichever brackets are open. -/
theorem Attribute.Listed.alike {opened opened' : Bool} {attrs : List Attribute}
    {pieces pieces' : List Lexeme} (first : Listed opened attrs pieces)
    (second : Listed opened' attrs pieces') (alike : Alike ls ls') (ends : Ends ls)
    (ends' : Ends ls') : Alike (pieces ++ ls) (pieces' ++ ls') := by
  induction first generalizing opened' pieces' with
  | done =>
    cases second with
    | done => exact alike
    | opened => exact Alike.mark_right (ends.not_mark rfl) _
    | closed => exact Alike.mark_right (ends.not_mark rfl) _
  | opened _ ih =>
    cases second with
    | done => exact Alike.mark_left (ends'.not_mark rfl) _
    | opened other => exact (ih other).cons _
    | closed => exact Alike.mark_left (by simp) _
    | entry named => exact Alike.mark_left (head?_ne_mark_of_name? named _ _) _
  | closed _ ih =>
    cases second with
    | done => exact Alike.mark_left (ends'.not_mark rfl) _
    | opened => exact Alike.mark_left (by simp) _
    | closed other => exact (ih other).cons _
    | entry named => exact Alike.mark_left (head?_ne_mark_of_name? named _ _) _
  | entry named valued separates inner ih =>
    cases second with
    | opened => exact Alike.mark_right (head?_ne_mark_of_name? named _ _) _
    | closed => exact Alike.mark_right (head?_ne_mark_of_name? named _ _) _
    | entry named' valued' separates' inner' =>
      have behind := separates.alike separates' (ih inner') (inner.solid ls) (inner'.solid ls')
      have entry := ((behind.value valued valued').cons (.mark ['='])).name named named'
      simpa using entry

theorem head?_ne_mark_of_isKeyword {piece : Lexeme} {keyword : String}
    (same : piece.isKeyword keyword = true) (m : List Char) (ls : List Lexeme) :
    (piece :: ls).head? ≠ some (.mark m) := by
  rintro same'
  cases same'
  cases same

/-- Two spellings of what stands in front of the same brace. -/
theorem BlockHead.alike {id : Option String} {head head' : List Lexeme} (first : BlockHead id head)
    (second : BlockHead id head') (alike : Alike ls ls') :
    Alike (head ++ .mark ['{'] :: ls) (head' ++ .mark ['{'] :: ls') := by
  have braces := alike.cons (.mark ['{'])
  cases first with
  | bare =>
    cases second with
    | bare => exact braces
    | keyword same => exact Alike.mark_left (head?_ne_mark_of_isKeyword same _ _) _
  | keyword same =>
    cases second with
    | bare => exact Alike.mark_right (head?_ne_mark_of_isKeyword same _ _) _
    | keyword same' => exact braces.keyword same same'
  | named same named =>
    cases second with
    | named same' named' => exact (braces.name named named').keyword same same'

theorem DocumentHead.alike {kind : Kind} {strict : Bool} {id : Option String}
    {head head' : List Lexeme} (first : DocumentHead kind strict id head)
    (second : DocumentHead kind strict id head') (alike : Alike ls ls') :
    Alike (head ++ ls) (head' ++ ls') := by
  induction first generalizing head' with
  | plain same =>
    cases second with
    | plain same' => exact alike.keyword same same'
  | named same named =>
    cases second with
    | named same' named' => exact (alike.name named named').keyword same same'
  | strict same _ ih =>
    cases second with
    | strict same' other => exact (ih other).keyword same same'

namespace Marking

variable {target : Target} {op : List Char}

/-- A brace closes the block. -/
def Closes (ls : List Lexeme) : Prop :=
  ∃ behind, ls = .mark ['}'] :: behind

theorem OfBlock.solid {ss : List Statement} {marks : List Mark} (block : OfBlock target op ss marks)
    (closes : Closes ls) : Solid (Mark.lexemes marks ++ ls) := by
  obtain ⟨behind, rfl⟩ := closes
  obtain ⟨piece, first, -, solid⟩ := block.head behind
  intro c same
  rw [first] at same
  exact solid c (Option.some.inj same)

theorem OfBlock.endsBefore {ss : List Statement} {marks : List Mark}
    (block : OfBlock target op ss marks) {seps : List Lexeme} {allowed : Separators}
    (separates : Lexeme.Separates allowed seps) (closes : Closes ls) :
    Ends (seps ++ (Mark.lexemes marks ++ ls)) := by
  obtain ⟨behind, rfl⟩ := closes
  exact block.ends separates behind

/-- Lists and an assignment differ behind their first piece, which words alone precede. -/
theorem alike_of_marks {p q : Lexeme} {m n : List Char} (differ : m ≠ n) (ls ls' : List Lexeme) :
    Alike (p :: .mark m :: ls) (q :: .mark n :: ls') := by
  have behind : Alike (.mark m :: ls) (.mark n :: ls') :=
    Alike.not_running (fun same => differ (Lexeme.mark.inj same)) (.inl rfl) _ _
  exact behind.of_exchanges (.inr (.inr ⟨rfl, rfl⟩))

mutual

/-- Two spellings of one statement. -/
theorem OfStatement.alike {s : Statement} {marks marks' : List Mark} :
    OfStatement target op s marks → OfStatement target op s marks' →
    ∀ {ls ls' : List Lexeme}, Alike ls ls' → Ends ls → Ends ls' →
      Alike (Mark.lexemes marks ++ ls) (Mark.lexemes marks' ++ ls')
  | .node spelled listed, other, _, _, alike, ends, ends' => by
    cases other with
    | node spelled' listed' =>
      have both := spelled.alike spelled' (listed.alike listed' alike ends ends')
      simpa using both
  | .edge endpoint links listed, other, _, _, alike, ends, ends' => by
    cases other with
    | edge endpoint' links' listed' =>
      have lists := listed.alike listed' alike ends ends'
      have both := endpoint.alike endpoint' (links.alike links' lists)
      simpa using both
  | .attr same listed, other, _, _, alike, ends, ends' => by
    cases other with
    | attr same' listed' =>
      have lists := (listed.alike listed' alike ends ends').cons (.mark ['['])
      simpa using lists.keyword same same'
    | assign => exact alike_of_marks (by decide) _ _
  | .assign named valued, other, _, _, alike, _, _ => by
    cases other with
    | attr => exact alike_of_marks (by decide) _ _
    | assign named' valued' =>
      have entry := ((alike.value valued valued').cons (.mark ['='])).name named named'
      simpa using entry
  | .subgraph inner, other, _, _, alike, _, _ => by
    cases other with
    | subgraph inner' => exact inner.alike inner' alike
termination_by structural first => first

theorem OfEndpoint.alike {e : Endpoint} {marks marks' : List Mark} :
    OfEndpoint target op e marks → OfEndpoint target op e marks' →
    ∀ {ls ls' : List Lexeme}, Alike ls ls' →
      Alike (Mark.lexemes marks ++ ls) (Mark.lexemes marks' ++ ls')
  | .node spelled, other, _, _, alike => by
    cases other with
    | node spelled' => simpa using spelled.alike spelled' alike
  | .subgraph inner, other, _, _, alike => by
    cases other with
    | subgraph inner' => exact inner.alike inner' alike
termination_by structural first => first

theorem OfLinks.alike {left : Endpoint} {es : List Endpoint} {links links' : List Mark} :
    OfLinks target op left es links → OfLinks target op left es links' →
    ∀ {ls ls' : List Lexeme}, Alike ls ls' →
      Alike (Mark.lexemes links ++ ls) (Mark.lexemes links' ++ ls')
  | .nil, other, _, _, alike => by
    cases other
    exact alike
  | .cons endpoint links, other, _, _, alike => by
    cases other with
    | cons endpoint' links' =>
      have both := endpoint.alike endpoint' (links.alike links' alike)
      simpa using both.cons (.mark op)
termination_by structural first => first

theorem OfSubgraph.alike {id : Option String} {body : List Statement} {marks marks' : List Mark} :
    OfSubgraph target op id body marks → OfSubgraph target op id body marks' →
    ∀ {ls ls' : List Lexeme}, Alike ls ls' →
      Alike (Mark.lexemes marks ++ ls) (Mark.lexemes marks' ++ ls')
  | .block head block, other, _, _, alike => by
    cases other with
    | block head' block' =>
      have inside := block.alike block' (alike.cons (.mark ['}'])) ⟨_, rfl⟩ ⟨_, rfl⟩
      simpa using head.alike head' inside
termination_by structural first => first

/-- Two spellings of the statements of one block. -/
theorem OfBlock.alike {ss : List Statement} {marks marks' : List Mark} :
    OfBlock target op ss marks → OfBlock target op ss marks' →
    ∀ {ls ls' : List Lexeme}, Alike ls ls' → Closes ls → Closes ls' →
      Alike (Mark.lexemes marks ++ ls) (Mark.lexemes marks' ++ ls')
  | .nil, other, _, _, alike, _, _ => by
    cases other
    exact alike
  | .cons statement separates block, other, _, _, alike, closes, closes' => by
    cases other with
    | cons statement' separates' block' =>
      have rest := separates.alike separates' (block.alike block' alike closes closes')
        (block.solid closes) (block'.solid closes')
      have both := statement.alike statement' rest (block.endsBefore separates closes)
        (block'.endsBefore separates' closes')
      simpa using both
termination_by structural first => first

end

end Marking

/-- Two spellings of one document. -/
theorem Graph.Marked.alike {g : Graph} {target : Target} {marks marks' : List Mark}
    (first : g.Marked target marks) (second : g.Marked target marks') :
    Alike (Mark.lexemes marks) (Mark.lexemes marks') := by
  cases first with
  | document opening block =>
    cases second with
    | document opening' block' =>
      have nothing : Alike [] [] := trivial
      have close := nothing.cons (.mark ['}'])
      have inside := (block.alike block' close ⟨_, rfl⟩ ⟨_, rfl⟩).cons (.mark ['{'])
      simpa using opening.alike opening' inside

end DotText
