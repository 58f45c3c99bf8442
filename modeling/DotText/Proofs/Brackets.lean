import DotText.Proofs.Grammar
import DotText.Proofs.Reading.Complete

set_option autoImplicit false

/- The brackets of attribute statements. Among the pieces that spell a tree one stands behind every
keyword that opens such a statement, so no document is read where one is missing. -/
namespace DotText

namespace Lexeme

/-- Whether a piece is a keyword that opens an attribute statement. -/
def opensAttributes (piece : Lexeme) : Bool :=
  [AttrTarget.graph, .node, .edge].any (piece.isKeyword ·.keyword)

/-- Whether a bracket stands behind every keyword that opens an attribute statement. -/
def isBracketed : List Lexeme → Bool
  | [] => true
  | piece :: ls =>
    (!piece.opensAttributes || ls.head? == some (.mark ['['])) && isBracketed ls

/-- Pieces with all their brackets, whatever stands behind them. -/
def Bracketed (ls : List Lexeme) : Prop :=
  ∀ behind, isBracketed (ls ++ behind) = isBracketed behind

/-- Pieces that lack a bracket whatever stands behind them of which this holds. -/
def Unbracketed (fits : List Lexeme → Prop) (ls : List Lexeme) : Prop :=
  ∀ behind, fits behind → isBracketed (ls ++ behind) = false

theorem bracketed_nil : Bracketed [] := fun _ => rfl

theorem Bracketed.append {ls others : List Lexeme} (first : Bracketed ls)
    (second : Bracketed others) : Bracketed (ls ++ others) := by
  intro behind
  rw [List.append_assoc, first, second]

theorem Bracketed.cons {piece : Lexeme} {ls : List Lexeme} (plain : piece.opensAttributes = false)
    (bracketed : Bracketed ls) : Bracketed (piece :: ls) := by
  intro behind
  rw [List.cons_append, isBracketed, plain, bracketed]
  rfl

theorem Bracketed.mark {ls : List Lexeme} (m : List Char) (bracketed : Bracketed ls) :
    Bracketed (.mark m :: ls) :=
  bracketed.cons rfl

/-- A keyword of any kind with its bracket. -/
theorem Bracketed.keyword {piece : Lexeme} {ls : List Lexeme} (bracketed : Bracketed ls) :
    Bracketed (piece :: .mark ['['] :: ls) := by
  intro behind
  have listed := bracketed.mark ['['] behind
  rw [List.cons_append] at listed
  rw [List.cons_append, List.cons_append, isBracketed, listed, List.head?_cons, beq_self_eq_true,
    Bool.or_true, Bool.true_and]

theorem isBracketed_append_right (ls : List Lexeme) {others : List Lexeme}
    (missing : isBracketed others = false) : isBracketed (ls ++ others) = false := by
  induction ls with
  | nil => exact missing
  | cons piece ls ih => rw [List.cons_append, isBracketed, ih, Bool.and_false]

theorem Unbracketed.append_right {fits : List Lexeme → Prop} {others : List Lexeme}
    (missing : Unbracketed fits others) (ls : List Lexeme) : Unbracketed fits (ls ++ others) := by
  intro behind ends
  rw [List.append_assoc]
  exact isBracketed_append_right ls (missing behind ends)

theorem Unbracketed.append_left {fits : List Lexeme → Prop} {ls : List Lexeme}
    (missing : Unbracketed (fun _ => True) ls) (others : List Lexeme) :
    Unbracketed fits (ls ++ others) := by
  intro behind _
  rw [List.append_assoc]
  exact missing _ trivial

theorem Ends.append {ls others : List Lexeme} (first : Ends ls) (second : Ends others) :
    Ends (ls ++ others) := by
  cases ls with
  | nil => exact second
  | cons piece ls => exact fun _ same => first _ same

theorem Unbracketed.append_ends {ls others : List Lexeme} (missing : Unbracketed Ends ls)
    (ends : Ends others) : Unbracketed Ends (ls ++ others) := by
  intro behind ends'
  rw [List.append_assoc]
  exact missing _ (ends.append ends')

/-- A keyword of an attribute statement alone. -/
theorem unbracketed_keyword {piece : Lexeme} {target : AttrTarget}
    (same : piece.isKeyword target.keyword = true) : Unbracketed Ends [piece] := by
  intro behind ends
  have opens : piece.opensAttributes = true := by
    simp only [opensAttributes, List.any_cons, List.any_nil, Bool.or_false, Bool.or_eq_true]
    cases target with
    | graph => exact .inl same
    | node => exact .inr (.inl same)
    | edge => exact .inr (.inr same)
  have missing : (behind.head? == some (.mark ['['])) = false :=
    beq_eq_false_iff_ne.mpr (ends.not_mark rfl)
  rw [List.singleton_append, isBracketed, opens, missing]
  rfl

theorem opensAttributes_of_name? {piece : Lexeme} {s : String} (named : piece.name? = some s) :
    piece.opensAttributes = false := by
  rw [opensAttributes, List.any_eq_false]
  intro target _
  have word : piece.isKeyword target.keyword = false :=
    isKeyword_of_name? named (by cases target <;> decide)
  rw [word]
  exact Bool.false_ne_true

theorem opensAttributes_of_value? {piece : Lexeme} {value : Value}
    (valued : piece.value? = some value) : piece.opensAttributes = false := by
  cases piece with
  | word w =>
    obtain ⟨s, named, -⟩ := Option.map_eq_some_iff.mp valued
    exact opensAttributes_of_name? named
  | _ => rfl

theorem opensAttributes_of_isSubgraph {piece : Lexeme}
    (same : piece.isKeyword "subgraph" = true) : piece.opensAttributes = false := by
  rw [opensAttributes, List.any_eq_false]
  intro target _ same'
  have unique := isKeyword_unique (by decide) (by cases target <;> decide) same same'
  cases target <;> exact absurd unique (by decide)

theorem Separates.bracketed {allowed : Separators} {seps : List Lexeme}
    (separates : Separates allowed seps) : Bracketed seps := by
  cases separates with
  | none => exact bracketed_nil
  | one => exact bracketed_nil.cons rfl

end Lexeme

open Lexeme (Bracketed bracketed_nil)

theorem NodeRef.Spelled.bracketed {ref : NodeRef} {name : List Lexeme}
    (spelled : ref.Spelled name) : Bracketed name := by
  have nameless {n : Lexeme} {s : String} (named : n.name? = some s) :=
    Lexeme.opensAttributes_of_name? named
  cases spelled with
  | plain named => exact bracketed_nil.cons (nameless named)
  | port named named' =>
    exact ((bracketed_nil.cons (nameless named')).mark _).cons (nameless named)
  | compass named named' named'' =>
    have compass := (bracketed_nil.cons (nameless named'')).mark [':']
    exact ((compass.cons (nameless named')).mark _).cons (nameless named)

theorem Attribute.Listed.bracketed {opened : Bool} {attrs : List Attribute} {ls : List Lexeme}
    (listed : Listed opened attrs ls) : Bracketed ls := by
  induction listed with
  | done => exact bracketed_nil
  | opened _ ih | closed _ ih => exact ih.mark _
  | entry named valued separates _ ih =>
    have value := (separates.bracketed.append ih).cons (Lexeme.opensAttributes_of_value? valued)
    exact (value.mark _).cons (Lexeme.opensAttributes_of_name? named)

theorem BlockHead.bracketed {id : Option String} {head : List Lexeme}
    (spelled : BlockHead id head) : Bracketed head := by
  cases spelled with
  | bare => exact bracketed_nil
  | keyword same => exact bracketed_nil.cons (Lexeme.opensAttributes_of_isSubgraph same)
  | named same named =>
    have name := bracketed_nil.cons (Lexeme.opensAttributes_of_name? named)
    exact name.cons (Lexeme.opensAttributes_of_isSubgraph same)

section Trees

variable {op : List Char}

mutual

theorem Statement.Spelled.bracketed {s : Statement} {ls : List Lexeme} :
    s.Spelled op ls → Bracketed ls
  | .node spelled listed => spelled.bracketed.append listed.bracketed
  | .edge first links listed =>
    first.bracketed.append (links.bracketed.append listed.bracketed)
  | .attr _ listed => listed.bracketed.keyword
  | .assign named valued =>
    have value := bracketed_nil.cons (Lexeme.opensAttributes_of_value? valued)
    (value.mark _).cons (Lexeme.opensAttributes_of_name? named)
  | .subgraph inner => inner.bracketed

theorem Endpoint.Spelled.bracketed {e : Endpoint} {ls : List Lexeme} :
    e.Spelled op ls → Bracketed ls
  | .node spelled => spelled.bracketed
  | .subgraph inner => inner.bracketed

theorem Endpoint.Linked.bracketed {es : List Endpoint} {ls : List Lexeme} :
    Endpoint.Linked op es ls → Bracketed ls
  | .nil => bracketed_nil
  | .cons endpoint links => (endpoint.bracketed.append links.bracketed).mark _

theorem Endpoint.Braced.bracketed {id : Option String} {body : List Statement}
    {ls : List Lexeme} : Endpoint.Braced op id body ls → Bracketed ls
  | .block head statements =>
    head.bracketed.append ((statements.bracketed.append (bracketed_nil.mark _)).mark _)

theorem Statement.Listed.bracketed {ss : List Statement} {ls : List Lexeme} :
    Statement.Listed op ss ls → Bracketed ls
  | .nil => bracketed_nil
  | .cons statement separates statements =>
    statement.bracketed.append (separates.bracketed.append statements.bracketed)

end

end Trees

/-- The head of a document ends in front of the first brace. -/
theorem DocumentHead.dropWhile {kind : Kind} {strict : Bool} {id : Option String}
    {head : List Lexeme} (spelled : DocumentHead kind strict id head) (ls : List Lexeme) :
    (head ++ .mark ['{'] :: ls).dropWhile (· != .mark ['{']) = .mark ['{'] :: ls := by
  have word {piece : Lexeme} {keyword : String} (same : piece.isKeyword keyword = true) :
      (piece != .mark ['{']) = true := by
    cases piece <;> first | rfl | cases same
  have name {piece : Lexeme} {s : String} (named : piece.name? = some s) :
      (piece != .mark ['{']) = true := by
    cases piece <;> first | rfl | cases named
  induction spelled with
  | plain same => simp [word same]
  | named same named => simp [word same, name named]
  | strict same _ ih => simpa [word same] using ih

/-- Behind the first brace of a document no bracket is missing. -/
theorem Graph.Spelled.isBracketed {g : Graph} {kind : Kind} {strict : Bool} {id : Option String}
    {head ls : List Lexeme} (opening : DocumentHead kind strict id head)
    (spelled : g.Spelled (head ++ .mark ['{'] :: ls)) : Lexeme.isBracketed ls = true := by
  have first := opening.dropWhile ls
  generalize head ++ .mark ['{'] :: ls = pieces at spelled first
  cases spelled with
  | @document head' ls' opening' statements =>
    rw [opening'.dropWhile, List.cons.injEq] at first
    rw [← first.2, statements.bracketed]
    rfl

end DotText
