import DotText.Proofs.InStep.Lists

set_option autoImplicit false

/- Statements and blocks are gone over as they are spelled. A statement takes along the separator
behind it, since an entry that stands alone as a statement has gone over that separator already
when the blanks behind the statement are passed. -/
namespace DotText.Walk.Move

open Marking

/-- What comes behind a statement and the separator that belongs to it. -/
def BehindStatement (pieces : List Lexeme) : Prop :=
  ∃ piece others, pieces = piece :: others ∧ piece.goesOn = false ∧ piece.isSeparator = false

theorem BehindStatement.ends {pieces seps : List Lexeme} {allowed : Separators}
    (behind : BehindStatement pieces) (separates : Lexeme.Separates allowed seps) :
    Lexeme.Ends (seps ++ pieces) := by
  obtain ⟨piece, others, rfl, plain, -⟩ := behind
  intro first same
  cases separates <;> cases same
  · exact plain
  · rfl

theorem BehindStatement.not_mark {pieces : List Lexeme} (behind : BehindStatement pieces)
    {m : List Char} (other : (Lexeme.mark m).goesOn = true) :
    ∃ piece others, pieces = piece :: others ∧ piece ≠ .mark m ∧ piece.isSeparator = false := by
  obtain ⟨piece, others, rfl, plain, solid⟩ := behind
  refine ⟨piece, others, rfl, ?_, solid⟩
  rintro rfl
  rw [plain] at other
  cases other

variable {target : Target} {op : List Char}

theorem behindStatement_of_block {ss : List Statement} {marks : List Mark}
    (block : OfBlock target op ss marks) (others : List Lexeme) :
    BehindStatement (Mark.lexemes marks ++ .mark ['}'] :: others) := by
  obtain ⟨piece, first, plain, solid⟩ := block.head others
  obtain ⟨behind, split⟩ := List.head?_eq_some_iff.mp first
  refine ⟨piece, behind, split, plain, ?_⟩
  cases piece with
  | separator c => exact absurd rfl (solid c)
  | _ => rfl

theorem InStep.nodeRef {ref : NodeRef} {name : List Lexeme} (spelled : ref.Spelled name)
    (erase before : Bool) :
    InStep before (Move.nodeRef erase ref) (Mark.all erase name) false (fun _ => True) := by
  have colon := Token.spells_mark [':']
  cases spelled with
  | plain named => exact .single (Token.spells_ident named) erase .none false before _
  | port named named' =>
    have port := (InStep.single (Token.spells_ident named') erase .none false false
      (fun _ => True)).afterToken colon erase .none false false
    exact port.afterToken (Token.spells_ident named) erase .none false before
  | compass named named' named'' =>
    have compass := (InStep.single (Token.spells_ident named'') erase .none false false
      (fun _ => True)).afterToken colon erase .none false false
    have port := (compass.afterToken (Token.spells_ident named') erase .none false
      false).afterToken colon erase .none false false
    exact port.afterToken (Token.spells_ident named) erase .none false before

theorem InStep.header {id : Option String} {head : List Lexeme} (spelled : BlockHead id head) :
    InStep true (Move.header id) (Mark.all false head) true
      (fun tail => ∃ others, tail = .mark ['{'] :: others) := by
  cases spelled with
  | bare =>
    refine (InStep.absent (.keyword "subgraph".toList) false .none rfl .none).mono ?_
    rintro tail ⟨others, rfl⟩
    exact ⟨_, others, rfl, by simp [Token.Spells, Lexeme.isKeyword], rfl⟩
  | keyword same =>
    exact (InStep.single (Token.spells_keyword same) false .none true true _).loosen true
  | named same named =>
    have name := InStep.single (Token.spells_ident named) false .none false false
      (fun tail => ∃ others, tail = .mark ['{'] :: others)
    exact (name.afterToken (Token.spells_keyword same) false .none true true).loosen true

theorem InStep.operator (target : Target) (op : List Char) (survivor : Bool)
    (left right : Endpoint) (before : Bool) :
    InStep before (Move.operator target op survivor left right)
      [⟨.mark op, target.erasesOp left right⟩] false (fun _ => True) := by
  have spells := Token.spells_mark op
  unfold Move.operator
  split
  · next erased =>
    rw [erased]
    have counted := (InStep.single spells true .none false before (fun _ => True)).append
      (InStep.count false fun _ => True) (fun _ _ _ => trivial)
    split
    · exact counted.append (InStep.spaceApart false _) (fun _ _ _ => trivial)
    · exact counted.append (InStep.nil false _) (fun _ _ _ => trivial)
  · next stays =>
    rw [Bool.eq_false_iff.mpr stays]
    exact .single spells false .none false before _

/-- The blanks behind a statement are gone over with the separator that belongs to it. -/
theorem InStep.withSeparator {ms : List Move} {marks : List Mark} {seps : List Lexeme}
    (steps : InStep true ms marks false Lexeme.Ends)
    (separates : Lexeme.Separates .ofStatements seps) (erase : Bool) :
    InStep true (ms ++ [.skipBlanks erase .ofStatements]) (marks ++ Mark.all erase seps) true
      BehindStatement := by
  refine (steps.loosen true).append ((InStep.skipBlanks erase separates).mono ?_) ?_
  · rintro tail ⟨piece, others, rfl, -, solid⟩
    exact ⟨piece, others, rfl, solid⟩
  · intro tail behind _
    rw [Mark.lexemes_all]
    exact behind.ends separates

/-- An entry that stands alone as a statement, with the separator behind it. -/
theorem InStep.assigned {key : String} {value : Value} {k v : Lexeme} {seps : List Lexeme}
    (named : k.name? = some key) (valued : v.value? = some value)
    (separates : Lexeme.Separates .ofStatements seps) :
    InStep true
      (Move.statement target op (.attr .graph [⟨key, value⟩]) ++ [.skipBlanks false .ofStatements])
      (Mark.all false [k, .mark ['='], v] ++ Mark.all false seps) true BehindStatement := by
  have among : Lexeme.Separates .ofEntries seps := by
    cases separates with
    | none => exact .none
    | one allows =>
      refine .one ?_
      simp only [Separators.allows, Separators.ofStatements, Separators.ofEntries] at allows ⊢
      simpa using .inr (by simpa using allows)
  have blanks : InStep true [.skipBlanks false .ofStatements] [] true BehindStatement :=
    (InStep.skipBlanks false .none).mono (by
      rintro tail ⟨piece, others, rfl, -, solid⟩
      exact ⟨piece, others, rfl, solid⟩)
  have lists := (InStep.noLists false).append blanks (fun tail behind _ => by
    obtain ⟨piece, others, rfl, other, -⟩ := behind.not_mark (m := ['[']) rfl
    exact ⟨piece, others, rfl, other⟩)
  have bracket := (InStep.absent (.mark [']']) false .ofEntries rfl among).append lists
    (fun tail behind _ => behind.not_mark rfl)
  rw [List.append_nil, List.append_nil] at bracket
  have keyword := (InStep.absent (.keyword "graph".toList) false .none rfl .none).append
    (InStep.bareAssignment false (bracket.fresh false) named valued) (fun _ _ _ => ?_)
  · exact keyword
  · refine ⟨k, _, rfl, ?_, Lexeme.not_isSeparator_of_name? named⟩
    have other : k.isKeyword "graph" = false := Lexeme.isKeyword_of_name? named (by decide)
    simpa [Token.Spells] using other

/-- The moves over the inside of a block, with the braces around it. -/
theorem InStep.braces {ms : List Move} {marks : List Mark} (before : Bool)
    (steps : InStep true ms marks true (fun tail => ∃ others, tail = .mark ['}'] :: others)) :
    InStep before (mark ['{'] false :: (ms ++ [mark ['}'] false]))
      (⟨.mark ['{'], false⟩ :: (marks ++ Mark.all false [.mark ['}']])) false (fun _ => True) := by
  have close := InStep.single (Token.spells_mark ['}']) false .none false true (fun _ => True)
  have inside := steps.append close (fun _ _ _ => ⟨_, rfl⟩)
  exact (inside.fresh false).afterToken (Token.spells_mark ['{']) false .none false before

mutual

/-- A statement is gone over with the separator behind it. -/
theorem InStep.statement {s : Statement} {marks : List Mark} : OfStatement target op s marks →
    ∀ {seps : List Lexeme}, Lexeme.Separates .ofStatements seps →
      InStep true
        (Move.statement target op s ++ [.skipBlanks (target.erasesStatement s) .ofStatements])
        (marks ++ Mark.all (target.erasesStatement s) seps) true BehindStatement
  | @OfStatement.node _ _ ref _ _ _ spelled listed, seps, separates => by
    have lists := (InStep.nodeRef spelled (target.erasesNode ref) true).append
      (InStep.attributes (target.erasesNode ref) listed) (fun _ _ _ => trivial)
    have counted := lists.append (InStep.counts (target.erasesNode ref) false Lexeme.Ends)
      (fun _ ends _ => ends)
    rw [List.append_nil, ← Mark.all_append] at counted
    refine InStep.withSeparator ?_ separates _
    rw [Move.statement]
    exact counted
  | @OfStatement.edge _ _ first second others _ _ _ _ endpoint links listed, seps, separates => by
    have chain := (InStep.endpoint endpoint).append
      (InStep.links links (!target.erasesEndpoint first)) (fun _ _ _ => trivial)
    have lists := chain.append
      (InStep.attributes (target.erasesAttributes (first :: second :: others)) listed)
      (fun _ _ _ => trivial)
    refine InStep.withSeparator ?_ separates _
    rw [Move.statement, Move.chain]
    split
    · have trimmed := lists.append (InStep.trim false Lexeme.Ends) (fun _ ends _ => ends)
      rwa [List.append_nil] at trimmed
    · rwa [List.append_nil]
  | @OfStatement.attr _ _ kind _ _ _ same listed, seps, separates => by
    have lists := (InStep.attributes false (.opened listed)).afterToken
      (Token.spells_keyword same) false .none (kind == .graph) true
    refine InStep.withSeparator ?_ separates _
    rw [Move.statement]
    exact lists
  | .assign named valued, seps, separates => InStep.assigned named valued separates
  | .subgraph inner, seps, separates => by
    refine InStep.withSeparator ?_ separates _
    rw [Move.statement]
    exact (InStep.subgraph inner).mono (fun _ _ => trivial)

/-- One end of an edge is gone over. -/
theorem InStep.endpoint {e : Endpoint} {marks : List Mark} : OfEndpoint target op e marks →
    InStep true (Move.endpoint target op e) marks false (fun _ => True)
  | @OfEndpoint.node _ _ ref _ spelled => by
    have counted := (InStep.nodeRef spelled (target.erasesNode ref) true).append
      (InStep.counts (target.erasesNode ref) false fun _ => True) (fun _ _ _ => trivial)
    rw [List.append_nil] at counted
    rw [Move.endpoint]
    exact counted
  | .subgraph inner => by
    rw [Move.endpoint]
    exact InStep.subgraph inner

theorem InStep.links {left : Endpoint} {es : List Endpoint} {links : List Mark} :
    OfLinks target op left es links → ∀ survivor,
      InStep false (Move.links target op survivor left es) links false (fun _ => True)
  | .nil, survivor => by
    rw [Move.links]
    exact InStep.nil false _
  | @OfLinks.cons _ _ left right _ _ _ endpoint links, survivor => by
    have first := (InStep.operator target op survivor left right false).append
      ((InStep.endpoint endpoint).fresh false) (fun _ _ _ => trivial)
    have linked := first.append
      (InStep.links links (survivor || !target.erasesEndpoint right)) (fun _ _ _ => trivial)
    rw [Move.links]
    exact linked

/-- A block in braces is gone over with what stands in front of the braces. -/
theorem InStep.subgraph {id : Option String} {body : List Statement} {marks : List Mark} :
    OfSubgraph target op id body marks →
      InStep true (Move.header id ++
        mark ['{'] false :: (Move.statements target op body ++ [mark ['}'] false])) marks false
        (fun _ => True)
  | .block head block => by
    have braces := (InStep.header head).append (InStep.braces true (InStep.statements block))
      (fun _ _ _ => ⟨_, rfl⟩)
    simpa [Mark.all] using braces

/-- The statements of a block are gone over, and separators may be left in front of the brace. -/
theorem InStep.statements {ss : List Statement} {marks : List Mark} : OfBlock target op ss marks →
    InStep true (Move.statements target op ss) marks true
      (fun tail => ∃ others, tail = .mark ['}'] :: others)
  | .nil => by
    rw [Move.statements]
    exact InStep.trim true _
  | .cons statement separates block => by
    have steps := (InStep.statement statement separates).append (InStep.statements block) ?_
    · simpa [Move.statements] using steps
    · rintro tail ⟨others, rfl⟩ -
      exact behindStatement_of_block block others

end

end DotText.Walk.Move
