import DotText.Edit.Places
import DotText.Proofs.InStep.Documents

set_option autoImplicit false

/- A walk comes to the place of a statement in step with the pieces in front of it, and goes on
behind it with the pieces of the rest. -/
namespace DotText.Walk.Move

open Marking

/-- The moves over a statement of a block and over the blanks behind it. -/
def entire (target : Target) (op : List Char) (s : Statement) : List Move :=
  statement target op s ++ [skipBlanks (target.erasesStatement s) .ofStatements]

/-- Moves over marked pieces fall apart at the place of a statement behind some of them. Those in
front are in step with their pieces, and the pieces behind end the statement if what comes next
does. -/
def Around (target : Target) (op : List Char) (flag : Bool) (ms before : List Move) (s : Statement)
    (marks : List Mark) (ends : List Lexeme → Prop) : Prop :=
  ∃ front own seps back after, ms = before ++ (entire target op s ++ after) ∧
    marks = front ++ (own ++ Mark.all (target.erasesStatement s) seps ++ back) ∧
    OfStatement target op s own ∧ Lexeme.Separates .ofStatements seps ∧
    InStep flag before front true BehindStatement ∧
    ∀ tail, ends tail → BehindStatement (Mark.lexemes back ++ tail)

section Around

variable {target : Target} {op : List Char} {ms others before : List Move} {s : Statement}
  {marks more : List Mark} {ends ends' : List Lexeme → Prop} {flag middle : Bool}

/-- The start of some pieces begins as all of them do. -/
theorem BehindStatement.start {front back tail : List Lexeme}
    (whole : BehindStatement (front ++ back)) (behind : BehindStatement tail) :
    BehindStatement (front ++ tail) := by
  cases front with
  | nil => exact behind
  | cons piece front =>
    obtain ⟨_, _, same, plain, solid⟩ := whole
    cases same
    exact ⟨_, _, rfl, plain, solid⟩

theorem BehindStatement.tells {pieces : List Lexeme} (behind : BehindStatement pieces) :
    Says pieces := by
  obtain ⟨piece, others, rfl, -, solid⟩ := behind
  exact ⟨piece, List.mem_cons_self, solid⟩

theorem Around.behind {follow : List Lexeme → Prop}
    (around : Around target op middle others before s more ends)
    (first : InStep flag ms marks middle follow)
    (fits : ∀ front back, more = front ++ back → ∀ tail, BehindStatement tail →
      follow (Mark.lexemes front ++ tail)) :
    Around target op flag (ms ++ others) (ms ++ before) s (marks ++ more) ends := by
  obtain ⟨front, own, seps, back, after, split, split', spelled, separates, steps, rest⟩ := around
  refine ⟨marks ++ front, own, seps, back, after, ?_, ?_, spelled, separates, ?_, rest⟩
  · rw [split, List.append_assoc]
  · rw [split', List.append_assoc marks]
  · exact first.append steps fun tail behind _ => fits _ _ split' tail behind

theorem Around.inFrontOf (around : Around target op flag ms before s marks ends)
    (others : List Move) (more : List Mark)
    (fits : ∀ tail, ends' tail → ends (Mark.lexemes more ++ tail)) :
    Around target op flag (ms ++ others) before s (marks ++ more) ends' := by
  obtain ⟨front, own, seps, back, after, split, split', spelled, separates, steps, rest⟩ := around
  refine ⟨front, own, seps, back ++ more, after ++ others, ?_, ?_, spelled, separates, steps, ?_⟩
  · simp only [split, List.append_assoc]
  · simp only [split', List.append_assoc]
  · intro tail behind
    rw [Mark.lexemes_append, List.append_assoc]
    exact rest _ (fits tail behind)

theorem Around.fresh (around : Around target op true ms before s marks ends) (flag : Bool) :
    Around target op flag ms before s marks ends := by
  obtain ⟨front, own, seps, back, after, split, split', spelled, separates, steps, rest⟩ := around
  exact ⟨front, own, seps, back, after, split, split', spelled, separates, steps.fresh flag, rest⟩

/-- A block in braces around a place inside it. -/
theorem Around.subgraph {id : Option String} {head : List Lexeme} {body : List Statement}
    (around : Around target op true (statements target op body) before s marks
      (fun tail => ∃ others, tail = .mark ['}'] :: others))
    (spelled : BlockHead id head) :
    Around target op true
      (header id ++ mark ['{'] false :: (statements target op body ++ [mark ['}'] false]))
      (header id ++ mark ['{'] false :: before) s
      (Mark.all false (head ++ [.mark ['{']]) ++ marks ++ Mark.all false [.mark ['}']])
      (fun _ => True) := by
  have brace := InStep.single (Token.spells_mark ['{']) false .none false true (fun _ => True)
  have opening := (InStep.header spelled).append brace (fun tail _ _ => ⟨tail, rfl⟩)
  have closed : Around target op true (statements target op body ++ [mark ['}'] false]) before s
      (marks ++ Mark.all false [.mark ['}']]) (fun _ => True) :=
    around.inFrontOf _ _ fun tail _ => ⟨tail, rfl⟩
  have inside := (closed.fresh false).behind opening fun _ _ _ _ _ => trivial
  simpa [Mark.all, mark] using inside

end Around

variable {target : Target} {op : List Char}

mutual

/-- A block around any place in it. -/
theorem around_statements : ∀ {ss : List Statement} {marks : List Mark} {before : List Move}
    {s : Statement}, Place.InBlock target op ss before s → OfBlock target op ss marks →
      Around target op true (statements target op ss) before s marks
        (fun tail => ∃ others, tail = .mark ['}'] :: others)
  | _, _, _, _, @Place.InBlock.here _ _ _ ss, .cons statement separates block => by
    refine ⟨[], _, _, _, statements target op ss, ?_, rfl, statement, separates, .nil true _, ?_⟩
    · rw [statements, entire]
      simp
    · rintro tail ⟨more, rfl⟩
      exact behindStatement_of_block block more
  | _, _, _, _, .inside place, .cons statement separates block => by
    rw [statements, List.append_assoc]
    exact (around_statement place statement).inFrontOf _ _ fun _ _ => trivial
  | _, _, _, _, .later place, .cons statement separates block => by
    have around := (around_statements place block).behind (InStep.statement statement separates)
      fun front back split tail behind => by
        have whole := behindStatement_of_block block []
        rw [split, Mark.lexemes_append, List.append_assoc] at whole
        exact whole.start behind
    simpa [statements] using around

theorem around_statement : ∀ {t : Statement} {marks : List Mark} {before : List Move}
    {s : Statement}, Place.InStatement target op t before s → OfStatement target op t marks →
      Around target op true (statement target op t) before s marks (fun _ => True)
  | _, _, _, _, .subgraph place, .subgraph (.block head block) => by
    rw [statement]
    exact (around_statements place block).subgraph head
  | _, _, _, _, .first place, .edge endpoint links lists => by
    rw [statement, chain]
    simp only [List.append_assoc]
    exact (around_endpoint place endpoint).inFrontOf _ _ fun _ _ => trivial
  | _, _, _, _, .linked place, .edge endpoint links lists => by
    rw [statement, chain, List.append_assoc]
    have around := (around_links place links).behind (InStep.endpoint endpoint)
      fun _ _ _ _ _ => trivial
    exact around.inFrontOf _ _ fun _ _ => trivial

theorem around_endpoint : ∀ {e : Endpoint} {marks : List Mark} {before : List Move}
    {s : Statement}, Place.InEndpoint target op e before s → OfEndpoint target op e marks →
      Around target op true (endpoint target op e) before s marks (fun _ => True)
  | _, _, _, _, .subgraph place, .subgraph (.block head block) => by
    rw [endpoint]
    exact (around_statements place block).subgraph head

theorem around_links : ∀ {survivor : Bool} {left : Endpoint} {es : List Endpoint}
    {marks : List Mark} {before : List Move} {s : Statement},
    Place.InLinks target op survivor left es before s → OfLinks target op left es marks →
      Around target op false (links target op survivor left es) before s marks (fun _ => True)
  | survivor, left, _, _, _, _, @Place.InLinks.next _ _ _ _ e _ _ _ place,
      .cons endpoint links => by
    have inside := (around_endpoint place endpoint).fresh false
    have around := inside.behind (InStep.operator target op survivor left e false)
      fun _ _ _ _ _ => trivial
    rw [Move.links]
    exact around.inFrontOf _ _ fun _ _ => trivial
  | survivor, left, _, _, _, _, @Place.InLinks.later _ _ _ _ e _ _ _ place,
      .cons endpoint links => by
    have first := (InStep.operator target op survivor left e false).append
      ((InStep.endpoint endpoint).fresh false) fun _ _ _ => trivial
    rw [Move.links]
    exact (around_links place links).behind first fun _ _ _ _ _ => trivial

end

/-- A document around any place in it. -/
theorem around_whole {g : Graph} {marks : List Mark} (marked : g.Marked target marks)
    {before : List Move} {s : Statement} (stands : g.Stands target before s) :
    Around target g.kind.edgeOp.toList false (whole target g) before s marks (fun _ => True) := by
  cases marked with
  | document spelled block =>
    cases stands with
    | inBody place =>
      have inside := ((around_statements place block).fresh false).behind (InStep.opening spelled)
        fun _ _ _ _ _ => trivial
      exact inside.inFrontOf _ _ fun tail _ => ⟨tail, rfl⟩

end DotText.Walk.Move
