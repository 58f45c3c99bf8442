import DotText.Edit.Marking

set_option autoImplicit false

/- The pieces that stay when a target is erased spell the tree that stays. A chain falls into runs,
and the pieces of the runs, one after another, are the pieces of the chain that stay. -/
namespace DotText

namespace Target

/-- Whether the last of some runs is held together by an operator, where `linked` says whether
there is one in front of the first. -/
def endsLinked (linked : Bool) : List (List Endpoint) → Bool
  | [] => linked
  | [run] => linked || 2 ≤ run.length
  | _ :: runs => endsLinked false runs

variable (target : Target)

@[simp] theorem erasesEndpoint_prune (e : Endpoint) :
    target.erasesEndpoint (target.pruneEndpoint e) = target.erasesEndpoint e := by
  cases e <;> simp [pruneEndpoint, erasesEndpoint]

@[simp] theorem erasesOp_prune (left right : Endpoint) :
    target.erasesOp (target.pruneEndpoint left) (target.pruneEndpoint right) =
      target.erasesOp left right := by
  cases left <;> cases right <;> simp [pruneEndpoint, erasesOp, erasesEndpoint, cuts]

theorem runs_cons_erased {e : Endpoint} (erased : target.erasesEndpoint e = true)
    (es : List Endpoint) : target.runs (e :: es) = target.runs es := by
  conv => lhs; unfold runs
  rw [if_pos erased]

theorem runs_nil : target.runs [] = [] := rfl

theorem runs_singleton {e : Endpoint} (stays : target.erasesEndpoint e = false) :
    target.runs [e] = [[e]] := by
  unfold runs
  simp [stays, runs]

theorem runs_cons_cut {e next : Endpoint} {es : List Endpoint}
    (stays : target.erasesEndpoint e = false) (cut : target.erasesOp e next = true) :
    target.runs (e :: next :: es) = [e] :: target.runs (next :: es) := by
  conv => lhs; unfold runs
  cases target.runs (next :: es) <;> simp [stays, cut]

theorem runs_cons_linked {e next : Endpoint} {es run : List Endpoint}
    {others : List (List Endpoint)} (stays : target.erasesEndpoint e = false)
    (linked : target.erasesOp e next = false) (split : target.runs (next :: es) = run :: others) :
    target.runs (e :: next :: es) = (e :: run) :: others := by
  conv => lhs; unfold runs
  simp [stays, linked, split]

/-- The endpoint that stays begins the first run. -/
theorem runs_head {e : Endpoint} (stays : target.erasesEndpoint e = false) (es : List Endpoint) :
    ∃ run others, target.runs (e :: es) = (e :: run) :: others := by
  induction es generalizing e with
  | nil => exact ⟨[], [], target.runs_singleton stays⟩
  | cons next es ih =>
    cases cut : target.erasesOp e next with
    | true => exact ⟨[], _, target.runs_cons_cut stays cut⟩
    | false =>
      have staysNext : target.erasesEndpoint next = false := by
        simp only [erasesOp, Bool.or_eq_false_iff] at cut
        exact cut.1.2
      obtain ⟨run, others, split⟩ := ih staysNext
      exact ⟨next :: run, others, target.runs_cons_linked stays cut split⟩

theorem stays_of_linked {left right : Endpoint} (linked : target.erasesOp left right = false) :
    target.erasesEndpoint left = false ∧ target.erasesEndpoint right = false := by
  simp only [erasesOp, Bool.or_eq_false_iff] at linked
  exact linked.1

/-- A chain leaves a link exactly where its last run has one. -/
theorem leavesLink_eq_endsLinked (e : Endpoint) (es : List Endpoint) (linked : Bool) :
    target.leavesLink linked (e :: es) =
      if target.erasesEndpoint e && !(target.runs es).isEmpty then
        endsLinked false (target.runs es)
      else endsLinked linked (target.runs (e :: es)) := by
  induction es generalizing e linked with
  | nil =>
    cases erased : target.erasesEndpoint e
    · simp [leavesLink, target.runs_singleton erased, endsLinked]
    · simp [leavesLink, target.runs_cons_erased erased, runs_nil, endsLinked]
  | cons next es ih =>
    rw [leavesLink, ih]
    cases erasedNext : target.erasesEndpoint next with
    | true =>
      have cut : target.erasesOp e next = true := by simp [erasesOp, erasedNext]
      rw [target.runs_cons_erased erasedNext]
      cases erased : target.erasesEndpoint e with
      | true =>
        rw [target.runs_cons_erased erased, target.runs_cons_erased erasedNext]
        cases target.runs es <;> simp
      | false =>
        rw [target.runs_cons_cut erased cut, target.runs_cons_erased erasedNext]
        cases target.runs es <;> simp [endsLinked]
    | false =>
      obtain ⟨run, others, split⟩ := target.runs_head erasedNext es
      cases cut : target.erasesOp e next with
      | true =>
        cases erased : target.erasesEndpoint e with
        | true => simp [split]
        | false =>
          rw [target.runs_cons_cut erased cut, split]
          simp [endsLinked]
      | false =>
        have erased := (target.stays_of_linked cut).1
        rw [target.runs_cons_linked erased cut split, split]
        cases others <;> simp [erased, endsLinked]

/-- A chain that loses no operator keeps the link of its last one. -/
theorem leavesLink_of_not_erasesSomeOp {left right : Endpoint} {es : List Endpoint}
    (stays : target.erasesSomeOp (left :: right :: es) = false) (linked : Bool) :
    target.leavesLink linked (left :: right :: es) = true := by
  induction es generalizing left right linked with
  | nil =>
    have kept : target.erasesOp left right = false := by simpa [erasesSomeOp] using stays
    simp [leavesLink, kept, (target.stays_of_linked kept).2]
  | cons next es ih =>
    rw [erasesSomeOp, Bool.or_eq_false_iff] at stays
    rw [leavesLink]
    exact ih stays.2 _

/-- The attributes of a chain go exactly where its last run has no link. -/
theorem erasesAttributes_eq (left right : Endpoint) (es : List Endpoint) :
    target.erasesAttributes (left :: right :: es) =
      !endsLinked false (target.runs (left :: right :: es)) := by
  have links := target.leavesLink_eq_endsLinked left (right :: es) false
  have same : target.leavesLink false (left :: right :: es) =
      endsLinked false (target.runs (left :: right :: es)) := by
    rw [links]
    cases erased : target.erasesEndpoint left with
    | true =>
      rw [target.runs_cons_erased erased]
      simp
    | false => simp
  rw [erasesAttributes, ← same]
  cases some : target.erasesSomeOp (left :: right :: es) with
  | true => simp
  | false => simp [target.leavesLink_of_not_erasesSomeOp some]

theorem erasesSomeOp_prune (endpoints : List Endpoint) :
    target.erasesSomeOp (target.pruneEndpoints endpoints) = target.erasesSomeOp endpoints := by
  induction endpoints with
  | nil => rfl
  | cons left es ih =>
    cases es with
    | nil => rfl
    | cons right es =>
      simp only [pruneEndpoints, erasesSomeOp, erasesOp_prune] at ih ⊢
      rw [ih]

theorem leavesLink_prune (endpoints : List Endpoint) (linked : Bool) :
    target.leavesLink linked (target.pruneEndpoints endpoints) =
      target.leavesLink linked endpoints := by
  induction endpoints generalizing linked with
  | nil => rfl
  | cons left es ih =>
    cases es with
    | nil => rfl
    | cons right es =>
      simp only [pruneEndpoints, leavesLink, erasesOp_prune, erasesEndpoint_prune] at ih ⊢
      rw [ih]

theorem erasesAttributes_prune (endpoints : List Endpoint) :
    target.erasesAttributes (target.pruneEndpoints endpoints) =
      target.erasesAttributes endpoints := by
  rw [erasesAttributes, erasesAttributes, erasesSomeOp_prune, leavesLink_prune]

/-- Where no run is left, every endpoint went. -/
theorem all_of_runs_eq_nil {endpoints : List Endpoint} (none : target.runs endpoints = []) :
    endpoints.all target.erasesEndpoint = true := by
  induction endpoints with
  | nil => rfl
  | cons e es ih =>
    cases erased : target.erasesEndpoint e with
    | true =>
      rw [target.runs_cons_erased erased] at none
      simp [erased, ih none]
    | false =>
      obtain ⟨run, others, split⟩ := target.runs_head erased es
      rw [split] at none
      cases none

theorem all_erased_prune (endpoints : List Endpoint) :
    (target.pruneEndpoints endpoints).all target.erasesEndpoint =
      endpoints.all target.erasesEndpoint := by
  induction endpoints with
  | nil => rfl
  | cons e es ih => simp [pruneEndpoints, ih]

end Target

namespace Marking

/-- Pieces that spell a run: its endpoints with the operators between them. -/
inductive OfRun (op : List Char) : List Endpoint → List Lexeme → Prop where
  | run {e : Endpoint} {es : List Endpoint} {start links : List Mark} :
      OfEndpoint .nothing op e start → OfLinks .nothing op e es links →
      OfRun op (e :: es) (Mark.lexemes start ++ Mark.lexemes links)

/-- Pieces that spell some runs one after another. -/
inductive OfRuns (op : List Char) : List (List Endpoint) → List Lexeme → Prop where
  | nil : OfRuns op [] []
  | cons {run : List Endpoint} {runs : List (List Endpoint)} {pieces others : List Lexeme} :
      OfRun op run pieces → OfRuns op runs others → OfRuns op (run :: runs) (pieces ++ others)

/-- Pieces that spell the statements of a block from which nothing goes. -/
def Spells (op : List Char) (ss : List Statement) (pieces : List Lexeme) : Prop :=
  ∃ marks, OfBlock .nothing op ss marks ∧ Mark.lexemes marks = pieces

variable {op : List Char}

theorem Spells.append {ss others : List Statement} {pieces behind : List Lexeme}
    (first : Spells op ss pieces) (second : Spells op others behind) :
    Spells op (ss ++ others) (pieces ++ behind) := by
  obtain ⟨marks, block, rfl⟩ := first
  induction ss generalizing marks with
  | nil =>
    cases block
    exact second
  | cons s ss ih =>
    cases block with
    | @cons _ _ start rest seps statement separates block =>
      obtain ⟨joined, whole, split⟩ := ih rest block
      exact ⟨_, .cons statement separates whole, by simp [split]⟩

/-- One statement, with the semicolon that may follow it. -/
theorem Spells.single {s : Statement} {marks : List Mark} {seps : List Lexeme}
    (statement : OfStatement .nothing op s marks)
    (separates : Lexeme.Separates .ofStatements seps) :
    Spells op [s] (Mark.lexemes marks ++ seps) :=
  ⟨_, .cons statement separates .nil, by simp⟩

/-- A run by itself is the statement it is taken for. -/
theorem OfRun.spells {run : List Endpoint} {pieces lists seps : List Lexeme}
    {attrs : List Attribute} (marked : OfRun op run pieces)
    (listed : if 2 ≤ run.length then Attribute.Listed false attrs lists else lists = [])
    (separates : Lexeme.Separates .ofStatements seps) :
    Spells op [Target.ofRun attrs run] (pieces ++ lists ++ seps) := by
  cases marked with
  | @run e es start links endpoint linked =>
    cases es with
    | nil =>
      have none : lists = [] := by simpa using listed
      subst none
      cases linked
      cases endpoint with
      | node spelled => simpa [Target.ofRun] using Spells.single (.node spelled .done) separates
      | subgraph inner => simpa [Target.ofRun] using Spells.single (.subgraph inner) separates
    | cons second es =>
      have chain : Target.ofRun attrs (e :: second :: es) = .edge (e :: second :: es) attrs := by
        cases e <;> rfl
      rw [if_pos (by simp)] at listed
      rw [chain]
      simpa using Spells.single (.edge endpoint linked listed) separates

/-- Runs are spelled as statements, of which the last takes the lists and the semicolon of the
chain. -/
theorem OfRuns.spells {runs : List (List Endpoint)} {pieces lists seps : List Lexeme}
    {attrs : List Attribute} (marked : OfRuns op runs pieces)
    (listed : if Target.endsLinked false runs then Attribute.Listed false attrs lists else lists = [])
    (separates : Lexeme.Separates .ofStatements seps) (left : runs = [] → seps = []) :
    Spells op (Target.ofRuns attrs runs) (pieces ++ lists ++ seps) := by
  induction marked with
  | nil =>
    have none : lists = [] := by simpa [Target.endsLinked] using listed
    rw [none, left rfl]
    exact ⟨[], .nil, rfl⟩
  | @cons run runs first others marked rest ih =>
    cases runs with
    | nil =>
      cases rest
      rw [List.append_nil]
      exact marked.spells (by simpa [Target.endsLinked] using listed) separates
    | cons next runs =>
      have start : Spells op [Target.ofRun [] run] (first ++ [] ++ []) :=
        marked.spells (by split <;> first | exact .done | rfl) .none
      have behind := ih listed (by simp)
      simpa [Target.ofRuns] using start.append behind

variable {target : Target}

/-- The operator in front of the first of some endpoints, if it stays. -/
def opPiece (target : Target) (op : List Char) (left : Endpoint) : List Endpoint → List Lexeme
  | [] => []
  | next :: _ => if target.erasesOp left next then [] else [.mark op]

/-- An endpoint and the runs behind it make up the runs from it on. -/
theorem runs_of_endpoint {e : Endpoint} {es : List Endpoint} {marks links : List Mark}
    (erased : target.erasesEndpoint e = true → Mark.survivors marks = [])
    (stays : target.erasesEndpoint e = false → ∃ kept,
      OfEndpoint .nothing op (target.pruneEndpoint e) kept ∧
        Mark.lexemes kept = Mark.survivors marks)
    {pieces : List Lexeme} (runs : OfRuns op (target.runs (target.pruneEndpoints es)) pieces)
    (behind : Mark.survivors links = opPiece target op e es ++ pieces) :
    OfRuns op (target.runs (target.pruneEndpoints (e :: es)))
      (Mark.survivors marks ++ Mark.survivors links) := by
  rw [Target.pruneEndpoints]
  cases gone : target.erasesEndpoint e with
  | true =>
    rw [target.runs_cons_erased (by simpa using gone), erased gone, behind]
    cases es with
    | nil => simpa [opPiece] using runs
    | cons next es => simpa [opPiece, Target.erasesOp, gone] using runs
  | false =>
    obtain ⟨kept, endpoint, split⟩ := stays gone
    rw [← split, behind]
    cases es with
    | nil =>
      cases runs
      rw [Target.pruneEndpoints, target.runs_singleton (by simpa using gone)]
      simpa [opPiece] using OfRuns.cons (.run endpoint .nil) .nil
    | cons next es =>
      rw [Target.pruneEndpoints] at runs ⊢
      cases cut : target.erasesOp e next with
      | true =>
        rw [target.runs_cons_cut (by simpa using gone) (by simpa using cut)]
        simpa [opPiece, cut] using OfRuns.cons (.run endpoint .nil) runs
      | false =>
        have staysNext := (target.stays_of_linked cut).2
        obtain ⟨run, others, head⟩ := target.runs_head (e := target.pruneEndpoint next)
          (by simpa using staysNext) (target.pruneEndpoints es)
        rw [target.runs_cons_linked (by simpa using gone) (by simpa using cut) head]
        rw [head] at runs
        cases runs with
        | cons marked rest =>
          cases marked with
          | run first links =>
            have joined := OfRuns.cons (.run endpoint (.cons first links)) rest
            simpa [opPiece, cut] using joined

theorem separates_survivors {allowed : Separators} {seps : List Lexeme}
    (separates : Lexeme.Separates allowed seps) (erased : Bool) :
    Lexeme.Separates allowed (Mark.survivors (Mark.all erased seps)) := by
  cases erased
  · simpa using separates
  · simpa using Lexeme.Separates.none

mutual

theorem OfStatement.pruned {s : Statement} {marks : List Mark} :
    OfStatement target op s marks → ∀ {seps : List Lexeme},
      Lexeme.Separates .ofStatements seps →
      Spells op (target.prune s)
        (Mark.survivors (marks ++ Mark.all (target.erasesStatement s) seps))
  | @OfStatement.node _ _ ref _ _ _ spelled listed, seps, separates => by
    rw [Target.prune, Target.erasesStatement]
    cases erased : target.erasesNode ref with
    | true => exact ⟨[], .nil, by simp⟩
    | false => simpa using Spells.single (.node spelled listed) separates
  | @OfStatement.edge _ _ first second others _ _ _ _ endpoint links listed, seps, separates => by
    obtain ⟨pieces, runs, behind⟩ := links.pruned
    have chain := runs_of_endpoint endpoint.pruned.1 endpoint.pruned.2 runs behind
    have attributes := target.erasesAttributes_eq (target.pruneEndpoint first)
      (target.pruneEndpoint second) (target.pruneEndpoints others)
    have same := target.erasesAttributes_prune (first :: second :: others)
    simp only [Target.pruneEndpoints] at same
    rw [same] at attributes
    rw [Target.prune, Target.erasesStatement, Mark.survivors_append, Mark.survivors_append,
      Mark.survivors_append]
    refine chain.spells ?_ (separates_survivors separates _) ?_
    · rw [Target.pruneEndpoints, Target.pruneEndpoints, attributes]
      cases Target.endsLinked false (target.runs (target.pruneEndpoint first ::
        target.pruneEndpoint second :: target.pruneEndpoints others))
      · simp
      · simpa using listed
    · intro none
      have all := target.all_of_runs_eq_nil none
      rw [target.all_erased_prune] at all
      rw [all]
      simp
  | .attr same listed, seps, separates => by
    simpa [Target.prune, Target.erasesStatement] using Spells.single (.attr same listed) separates
  | .assign named valued, seps, separates => by
    simpa [Target.prune, Target.erasesStatement] using
      Spells.single (.assign named valued) separates
  | .subgraph inner, seps, separates => by
    obtain ⟨kept, subgraph, split⟩ := inner.pruned
    simpa [Target.prune, Target.erasesStatement, split] using
      Spells.single (.subgraph subgraph) separates

theorem OfEndpoint.pruned {e : Endpoint} {marks : List Mark} : OfEndpoint target op e marks →
    (target.erasesEndpoint e = true → Mark.survivors marks = []) ∧
      (target.erasesEndpoint e = false → ∃ kept,
        OfEndpoint .nothing op (target.pruneEndpoint e) kept ∧
          Mark.lexemes kept = Mark.survivors marks)
  | .node spelled => by
    refine ⟨fun erased => ?_, fun stays => ⟨_, .node spelled, ?_⟩⟩
    · simp only [Target.erasesEndpoint] at erased
      simp [erased]
    · simp only [Target.erasesEndpoint] at stays
      simp [stays]
  | .subgraph inner => by
    refine ⟨fun erased => Bool.noConfusion erased, fun _ => ?_⟩
    obtain ⟨kept, subgraph, split⟩ := inner.pruned
    exact ⟨kept, .subgraph subgraph, split⟩

theorem OfLinks.pruned {left : Endpoint} {es : List Endpoint} {links : List Mark} :
    OfLinks target op left es links →
      ∃ pieces, OfRuns op (target.runs (target.pruneEndpoints es)) pieces ∧
        Mark.survivors links = opPiece target op left es ++ pieces
  | .nil => ⟨[], .nil, rfl⟩
  | .cons endpoint links => by
    obtain ⟨pieces, runs, behind⟩ := links.pruned
    refine ⟨_, runs_of_endpoint endpoint.pruned.1 endpoint.pruned.2 runs behind, ?_⟩
    simp [opPiece]

theorem OfSubgraph.pruned {id : Option String} {body : List Statement} {marks : List Mark} :
    OfSubgraph target op id body marks → ∃ kept,
      OfSubgraph .nothing op id (target.pruneAll body) kept ∧
        Mark.lexemes kept = Mark.survivors marks
  | .block head block => by
    obtain ⟨kept, pruned, split⟩ := block.pruned
    exact ⟨_, .block head pruned, by simp [split]⟩

/-- The pieces of a block that stay spell what is left of it. -/
theorem OfBlock.pruned {ss : List Statement} {marks : List Mark} :
    OfBlock target op ss marks → Spells op (target.pruneAll ss) (Mark.survivors marks)
  | .nil => ⟨[], .nil, rfl⟩
  | .cons statement separates block => by
    rw [Target.pruneAll, Mark.survivors_append]
    exact (statement.pruned separates).append block.pruned

end

end Marking

/-- The pieces of a document that stay spell what is left of it. -/
theorem Graph.Marked.pruned {g : Graph} {target : Target} {marks : List Mark}
    (marked : g.Marked target marks) :
    ∃ kept, (g.prune target).Marked .nothing kept ∧ Mark.lexemes kept = Mark.survivors marks := by
  cases marked with
  | document opening block =>
    obtain ⟨kept, pruned, split⟩ := block.pruned
    exact ⟨_, .document (g := g.prune target) opening pruned, by simp [split]⟩

end DotText
