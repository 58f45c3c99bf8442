import DotText.Edit.Marking
import DotText.Proofs.Settling

set_option autoImplicit false

/- What a walk counts: every node statement, endpoint and operator that goes, and nothing else. -/
namespace DotText

namespace Walk.Move

theorem count_attributes (erase : Bool) (attrs : List Attribute) :
    (attributes erase attrs).count .count = 0 := by
  induction attrs with
  | nil => rfl
  | cons a as ih => rw [attributes, List.count_append, ih]; rfl

theorem count_nodeRef (erase : Bool) (ref : NodeRef) : (nodeRef erase ref).count .count = 0 := by
  obtain ⟨id, port⟩ := ref
  cases port with
  | none => rfl
  | some port =>
    obtain ⟨port, compass⟩ := port
    cases compass <;> rfl

theorem count_header (id : Option String) : (header id).count .count = 0 := by
  cases id <;> rfl

theorem count_counts (erase : Bool) :
    (counts erase).count .count = if erase then 1 else 0 := by
  cases erase <;> rfl

theorem count_operator (target : Target) (op : List Char) (survivor : Bool)
    (left right : Endpoint) : (operator target op survivor left right).count .count =
      if target.erasesOp left right then 1 else 0 := by
  unfold operator
  split
  · split <;> rfl
  · rfl

theorem count_opening (g : Graph) : (opening g).count .count = 0 := by
  obtain ⟨strict, kind, id, body⟩ := g
  cases strict <;> cases id <;> rfl

theorem count_braces (id : Option String) (ms : List Move) :
    (header id ++ mark ['{'] false :: (ms ++ [mark ['}'] false])).count .count =
      ms.count .count := by
  have last : [mark ['}'] false].count .count = 0 := rfl
  have first : mark ['{'] false ≠ .count := nofun
  rw [List.count_append, count_header, List.count_cons_of_ne first, List.count_append, last,
    Nat.zero_add, Nat.add_zero]

variable (target : Target) (op : List Char)

mutual

theorem count_statement (s : Statement) :
    (statement target op s).count .count = target.countIn s := by
  cases s with
  | node ref attrs =>
    rw [statement, List.count_append, List.count_append, count_nodeRef, count_attributes,
      count_counts, Target.countIn, Nat.add_zero, Nat.zero_add]
  | edge endpoints attrs =>
    have trims : (if target.erasesLastOp endpoints then [trim] else []).count .count = 0 := by
      split <;> rfl
    rw [statement, List.count_append, List.count_append, count_attributes, trims, Target.countIn]
    exact count_chain endpoints
  | attr kind attrs =>
    have first : attrKeyword kind ≠ .count := nofun
    rw [statement, List.count_cons_of_ne first, count_attributes]
    rfl
  | subgraph id body =>
    rw [statement, count_braces, Target.countIn]
    exact count_statements body

theorem count_endpoint (e : Endpoint) :
    (endpoint target op e).count .count = target.countInEndpoint e := by
  cases e with
  | node ref =>
    rw [endpoint, List.count_append, count_nodeRef, count_counts, Target.countInEndpoint,
      Nat.zero_add]
  | subgraph id body =>
    rw [endpoint, count_braces, Target.countInEndpoint]
    exact count_statements body

theorem count_chain (endpoints : List Endpoint) :
    (chain target op endpoints).count .count =
      target.countOps endpoints + target.countInEndpoints endpoints := by
  cases endpoints with
  | nil => rfl
  | cons e es =>
    rw [chain, List.count_append, count_endpoint e, count_links _ e es, Target.countInEndpoints]
    omega

theorem count_links (survivor : Bool) (left : Endpoint) (es : List Endpoint) :
    (links target op survivor left es).count .count =
      target.countOps (left :: es) + target.countInEndpoints es := by
  cases es with
  | nil => rfl
  | cons e es =>
    rw [links, List.count_append, List.count_append, count_operator, count_endpoint e,
      count_links _ e es, Target.countOps, Target.countInEndpoints]
    omega

theorem count_statements (ss : List Statement) :
    (statements target op ss).count .count = target.countInAll ss := by
  cases ss with
  | nil => rfl
  | cons s ss =>
    have blanks : skipBlanks (target.erasesStatement s) .ofStatements ≠ .count := nofun
    rw [statements, List.count_append, count_statement s, List.count_cons_of_ne blanks,
      count_statements ss, Target.countInAll]

end

/-- The moves over a document count what the tree says is erased. -/
theorem count_whole (g : Graph) : (whole target g).count .count = g.countErased target := by
  have last : [mark ['}'] false].count .count = 0 := rfl
  rw [whole, document, List.count_append, List.count_append, count_opening, last,
    count_statements, Graph.countErased, Nat.zero_add, Nat.add_zero]

end Walk.Move

open Walk (Move)

/-- A deletion that goes through counts what the tree says is erased. -/
theorem Graph.count_of_eraseFrom {g : Graph} {target : Target} {cs : List Char} {e : Erasure}
    (erased : g.eraseFrom target cs = .ok e) : e.count = g.countErased target := by
  rw [g.eraseFrom_eq_run] at erased
  cases ran : Move.run (Move.whole target g) (.ofText cs) with
  | error m =>
    rw [ran] at erased
    cases erased
  | ok c =>
    rw [ran] at erased
    cases erased
    have counted := (Move.settles_run ran).erased
    rw [Move.count_whole] at counted
    exact counted.trans (Nat.zero_add _)

end DotText
