import DotText.Edit.InPlace
import DotText.Lexeme
import DotText.Reader

set_option autoImplicit false

/- A walk as the list of its moves. The tree and the target fix the moves; what a move does is up to
the text. -/
namespace DotText

namespace Walk

/-- A relation that each bracket keeps is kept over all the lists with nothing in them. -/
theorem emptyLists_induction {erase : Bool} {rel : Cursor → Cursor → Prop}
    (refl : ∀ c, rel c c) (trans : ∀ {c c' c''}, rel c c' → rel c' c'' → rel c c'')
    (mark : ∀ {text c c'}, Walk.mark text erase c = .ok c' → rel c c')
    {c c' : Cursor} (ran : emptyLists erase c = .ok c') : rel c c' := by
  induction size : c.rest.length using Nat.strongRecOn generalizing c with
  | ind n ih =>
    rw [emptyLists] at ran
    split at ran
    · obtain ⟨c₁, opens, rest⟩ := bind_eq_ok.mp ran
      obtain ⟨c₂, closes, rest⟩ := bind_eq_ok.mp rest
      have both := trans (mark opens) (mark closes)
      split at rest
      · next shorter => exact trans both (ih _ (size ▸ shorter) rest rfl)
      · cases rest
        exact both
    · cases ran
      exact refl _

/-- A move of a walk. -/
inductive Move where
  | skip (token : Token) (erase : Bool) (allowed : Separators) (isOptional : Bool)
  | emptyLists (erase : Bool)
  | skipBlanks (erase : Bool) (allowed : Separators)
  | spaceApart
  | count
  | trim
  deriving DecidableEq

namespace Move

/-- What a move does. -/
def apply : Move → Walk
  | skip token erase allowed isOptional => Walk.skip token erase allowed isOptional
  | emptyLists erase => Walk.emptyLists erase
  | skipBlanks erase allowed => fun c => pure (c.skipBlanks erase allowed)
  | spaceApart => fun c => pure (Walk.spaceApart c)
  | count => fun c => pure c.countErased
  | trim => fun c => pure c.trim

/-- What some moves do, one after another. -/
def run : List Move → Walk
  | [], c => pure c
  | m :: ms, c => do run ms (← m.apply c)

@[simp] theorem run_nil (c : Cursor) : run [] c = pure c := rfl

@[simp] theorem run_cons (m : Move) (ms : List Move) (c : Cursor) :
    run (m :: ms) c = m.apply c >>= fun c' => run ms c' := rfl

theorem run_append (ms others : List Move) (c : Cursor) :
    run (ms ++ others) c = run ms c >>= fun c' => run others c' := by
  induction ms generalizing c with
  | nil => rfl
  | cons m ms ih => simp only [List.cons_append, run_cons, bind_assoc, ih]

theorem run_append_eq_ok {ms others : List Move} {c c' : Cursor} :
    run (ms ++ others) c = .ok c' ↔ ∃ next, run ms c = .ok next ∧ run others next = .ok c' := by
  rw [run_append, bind_eq_ok]

/-- Whether a condition holds of every move and the place it is made at. -/
def allAlong (p : Move → Cursor → Bool) : List Move → Cursor → Bool
  | [], _ => true
  | m :: ms, c =>
    p m c &&
      match m.apply c with
      | .ok c' => allAlong p ms c'
      | .error _ => true

theorem allAlong_append (p : Move → Cursor → Bool) {ms others : List Move} {c c' : Cursor}
    (first : run ms c = .ok c') :
    allAlong p (ms ++ others) c = (allAlong p ms c && allAlong p others c') := by
  induction ms generalizing c with
  | nil =>
    cases first
    rfl
  | cons m ms ih =>
    obtain ⟨next, applied, rest⟩ := bind_eq_ok.mp first
    rw [List.cons_append, allAlong, allAlong, applied]
    simp only [ih rest, Bool.and_assoc]

/-- Where a condition does not hold all along, there is a first move that it does not hold of. -/
theorem exists_of_allAlong {p : Move → Cursor → Bool} {ms : List Move} {c : Cursor}
    (fails : allAlong p ms c = false) :
    ∃ before m after c', ms = before ++ m :: after ∧ run before c = .ok c' ∧ p m c' = false := by
  induction ms generalizing c with
  | nil => cases fails
  | cons m ms ih =>
    rw [allAlong, Bool.and_eq_false_iff] at fails
    rcases fails with here | later
    · exact ⟨[], m, ms, c, rfl, rfl, here⟩
    · cases applied : m.apply c with
      | error => simp [applied] at later
      | ok next =>
        rw [applied] at later
        obtain ⟨before, m', after, c', split, ran, here⟩ := ih later
        refine ⟨m :: before, m', after, c', by rw [split]; rfl, ?_, here⟩
        rw [run_cons, applied]
        exact ran

/-- Counting an element, if it is erased. -/
def counts (erase : Bool) : List Move :=
  if erase then [count] else []

def ident (name : String) (erase : Bool) : Move :=
  skip (.ident name.toList) erase .none false

def mark (text : List Char) (erase : Bool) : Move :=
  skip (.mark text) erase .none false

def optional (token : Token) (erase : Bool) : Move :=
  skip token erase .none true

/-- The moves over an entry of a list, with the brackets next to it. -/
def entry (erase : Bool) (a : Attribute) : List Move :=
  [emptyLists erase, optional (.mark ['[']) erase,
    skip (.ident a.key.toList) erase .ofEntries false, mark ['='] erase,
    skip (valueToken a.value) erase .none false, skip (.mark [']']) erase .ofEntries true]

/-- The moves over lists that hold these attributes between them. -/
def attributes (erase : Bool) : List Attribute → List Move
  | [] => [emptyLists erase]
  | a :: as => entry erase a ++ attributes erase as

def portPart (erase : Bool) : Option String → List Move
  | none => []
  | some name => [mark [':'] erase, ident name erase]

/-- The moves over a mention of a node. -/
def nodeRef (erase : Bool) (ref : NodeRef) : List Move :=
  ident ref.id erase ::
    match ref.port with
    | none => []
    | some port => portPart erase (some port.id) ++ portPart erase port.compass

/-- The moves over what stands in front of the brace of a subgraph. -/
def header (id : Option String) : List Move :=
  optional (.keyword "subgraph".toList) false ::
    match id with
    | none => []
    | some name => [ident name false]

/-- The moves over the operator between two neighbours. -/
def operator (target : Target) (op : List Char) (survivor : Bool) (left right : Endpoint) :
    List Move :=
  if target.erasesOp left right then
    [mark op true, count] ++
      if survivor && !target.erasesEndpoint right then [spaceApart] else []
  else [mark op false]

def attrKeyword (target : AttrTarget) : Move :=
  skip (.keyword target.keyword.toList) false .none (target == .graph)

mutual

/-- The moves over a statement. -/
def statement (target : Target) (op : List Char) : Statement → List Move
  | .node ref attrs =>
    let erase := target.erasesNode ref
    nodeRef erase ref ++ attributes erase attrs ++ counts erase
  | .edge endpoints attrs =>
    chain target op endpoints ++ attributes (target.erasesAttributes endpoints) attrs ++
      if target.erasesLastOp endpoints then [trim] else []
  | .attr kind attrs => attrKeyword kind :: attributes false attrs
  | .subgraph id body =>
    header id ++ mark ['{'] false :: (statements target op body ++ [mark ['}'] false])

/-- The moves over one end of an edge. -/
def endpoint (target : Target) (op : List Char) : Endpoint → List Move
  | .node ref =>
    let erase := target.erasesNode ref
    nodeRef erase ref ++ counts erase
  | .subgraph id body =>
    header id ++ mark ['{'] false :: (statements target op body ++ [mark ['}'] false])

/-- The moves over the endpoints of a chain and the operators between them. -/
def chain (target : Target) (op : List Char) : List Endpoint → List Move
  | [] => []
  | e :: es => endpoint target op e ++ links target op (!target.erasesEndpoint e) e es

/-- The moves over the endpoints after `left`, each with the operator in front of it. -/
def links (target : Target) (op : List Char) (survivor : Bool) (left : Endpoint) :
    List Endpoint → List Move
  | [] => []
  | e :: es =>
    operator target op survivor left e ++ endpoint target op e ++
      links target op (survivor || !target.erasesEndpoint e) e es

/-- The moves over the statements of a block. -/
def statements (target : Target) (op : List Char) : List Statement → List Move
  | [] => [trim]
  | s :: ss =>
    statement target op s ++
      skipBlanks (target.erasesStatement s) .ofStatements :: statements target op ss

end

/-- The moves over what stands in front of the statements of a document. -/
def opening (g : Graph) : List Move :=
  (if g.strict then [skip (.keyword "strict".toList) false .none false] else []) ++
    skip (.keyword g.kind.keyword.toList) false .none false ::
      (match g.id with
        | none => []
        | some id => [ident id false]) ++
    [mark ['{'] false]

/-- The moves over a document up to its last brace. -/
def document (target : Target) (g : Graph) : List Move :=
  opening g ++ statements target g.kind.edgeOp.toList g.body

/-- The moves over a document and its last brace. -/
def whole (target : Target) (g : Graph) : List Move :=
  document target g ++ [mark ['}'] false]

end Move

open Move

theorem entry_eq_run (erase : Bool) (a : Attribute) (c : Cursor) :
    entry erase a c = run (Move.entry erase a) c := by
  simp [entry, Move.entry, apply, Move.optional, optionalToken, entryToken, Move.mark, mark, token]

theorem attributes_eq_run (erase : Bool) (attrs : List Attribute) (c : Cursor) :
    attributes erase attrs c = run (Move.attributes erase attrs) c := by
  induction attrs generalizing c with
  | nil => simp [attributes, Move.attributes, apply]
  | cons a as ih =>
    rw [attributes, Move.attributes, run_append, entry_eq_run]
    exact congrArg _ (funext ih)

theorem portPart_eq_run (erase : Bool) (part : Option String) (c : Cursor) :
    portPart erase part c = run (Move.portPart erase part) c := by
  cases part with
  | none => rfl
  | some name => simp [portPart, Move.portPart, apply, Move.mark, Move.ident, mark, ident, token]

theorem nodeRef_eq_run (erase : Bool) (ref : NodeRef) (c : Cursor) :
    nodeRef erase ref c = run (Move.nodeRef erase ref) c := by
  obtain ⟨id, port⟩ := ref
  cases port with
  | none => simp [nodeRef, Move.nodeRef, apply, Move.ident, ident, token]
  | some port =>
    simp [nodeRef, Move.nodeRef, apply, Move.ident, ident, token, run_append, portPart_eq_run]

theorem header_eq_run (id : Option String) (c : Cursor) :
    header id c = run (Move.header id) c := by
  cases id <;>
    simp [header, Move.header, apply, Move.optional, optionalToken, Move.ident, ident, token]

theorem operator_eq_run (target : Target) (op : List Char) (survivor : Bool)
    (left right : Endpoint) (c : Cursor) :
    operator target op survivor left right c =
      run (Move.operator target op survivor left right) c := by
  unfold operator Move.operator
  split
  · split <;> simp [apply, Move.mark, mark, token]
  · simp [apply, Move.mark, mark, token]

theorem attrKeyword_eq_run (target : AttrTarget) (c : Cursor) :
    attrKeyword target c = (Move.attrKeyword target).apply c := by
  cases target <;> rfl

theorem run_counts (erase : Bool) (c : Cursor) : run (counts erase) c = pure (Walk.count erase c) := by
  cases erase <;> rfl

mutual

theorem statement_eq_run (target : Target) (op : List Char) (s : Statement) (c : Cursor) :
    statement target op s c = run (Move.statement target op s) c := by
  cases s with
  | node ref attrs =>
    simp [statement, Move.statement, run_append, nodeRef_eq_run, attributes_eq_run, run_counts]
  | edge endpoints attrs =>
    unfold statement Move.statement
    split <;> simp [run_append, chain_eq_run target op endpoints, attributes_eq_run, apply]
  | attr kind attrs =>
    simp [statement, Move.statement, attrKeyword_eq_run, attributes_eq_run]
  | subgraph id body =>
    simp [statement, Move.statement, run_append, header_eq_run, statements_eq_run target op body,
      Move.mark, mark, token, apply]

theorem endpoint_eq_run (target : Target) (op : List Char) (e : Endpoint) (c : Cursor) :
    endpoint target op e c = run (Move.endpoint target op e) c := by
  cases e with
  | node ref => simp [endpoint, Move.endpoint, run_append, nodeRef_eq_run, run_counts]
  | subgraph id body =>
    simp [endpoint, Move.endpoint, run_append, header_eq_run, statements_eq_run target op body,
      Move.mark, mark, token, apply]

theorem chain_eq_run (target : Target) (op : List Char) (endpoints : List Endpoint) (c : Cursor) :
    chain target op endpoints c = run (Move.chain target op endpoints) c := by
  cases endpoints with
  | nil => rfl
  | cons e es =>
    simp [chain, Move.chain, run_append, endpoint_eq_run target op e, links_eq_run target op _ _ es]

theorem links_eq_run (target : Target) (op : List Char) (survivor : Bool) (left : Endpoint)
    (es : List Endpoint) (c : Cursor) :
    links target op survivor left es c = run (Move.links target op survivor left es) c := by
  cases es with
  | nil => rfl
  | cons e es =>
    simp [links, Move.links, run_append, operator_eq_run, endpoint_eq_run target op e,
      links_eq_run target op _ _ es]

theorem statements_eq_run (target : Target) (op : List Char) (ss : List Statement) (c : Cursor) :
    statements target op ss c = run (Move.statements target op ss) c := by
  cases ss with
  | nil => rfl
  | cons s ss =>
    simp [statements, Move.statements, run_append, statement_eq_run target op s,
      statements_eq_run target op ss, apply]

end

theorem opening_eq_run (g : Graph) (c : Cursor) : opening g c = run (Move.opening g) c := by
  obtain ⟨strict, kind, id, body⟩ := g
  cases strict <;> cases id <;>
    simp [opening, Move.opening, keyword, ident, mark, token, Move.ident, Move.mark, apply]

/-- A walk over a document is the run of its moves. -/
theorem document_eq_run (target : Target) (g : Graph) (c : Cursor) :
    document target g c = run (Move.document target g) c := by
  simp [document, Move.document, run_append, opening_eq_run, statements_eq_run]

end Walk

/-- To erase is to make the moves over the whole document. -/
theorem Graph.eraseFrom_eq_run (g : Graph) (target : Target) (cs : List Char) :
    g.eraseFrom target cs =
      (Walk.Move.run (Walk.Move.whole target g) (.ofText cs)).map fun c => ⟨c.text, c.erased⟩ := by
  rw [Graph.eraseFrom, Walk.document_eq_run, Walk.Move.whole, Walk.Move.run_append]
  cases Walk.Move.run (Walk.Move.document target g) (.ofText cs) with
  | error failure => rfl
  | ok c =>
    have last : Walk.mark ['}'] false c = (Walk.Move.mark ['}'] false).apply c := rfl
    simp only [bind, Except.bind, last, Walk.Move.run]
    cases (Walk.Move.mark ['}'] false).apply c <;> rfl

end DotText
