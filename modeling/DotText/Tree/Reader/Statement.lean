import DotText.Tree.Reader.Attribute
import DotText.Tree.Reader.Endpoint

set_option autoImplicit false

/- Reading statements. The readers of one statement are given a reader for the statements between
two braces; `readStatements` is the one that is its own. -/
namespace DotText

/-- What is missing where the operator of the other kind stands. -/
def Kind.expectedOp : Kind → Expected
  | .graph => .doubleDash
  | .digraph => .arrow

/-- Whether an edge operator of either kind comes next. -/
def Endpoint.atOp (cs : List Char) : Bool :=
  Kind.digraph.edgeOp.toList.isPrefixOf cs || Kind.graph.edgeOp.toList.isPrefixOf cs

/-- Read an operator of this kind and the endpoint it leads to. -/
def Endpoint.readLink (kind : Kind) (statements : Reader (List Statement)) (cs : List Char) :
    Except Failure (Endpoint × List Char) := do
  if kind.edgeOp.toList.isPrefixOf cs then
    let (e, r) ← Endpoint.read statements (Blank.skip (cs.drop kind.edgeOp.length))
    return (e, Blank.skip r)
  else .error ⟨kind.expectedOp, cs⟩

theorem Endpoint.exists_of_readLink {kind : Kind} {statements : Reader (List Statement)}
    {cs r : List Char} {e : Endpoint} (found : readLink kind statements cs = .ok (e, r)) :
    ∃ t t', cs = kind.edgeOp.toList ++ t ∧
      Endpoint.read statements (Blank.skip t) = .ok (e, t') ∧ r = Blank.skip t' := by
  unfold readLink at found
  split at found
  · next start =>
    simp only [bind_eq_ok, pure_eq_ok] at found
    obtain ⟨⟨e', t'⟩, read, done⟩ := found
    cases done
    obtain ⟨t, rfl⟩ := List.isPrefixOf_iff_prefix.mp start
    rw [← String.length_toList, List.drop_left] at read
    exact ⟨t, t', rfl, read, rfl⟩
  · cases found

/-- Read what follows the first endpoint of a statement. With no operator after it, a node is a
node statement and a subgraph is a statement by itself, which takes no attributes. -/
def Statement.readTail (kind : Kind) (statements : Reader (List Statement)) (first : Endpoint)
    (cs : List Char) : Except Failure (Statement × List Char) := do
  let (others, r) ←
    Reader.many (!Endpoint.atOp ·) (Endpoint.readLink kind statements) (Blank.skip cs)
  match others, first with
  | [], .subgraph id body => return (.subgraph id body, r)
  | [], .node ref =>
    let (attrs, r) ← Attribute.readLists r
    return (.node ref attrs, r)
  | _ :: _, _ =>
    let (attrs, r) ← Attribute.readLists r
    return (.edge (first :: others) attrs, r)

/-- What follows an endpoint are edges and then attributes, but behind a subgraph that no edge leads
from nothing more is read. -/
theorem Statement.readTail_cases {kind : Kind} {statements : Reader (List Statement)}
    {first : Endpoint} {cs r : List Char} {s : Statement}
    (found : readTail kind statements first cs = .ok (s, r)) :
    ∃ others t,
      Reader.many (!Endpoint.atOp ·) (Endpoint.readLink kind statements) (Blank.skip cs) =
          .ok (others, t) ∧
        ((∃ id body, others = [] ∧ first = .subgraph id body ∧ s = .subgraph id body ∧ r = t) ∨
          ∃ attrs, Attribute.readLists t = .ok (attrs, r) ∧
            ((∃ ref, others = [] ∧ first = .node ref ∧ s = .node ref attrs) ∨
              others ≠ [] ∧ s = .edge (first :: others) attrs)) := by
  simp only [readTail, bind_eq_ok] at found
  obtain ⟨⟨others, t⟩, readLinks, rest⟩ := found
  refine ⟨others, t, readLinks, ?_⟩
  cases others with
  | cons second others =>
    simp only [bind_eq_ok, pure_eq_ok] at rest
    obtain ⟨⟨attrs, r'⟩, readLists, done⟩ := rest
    cases done
    exact .inr ⟨attrs, readLists, .inr ⟨List.cons_ne_nil _ _, rfl⟩⟩
  | nil =>
    cases first with
    | subgraph id body =>
      cases rest
      exact .inl ⟨id, body, rfl, rfl, rfl, rfl⟩
    | node ref =>
      simp only [bind_eq_ok, pure_eq_ok] at rest
      obtain ⟨⟨attrs, r'⟩, readLists, done⟩ := rest
      cases done
      exact .inr ⟨attrs, readLists, .inl ⟨ref, rfl, rfl, rfl⟩⟩

/-- The target of the attribute statement that begins here, and what follows its keyword. -/
def AttrTarget.dropKeyword? (cs : List Char) : Option (AttrTarget × List Char) :=
  [AttrTarget.graph, .node, .edge].findSome? fun target =>
    (Ident.dropWord? target.keyword.toList cs).map fun r => (target, r)

theorem AttrTarget.dropWord?_of_dropKeyword? {cs r : List Char} {target : AttrTarget}
    (found : dropKeyword? cs = some (target, r)) :
    Ident.dropWord? target.keyword.toList cs = some r := by
  obtain ⟨_, -, word⟩ := List.exists_of_findSome?_eq_some found
  obtain ⟨_, word, same⟩ := Option.map_eq_some_iff.mp word
  cases same
  exact word

/-- Read a statement that begins with an identifier: `key = value`, or a node and its edges. -/
def Statement.readNamed (kind : Kind) (statements : Reader (List Statement)) (cs : List Char) :
    Except Failure (Statement × List Char) := do
  let (id, r) ← Ident.read cs
  match Blank.skip r with
  | '=' :: r =>
    let (value, r) ← Value.read (Blank.skip r)
    return (.attr .graph [⟨id, value⟩], r)
  | r =>
    let (ref, r) ← NodeRef.readPort id r
    readTail kind statements (.node ref) r

theorem Statement.readNamed_cases {kind : Kind} {statements : Reader (List Statement)}
    {cs r : List Char} {s : Statement} (found : readNamed kind statements cs = .ok (s, r)) :
    ∃ id t, Ident.read cs = .ok (id, t) ∧
      ((∃ t' value, Blank.skip t = '=' :: t' ∧ Value.read (Blank.skip t') = .ok (value, r) ∧
          s = .attr .graph [⟨id, value⟩]) ∨
        ∃ ref t', NodeRef.readPort id (Blank.skip t) = .ok (ref, t') ∧
          readTail kind statements (.node ref) t' = .ok (s, r)) := by
  simp only [readNamed, bind_eq_ok] at found
  obtain ⟨⟨id, t⟩, readName, rest⟩ := found
  refine ⟨id, t, readName, ?_⟩
  split at rest
  · next t' equals =>
    simp only [bind_eq_ok, pure_eq_ok] at rest
    obtain ⟨⟨value, r'⟩, readValue, done⟩ := rest
    cases done
    exact .inl ⟨t', value, equals, readValue, rfl⟩
  · simp only [bind_eq_ok] at rest
    obtain ⟨⟨ref, t'⟩, readPort, readTail⟩ := rest
    exact .inr ⟨ref, t', readPort, readTail⟩

/-- Read one statement. -/
def Statement.read (kind : Kind) (statements : Reader (List Statement)) (cs : List Char) :
    Except Failure (Statement × List Char) :=
  match AttrTarget.dropKeyword? cs with
  | some (target, r) => do
    let r := Blank.skip r
    if r.head? = some '[' then
      let (attrs, r) ← Attribute.readLists r
      return (.attr target attrs, r)
    else .error ⟨.openBracket, r⟩
  | none =>
    if Endpoint.atSubgraph cs then do
      let ((id, body), r) ← Endpoint.readSubgraph statements cs
      readTail kind statements (.subgraph id body) r
    else readNamed kind statements cs

theorem Statement.read_cases {kind : Kind} {statements : Reader (List Statement)}
    {cs r : List Char} {s : Statement} (found : Statement.read kind statements cs = .ok (s, r)) :
    (∃ target t attrs, AttrTarget.dropKeyword? cs = some (target, t) ∧
        (Blank.skip t).head? = some '[' ∧ Attribute.readLists (Blank.skip t) = .ok (attrs, r) ∧
        s = .attr target attrs) ∨
      (∃ id body t, Endpoint.readSubgraph statements cs = .ok ((id, body), t) ∧
        readTail kind statements (.subgraph id body) t = .ok (s, r)) ∨
      readNamed kind statements cs = .ok (s, r) := by
  unfold Statement.read at found
  split at found
  · next target t word =>
    dsimp only at found
    split at found
    · next start =>
      simp only [bind_eq_ok, pure_eq_ok] at found
      obtain ⟨⟨attrs, r'⟩, readLists, done⟩ := found
      cases done
      exact .inl ⟨target, t, attrs, word, start, readLists, rfl⟩
    · cases found
  · split at found
    · simp only [bind_eq_ok] at found
      obtain ⟨⟨⟨id, body⟩, t⟩, readSubgraph, readTail⟩ := found
      exact .inr (.inl ⟨id, body, t, readSubgraph, readTail⟩)
    · exact .inr (.inr found)

/-- Drop the semicolon that may follow a statement. -/
def Statement.dropSeparator (cs : List Char) : List Char :=
  match cs with
  | ';' :: r => r
  | _ => cs

/-- Read a statement and what separates it from the next. -/
def Statement.readItem (kind : Kind) (statements : Reader (List Statement)) (cs : List Char) :
    Except Failure (Statement × List Char) := do
  let (s, r) ← Statement.read kind statements cs
  return (s, Blank.skip (dropSeparator (Blank.skip r)))

/-- Statements end at a closing brace or at the end of the text. -/
def Statement.atEnd (cs : List Char) : Bool :=
  cs.isEmpty || cs.head? == some '}'

/-- Read statements up to a closing brace or the end of the text. A nested block lies after the
brace that opens it, so each is read in a shorter text. -/
def readStatements (kind : Kind) (cs : List Char) : Except Failure (List Statement × List Char) :=
  let nested : Reader (List Statement) := fun r =>
    if r.length < cs.length then readStatements kind r else .error ⟨.closeBrace, r⟩
  Reader.many Statement.atEnd (Statement.readItem kind nested) (Blank.skip cs)
termination_by cs.length

/-- What holds of reading statements, whatever is read of the blocks among them, if it holds of
reading these and of refusing one. -/
theorem readStatements_induction {kind : Kind}
    {motive : List Char → Except Failure (List Statement × List Char) → Prop}
    (refused : ∀ cs, motive cs (.error ⟨.closeBrace, cs⟩))
    (step : ∀ (nested : Reader (List Statement)) (cs : List Char),
      (∀ cs, nested cs = readStatements kind cs ∨ nested cs = .error ⟨.closeBrace, cs⟩) →
      (∀ cs, motive cs (nested cs)) →
      motive cs (Reader.many Statement.atEnd (Statement.readItem kind nested) (Blank.skip cs)))
    (cs : List Char) : motive cs (readStatements kind cs) := by
  induction size : cs.length using Nat.strongRecOn generalizing cs with
  | _ n ih =>
    rw [readStatements]
    refine step _ cs (fun r => ?_) (fun r => ?_)
    · split
      · exact .inl rfl
      · exact .inr rfl
    · split
      · next shorter => exact ih r.length (size ▸ shorter) r rfl
      · exact refused r

end DotText
