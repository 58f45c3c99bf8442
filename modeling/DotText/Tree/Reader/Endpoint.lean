import DotText.Blank
import DotText.Ident.Reader
import DotText.Tree

set_option autoImplicit false

/- Reading the ends of edges: nodes with their ports, and subgraphs. The statements in a subgraph
are left to a reader that is given. -/
namespace DotText

/-- Read `:` and an identifier, if a colon comes next. -/
def Port.readPart (cs : List Char) : Except Failure (Option String × List Char) :=
  match Blank.skip cs with
  | ':' :: r => do
    let (s, r) ← Ident.read (Blank.skip r)
    return (some s, r)
  | _ => return (none, cs)

theorem Port.readPart_cases {cs r : List Char} {part : Option String}
    (found : readPart cs = .ok (part, r)) :
    (∃ t s, Blank.skip cs = ':' :: t ∧ Ident.read (Blank.skip t) = .ok (s, r) ∧ part = some s) ∨
      part = none ∧ r = cs := by
  unfold readPart at found
  split at found
  · next t colon =>
    simp only [bind_eq_ok, pure_eq_ok] at found
    obtain ⟨⟨s, r'⟩, read, done⟩ := found
    cases done
    exact .inl ⟨t, s, colon, read, rfl⟩
  · cases found
    exact .inr ⟨rfl, rfl⟩

/-- Read the port of the node `id`, if there is one. -/
def NodeRef.readPort (id : String) (cs : List Char) : Except Failure (NodeRef × List Char) := do
  match ← Port.readPart cs with
  | (none, r) => return (⟨id, none⟩, r)
  | (some port, r) =>
    let (compass, r) ← Port.readPart r
    return (⟨id, some ⟨port, compass⟩⟩, r)

theorem NodeRef.readPort_cases {id : String} {cs r : List Char} {ref : NodeRef}
    (found : readPort id cs = .ok (ref, r)) :
    (Port.readPart cs = .ok (none, r) ∧ ref = ⟨id, none⟩) ∨
      ∃ port compass t, Port.readPart cs = .ok (some port, t) ∧
        Port.readPart t = .ok (compass, r) ∧ ref = ⟨id, some ⟨port, compass⟩⟩ := by
  simp only [readPort, bind_eq_ok] at found
  obtain ⟨⟨part, t⟩, readPort, rest⟩ := found
  cases part with
  | none =>
    cases rest
    exact .inl ⟨readPort, rfl⟩
  | some port =>
    simp only [bind_eq_ok, pure_eq_ok] at rest
    obtain ⟨⟨compass, r'⟩, readCompass, done⟩ := rest
    cases done
    exact .inr ⟨port, compass, t, readPort, readCompass, rfl⟩

/-- Whether a subgraph begins here. -/
def Endpoint.atSubgraph (cs : List Char) : Bool :=
  cs.head? == some '{' || (Ident.dropWord? "subgraph".toList cs).isSome

/-- The identifier of a block, which ends at its opening brace. -/
def readBlockId (cs : List Char) : Except Failure (Option String × List Char) :=
  if cs.head? = some '{' then .ok (none, cs)
  else do
    let (id, r) ← Ident.read cs
    return (some id, Blank.skip r)

theorem readBlockId_cases {cs r : List Char} {id : Option String}
    (found : readBlockId cs = .ok (id, r)) :
    (id = none ∧ r = cs) ∨
      ∃ s t, Ident.read cs = .ok (s, t) ∧ id = some s ∧ r = Blank.skip t := by
  unfold readBlockId at found
  split at found
  · cases found
    exact .inl ⟨rfl, rfl⟩
  · simp only [bind_eq_ok, pure_eq_ok] at found
    obtain ⟨⟨s, t⟩, read, done⟩ := found
    cases done
    exact .inr ⟨s, t, read, rfl, rfl⟩

/-- Read the statements between two braces. -/
def readBraces (statements : Reader (List Statement)) (cs : List Char) :
    Except Failure (List Statement × List Char) := do
  let r ← Reader.char '{' .openBrace cs
  let (body, r) ← statements r
  let r ← Reader.char '}' .closeBrace r
  return (body, r)

def Endpoint.readSubgraph (statements : Reader (List Statement)) (cs : List Char) :
    Except Failure ((Option String × List Statement) × List Char) := do
  let (id, r) ←
    match Ident.dropWord? "subgraph".toList cs with
    | some r => readBlockId (Blank.skip r)
    | none => .ok (none, cs)
  let (body, r) ← readBraces statements r
  return ((id, body), r)

theorem Endpoint.readSubgraph_cases {statements : Reader (List Statement)} {cs r : List Char}
    {id : Option String} {body : List Statement}
    (found : readSubgraph statements cs = .ok ((id, body), r)) :
    (∃ t t', Ident.dropWord? "subgraph".toList cs = some t ∧
        readBlockId (Blank.skip t) = .ok (id, t') ∧ readBraces statements t' = .ok (body, r)) ∨
      id = none ∧ readBraces statements cs = .ok (body, r) := by
  unfold readSubgraph at found
  split at found
  · next t word =>
    simp only [bind_eq_ok, pure_eq_ok] at found
    obtain ⟨⟨id', t'⟩, readId, ⟨body', r'⟩, readBody, done⟩ := found
    cases done
    exact .inl ⟨t, t', word, readId, readBody⟩
  · simp only [bind_eq_ok, pure_eq_ok] at found
    obtain ⟨head, bare, ⟨body', r'⟩, readBody, done⟩ := found
    cases bare
    cases done
    exact .inr ⟨rfl, readBody⟩

def Endpoint.read (statements : Reader (List Statement)) (cs : List Char) :
    Except Failure (Endpoint × List Char) := do
  if atSubgraph cs then
    let ((id, body), r) ← readSubgraph statements cs
    return (.subgraph id body, r)
  else
    let (id, r) ← Ident.read cs
    let (ref, r) ← NodeRef.readPort id r
    return (.node ref, r)

theorem Endpoint.read_cases {statements : Reader (List Statement)} {cs r : List Char}
    {e : Endpoint} (found : Endpoint.read statements cs = .ok (e, r)) :
    (∃ id body, readSubgraph statements cs = .ok ((id, body), r) ∧ e = .subgraph id body) ∨
      ∃ id ref t, Ident.read cs = .ok (id, t) ∧ NodeRef.readPort id t = .ok (ref, r) ∧
        e = .node ref := by
  unfold Endpoint.read at found
  split at found
  · simp only [bind_eq_ok, pure_eq_ok] at found
    obtain ⟨⟨⟨id, body⟩, r'⟩, read, done⟩ := found
    cases done
    exact .inl ⟨id, body, read, rfl⟩
  · simp only [bind_eq_ok, pure_eq_ok] at found
    obtain ⟨⟨id, t⟩, readName, ⟨ref, r'⟩, readPort, done⟩ := found
    cases done
    exact .inr ⟨id, ref, t, readName, readPort, rfl⟩

end DotText
