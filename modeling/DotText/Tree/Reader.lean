import DotText.Tree.Reader.Statement

set_option autoImplicit false

/- Reading a whole document. -/
namespace DotText

/-- Read the word that opens a document. -/
def Kind.read (cs : List Char) : Except Failure (Kind × List Char) :=
  match [Kind.digraph, .graph].findSome? fun kind =>
      (Ident.dropWord? kind.keyword.toList cs).map fun r => (kind, r) with
  | some found => .ok found
  | none => .error ⟨.kind, cs⟩

theorem Kind.dropWord?_of_read {cs r : List Char} {kind : Kind}
    (found : Kind.read cs = .ok (kind, r)) :
    Ident.dropWord? kind.keyword.toList cs = some r := by
  unfold Kind.read at found
  split at found
  · next pair word =>
    cases found
    obtain ⟨_, -, word⟩ := List.exists_of_findSome?_eq_some word
    obtain ⟨_, word, same⟩ := Option.map_eq_some_iff.mp word
    cases same
    exact word
  · cases found

/-- Read a whole document; nothing significant may follow its last brace. -/
def Graph.read (cs : List Char) : Except Failure Graph := do
  let cs := Blank.skip cs
  let (strict, r) :=
    match Ident.dropWord? "strict".toList cs with
    | some r => (true, Blank.skip r)
    | none => (false, cs)
  let (kind, r) ← Kind.read r
  let (id, r) ← readBlockId (Blank.skip r)
  let (body, r) ← readBraces (readStatements kind) r
  let r := Blank.skip r
  if r.isEmpty then return ⟨strict, kind, id, body⟩ else .error ⟨.endOfText, r⟩

end DotText
