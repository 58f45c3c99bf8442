import DotText.Edit.Marking
import DotText.Proofs.Reading.Attributes
import DotText.Tree.Reader

set_option autoImplicit false

/- A tree that is read from a text is spelled by the pieces of the text, whatever they are marked
with. -/
namespace DotText

open Lexeme (Takes)

theorem Port.takes_of_readPart {cs r : List Char} {part : Option String}
    (found : readPart cs = .ok (part, r)) :
    (part = none ∧ r = cs) ∨
      ∃ s n, part = some s ∧ n.name? = some s ∧ Takes cs [.mark [':'], n] r := by
  obtain ⟨t, s, colon, read, rfl⟩ | ⟨rfl, rfl⟩ := readPart_cases found
  · obtain ⟨n, named, takes⟩ := Ident.takes_of_read read
    have takesColon := Lexeme.takes_of_isPunctuation (c := ':') (by decide) t
    exact .inr ⟨s, n, rfl, named, (colon ▸ takesColon.skip.append takes).of_skip⟩
  · exact .inl ⟨rfl, rfl⟩

theorem NodeRef.takes_of_readPort {id : String} {cs r : List Char} {ref : NodeRef}
    (found : readPort id cs = .ok (ref, r)) :
    ∃ ls, Takes cs ls r ∧ ∀ {n : Lexeme}, n.name? = some id → ref.Spelled (n :: ls) := by
  obtain ⟨readPort, rfl⟩ | ⟨port, compass, t, readPort, readCompass, rfl⟩ := readPort_cases found
  · obtain ⟨-, rfl⟩ | ⟨_, _, same, -⟩ := Port.takes_of_readPart readPort
    · exact ⟨[], Takes.refl _, .plain⟩
    · cases same
  · obtain ⟨same, -⟩ | ⟨_, p, same, named, takes⟩ := Port.takes_of_readPart readPort <;> cases same
    obtain ⟨rfl, rfl⟩ | ⟨compass, q, rfl, named', takes'⟩ := Port.takes_of_readPart readCompass
    · exact ⟨_, takes, fun name => .port name named⟩
    · exact ⟨_, takes.append takes', fun name => .compass name named named'⟩

theorem takes_of_readBlockId {cs r : List Char} {id : Option String}
    (found : readBlockId cs = .ok (id, r)) :
    (id = none ∧ r = cs) ∨ ∃ s n, id = some s ∧ n.name? = some s ∧ Takes cs [n] r := by
  obtain ⟨rfl, rfl⟩ | ⟨s, t, read, rfl, rfl⟩ := readBlockId_cases found
  · exact .inl ⟨rfl, rfl⟩
  · obtain ⟨n, named, takes⟩ := Ident.takes_of_read read
    exact .inr ⟨s, n, rfl, named, takes.skip⟩

section Statements

variable {target : Target} {kind : Kind} {statements : Reader (List Statement)}

/-- What a reader of the statements in a block takes spells them. -/
def ReadsMarked (target : Target) (kind : Kind) (statements : Reader (List Statement)) : Prop :=
  ∀ {cs r : List Char} {body : List Statement}, statements cs = .ok (body, r) →
    ∃ marks, Marking.OfBlock target kind.edgeOp.toList body marks ∧
      Takes cs (Mark.lexemes marks) r

theorem takes_of_readBraces (nested : ReadsMarked target kind statements) {cs r : List Char}
    {body : List Statement} (found : readBraces statements cs = .ok (body, r)) :
    ∃ marks, Marking.OfBlock target kind.edgeOp.toList body marks ∧
      Takes cs (.mark ['{'] :: (Mark.lexemes marks ++ [.mark ['}']])) r := by
  simp only [readBraces, bind_eq_ok, pure_eq_ok] at found
  obtain ⟨r₁, readOpen, ⟨body', r₂⟩, read, r₃, readClose, done⟩ := found
  cases done
  obtain ⟨marks, block, takes⟩ := nested read
  have takesOpen := Lexeme.takes_of_char (by decide) readOpen
  have takesClose := Lexeme.takes_of_char (by decide) readClose
  exact ⟨marks, block, by simpa using (takesOpen.append takes).append takesClose⟩

namespace Endpoint

theorem takes_of_readSubgraph (nested : ReadsMarked target kind statements) {cs r : List Char}
    {id : Option String} {body : List Statement}
    (found : readSubgraph statements cs = .ok ((id, body), r)) :
    ∃ marks, Marking.OfSubgraph target kind.edgeOp.toList id body marks ∧
      Takes cs (Mark.lexemes marks) r := by
  suffices split : ∃ head r₁, BlockHead id head ∧ Takes cs head r₁ ∧
      readBraces statements r₁ = .ok (body, r) by
    obtain ⟨head, r₁, blockHead, takesHead, readBody⟩ := split
    obtain ⟨marks, block, takes⟩ := takes_of_readBraces nested readBody
    exact ⟨_, .block blockHead block, by simpa using takesHead.append takes⟩
  obtain ⟨t, t', word, readId, readBody⟩ | ⟨rfl, readBody⟩ := readSubgraph_cases found
  · obtain ⟨w, same, takesWord⟩ := Ident.takes_of_dropWord? (by decide) word
    rcases takes_of_readBlockId readId with ⟨rfl, rfl⟩ | ⟨s, n, rfl, named, takesName⟩
    · exact ⟨_, _, .keyword same, takesWord.skip, readBody⟩
    · exact ⟨_, _, .named same named, takesWord.skip.append takesName, readBody⟩
  · exact ⟨[], cs, .bare, Takes.refl cs, readBody⟩

theorem takes_of_read (nested : ReadsMarked target kind statements) {cs r : List Char}
    {e : Endpoint} (found : Endpoint.read statements cs = .ok (e, r)) :
    ∃ marks, Marking.OfEndpoint target kind.edgeOp.toList e marks ∧
      Takes cs (Mark.lexemes marks) r := by
  obtain ⟨id, body, read, rfl⟩ | ⟨id, ref, t, readName, readPort, rfl⟩ := read_cases found
  · obtain ⟨marks, subgraph, takes⟩ := takes_of_readSubgraph nested read
    exact ⟨marks, .subgraph subgraph, takes⟩
  · obtain ⟨n, named, takesName⟩ := Ident.takes_of_read readName
    obtain ⟨ls, takesPort, spelled⟩ := NodeRef.takes_of_readPort readPort
    exact ⟨_, .node (spelled named), by simpa using takesName.append takesPort⟩

theorem takes_of_readLink (nested : ReadsMarked target kind statements) {cs r : List Char}
    {e : Endpoint} (found : readLink kind statements cs = .ok (e, r)) :
    ∃ marks, Marking.OfEndpoint target kind.edgeOp.toList e marks ∧
      Takes cs (.mark kind.edgeOp.toList :: Mark.lexemes marks) r ∧ Blank.skip r = r := by
  obtain ⟨t, t', rfl, read, rfl⟩ := exists_of_readLink found
  obtain ⟨marks, endpoint, takes⟩ := takes_of_read nested read
  exact ⟨marks, endpoint, ((Lexeme.takes_of_edgeOp kind t).skip.append takes).skip,
    Blank.skip_skip t'⟩

theorem takes_of_links (nested : ReadsMarked target kind statements) {cs r : List Char}
    {es : List Endpoint}
    (found : Reader.Many (!Endpoint.atOp ·) (readLink kind statements) cs es r)
    (left : Endpoint) (solid : Blank.skip cs = cs) :
    ∃ marks, Marking.OfLinks target kind.edgeOp.toList left es marks ∧
      Takes cs (Mark.lexemes marks) r ∧ Blank.skip r = r := by
  induction found generalizing left with
  | @done cs _ => exact ⟨[], .nil, Takes.refl cs, solid⟩
  | item _ item _ _ ih =>
    obtain ⟨marks, endpoint, takes, solid'⟩ := takes_of_readLink nested item
    obtain ⟨links, others, takes', solid''⟩ := ih _ solid'
    exact ⟨_, .cons endpoint others, by simpa using takes.append takes', solid''⟩

end Endpoint

namespace Statement

theorem takes_of_readTail (nested : ReadsMarked target kind statements) {cs r : List Char}
    {first : Endpoint} {s : Statement} (found : readTail kind statements first cs = .ok (s, r))
    {start : List Mark} (read : Marking.OfEndpoint target kind.edgeOp.toList first start) :
    ∃ marks ls, Marking.OfStatement target kind.edgeOp.toList s marks ∧
      Mark.lexemes marks = Mark.lexemes start ++ ls ∧ Takes cs ls r := by
  obtain ⟨others, t, readLinks, rest⟩ := readTail_cases found
  have many := Reader.Many.of_many (fun cs e r item => by
    obtain ⟨marks, -, takes, -⟩ := Endpoint.takes_of_readLink nested item
    exact takes.shorter) readLinks
  obtain ⟨links, linked, takesLinks, -⟩ :=
    Endpoint.takes_of_links nested many first (Blank.skip_skip cs)
  obtain ⟨id, body, rfl, rfl, rfl, rfl⟩ | ⟨attrs, readLists, rest⟩ := rest
  · cases linked
    cases read with
    | subgraph subgraph => exact ⟨_, [], .subgraph subgraph, by simp, takesLinks.of_skip⟩
  obtain ⟨ls, takes, listed, -, -⟩ := Attribute.takes_of_readLists readLists
  obtain ⟨ref, rfl, rfl, rfl⟩ | ⟨more, rfl⟩ := rest
  · cases linked
    cases read with
    | node spelled => exact ⟨_, ls, .node spelled listed, by simp, (takesLinks.append takes).of_skip⟩
  · obtain ⟨second, others, rfl⟩ := List.exists_cons_of_ne_nil more
    exact ⟨_, Mark.lexemes links ++ ls, .edge read linked listed, by simp,
      (takesLinks.append takes).of_skip⟩

theorem takes_of_dropKeyword? {cs r : List Char} {attrTarget : AttrTarget}
    (found : AttrTarget.dropKeyword? cs = some (attrTarget, r)) :
    ∃ w : Lexeme, w.isKeyword attrTarget.keyword = true ∧ Takes cs [w] r := by
  have word := AttrTarget.dropWord?_of_dropKeyword? found
  exact Ident.takes_of_dropWord? (by cases attrTarget <;> decide) word

theorem takes_of_readNamed (nested : ReadsMarked target kind statements) {cs r : List Char}
    {s : Statement} (found : readNamed kind statements cs = .ok (s, r)) :
    ∃ marks, Marking.OfStatement target kind.edgeOp.toList s marks ∧
      Takes cs (Mark.lexemes marks) r := by
  obtain ⟨id, t, readName, rest⟩ := readNamed_cases found
  obtain ⟨n, named, takesName⟩ := Ident.takes_of_read readName
  obtain ⟨t', value, equals, readValue, rfl⟩ | ⟨ref, t', readPort, readTail⟩ := rest
  · obtain ⟨v, valued, takesValue⟩ := Value.takes_of_read readValue
    have takesMark := Lexeme.takes_of_isPunctuation (c := '=') (by decide) t'
    rw [← equals] at takesMark
    exact ⟨_, .assign named valued,
      by simpa using (takesName.skip.append takesMark).skip.append takesValue⟩
  · obtain ⟨ls, takesPort, spelled⟩ := NodeRef.takes_of_readPort readPort
    obtain ⟨marks, ls', statement, split, takesTail⟩ :=
      takes_of_readTail nested readTail (.node (spelled named))
    refine ⟨marks, statement, ?_⟩
    rw [split]
    simpa using (takesName.skip.append takesPort).append takesTail

theorem takes_of_read (nested : ReadsMarked target kind statements) {cs r : List Char}
    {s : Statement} (found : Statement.read kind statements cs = .ok (s, r)) :
    ∃ marks, Marking.OfStatement target kind.edgeOp.toList s marks ∧
      Takes cs (Mark.lexemes marks) r := by
  obtain ⟨attrTarget, t, attrs, word, start, readLists, rfl⟩ |
    ⟨id, body, t, readSubgraph, readTail⟩ | found := read_cases found
  · obtain ⟨w, same, takesWord⟩ := takes_of_dropKeyword? word
    obtain ⟨ls, takes, listed, solid, ends⟩ := Attribute.takes_of_readLists readLists
    cases listed with
    | done =>
      -- a list was seen, so at least its brackets have been taken
      rw [Lexeme.head?_eq_iff_of_isPunctuation (by decide) (Blank.skip_skip t), takes.1] at start
      rw [ne_eq, Lexeme.head?_eq_iff_of_isPunctuation (by decide) solid] at ends
      exact absurd start ends
    | opened inner => exact ⟨_, .attr same inner, by simpa using takesWord.skip.append takes⟩
  · obtain ⟨start, subgraph, takes⟩ := Endpoint.takes_of_readSubgraph nested readSubgraph
    obtain ⟨marks, ls, statement, split, takesTail⟩ :=
      takes_of_readTail nested readTail (.subgraph subgraph)
    exact ⟨marks, statement, by rw [split]; exact takes.append takesTail⟩
  · exact takes_of_readNamed nested found

theorem takes_of_dropSeparator (cs : List Char) :
    ∃ seps, Lexeme.Separates .ofStatements seps ∧ Takes cs seps (dropSeparator cs) := by
  unfold dropSeparator
  split
  · exact ⟨_, .one (by decide), Lexeme.takes_of_separator (.inr rfl) _⟩
  · exact ⟨[], .none, Takes.refl cs⟩

theorem takes_of_readItem (nested : ReadsMarked target kind statements) {cs r : List Char}
    {s : Statement} (found : readItem kind statements cs = .ok (s, r)) :
    ∃ marks seps, Marking.OfStatement target kind.edgeOp.toList s marks ∧
      Lexeme.Separates .ofStatements seps ∧ Takes cs (Mark.lexemes marks ++ seps) r := by
  simp only [readItem, bind_eq_ok, pure_eq_ok] at found
  obtain ⟨⟨s', r'⟩, read, done⟩ := found
  cases done
  obtain ⟨marks, statement, takes⟩ := takes_of_read nested read
  obtain ⟨seps, separates, takesSeps⟩ := takes_of_dropSeparator (Blank.skip r')
  exact ⟨marks, seps, statement, separates, (takes.skip.append takesSeps).skip⟩

theorem takes_of_items (nested : ReadsMarked target kind statements) {cs r : List Char}
    {ss : List Statement} (found : Reader.Many atEnd (readItem kind statements) cs ss r) :
    ∃ marks, Marking.OfBlock target kind.edgeOp.toList ss marks ∧
      Takes cs (Mark.lexemes marks) r := by
  induction found with
  | @done cs _ => exact ⟨[], .nil, Takes.refl cs⟩
  | item _ item _ _ ih =>
    obtain ⟨marks, seps, statement, separates, takes⟩ := takes_of_readItem nested item
    obtain ⟨others, block, takes'⟩ := ih
    exact ⟨_, .cons statement separates block, by simpa using takes.append takes'⟩

end Statement

/-- The statements of a block are read from pieces that spell them. -/
theorem takes_of_readStatements (target : Target) (kind : Kind) :
    ReadsMarked target kind (readStatements kind) := by
  intro cs r body
  refine readStatements_induction
    (motive := fun cs result => ∀ {r body}, result = .ok (body, r) →
      ∃ marks, Marking.OfBlock target kind.edgeOp.toList body marks ∧
        Takes cs (Mark.lexemes marks) r)
    (fun _ => nofun) (fun statements cs _ reads r body found => ?_) cs
  have nested : ReadsMarked target kind statements := reads _
  have many := Reader.Many.of_many (fun cs s r item => by
    obtain ⟨marks, seps, statement, -, takes⟩ := Statement.takes_of_readItem nested item
    obtain ⟨piece, others, split, -⟩ := statement.head
    rw [split] at takes
    exact takes.shorter) found
  obtain ⟨marks, block, takes⟩ := Statement.takes_of_items nested many
  exact ⟨marks, block, takes.of_skip⟩

end Statements

theorem Kind.takes_of_read {cs r : List Char} {kind : Kind}
    (found : Kind.read cs = .ok (kind, r)) :
    ∃ k : Lexeme, k.isKeyword kind.keyword = true ∧ Takes cs [k] r := by
  exact Ident.takes_of_dropWord? (by cases kind <;> decide) (Kind.dropWord?_of_read found)

/-- What is read of a document behind the word `strict`, if that is there. -/
theorem Graph.takes_of_opening {cs r₁ r₂ : List Char} {kind : Kind} {id : Option String}
    (readKind : Kind.read cs = .ok (kind, r₁))
    (readId : readBlockId (Blank.skip r₁) = .ok (id, r₂)) :
    ∃ head, DocumentHead kind false id head ∧ Takes cs head r₂ := by
  obtain ⟨k, same, takes⟩ := Kind.takes_of_read readKind
  rcases takes_of_readBlockId readId with ⟨rfl, rfl⟩ | ⟨s, n, rfl, named, takesName⟩
  · exact ⟨_, .plain same, takes.skip⟩
  · exact ⟨_, .named same named, takes.skip.append takesName⟩

theorem Graph.marked_of_braces {g : Graph} {cs r r' : List Char} {head : List Lexeme}
    (opening : DocumentHead g.kind g.strict g.id head) (takes : Takes cs head r)
    (readBody : readBraces (readStatements g.kind) r = .ok (g.body, r'))
    (ends : Blank.skip r' = []) (target : Target) :
    ∃ marks, g.Marked target marks ∧ Lexeme.all cs = Mark.lexemes marks := by
  obtain ⟨marks, block, takesBody⟩ :=
    takes_of_readBraces (takes_of_readStatements target g.kind) readBody
  refine ⟨_, .document opening block, ?_⟩
  have whole := (takes.append takesBody).1
  rw [Lexeme.all_of_skip_nil ends] at whole
  simpa using whole

/-- A document is spelled by the pieces of the text that it is read from. -/
theorem Graph.marked_of_read {cs : List Char} {g : Graph} (found : Graph.read cs = .ok g)
    (target : Target) : ∃ marks, g.Marked target marks ∧ Lexeme.all cs = Mark.lexemes marks := by
  unfold Graph.read at found
  dsimp only at found
  split at found
  · next t word =>
    simp only [bind_eq_ok] at found
    obtain ⟨⟨kind, r₁⟩, readKind, ⟨id, r₂⟩, readId, ⟨body, r₃⟩, readBody, done⟩ := found
    split at done
    · next ends =>
      cases done
      obtain ⟨w, same, takesWord⟩ := Ident.takes_of_dropWord? (by decide) word
      obtain ⟨head, opening, takes⟩ := takes_of_opening readKind readId
      exact marked_of_braces (.strict same opening) (takesWord.skip.append takes).of_skip readBody
        (List.isEmpty_iff.mp ends) target
    · cases done
  · simp only [bind_eq_ok] at found
    obtain ⟨⟨kind, r₁⟩, readKind, ⟨id, r₂⟩, readId, ⟨body, r₃⟩, readBody, done⟩ := found
    split at done
    · next ends =>
      cases done
      obtain ⟨head, opening, takes⟩ := takes_of_opening readKind readId
      exact marked_of_braces opening takes.of_skip readBody (List.isEmpty_iff.mp ends) target
    · cases done

end DotText
