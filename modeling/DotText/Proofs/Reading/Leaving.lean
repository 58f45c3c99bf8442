import DotText.Proofs.Grammar.Texts
import DotText.Proofs.Parts
import DotText.Proofs.Reading.Attributes
import DotText.Tree.Reader

set_option autoImplicit false

/- Where reading comes to a stop. A reader that succeeds leaves what is behind whole pieces, and so
what a later reader makes of the rest can be told of the whole text: up to the place where that one
halts, the text has the pieces of both, and it can be gone on with from there. -/
namespace DotText

open Lexeme (Heads Takes)

/-- The text `r` is what is left of a text behind whole pieces and insignificant material. -/
inductive Leaves : List Char → List Char → Prop where
  | refl (cs : List Char) : Leaves cs cs
  | blank {cs r : List Char} : Leaves (Blank.skip cs) r → Leaves cs r
  | piece {cs r r' : List Char} {p : Lexeme} : p.Heads cs r → Leaves r r' → Leaves cs r'

namespace Leaves

theorem trans {cs r r' : List Char} (first : Leaves cs r) (second : Leaves r r') :
    Leaves cs r' := by
  induction first with
  | refl => exact second
  | blank _ ih => exact .blank (ih second)
  | piece heads _ ih => exact .piece heads (ih second)

theorem skip {cs r : List Char} (leaves : Leaves cs r) : Leaves cs (Blank.skip r) :=
  leaves.trans (.blank (.refl _))

theorem of_heads {cs r : List Char} {p : Lexeme} (heads : p.Heads cs r) : Leaves cs r :=
  .piece heads (.refl r)

end Leaves

/-- Reading has come to a stop with `rest` left. In front of that are the pieces `ls`: nothing at
all, or a text that is closed by some more text, whatever comes behind that. -/
inductive Halts : List Char → List Lexeme → List Char → Prop where
  | here (rest : List Char) : Halts rest [] rest
  | inside {before rest : List Char} (closer : List Char) {ls : List Lexeme} : before ≠ [] →
      (∀ t, Lexeme.all (before ++ (closer ++ t)) = ls ++ Lexeme.all t) → Halts (before ++ rest) ls rest

theorem Lexeme.all_newline (t : List Char) : all ('\n' :: t) = all t := by
  rw [← all_skip, Blank.skip_of_landmark (r := t) rfl, all_skip]

namespace Halts

/-- The text in front of the stop, closed so that anything may come behind it. -/
theorem exists_closer {cs rest : List Char} {ls : List Lexeme} (halts : Halts cs ls rest) :
    ∃ before closer, cs = before ++ rest ∧
      ∀ t, Lexeme.all (before ++ (closer ++ t)) = ls ++ Lexeme.all t := by
  cases halts with
  | here => exact ⟨[], [], rfl, fun t => rfl⟩
  | inside _ _ closes => exact ⟨_, _, rfl, closes⟩

theorem behind_piece {cs r rest : List Char} {p : Lexeme} {ls : List Lexeme} (heads : p.Heads cs r)
    (halts : Halts r ls rest) : Halts cs (p :: ls) rest := by
  obtain ⟨known, c, t, rfl, opens⟩ := heads
  have first := Lexeme.first_of_opens p opens known
  have split := Lexeme.written_of_first first
  have whole : (Part.piece p).Whole := ⟨known, c, t, r, first⟩
  have some : p.written ≠ [] := by simpa [first] using Lexeme.written_first_ne_nil c t
  rw [split]
  cases halts with
  | here =>
    refine .inside ['\n'] some fun t => ?_
    have ends : p.extendedBy '\n' = false := Part.extendedBy_of_endsPieces (by decide) p
    rw [whole.all_append (by simpa using ends), List.singleton_append, Lexeme.all_newline]
    rfl
  | @inside before _ closer _ nonempty closes =>
    rw [← List.append_assoc]
    refine .inside closer (by simp [some]) fun t => ?_
    have ends := Lexeme.ends_of_first first
    obtain ⟨x, before, rfl⟩ := List.exists_cons_of_ne_nil nonempty
    rw [List.append_assoc, whole.all_append (by simpa using ends), closes]
    rfl

theorem behind_blank {cs rest : List Char} {ls : List Lexeme}
    (halts : Halts (Blank.skip cs) ls rest) : Halts cs ls rest := by
  by_cases nothing : Blank.skip cs = []
  · -- The material runs to the end of the text, where a comment may have been left open.
    obtain ⟨closer, gapped⟩ := ((Blank.gap_of_skip cs).2 nothing).exists_gap
    rw [nothing] at halts
    generalize empty : ([] : List Char) = r at halts
    cases halts with
    | here =>
      subst empty
      cases cs with
      | nil => exact .here []
      | cons c cs =>
        rw [← List.append_nil (c :: cs)]
        refine .inside closer (by simp) fun t => ?_
        rw [← List.append_assoc]
        exact Lexeme.all_append_of_gap gapped t
    | inside _ nonempty => exact absurd (List.append_eq_nil_iff.mp empty.symm).1 nonempty
  · obtain ⟨gap, gapped, split⟩ := (Blank.gap_of_skip cs).1 nothing
    rw [split]
    generalize Blank.skip cs = r at halts
    cases halts with
    | here =>
      cases gap with
      | nil => exact .here rest
      | cons c gap =>
        exact .inside [] (by simp) fun t => Lexeme.all_append_of_gap gapped t
    | @inside before _ closer _ nonempty closes =>
      rw [← List.append_assoc]
      refine .inside closer (by simp [nonempty]) fun t => ?_
      rw [List.append_assoc, Lexeme.all_append_of_gap gapped, closes]

end Halts

/-- A stop behind what a reader leaves is one of the whole text, behind the pieces it took. -/
theorem Leaves.halts {cs r : List Char} (leaves : Leaves cs r) {ps : List Lexeme}
    (takes : Takes cs ps r) {ls : List Lexeme} {rest : List Char} (halts : Halts r ls rest) :
    Halts cs (ps ++ ls) rest := by
  suffices exists_ : ∃ qs, Lexeme.all cs = qs ++ Lexeme.all r ∧ Halts cs (qs ++ ls) rest by
    obtain ⟨qs, split, halts'⟩ := exists_
    rwa [List.append_cancel_right (takes.1.symm.trans split)]
  clear takes
  induction leaves with
  | refl => exact ⟨[], rfl, halts⟩
  | blank _ ih =>
    obtain ⟨qs, split, halts'⟩ := ih halts
    exact ⟨qs, by rw [← Lexeme.all_skip, split], halts'.behind_blank⟩
  | piece heads _ ih =>
    obtain ⟨qs, split, halts'⟩ := ih halts
    exact ⟨_ :: qs, by rw [heads.takes.1, split]; rfl, halts'.behind_piece heads⟩

section Readers

/-- A reader that leaves what is behind whole pieces. -/
def Reader.Leaving {α : Type} (reader : Reader α) : Prop :=
  ∀ ⦃cs r : List Char⦄ ⦃a : α⦄, reader cs = .ok (a, r) → Leaves cs r

theorem Reader.leaving_many {α : Type} (stop : List Char → Bool) {item : Reader α}
    (leaving : Reader.Leaving item) : Reader.Leaving (Reader.many stop item) := by
  intro cs r as read
  fun_induction Reader.many stop item cs generalizing as with
  | case1 =>
    cases read
    exact .refl _
  | case2 => cases read
  | case3 => cases read
  | case4 cs _ a r' found _ as' r'' others ih =>
    cases read
    exact (leaving found).trans (ih others)
  | case5 cs _ a r' found =>
    cases read
    exact leaving found

theorem Ident.leaving_read : Reader.Leaving Ident.read := by
  intro cs r s read
  obtain ⟨n, -, heads⟩ := heads_of_read read
  exact .of_heads heads

theorem Value.leaving_read : Reader.Leaving Value.read := by
  intro cs r value read
  obtain ⟨v, -, heads⟩ := heads_of_read read
  exact .of_heads heads

theorem Leaves.of_dropWord? {keyword : String} (listed : keyword ∈ Ident.keywords)
    {cs r : List Char} (found : Ident.dropWord? keyword.toList cs = some r) : Leaves cs r := by
  obtain ⟨w, -, heads⟩ := Ident.heads_of_dropWord? listed found
  exact .of_heads heads

theorem Leaves.of_char {c : Char} (punctuation : Lexeme.isPunctuation c = true) {missing : Expected}
    {cs r : List Char} (read : Reader.char c missing cs = .ok r) : Leaves cs r :=
  .of_heads (Lexeme.heads_of_char punctuation read)

namespace Attribute

theorem leaves_dropSeparator (cs : List Char) : Leaves cs (dropSeparator cs) := by
  unfold dropSeparator
  split
  · exact .of_heads (Lexeme.heads_of_separator (.inl rfl) _)
  · exact .of_heads (Lexeme.heads_of_separator (.inr rfl) _)
  · exact .refl cs

theorem leaving_read : Reader.Leaving Attribute.read := by
  intro cs r a found
  simp only [Attribute.read, bind_eq_ok, pure_eq_ok] at found
  obtain ⟨⟨key, r₁⟩, readKey, r₂, readMark, ⟨value, r₃⟩, readValue, done⟩ := found
  cases done
  have key := (Ident.leaving_read readKey).skip
  have equals := (Leaves.of_char (by decide) readMark).skip
  have value := (Value.leaving_read readValue).skip
  exact (key.trans (equals.trans (value.trans (leaves_dropSeparator _)))).skip

theorem leaving_readList : Reader.Leaving readList := by
  intro cs r attrs found
  simp only [readList, bind_eq_ok, pure_eq_ok] at found
  obtain ⟨r₁, readOpen, ⟨attrs', r₂⟩, readEntries, done⟩ := found
  cases done
  have many := Reader.Many.of_many (fun cs a r item => by
    obtain ⟨k, v, seps, -, -, -, takes, -⟩ := takes_of_read item
    exact takes.shorter) readEntries
  obtain ⟨t, rfl⟩ : ∃ t, r₂ = ']' :: t := by
    have close := many.stop_rest
    cases r₂ <;> simp_all
  have opening := (Leaves.of_char (by decide) readOpen).skip
  have entries := Reader.leaving_many _ leaving_read readEntries
  have closing := Leaves.of_heads (Lexeme.heads_of_isPunctuation (c := ']') (by decide) t)
  exact (opening.trans (entries.trans closing)).skip

theorem leaving_readLists : Reader.Leaving readLists := by
  intro cs r attrs found
  simp only [readLists, bind_eq_ok, pure_eq_ok] at found
  obtain ⟨⟨lists, r'⟩, read, done⟩ := found
  cases done
  exact .blank (Reader.leaving_many _ leaving_readList read)

end Attribute

theorem Port.leaving_readPart : Reader.Leaving Port.readPart := by
  intro cs r part found
  obtain ⟨t, s, colon, read, -⟩ | ⟨-, rfl⟩ := Port.readPart_cases found
  · have mark := Leaves.of_heads (Lexeme.heads_of_isPunctuation (c := ':') (by decide) t)
    exact .blank (colon ▸ mark.skip.trans (Ident.leaving_read read))
  · exact .refl _

theorem NodeRef.leaving_readPort (id : String) : Reader.Leaving (NodeRef.readPort id) := by
  intro cs r ref found
  obtain ⟨readPort, -⟩ | ⟨port, compass, t, readPort, readCompass, -⟩ :=
    NodeRef.readPort_cases found
  · exact Port.leaving_readPart readPort
  · exact (Port.leaving_readPart readPort).trans (Port.leaving_readPart readCompass)

theorem leaving_readBlockId : Reader.Leaving readBlockId := by
  intro cs r id found
  obtain ⟨-, rfl⟩ | ⟨s, t, read, -, rfl⟩ := readBlockId_cases found
  · exact .refl _
  · exact (Ident.leaving_read read).skip

namespace Statement

theorem leaves_dropKeyword? {cs r : List Char} {target : AttrTarget}
    (found : AttrTarget.dropKeyword? cs = some (target, r)) : Leaves cs r := by
  exact .of_dropWord? (by cases target <;> decide) (AttrTarget.dropWord?_of_dropKeyword? found)

theorem leaves_dropSeparator (cs : List Char) : Leaves cs (dropSeparator cs) := by
  unfold dropSeparator
  split
  · exact .of_heads (Lexeme.heads_of_separator (.inr rfl) _)
  · exact .refl cs

end Statement

variable {statements : Reader (List Statement)} (nested : Reader.Leaving statements)

include nested

theorem leaving_readBraces : Reader.Leaving (readBraces statements) := by
  intro cs r body found
  simp only [readBraces, bind_eq_ok, pure_eq_ok] at found
  obtain ⟨r₁, readOpen, ⟨body', r₂⟩, read, r₃, readClose, done⟩ := found
  cases done
  exact (Leaves.of_char (by decide) readOpen).trans
    ((nested read).trans (Leaves.of_char (by decide) readClose))

namespace Endpoint

theorem leaving_readSubgraph : Reader.Leaving (readSubgraph statements) := by
  rintro cs r ⟨id, body⟩ found
  obtain ⟨t, t', word, readId, readBody⟩ | ⟨-, readBody⟩ := readSubgraph_cases found
  · have head := (Leaves.of_dropWord? (by decide) word).skip
    exact head.trans ((leaving_readBlockId readId).trans (leaving_readBraces nested readBody))
  · exact leaving_readBraces nested readBody

theorem leaving_read : Reader.Leaving (Endpoint.read statements) := by
  intro cs r e found
  obtain ⟨id, body, read, -⟩ | ⟨id, ref, t, readName, readPort, -⟩ := read_cases found
  · exact leaving_readSubgraph nested read
  · exact (Ident.leaving_read readName).trans (NodeRef.leaving_readPort id readPort)

theorem leaving_readLink (kind : Kind) : Reader.Leaving (readLink kind statements) := by
  intro cs r e found
  obtain ⟨t, t', rfl, read, rfl⟩ := exists_of_readLink found
  have op := Leaves.of_heads (Lexeme.heads_of_edgeOp kind t)
  exact (op.skip.trans (leaving_read nested read)).skip

end Endpoint

namespace Statement

variable (kind : Kind)

theorem leaving_readTail (first : Endpoint) :
    Reader.Leaving (readTail kind statements first) := by
  intro cs r s found
  obtain ⟨others, t, readLinks, rest⟩ := readTail_cases found
  have links := Leaves.blank (Reader.leaving_many _ (Endpoint.leaving_readLink nested kind) readLinks)
  obtain ⟨_, _, -, -, -, rfl⟩ | ⟨attrs, readLists, -⟩ := rest
  · exact links
  · exact links.trans (Attribute.leaving_readLists readLists)

theorem leaving_readNamed : Reader.Leaving (readNamed kind statements) := by
  intro cs r s found
  obtain ⟨id, t, readName, rest⟩ := readNamed_cases found
  have name := (Ident.leaving_read readName).skip
  obtain ⟨t', value, equals, readValue, -⟩ | ⟨ref, t', readPort, readTail⟩ := rest
  · rw [equals] at name
    have mark := Leaves.of_heads (Lexeme.heads_of_isPunctuation (c := '=') (by decide) t')
    exact name.trans (mark.skip.trans (Value.leaving_read readValue))
  · exact name.trans
      ((NodeRef.leaving_readPort id readPort).trans (leaving_readTail nested kind _ readTail))

theorem leaving_read : Reader.Leaving (Statement.read kind statements) := by
  intro cs r s found
  obtain ⟨target, t, attrs, word, -, readLists, -⟩ |
    ⟨id, body, t, readSubgraph, readTail⟩ | found := read_cases found
  · exact (leaves_dropKeyword? word).skip.trans (Attribute.leaving_readLists readLists)
  · exact (Endpoint.leaving_readSubgraph nested readSubgraph).trans
      (leaving_readTail nested kind _ readTail)
  · exact leaving_readNamed nested kind found

theorem leaving_readItem : Reader.Leaving (readItem kind statements) := by
  intro cs r s found
  simp only [readItem, bind_eq_ok, pure_eq_ok] at found
  obtain ⟨⟨s', r'⟩, read, done⟩ := found
  cases done
  exact ((leaving_read nested kind read).skip.trans (leaves_dropSeparator _)).skip

end Statement

omit nested

theorem leaving_readStatements (kind : Kind) : Reader.Leaving (readStatements kind) := by
  intro cs
  refine readStatements_induction
    (motive := fun cs result => ∀ ⦃r body⦄, result = .ok (body, r) → Leaves cs r)
    (fun _ => nofun) (fun statements cs _ reads r body found => ?_) cs
  have nested : Reader.Leaving statements := fun cs => @reads cs
  exact .blank (Reader.leaving_many _ (Statement.leaving_readItem nested kind) found)

theorem Kind.leaving_read : Reader.Leaving Kind.read := by
  intro cs r kind found
  exact .of_dropWord? (by cases kind <;> decide) (Kind.dropWord?_of_read found)

end Readers

end DotText
