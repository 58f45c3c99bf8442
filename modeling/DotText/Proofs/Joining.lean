import DotText.Proofs.Documents
import DotText.Proofs.LastBrace
import DotText.Proofs.Reading.Front

set_option autoImplicit false

/- What an insertion leaves of the statements that are there. They stay as they are, unless nothing
is put between a word in front of the last brace and the name behind it. -/
namespace DotText

open DotText.Part (textOf pieces apart)

namespace Lexeme

def isWord : Lexeme → Bool
  | word _ => true
  | _ => false

/-- Whether the last piece of a text is a word that ends where the text does. -/
def endsInWord (cs : List Char) : Bool :=
  (all cs).getLast?.any isWord && cs.getLast?.any Ident.isRest

end Lexeme

namespace Blank

theorem getLast?_any_of_cons {front gap : List Char} {x : Char} (plain : Ident.isRest x = false)
    (ends : gap.getLast?.any Ident.isRest = false) :
    (front ++ x :: gap).getLast?.any Ident.isRest = false := by
  cases gap with
  | nil => simpa using plain
  | cons y gap => simpa [List.getLast?_cons] using ends

/-- A gap does not end in a character that words are made of. -/
theorem Gap.getLast?_any {gap : List Char} (gapped : Gap gap) :
    gap.getLast?.any Ident.isRest = false := by
  induction gapped with
  | nil => rfl
  | @blank c gap listed _ ih =>
    have plain : ∀ x ∈ [' ', '\t', '\r', '\n'], Ident.isRest x = false :=
      forall_mem_of_all (by decide)
    rw [← List.nil_append (c :: gap)]
    exact getLast?_any_of_cons (plain c listed) ih
  | line _ _ _ ih =>
    rw [← List.append_assoc]
    exact getLast?_any_of_cons (by decide) ih
  | @block body gap _ _ ih =>
    have split : '/' :: '*' :: (body ++ '*' :: '/' :: gap) =
        ('/' :: '*' :: (body ++ ['*'])) ++ '/' :: gap := by simp
    rw [split]
    exact getLast?_any_of_cons (by decide) ih

end Blank

namespace Lexeme

theorem endsInWord_of_gap {front gap : List Char} (some : gap ≠ []) (gapped : Blank.Gap gap) :
    endsInWord (front ++ gap) = false := by
  have last := gapped.getLast?_any
  cases gap with
  | nil => exact absurd rfl some
  | cons x gap =>
    rw [endsInWord, Bool.and_eq_false_iff]
    exact .inr (by simpa [List.getLast?_cons] using last)

theorem endsInWord_of_piece {front : List Char} {ls : List Lexeme} {p : Lexeme}
    (whole : (Part.piece p).Whole) (said : all (front ++ p.written) = ls ++ [p]) :
    endsInWord (front ++ p.written) = p.isWord := by
  rw [endsInWord, said]
  cases p with
  | word w =>
    obtain ⟨-, c, cs, r, first⟩ := whole
    have opens := opens_first c cs
    rw [first] at opens
    obtain ⟨start, rfl, -⟩ := opens
    have inside := (Ident.word_of_isStart start cs).1
    have last := List.getLast?_eq_some_getLast (List.cons_ne_nil c (cs.takeWhile Ident.isRest))
    have rest := List.all_eq_true.mp inside _ (List.mem_of_getLast? last)
    have ends : (front ++ c :: cs.takeWhile Ident.isRest).getLast?.any Ident.isRest = true := by
      rw [List.getLast?_append, last]
      exact rest
    rw [written, ends]
    simp [isWord]
  | _ => simp [isWord]

/-- No digit and no point comes next, and so only words go on. -/
theorem any_extendedBy (p : Lexeme) {tail : List Char}
    (plain : ∀ c, tail.head? = some c → c.isDigit = false ∧ c ≠ '.') :
    tail.head?.any p.extendedBy = (p.isWord && tail.head?.any Ident.isRest) := by
  cases tail with
  | nil => simp
  | cons c tail =>
    obtain ⟨digit, point⟩ := plain c rfl
    cases p <;> simp [extendedBy, isWord, Ident.extendsNumeral, digit, point]

end Lexeme

namespace Part

/-- Only the first character behind some parts tells whether they are apart. -/
theorem apart_congr {parts : List Part} {tail tail' : List Char} (same : tail.head? = tail'.head?) :
    apart tail parts = apart tail' parts := by
  induction parts with
  | nil => rfl
  | cons part parts ih =>
    cases part with
    | blank => exact ih
    | piece p => rw [apart, apart, ih, List.head?_append, List.head?_append, same]

end Part

namespace Graph

variable {g g' : Graph} {front behind : List Char}

/-- The parts in front of the closing brace, the last of them by itself. -/
theorem ClosesAt.last_part (closes : g.ClosesAt front behind) :
    ∃ parts last, (∀ part ∈ parts ++ [last], part.Whole) ∧ front = textOf parts ++ last.text ∧
      (∀ tail, apart (last.text ++ tail) parts = true) ∧
      Lexeme.all front = pieces (parts ++ [last]) ∧
      g.Spelled (pieces (parts ++ [last]) ++ [.mark ['}']]) := by
  obtain ⟨parts, whole, made, separate, spelled⟩ := closes.parts
  have read := Part.all_textOf whole (Part.apart_nil_of_apart separate)
  rw [List.append_nil, Lexeme.all_of_skip_nil (Blank.Ending.closed .nil).skip_eq_nil,
    List.append_nil, made] at read
  rcases List.eq_nil_or_concat parts with rfl | ⟨parts, last, rfl⟩
  · -- With nothing in front of it the brace would be all of the document.
    obtain ⟨head, inner, split, -⟩ := spelled.split (by simp)
    simp at split
  rw [List.concat_eq_append] at whole made separate spelled read
  refine ⟨parts, last, whole, by simp [← made], fun tail => ?_, read, spelled⟩
  rw [Part.apart_append, Bool.and_eq_true] at separate
  obtain ⟨c, t, start⟩ := List.exists_cons_of_ne_nil (whole last (by simp)).text_ne_nil
  rw [← separate.1]
  exact Part.apart_congr (by simp [start])

/-- The text `tail` may stand in the place of the brace. The pieces in front of it stay what they are,
unless the last of them is a word that goes on. -/
theorem ClosesAt.all_append_tail (closes : g.ClosesAt front behind) {tail : List Char}
    (plain : ∀ c, tail.head? = some c → c.isDigit = false ∧ c ≠ '.') :
    ((Lexeme.endsInWord front && tail.head?.any Ident.isRest) = false ∧
      ∃ before, g.Spelled (before ++ [.mark ['}']]) ∧
        Lexeme.all (front ++ tail) = before ++ Lexeme.all tail) ∨
    ((Lexeme.endsInWord front && tail.head?.any Ident.isRest) = true ∧
      ∃ before p other others, p.Alters other ∧
        Lexeme.all (front ++ '}' :: behind) = before ++ [p, .mark ['}']] ∧
        Lexeme.all (front ++ tail) = before ++ other :: others) := by
  have closed := closes.all_append behind
  rw [closes.all_behind] at closed
  obtain ⟨parts, last, whole, rfl, separate, said, spelled⟩ := closes.last_part
  have here := whole last (by simp)
  have before := fun part mem => whole part (List.mem_append_left [last] mem)
  have stays (separate' : apart tail [last] = true) :
      Lexeme.all (textOf parts ++ last.text ++ tail) =
        pieces (parts ++ [last]) ++ Lexeme.all tail := by
    have both : apart tail (parts ++ [last]) = true := by
      rw [Part.apart_append, separate', Bool.and_true]
      simpa using separate tail
    simpa using Part.all_textOf whole both
  cases last with
  | blank gap =>
    refine .inl ⟨?_, _, spelled, stays rfl⟩
    rw [Part.text, Lexeme.endsInWord_of_gap here.1 (Part.whole_blank_iff.mp here).2, Bool.false_and]
  | piece p =>
    rw [Part.pieces_append] at said spelled stays
    rw [Part.text, Lexeme.endsInWord_of_piece here said, ← p.any_extendedBy plain]
    cases extended : tail.head?.any p.extendedBy with
    | false => exact .inl ⟨rfl, _, spelled, stays (by simp [apart, extended])⟩
    | true =>
      obtain ⟨other, others, all, alters⟩ := here.alters extended
      rw [said] at closed
      refine .inr ⟨rfl, pieces parts, p, other, others, alters,
        closed.trans (by simp), ?_⟩
      rw [← all, List.append_assoc]
      exact Part.all_textOf before (separate tail)

/-- Where a text that begins as a statement stands in the place of the brace, the statements in front
of it stay the first ones, unless it goes on with a word. -/
theorem ClosesAt.isPrefix_body_iff (closes : g.ClosesAt front behind) {tail : List Char}
    (plain : ∀ c, tail.head? = some c → c.isDigit = false ∧ c ≠ '.')
    (begins : Lexeme.Known (Lexeme.all tail) →
      Lexeme.all tail ≠ [] ∧ Lexeme.Begins (Lexeme.all tail))
    (read : Graph.read (front ++ tail) = .ok g') :
    SameHead g g' ∧
      (g.body <+: g'.body ↔ (Lexeme.endsInWord front && tail.head?.any Ident.isRest) = false) := by
  have spelled' := (Graph.read_iff_spelled _ g').mp read
  rcases closes.all_append_tail plain with
    ⟨apart_, before, spelled, all⟩ | ⟨joined, before, p, other, others, alters, found, all⟩
  · have known := spelled'.known
    rw [all, Lexeme.known_append] at known
    obtain ⟨some, starts⟩ := begins known.2
    obtain ⟨same, kept⟩ := spelled.isPrefix_body all some starts spelled'
    exact ⟨same, iff_of_true kept apart_⟩
  · rw [all] at spelled'
    have spelled := (Graph.read_iff_spelled _ g).mp closes.read
    obtain ⟨same, lost⟩ := spelled.not_isPrefix_body found alters spelled'
    exact ⟨same, iff_of_false lost (by simp [joined])⟩

end Graph

/-- A name is written as a word, or else between quotes. -/
theorem Ident.head_of_spell (name : List Char) :
    (isBare name = true ∧ ∃ c t, spell name = c :: t ∧ isStart c = true) ∨
      (isBare name = false ∧ ∃ t, spell name = '"' :: t) := by
  rw [spell]
  cases bare : isBare name with
  | false => exact .inr ⟨rfl, _, rfl⟩
  | true =>
    cases name with
    | nil => cases bare
    | cons c t =>
      simp only [isBare, Bool.and_eq_true] at bare
      exact .inl ⟨rfl, c, t, rfl, isStart_of_isWrittenStart c bare.1.1⟩

/-- What begins with a name begins as a statement, unless no quote closes the name. -/
theorem Lexeme.begins_spell (name behind : List Char)
    (known : Known (all (Ident.spell name ++ behind))) :
    all (Ident.spell name ++ behind) ≠ [] ∧ Begins (all (Ident.spell name ++ behind)) := by
  have start : ∃ p ps, all (Ident.spell name ++ behind) = p :: ps ∧
      (p.isStray = false → p.startsStatement = true) := by
    rcases Ident.head_of_spell name with ⟨-, c, t, split, start⟩ | ⟨-, t, split⟩
    · rw [split, List.cons_append,
        all_of_skip_cons (Blank.skip_of_not_mayBegin (Ident.not_mayBegin_of_isStart start) _)]
      rw [first_of_opens (.word _) ⟨start, rfl, rfl⟩ (by simp)]
      exact ⟨_, _, rfl, fun _ => rfl⟩
    · rw [split, List.cons_append, all_of_skip_cons (Blank.skip_of_not_mayBegin (by decide) _)]
      refine ⟨_, _, rfl, fun closed => ?_⟩
      cases found : Ident.splitQuoted? (t ++ behind) with
      | none => simp [first, found, isStray] at closed
      | some => simp [first, found, startsStatement]
  obtain ⟨p, ps, split, starts⟩ := start
  rw [split] at known ⊢
  refine ⟨List.cons_ne_nil p ps, fun q here => ?_⟩
  cases here
  exact starts (known p List.mem_cons_self)

theorem Statement.render_node (op : List Char) (name : String) (attrs : List Attribute) :
    (Statement.node ⟨name, none⟩ attrs).render op =
      Ident.spell name.toList ++ Attribute.renderList attrs := by
  simp [render, NodeRef.render]

theorem Statement.render_edge (op : List Char) (tail head : String) (attrs : List Attribute) :
    (Statement.edge [.node ⟨tail, none⟩, .node ⟨head, none⟩] attrs).render op =
      Ident.spell tail.toList ++ (' ' :: (op ++ ' ' :: (Ident.spell head.toList ++
        Attribute.renderList attrs))) := by
  simp [render, Endpoint.renderAll, Endpoint.render, NodeRef.render]

/-- What is put between the text in front of the closing brace and an inserted statement. -/
def Layout.lead (layout : Layout) (front : List Char) : List Char :=
  (if layout.freshLine && front.getLast? != some '\n' then ['\n'] else []) ++ layout.indent.toList

theorem Layout.lead_blank {layout : Layout}
    (blank : ∀ x ∈ layout.indent.toList, x ∈ [' ', '\t', '\r', '\n']) (front : List Char) :
    ∀ x ∈ layout.lead front, x ∈ [' ', '\t', '\r', '\n'] :=
  blank_of_indent blank _

theorem Layout.lead_eq_nil {layout : Layout} {front : List Char}
    (word : Lexeme.endsInWord front = true) : layout.lead front = [] ↔ layout = ⟨"", false⟩ := by
  obtain ⟨indent, freshLine⟩ := layout
  have last : front.getLast? ≠ some '\n' := by
    intro ends
    rw [Lexeme.endsInWord, ends, Bool.and_eq_true] at word
    exact absurd word.2 (by decide)
  simp [lead, last, String.toList_eq_nil_iff, and_comm]

namespace Document

variable {d d' : Document} {front behind : List Char}

/-- A document with a statement put in front of its closing brace. -/
theorem read_of_append (closes : d.tree.ClosesAt front behind)
    (text : d.text.toList = front ++ '}' :: behind) {s : Statement}
    (appended : d.append s = .ok d') :
    Graph.read (front ++ (d.layout.lead front ++
      (s.render d.tree.kind.edgeOp.toList ++ '\n' :: '}' :: behind))) = .ok d'.tree := by
  rw [append, text, closes.insertInto] at appended
  obtain ⟨g, read, rfl⟩ := ofText_eq_ok.mp (commit_eq_ok.mp appended)
  rw [String.toList_ofList] at read
  simpa [Layout.lead, line] using read

/-- Nothing is put between a word in front of the closing brace and a name that is written bare. -/
def Joins (d : Document) (front : List Char) (name : String) : Prop :=
  d.layout = ⟨"", false⟩ ∧ Lexeme.endsInWord front = true ∧ Ident.isBare name.toList = true

theorem not_joins_iff {name : String} (lead : d.layout.lead front = []) :
    ¬d.Joins front name ↔ (Lexeme.endsInWord front && Ident.isBare name.toList) = false := by
  rw [← Bool.not_eq_true, Bool.and_eq_true]
  refine not_congr ⟨?_, ?_⟩
  · exact fun joins => joins.2
  · exact fun both => ⟨(Layout.lead_eq_nil both.1).mp lead, both⟩

/-- The statements that are there stay the first ones and stay as they are, unless a statement is put
right behind a word and begins with a bare name. -/
theorem isPrefix_body_of_append
    (blank : ∀ x ∈ d.layout.indent.toList, x ∈ [' ', '\t', '\r', '\n'])
    (closes : d.tree.ClosesAt front behind) (text : d.text.toList = front ++ '}' :: behind)
    {s : Statement} {name : String} {more : List Char}
    (written : s.render d.tree.kind.edgeOp.toList = Ident.spell name.toList ++ more)
    (appended : d.append s = .ok d') :
    Graph.SameHead d.tree d'.tree ∧ (d.tree.body <+: d'.tree.body ↔ ¬d.Joins front name) := by
  have read := read_of_append closes text appended
  rw [written, List.append_assoc] at read
  generalize more ++ '\n' :: '}' :: behind = rest at read
  have begins := Lexeme.begins_spell name.toList rest
  cases lead : d.layout.lead front with
  | nil =>
    rw [lead, List.nil_append] at read
    rw [not_joins_iff lead]
    rcases Ident.head_of_spell name.toList with ⟨bare, c, t, split, start⟩ | ⟨bare, t, split⟩
    · have plain : ∀ x, (Ident.spell name.toList ++ rest).head? = some x →
          x.isDigit = false ∧ x ≠ '.' := by
        intro x here
        obtain rfl : c = x := by simpa [split] using here
        refine ⟨Ident.isDigit_of_isStart start, ?_⟩
        rintro rfl
        exact absurd start (by decide)
      have iff := closes.isPrefix_body_iff plain begins read
      simpa [bare, split, Ident.isRest, start] using iff
    · have plain : ∀ x, (Ident.spell name.toList ++ rest).head? = some x →
          x.isDigit = false ∧ x ≠ '.' := by
        intro x here
        obtain rfl : '"' = x := by simpa [split] using here
        decide
      have iff := closes.isPrefix_body_iff plain begins read
      have quote : Ident.isRest '"' = false := by decide
      simpa [bare, split, quote] using iff
  | cons x t =>
    have inside : x ∈ d.layout.lead front := by simp [lead]
    have listed := Layout.lead_blank blank front x inside
    have gap := Blank.gap_of_forall_mem (Layout.lead_blank blank front)
    have apart_ : ¬d.Joins front name := by
      rintro ⟨layout, word, -⟩
      rw [(Layout.lead_eq_nil word).mpr layout] at lead
      cases lead
    have other : ∀ y ∈ [' ', '\t', '\r', '\n'],
        (y.isDigit = false ∧ y ≠ '.') ∧ Ident.isRest y = false := forall_mem_of_all (by decide)
    obtain ⟨plain, word⟩ := other x listed
    rw [← Lexeme.all_append_of_gap gap] at begins
    have iff := closes.isPrefix_body_iff (by simpa [lead] using plain) begins read
    simpa [lead, word, apart_] using iff

/-- An insertion that goes through leaves the kind and the name of the document, and leaves its
statements the first ones exactly if it does not put a bare name right behind a word. -/
theorem statements_of_insertion (reachable : d.Reachable)
    (blank : ∀ x ∈ d.layout.indent.toList, x ∈ [' ', '\t', '\r', '\n']) :
    ∃ front behind, d.text.toList = front ++ '}' :: behind ∧ d.tree.ClosesAt front behind ∧
      (∀ name entries d', d.insertNode name entries = .ok d' →
        Graph.SameHead d.tree d'.tree ∧ (d.tree.body <+: d'.tree.body ↔ ¬d.Joins front name)) ∧
      ∀ tail head entries d', d.insertEdge tail head entries = .ok d' →
        Graph.SameHead d.tree d'.tree ∧ (d.tree.body <+: d'.tree.body ↔ ¬d.Joins front tail) := by
  obtain ⟨-, front, behind, -, -, -, text, closes⟩ := Graph.closesAt_of_walk reachable.current.tree
  refine ⟨front, behind, text, closes, fun name entries d' inserted => ?_,
    fun tail head entries d' inserted => ?_⟩
  · exact isPrefix_body_of_append blank closes text (Statement.render_node ..) inserted
  · exact isPrefix_body_of_append blank closes text (Statement.render_edge ..) inserted

/-- With nothing in between, the node `b` behind the node `a` makes one node of both. -/
theorem statements_of_joined_name :
    ∃ d d' : Document, d.Reachable ∧ d.layout = ⟨"", false⟩ ∧ d.tree.body = [.node ⟨"a", none⟩ []] ∧
      d.insertNode "b" [] = .ok d' ∧ d'.tree.body = [.node ⟨"ab", none⟩ []] ∧
      ¬d.tree.body <+: d'.tree.body := by
  let g : Graph := ⟨false, .digraph, none, [.node ⟨"a", none⟩ []]⟩
  let d : Document := ⟨"digraph\x7ba\x7d", g, g.index, ⟨"", false⟩⟩
  have opened : ofText ⟨"", false⟩ "digraph\x7ba\x7d" = .ok d :=
    ofText_eq_ok.mpr ⟨g, by decide +kernel, rfl⟩
  have inserted : (d.insertNode "b" []).map Document.tree =
      .ok ⟨false, .digraph, none, [.node ⟨"ab", none⟩ []]⟩ := by
    decide +kernel
  obtain ⟨d', inserted, tree⟩ := map_eq_ok.mp inserted
  refine ⟨d, d', ⟨_, _, d, [], opened, rfl⟩, rfl, rfl, inserted, by rw [tree], ?_⟩
  rw [tree]
  decide +kernel

/-- A quoted name right behind a word is a node by itself. -/
theorem statements_of_quoted_name :
    ∃ d d' : Document, d.Reachable ∧ d.layout = ⟨"", false⟩ ∧ d.tree.body = [.node ⟨"a", none⟩ []] ∧
      d.insertNode "b c" [] = .ok d' ∧ Graph.SameHead d.tree d'.tree ∧
      d.tree.body <+: d'.tree.body := by
  let g : Graph := ⟨false, .digraph, none, [.node ⟨"a", none⟩ []]⟩
  let d : Document := ⟨"digraph\x7ba\x7d", g, g.index, ⟨"", false⟩⟩
  have opened : ofText ⟨"", false⟩ "digraph\x7ba\x7d" = .ok d :=
    ofText_eq_ok.mpr ⟨g, by decide +kernel, rfl⟩
  have reachable : d.Reachable := ⟨_, _, d, [], opened, rfl⟩
  obtain ⟨front, behind, -, -, node, -⟩ := statements_of_insertion reachable (by simp [d])
  have inserted : (d.insertNode "b c" []).map Document.tree =
      .ok ⟨false, .digraph, none, [.node ⟨"a", none⟩ [], .node ⟨"b c", none⟩ []]⟩ := by
    decide +kernel
  obtain ⟨d', inserted, -⟩ := map_eq_ok.mp inserted
  obtain ⟨same, iff⟩ := node "b c" [] d' inserted
  have quoted : Ident.isBare "b c".toList = false := by decide
  refine ⟨d, d', reachable, rfl, rfl, inserted, same, iff.mpr ?_⟩
  rintro ⟨-, -, bare⟩
  rw [quoted] at bare
  cases bare

end Document

end DotText
