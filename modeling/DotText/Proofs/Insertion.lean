import DotText.Edit.InPlace
import DotText.Proofs.Agreement
import DotText.Proofs.Declaring
import DotText.Proofs.Erasing
import DotText.Proofs.Printing.Trees

set_option autoImplicit false

/- What a text is read as once a statement is put in front of its last brace: the pieces in front of
the place stay what they are, the statement is spelled as it is written, and so the tree has one
statement more. -/
namespace DotText

open DotText.Part (textOf pieces apart)
open Lexeme (Drops)
open Walk (Move)

namespace Part

/-- No word and no numeral ends a line. -/
theorem Whole.getLast?_ne_newline {p : Lexeme} (whole : (piece p).Whole)
    (running : p.isRunning = true) : p.written.getLast? ≠ some '\n' := by
  obtain ⟨known, c, cs, r, first⟩ := whole
  have written := Lexeme.writtenAs_of_opens (first ▸ Lexeme.opens_first c cs) known
  intro last
  have mem : '\n' ∈ p.written := List.mem_of_getLast? last
  cases p with
  | word w =>
    cases written with
    | word longest => exact absurd (longest.1.isRest '\n' mem) (by decide)
  | numeral n =>
    cases written with
    | numeral longest => exact absurd (longest.1.mem '\n' mem) (by decide)
  | _ => cases running

theorem Whole.text_ne_nil {part : Part} (whole : part.Whole) : part.text ≠ [] := by
  cases part with
  | blank => exact whole.1
  | piece p =>
    obtain ⟨-, c, cs, r, first⟩ := whole
    have some := Lexeme.written_first_ne_nil c cs
    rwa [first] at some

/-- Parts that are apart by themselves and end a line are apart in front of any text. -/
theorem apart_of_newline {parts : List Part} (whole : ∀ part ∈ parts, part.Whole)
    (ends : (textOf parts).getLast? = some '\n') (separate : apart [] parts = true)
    (tail : List Char) : apart tail parts = true := by
  induction parts with
  | nil => cases ends
  | cons part parts ih =>
    have this := whole part List.mem_cons_self
    have rest := fun part mem => whole part (List.mem_cons_of_mem _ mem)
    cases parts with
    | nil =>
      cases part with
      | blank => rfl
      | piece p =>
        have last : p.written.getLast? = some '\n' := by simpa [text] using ends
        have stands : p.isRunning = false :=
          Bool.not_eq_true _ ▸ fun running => this.getLast?_ne_newline running last
        rw [apart, apart, Bool.and_true, Bool.not_eq_true']
        cases p with
        | word | numeral => cases stands
        | _ => cases textOf [] ++ tail <;> rfl
    | cons q parts =>
      -- The text behind is not empty, and what stands behind that is not looked at.
      have some : textOf (q :: parts) ≠ [] := by
        simp [(rest q List.mem_cons_self).text_ne_nil]
      obtain ⟨x, t, split⟩ := List.exists_cons_of_ne_nil some
      have ends' : (textOf (q :: parts)).getLast? = Option.some '\n' := by
        rw [textOf_cons, split, List.getLast?_append] at ends
        rw [split]
        simpa [List.getLast?_cons] using ends
      cases part with
      | blank => exact ih rest ends' separate
      | piece p =>
        rw [apart, Bool.and_eq_true] at separate ⊢
        refine ⟨?_, ih rest ends' separate.2⟩
        rw [split] at separate ⊢
        exact separate.1

/-- Whole parts that say what the text in front of its last brace says are apart. -/
theorem apart_of_brace {parts : List Part} (whole : ∀ part ∈ parts, part.Whole) {r : List Char}
    (nothing : Lexeme.all r = []) {ls : List Lexeme}
    (said : Lexeme.all (textOf parts ++ '}' :: r) = ls ++ [.mark ['}']])
    (drops : Drops ls (pieces parts)) : apart [] parts = true := by
  -- The brace is one of the pieces of the text, and so it has to be one of the parts.
  let brace : Part := .piece (.mark ['}'])
  have closing : ∀ part ∈ parts ++ [brace], part.Whole := by
    intro part mem
    rcases List.mem_append.mp mem with mem | mem
    · exact whole part mem
    · rw [List.mem_singleton.mp mem]
      exact ⟨by simp, '}', [], [], rfl⟩
  have same : Lexeme.significant (textOf (parts ++ [brace]) ++ r) =
      (pieces (parts ++ [brace])).filter (!·.isSeparator) := by
    have text : textOf [brace] ++ r = '}' :: r := rfl
    rw [textOf_append, List.append_assoc, text, Lexeme.significant, said, pieces_append,
      List.filter_append, List.filter_append, ← drops.filter_eq]
    rfl
  have ends := endsPieces_of_blank (Lexeme.all_eq_nil.mp nothing)
  have separate := apart_of_significant closing ends same
  rw [apart_append, Bool.and_eq_true] at separate
  exact apart_nil_of_apart separate.1

end Part

theorem Blank.gap_of_forall_mem {cs : List Char} (blank : ∀ c ∈ cs, c ∈ [' ', '\t', '\r', '\n']) :
    Gap cs := by
  induction cs with
  | nil => exact .nil
  | cons c cs ih =>
    exact .blank (blank c List.mem_cons_self) (ih fun x mem => blank x (List.mem_cons_of_mem c mem))

theorem Statement.Listed.append {op : List Char} {ss ts : List Statement} {ls ms : List Lexeme} :
    Listed op ss ls → Listed op ts ms → Listed op (ss ++ ts) (ls ++ ms)
  | .nil, others => others
  | .cons statement separates statements, others => by
    simpa using Listed.cons statement separates (statements.append others)

/-- What stands in front of an inserted statement: a line end where it is to have a line of its own
and does not begin one, and the indent. -/
def Cursor.lead (c : Cursor) (indent : List Char) (freshLine : Bool) : List Char :=
  (if freshLine && !c.followsNewline then ['\n'] else []) ++ indent

/-- An indent stays blank with a line end in front of it. -/
theorem blank_of_indent {indent : List Char} (blank : ∀ x ∈ indent, x ∈ [' ', '\t', '\r', '\n'])
    (starts : Bool) :
    ∀ x ∈ (if starts then ['\n'] else []) ++ indent, x ∈ [' ', '\t', '\r', '\n'] := by
  intro x mem
  rcases List.mem_append.mp mem with mem | mem
  · split at mem
    · rw [List.mem_singleton.mp mem]
      decide
    · cases mem
  · exact blank x mem

section Lead

variable {c : Cursor} {indent : List Char} {freshLine : Bool}
  (blank : ∀ x ∈ indent, x ∈ [' ', '\t', '\r', '\n'])

include blank

theorem Cursor.lead_blank : ∀ x ∈ c.lead indent freshLine, x ∈ [' ', '\t', '\r', '\n'] :=
  blank_of_indent blank _

/-- What is in front of an inserted statement does not go on with it. -/
theorem Cursor.apart_lead {parts : List Part} (whole : ∀ part ∈ parts, part.Whole)
    (before : c.before = textOf parts) (separate : apart [] parts = true)
    (spaced : freshLine = true ∨ indent ≠ []) (tail : List Char) :
    apart (c.lead indent freshLine ++ tail) parts = true := by
  cases shape : c.lead indent freshLine with
  | nil =>
    obtain ⟨begins, rfl⟩ := List.append_eq_nil_iff.mp shape
    have fresh : freshLine = true := spaced.resolve_right (by simp)
    have ends : c.followsNewline = true := by simpa [fresh] using begins
    refine Part.apart_of_newline whole ?_ separate _
    rw [← before]
    exact eq_of_beq ends
  | cons x t =>
    have here : x ∈ c.lead indent freshLine := by simp [shape]
    have listed := lead_blank blank x here
    rw [Part.apart_of_endsPieces]
    · exact separate
    · intro y first
      obtain rfl : x = y := by simpa using first
      exact forall_mem_of_all (p := fun x => Part.endsPieces x = true) (by decide) x listed

end Lead

namespace Graph

/-- Statements in front of the last brace are statements of the document. -/
theorem Spelled.append {g : Graph} {ps ls : List Lexeme} {ss : List Statement}
    (spelled : g.Spelled (ps ++ [.mark ['}']]))
    (listed : Statement.Listed g.kind.edgeOp.toList ss ls) :
    Graph.Spelled { g with body := g.body ++ ss } (ps ++ (ls ++ [.mark ['}']])) := by
  generalize whole : ps ++ [.mark ['}']] = pieces at spelled
  cases spelled with
  | @document head inner opening statements =>
    have split : ps = head ++ .mark ['{'] :: inner := by
      rw [← List.cons_append, ← List.append_assoc] at whole
      exact List.append_cancel_right whole
    rw [split, List.append_assoc, List.cons_append, ← List.append_assoc inner]
    exact .document opening (statements.append listed)

variable {g : Graph} {cs : List Char}

/-- The last brace with nothing but insignificant material behind it. -/
theorem all_brace {r : List Char} (nothing : Lexeme.all r = []) :
    Lexeme.all ('}' :: r) = [.mark ['}']] := by
  have takes := Lexeme.takes_of_isPunctuation (c := '}') (by decide) r
  rw [takes.1, nothing]
  rfl

/-- What is in front of the last brace is made of whole parts that are apart. -/
theorem parts_before_brace (found : Graph.read cs = .ok g) :
    ∃ c parts r, Walk.document .nothing g (.ofText cs) = .ok c ∧
      (c.passBlanks .none).before = textOf parts ∧ (c.passBlanks .none).rest = '}' :: r ∧
      cs = textOf parts ++ '}' :: r ∧ Lexeme.all r = [] ∧ (∀ part ∈ parts, part.Whole) ∧
      apart [] parts = true := by
  obtain ⟨c, ls, fits, r, ran, follows, text, brace, nothing⟩ := walk_to_brace found
  obtain ⟨parts, loose, made, drops, -⟩ := follows.makes (Cursor.made_ofText cs)
  have split : cs = textOf (parts ++ loose) ++ '}' :: r := by
    rw [← made.before, ← brace]
    exact text.symm
  have said : Lexeme.all (textOf (parts ++ loose) ++ '}' :: r) = ls ++ [.mark ['}']] := by
    have takes := follows.takes
    rw [brace, all_brace nothing, Mark.lexemes_all] at takes
    rwa [← split]
  have drops : Drops ls (pieces (parts ++ loose)) := by simpa using drops
  exact ⟨c, parts ++ loose, r, ran, made.before, brace, split, nothing, made.whole,
    Part.apart_of_brace made.whole nothing said drops⟩

/-- A statement that can be written is one more statement of the document where it is put in front of
the last brace, behind a gap that keeps it apart. -/
theorem read_of_parts {parts : List Part} (whole : ∀ part ∈ parts, part.Whole)
    (spelled : g.Spelled (pieces parts ++ [.mark ['}']])) {s : Statement}
    (writable : s.everywhere Statement.isWritable = true) {lead : List Char}
    (gapped : Blank.Gap lead) (front : ∀ tail, apart (lead ++ tail) parts = true) {r : List Char}
    (nothing : Lexeme.all r = []) :
    Graph.read (textOf parts ++ (lead ++ (s.render g.kind.edgeOp.toList ++ '\n' :: '}' :: r))) =
      .ok (g.append s.normal) := by
  obtain ⟨ls, spelled', writes⟩ := Statement.spelled_of_render g.kind s writable
  have listed : Statement.Listed g.kind.edgeOp.toList [s.normal] ls := by
    simpa using Statement.Listed.cons spelled' .none .nil
  have line : Lexeme.all ('\n' :: '}' :: r) = [.mark ['}']] := by
    rw [← List.singleton_append, Lexeme.all_append_of_gap (.blank (by simp) .nil),
      all_brace nothing]
  rw [Graph.read_iff_spelled, Part.all_textOf whole (front _), Lexeme.all_append_of_gap gapped,
    writes _ (stops_cons (by decide) _), line]
  exact spelled.append listed

/-- A statement that can be written is read back where it is put in front of the last brace on a line
of its own, or behind some blanks. -/
theorem read_insertInto (found : Graph.read cs = .ok g) {s : Statement}
    (writable : s.everywhere Statement.isWritable = true) {indent : List Char}
    (blank : ∀ x ∈ indent, x ∈ [' ', '\t', '\r', '\n']) {freshLine : Bool}
    (spaced : freshLine = true ∨ indent ≠ []) :
    ∃ text, g.insertInto (indent ++ (s.render g.kind.edgeOp.toList ++ ['\n'])) freshLine cs =
        .ok text ∧
      Graph.read text = .ok (g.append s.normal) := by
  obtain ⟨c, parts, r, ran, before, brace, split, ends, whole, separate⟩ := parts_before_brace found
  -- In front of the brace the pieces are the same with the statement and without it.
  have old : g.Spelled (pieces parts ++ [.mark ['}']]) := by
    have front : apart ('}' :: r) parts = true := by
      rw [Part.apart_of_endsPieces (by simp; decide)]
      exact separate
    rwa [Graph.read_iff_spelled, split, Part.all_textOf whole front, all_brace ends] at found
  refine ⟨_, insertInto_eq ran brace _ freshLine, ?_⟩
  have gapped : Blank.Gap ((c.passBlanks .none).lead indent freshLine) :=
    Blank.gap_of_forall_mem (Cursor.lead_blank blank)
  have front := Cursor.apart_lead blank whole before separate spaced
  have read := read_of_parts whole old writable gapped front ends
  rw [← before] at read
  simpa [Cursor.lead] using read

end Graph

end DotText
