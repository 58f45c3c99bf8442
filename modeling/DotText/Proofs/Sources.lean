import DotText.Proofs.Following
import DotText.Proofs.Grammar.Trees
import DotText.Proofs.Settling

set_option autoImplicit false

/- The source of a statement among the parts of a text. It begins and ends with a piece that says
something, and so no gap reaches into it from behind. -/
namespace DotText

namespace Lexeme

/-- Pieces of which the last says something. -/
def EndsTelling (ls : List Lexeme) : Prop :=
  ∃ others piece, ls = others ++ [piece] ∧ piece.isSeparator = false

theorem EndsTelling.append {ls : List Lexeme} (ends : EndsTelling ls) (front : List Lexeme) :
    EndsTelling (front ++ ls) := by
  obtain ⟨others, piece, rfl, tells⟩ := ends
  exact ⟨front ++ others, piece, (List.append_assoc ..).symm, tells⟩

theorem EndsTelling.cons {ls : List Lexeme} (ends : EndsTelling ls) (piece : Lexeme) :
    EndsTelling (piece :: ls) :=
  ends.append [piece]

theorem endsTelling_single {piece : Lexeme} (tells : piece.isSeparator = false) :
    EndsTelling [piece] :=
  ⟨[], piece, rfl, tells⟩

end Lexeme

open Lexeme (EndsTelling endsTelling_single)

theorem NodeRef.Spelled.endsTelling {ref : NodeRef} {name : List Lexeme}
    (spelled : ref.Spelled name) : EndsTelling name := by
  cases spelled with
  | plain named => exact endsTelling_single (Lexeme.not_isSeparator_of_name? named)
  | port _ named =>
    exact (endsTelling_single (Lexeme.not_isSeparator_of_name? named)).append [_, _]
  | compass _ _ named =>
    exact (endsTelling_single (Lexeme.not_isSeparator_of_name? named)).append [_, _, _, _]

theorem Attribute.Listed.endsTelling {opened : Bool} {attrs : List Attribute} {ls : List Lexeme}
    (listed : Listed opened attrs ls) : opened = false ∧ ls = [] ∨ EndsTelling ls := by
  induction listed with
  | done => exact .inl ⟨rfl, rfl⟩
  | opened _ ih =>
    rcases ih with ⟨absurd, -⟩ | ends
    · cases absurd
    · exact .inr (ends.cons _)
  | closed _ ih =>
    rcases ih with ⟨-, rfl⟩ | ends
    · exact .inr (endsTelling_single rfl)
    · exact .inr (ends.cons _)
  | entry _ _ _ _ ih =>
    rcases ih with ⟨absurd, -⟩ | ends
    · cases absurd
    · exact .inr ((((ends.append _).cons _).cons _).cons _)

/-- The lists behind some pieces end as the pieces do. -/
theorem Attribute.Listed.endsTelling_append {attrs : List Attribute} {ls front : List Lexeme}
    (listed : Listed false attrs ls) (ends : EndsTelling front) : EndsTelling (front ++ ls) := by
  rcases listed.endsTelling with ⟨-, rfl⟩ | ends'
  · rwa [List.append_nil]
  · exact ends'.append front

section Trees

variable {op : List Char}

theorem Endpoint.Braced.endsTelling {id : Option String} {body : List Statement}
    {ls : List Lexeme} (braced : Endpoint.Braced op id body ls) : EndsTelling ls := by
  cases braced with
  | block =>
    exact (((endsTelling_single (Lexeme.isSeparator_mark _)).append _).cons _).append _

theorem Endpoint.Spelled.endsTelling {e : Endpoint} {ls : List Lexeme} (spelled : e.Spelled op ls) :
    EndsTelling ls := by
  cases spelled with
  | node spelled => exact spelled.endsTelling
  | subgraph inner => exact inner.endsTelling

theorem Endpoint.Linked.endsTelling {e : Endpoint} {es : List Endpoint} {ls : List Lexeme}
    (linked : Endpoint.Linked op (e :: es) ls) : EndsTelling ls := by
  induction es generalizing e ls with
  | nil =>
    cases linked with
    | cons endpoint links =>
      cases links
      rw [List.append_nil]
      exact endpoint.endsTelling.cons _
  | cons e' es ih =>
    cases linked with
    | cons endpoint links => exact ((ih links).append _).cons _

/-- No separator belongs to the statement in front of it. -/
theorem Statement.Spelled.endsTelling {s : Statement} {ls : List Lexeme}
    (spelled : s.Spelled op ls) : EndsTelling ls := by
  cases spelled with
  | node spelled listed => exact listed.endsTelling_append spelled.endsTelling
  | edge first links listed =>
    exact (listed.endsTelling_append links.endsTelling).append _
  | attr _ listed =>
    rcases listed.endsTelling with ⟨absurd, -⟩ | ends
    · cases absurd
    · exact (ends.cons _).cons _
  | assign _ valued =>
    exact (endsTelling_single (Lexeme.not_isSeparator_of_value? valued)).append [_, _]
  | subgraph inner => exact inner.endsTelling

end Trees

namespace Part

theorem first_of_mem_ofText {p : Lexeme} {cs : List Char} (mem : .piece p ∈ ofText cs) :
    ∃ c t r, Lexeme.first c t = (p, r) := by
  fun_induction ofText cs with
  | case1 cs l r found ih =>
    rcases List.mem_cons.mp mem with absurd | mem
    · cases absurd
    · exact ih mem
  | case2 => cases mem
  | case3 c r missing inline ih =>
    rcases List.mem_cons.mp mem with absurd | mem
    · cases absurd
    · exact ih mem
  | case4 c r missing solid ih =>
    rcases List.mem_cons.mp mem with same | mem
    · cases same
      exact ⟨c, r, _, rfl⟩
    · exact ih mem

/-- Where the pieces of some parts split at a piece, the parts do. -/
theorem split_pieces {parts : List Part} {p : Lexeme} {before behind : List Lexeme}
    (split : pieces parts = before ++ p :: behind) :
    ∃ front back, parts = front ++ .piece p :: back ∧ pieces front = before ∧
      pieces back = behind := by
  induction parts generalizing before with
  | nil => cases before <;> cases split
  | cons part parts ih =>
    cases part with
    | blank cs =>
      obtain ⟨front, back, rfl, same, same'⟩ := ih split
      exact ⟨.blank cs :: front, back, rfl, same, same'⟩
    | piece q =>
      rw [pieces_piece] at split
      cases before with
      | nil =>
        cases split
        exact ⟨[], parts, rfl, rfl, rfl⟩
      | cons b before =>
        rw [List.cons_append, List.cons.injEq] at split
        obtain ⟨rfl, split⟩ := split
        obtain ⟨front, back, rfl, rfl, same'⟩ := ih split
        exact ⟨.piece q :: front, back, rfl, rfl, same'⟩

theorem isLoose_of_pieces {parts : List Part}
    (separators : (pieces parts).all Lexeme.isSeparator = true) : parts.all isLoose = true := by
  induction parts with
  | nil => rfl
  | cons part parts ih =>
    cases part with
    | blank => simpa [isLoose] using ih separators
    | piece p =>
      rw [pieces_piece, List.all_cons, Bool.and_eq_true] at separators
      simp [isLoose, separators.1, ih separators.2]

end Part

/-- The source of a statement, from its first piece to its last, with all that stands between them.
Only blanks and separators are in front of it. -/
structure Statement.Sourced (op : List Char) (s : Statement) (lead source : List Part) : Prop where
  lead : lead.all Part.isLoose = true
  spelled : s.Spelled op (Part.pieces source)
  first : ∃ p others, source = .piece p :: others
  last : ∃ others p, source = others ++ [.piece p]

namespace Statement.Sourced

variable {op : List Char} {s : Statement} {lead source : List Part}

/-- The last piece of a statement ends in a character that may not be passed. -/
theorem endsSolid (sourced : s.Sourced op lead source) {cs : List Char}
    (inside : ∀ part ∈ source, part ∈ Part.ofText cs) : EndsSolid (Part.textOf source) := by
  obtain ⟨others, p, split⟩ := sourced.last
  have known := sourced.spelled.known
  have tells := sourced.spelled.endsTelling
  obtain ⟨c, t, r, first⟩ := Part.first_of_mem_ofText (inside (.piece p) (by simp [split]))
  rw [split, Part.pieces_append] at known tells
  obtain ⟨others', p', same, solid⟩ := tells
  obtain ⟨-, last⟩ := List.append_inj' same rfl
  obtain rfl := List.singleton_inj.mp last
  have whole : (Part.piece p).Whole := by
    refine ⟨?_, c, t, r, first⟩
    rintro x rfl
    exact known.stray_not_mem x (by simp)
  rw [split, Part.textOf_append]
  exact EndsSolid.append (by simpa [Part.text] using whole.endsSolid solid) _

/-- Among parts that spell a statement with separators around it is the source of the statement. -/
theorem exists_of_pieces {took : List Part} {left pieces seps left' : List Lexeme}
    (spelled : s.Spelled op pieces) (starts : ∃ p others, pieces = p :: others)
    (loose : left.all Lexeme.isSeparator = true) (loose' : left'.all Lexeme.isSeparator = true)
    (same : Part.pieces took ++ left' = left ++ (pieces ++ seps)) :
    ∃ lead source trail, took = lead ++ source ++ trail ∧ s.Sourced op lead source := by
  obtain ⟨others, q, rfl, tells⟩ := spelled.endsTelling
  -- What is left over are separators, and so the last piece of the statement is among the parts.
  have missing : q ∉ left' := by
    intro mem
    rw [List.all_eq_true.mp loose' q mem] at tells
    cases tells
  have reached : ∃ behind, Part.pieces took = left ++ others ++ q :: behind := by
    have same' : Part.pieces took ++ left' = (left ++ others) ++ q :: seps := by simpa using same
    rcases List.append_eq_append_iff.mp same' with ⟨more, -, rest⟩ | ⟨more, split, rest⟩
    · exact (missing (by simp [rest])).elim
    · cases more with
      | nil =>
        rw [List.nil_append] at rest
        exact (missing (rest ▸ List.mem_cons_self)).elim
      | cons x more =>
        rw [List.cons_append, List.cons.injEq] at rest
        exact ⟨more, by rw [split, rest.1]⟩
  obtain ⟨behind, reached⟩ := reached
  obtain ⟨front, trail, rfl, inFront, -⟩ := Part.split_pieces reached
  obtain ⟨p, others', starts⟩ := starts
  have whole : Part.pieces (front ++ [.piece q]) = left ++ p :: others' := by
    rw [Part.pieces_append, inFront, ← starts, List.append_assoc]
    rfl
  obtain ⟨lead, back, split, inLead, inBack⟩ := Part.split_pieces whole
  refine ⟨lead, .piece p :: back, trail, ?_, ?_, ?_, ⟨p, back, rfl⟩, ?_⟩
  · rw [← split, List.append_assoc]
    rfl
  · exact Part.isLoose_of_pieces (inLead ▸ loose)
  · rw [Part.pieces_piece, inBack, ← starts]
    exact spelled
  · rcases List.eq_nil_or_concat (.piece p :: back) with absurd | ⟨init, last, concat⟩
    · cases absurd
    · rw [concat, List.concat_eq_append, ← List.append_assoc] at split
      obtain ⟨-, same⟩ := List.append_inj' split rfl
      rw [concat, List.concat_eq_append, ← List.singleton_inj.mp same]
      exact ⟨init, q, rfl⟩

end Statement.Sourced

/-- Where the text stays as it was, a source that was gone over is settled. -/
theorem Statement.Sourced.settled {op : List Char} {s : Statement} {lead source trail : List Part}
    (sourced : s.Sourced op lead source) {c c' : Cursor} (same : c'.text = c.text)
    (splits : Part.ofText c.rest = lead ++ source ++ trail ++ Part.ofText c'.rest)
    (passes : c'.gapPasses = true) : c.before ++ Part.textOf (lead ++ source) <+: c'.settled := by
  have inside : ∀ part ∈ source, part ∈ Part.ofText c.rest := by
    intro part mem
    simp [splits, mem]
  have ends : EndsSolid (c.before ++ Part.textOf (lead ++ source)) := by
    rw [Part.textOf_append, ← List.append_assoc]
    exact (sourced.endsSolid inside).append _
  have rest := congrArg Part.textOf splits
  rw [Part.textOf_append, Part.textOf_ofText, Part.textOf_ofText] at rest
  rw [Cursor.text, Cursor.text, rest, ← List.append_assoc] at same
  have before := List.append_cancel_right same
  rw [Part.textOf_append, ← List.append_assoc] at before
  exact ends.isPrefix passes before

end DotText
