import DotText.Proofs.Joints
import DotText.Proofs.Reading.Complete
import DotText.Proofs.Reading.Sound
import DotText.Proofs.Separators
import DotText.Proofs.Spellings

set_option autoImplicit false

/- A tree is fixed by what its text says: the separators in a text decide nothing, and no text that
puts two pieces together says the same as the pieces. -/
namespace DotText

open Lexeme (Drops)
open DotText.Part (textOf pieces apart)

theorem Lexeme.drops_filter (ls : List Lexeme) : Drops ls (ls.filter (!·.isSeparator)) := by
  induction ls with
  | nil => exact .nil
  | cons p ls ih =>
    cases p with
    | separator c => exact .drop ih
    | _ => exact .keep ih

namespace Part

/-- Pieces with a blank behind each. -/
def spaced (ps : List Lexeme) : List Part :=
  ps.flatMap fun p => [.piece p, .blank [' ']]

theorem pieces_spaced (ps : List Lexeme) : pieces (spaced ps) = ps := by
  induction ps with
  | nil => rfl
  | cons p ps ih => exact congrArg (p :: ·) ih

theorem apart_spaced (ps : List Lexeme) : apart [] (spaced ps) = true := by
  induction ps with
  | nil => rfl
  | cons p ps ih =>
    have ends : p.extendedBy ' ' = false := extendedBy_of_endsPieces (by decide) p
    have first : (textOf (.blank [' '] :: spaced ps) ++ []).head? = some ' ' := rfl
    have split : spaced (p :: ps) = .piece p :: .blank [' '] :: spaced ps := rfl
    rw [split, apart, first, Option.any_some, ends, apart, ih]
    rfl

theorem whole_spaced {ps : List Lexeme} (whole : ∀ p ∈ ps, (piece p).Whole) :
    ∀ part ∈ spaced ps, part.Whole := by
  intro part mem
  obtain ⟨p, inside, mem⟩ := List.mem_flatMap.mp mem
  simp only [List.mem_cons, List.not_mem_nil, or_false] at mem
  rcases mem with rfl | rfl
  · exact whole p inside
  · exact ⟨by simp, fun r => Blank.skip_of_isInline (by decide) r⟩

/-- Known pieces are those of some text. -/
theorem exists_text {ps : List Lexeme} (whole : ∀ p ∈ ps, (piece p).Whole) :
    ∃ cs, Lexeme.all cs = ps := by
  have all := all_textOf (whole_spaced whole) (apart_spaced ps)
  have none : Lexeme.all [] = [] := Lexeme.all_of_skip_nil (by simp [Blank.skip, Blank.landmark?])
  rw [pieces_spaced, none, List.append_nil, List.append_nil] at all
  exact ⟨_, all⟩

end Part

/-- Trees are the same if their spellings say the same. -/
theorem Graph.Marked.unique {g g' : Graph} {target target' : Target} {marks marks' : List Mark}
    (marked : g.Marked target marks) (marked' : g'.Marked target' marks')
    (whole : ∀ p ∈ Mark.lexemes marks, (Part.piece p).Whole)
    (same : (Mark.lexemes marks).filter (!·.isSeparator) =
      (Mark.lexemes marks').filter (!·.isSeparator)) : g = g' := by
  obtain ⟨left, spells, split⟩ := marked.drops (Lexeme.drops_filter _)
  obtain ⟨left', spells', split'⟩ := marked'.drops (Lexeme.drops_filter _)
  obtain ⟨cs, text⟩ := Part.exists_text fun p mem => whole p (List.mem_filter.mp mem).1
  have read := Graph.read_of_marked spells (text.trans split.symm)
  have read' := Graph.read_of_marked spells' (text.trans (same.trans split'.symm))
  exact Except.ok.inj (read.symm.trans read')

/-- Where a text is read as the tree that its parts spell, the parts are apart. -/
theorem Graph.Marked.apart_of_read {g : Graph} {target : Target} {marks : List Mark}
    (marked : g.Marked target marks) {parts : List Part} (whole : ∀ part ∈ parts, part.Whole)
    {tail : List Char} (blank : Blank.skip tail = [])
    (same : (pieces parts).filter (!·.isSeparator) =
      (Mark.lexemes marks).filter (!·.isSeparator))
    (read : Graph.read (textOf parts ++ tail) = .ok g) : apart [] parts = true := by
  rw [← Bool.not_eq_false]
  intro joined
  rw [← Part.apart_of_blank blank] at joined
  obtain ⟨before, p, q, behind, other, behind', split, split', alters, running⟩ :=
    Part.joint whole (Part.endsPieces_of_blank blank) joined
  obtain ⟨marks', marked', all⟩ := Graph.marked_of_read read target
  obtain ⟨left, spells, first⟩ := marked.drops (Lexeme.drops_filter _)
  obtain ⟨left', spells', second⟩ := marked'.drops (Lexeme.drops_filter _)
  have alike := spells.alike spells'
  rw [first, ← same, split, second, ← all] at alike
  rw [Lexeme.significant] at split'
  rw [split'] at alike
  exact alters.not_exchanges running _ _
    (alike.exchanges alters.ne alters.isRunning.1 alters.isRunning.2)

end DotText
