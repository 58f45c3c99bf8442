import DotText.Proofs.Relexing

set_option autoImplicit false

/- A text as parts put one behind another: insignificant material and pieces. The pieces of the text
are those of its parts exactly where no part goes on with the piece before it. -/
namespace DotText

/-- A part of a text. -/
inductive Part where
  | blank (cs : List Char)
  | piece (piece : Lexeme)
  deriving DecidableEq

namespace Part

def text : Part → List Char
  | blank cs => cs
  | piece p => p.written

def piece? : Part → Option Lexeme
  | blank _ => none
  | piece p => some p

def textOf (parts : List Part) : List Char :=
  parts.flatMap text

def pieces (parts : List Part) : List Lexeme :=
  parts.filterMap piece?

/-- Insignificant material that is over where the part is, and pieces that are known. -/
def Whole : Part → Prop
  | blank cs => cs ≠ [] ∧ ∀ r, Blank.skip (cs ++ r) = Blank.skip r
  | piece p => (∀ x, p ≠ .stray x) ∧ ∃ c cs r, Lexeme.first c cs = (p, r)

/-- Whether no piece is gone on with by what comes behind it, with `tail` behind all parts. -/
def apart (tail : List Char) : List Part → Bool
  | [] => true
  | blank _ :: parts => apart tail parts
  | piece p :: parts => !(textOf parts ++ tail).head?.any p.extendedBy && apart tail parts

@[simp] theorem textOf_nil : textOf [] = [] := rfl

@[simp] theorem textOf_cons (part : Part) (parts : List Part) :
    textOf (part :: parts) = part.text ++ textOf parts := rfl

@[simp] theorem textOf_append (parts others : List Part) :
    textOf (parts ++ others) = textOf parts ++ textOf others :=
  List.flatMap_append

@[simp] theorem pieces_nil : pieces [] = [] := rfl

@[simp] theorem pieces_blank (cs : List Char) (parts : List Part) :
    pieces (blank cs :: parts) = pieces parts := rfl

@[simp] theorem pieces_piece (p : Lexeme) (parts : List Part) :
    pieces (piece p :: parts) = p :: pieces parts := rfl

@[simp] theorem pieces_append (parts others : List Part) :
    pieces (parts ++ others) = pieces parts ++ pieces others :=
  List.filterMap_append

theorem whole_of_mem_pieces {parts : List Part} (whole : ∀ part ∈ parts, part.Whole) {p : Lexeme}
    (mem : p ∈ pieces parts) : (piece p).Whole := by
  obtain ⟨part, inside, found⟩ := List.mem_filterMap.mp mem
  cases part with
  | blank => cases found
  | piece =>
    cases found
    exact whole _ inside

theorem Whole.all_append {p : Lexeme} (whole : (piece p).Whole) {r : List Char}
    (ends : r.head?.any p.extendedBy = false) :
    Lexeme.all (p.written ++ r) = p :: Lexeme.all r := by
  obtain ⟨known, c, cs, r', first⟩ := whole
  obtain ⟨t, split, again⟩ := Lexeme.first_append first known ends
  have opens := Lexeme.opens_first c t
  rw [again] at opens
  rw [split]
  exact (Lexeme.takes_of_opens opens known).1

/-- Parts that are apart make up a text with their pieces. -/
theorem all_textOf {parts : List Part} (whole : ∀ part ∈ parts, part.Whole) {tail : List Char}
    (separate : apart tail parts = true) :
    Lexeme.all (textOf parts ++ tail) = pieces parts ++ Lexeme.all tail := by
  induction parts with
  | nil => rfl
  | cons part parts ih =>
    have rest := fun part mem => whole part (List.mem_cons_of_mem _ mem)
    have this := whole part List.mem_cons_self
    rw [textOf_cons, List.append_assoc]
    cases part with
    | blank cs =>
      rw [pieces_blank, ← ih rest separate, text, ← Lexeme.all_skip, this.2, Lexeme.all_skip]
    | piece p =>
      rw [apart, Bool.and_eq_true, Bool.not_eq_true'] at separate
      rw [text, this.all_append separate.1, ih rest separate.2]
      rfl

/-- The characters that no piece goes on with. -/
def endsPieces (c : Char) : Bool :=
  !Ident.isRest c && c != '.'

/-- Insignificant material begins as such. -/
theorem Whole.mayBegin {cs : List Char} (whole : (blank cs).Whole) :
    ∃ c t, cs = c :: t ∧ Blank.mayBegin c = true := by
  obtain ⟨some, vanishes⟩ := whole
  cases cs with
  | nil => exact absurd rfl some
  | cons c t =>
    refine ⟨c, t, rfl, ?_⟩
    cases begins : Blank.mayBegin c with
    | true => rfl
    | false =>
      have gone := vanishes []
      rw [List.cons_append, Blank.skip_of_not_mayBegin begins] at gone
      simp [Blank.skip, Blank.landmark?] at gone

theorem endsPieces_of_mayBegin {c : Char} (blank : Blank.mayBegin c = true) :
    endsPieces c = true := by
  have listed : c ∈ [' ', '\t', '\r', '\n', '#', '/'] := by
    simpa [Blank.mayBegin, Blank.isInline, or_assoc] using blank
  have ends : ∀ x ∈ [' ', '\t', '\r', '\n', '#', '/'], endsPieces x = true :=
    forall_mem_of_all (by decide)
  exact ends c listed

theorem extendedBy_of_endsPieces {c : Char} (ends : endsPieces c = true) (p : Lexeme) :
    p.extendedBy c = false := by
  simp only [endsPieces, Bool.and_eq_true, Bool.not_eq_true', bne_iff_ne] at ends
  have digit : c.isDigit = false := by
    have rest := ends.1
    simp only [Ident.isRest, Bool.or_eq_false_iff] at rest
    exact rest.2
  cases p with
  | word => exact ends.1
  | numeral => simp [Lexeme.extendedBy, Ident.extendsNumeral, digit, ends.2]
  | _ => rfl

theorem apart_append (parts others : List Part) (tail : List Char) :
    apart tail (parts ++ others) = (apart (textOf others ++ tail) parts && apart tail others) := by
  induction parts with
  | nil => rfl
  | cons part parts ih =>
    cases part with
    | blank => simpa [apart] using ih
    | piece p => simp [apart, ih, Bool.and_assoc]

/-- Parts that are apart in front of a text are apart by themselves. -/
theorem apart_nil_of_apart {parts : List Part} {tail : List Char}
    (separate : apart tail parts = true) : apart [] parts = true := by
  induction parts with
  | nil => rfl
  | cons part parts ih =>
    cases part with
    | blank => exact ih separate
    | piece p =>
      rw [apart, Bool.and_eq_true, Bool.not_eq_true'] at separate ⊢
      refine ⟨?_, ih separate.2⟩
      have ends := separate.1
      cases behind : textOf parts with
      | nil => rfl
      | cons c t =>
        rw [behind] at ends
        exact ends

/-- In front of a character that no piece goes on with, parts are apart if they are by
themselves. -/
theorem apart_of_endsPieces {parts : List Part} {tail : List Char}
    (ends : ∀ c, tail.head? = some c → endsPieces c = true) :
    apart tail parts = apart [] parts := by
  induction parts with
  | nil => rfl
  | cons part parts ih =>
    cases part with
    | blank => exact ih
    | piece p =>
      rw [apart, apart, ih]
      cases behind : textOf parts with
      | nil =>
        cases tail with
        | nil => rfl
        | cons c t => simp [extendedBy_of_endsPieces (ends c rfl) p]
      | cons c t => rfl

end Part

end DotText
