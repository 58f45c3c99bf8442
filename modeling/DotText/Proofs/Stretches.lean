import DotText.Cursor.Basic
import DotText.Edit.Marking
import DotText.Proofs.Parts

set_option autoImplicit false

/- What an edit leaves of a text, part by part. Every part of the text is kept or taken away, and
spaces are put in between parts; a comment is a part by itself. -/
namespace DotText

namespace Part

/-- The parts of a text: every landmark, every blank inside a line and every piece. -/
def ofText (cs : List Char) : List Part :=
  match _found : Blank.landmark? cs with
  | some (l, r) => .blank l :: ofText r
  | none =>
    match cs with
    | [] => []
    | c :: r =>
      if Blank.isInline c then .blank [c] :: ofText r
      else .piece (Lexeme.first c r).1 :: ofText (Lexeme.first c r).2
termination_by cs.length
decreasing_by
  · exact Blank.landmark?_length _found
  · simp
  · exact Nat.lt_succ_of_le (Lexeme.length_first c r)

theorem ofText_of_landmark {cs l r : List Char} (found : Blank.landmark? cs = some (l, r)) :
    ofText cs = .blank l :: ofText r := by
  rw [ofText]
  split
  · next found' =>
    rw [found] at found'
    cases found'
    rfl
  · next missing =>
    rw [found] at missing
    cases missing

theorem ofText_of_isInline {c : Char} (inline : Blank.isInline c = true) (r : List Char) :
    ofText (c :: r) = .blank [c] :: ofText r := by
  rw [ofText]
  split
  · next found =>
    rw [Blank.landmark?_of_isInline inline] at found
    cases found
  · exact if_pos inline

/-- Where a text is not insignificant, its first part is its first piece. -/
theorem ofText_of_skip {c : Char} {r : List Char} (solid : Blank.skip (c :: r) = c :: r) :
    ofText (c :: r) = .piece (Lexeme.first c r).1 :: ofText (Lexeme.first c r).2 := by
  rw [ofText]
  split
  · next l t found =>
    have shorter := Blank.landmark?_length found
    have behind := (Blank.skip_suffix t).length_le
    rw [← Blank.skip_of_landmark found, solid] at behind
    omega
  · refine if_neg fun inline => ?_
    have behind := (Blank.skip_suffix r).length_le
    rw [← Blank.skip_of_isInline inline, solid, List.length_cons] at behind
    omega

theorem textOf_ofText (cs : List Char) : textOf (ofText cs) = cs := by
  fun_induction ofText cs with
  | case1 cs l r found ih => rw [textOf_cons, ih, text, Blank.landmark?_append found]
  | case2 => rfl
  | case3 c r missing inline ih => rw [textOf_cons, ih]; rfl
  | case4 c r missing solid ih => rw [textOf_cons, ih, text, Lexeme.written_append_first]

theorem pieces_ofText (cs : List Char) : pieces (ofText cs) = Lexeme.all cs := by
  fun_induction ofText cs with
  | case1 cs l r found ih =>
    rw [pieces_blank, ih, ← Lexeme.all_skip r, ← Blank.skip_of_landmark found, Lexeme.all_skip]
  | case2 missing =>
    exact (Lexeme.all_of_skip_nil (by simp [Blank.skip, Blank.landmark?])).symm
  | case3 c r missing inline ih =>
    rw [pieces_blank, ih, ← Lexeme.all_skip r, ← Blank.skip_of_isInline inline, Lexeme.all_skip]
  | case4 c r missing solid ih =>
    have start : Blank.skip (c :: r) = c :: r := Blank.skip_eq_self missing (by simpa using solid)
    rw [pieces_piece, ih, Lexeme.all_of_skip_cons start]

/-- Whether a part is a comment, with the line end that closes it. -/
def isComment : Part → Bool
  | blank cs => cs.head?.any fun c => c == '#' || c == '/'
  | piece _ => false

/-- Whether a part says nothing: a blank, a line end or a separator. -/
def isSpare : Part → Bool
  | blank cs => !isComment (blank cs)
  | piece p => p.isSeparator

end Part

/-- A stretch of an edit: a part that is kept, a part that is taken away, or a space put in. -/
inductive Stretch where
  | kept (part : Part)
  | gone (part : Part)
  | space

namespace Stretch

def part? : Stretch → Option Part
  | kept part | gone part => some part
  | space => none

/-- The parts of the text before the edit. -/
def parts (ss : List Stretch) : List Part :=
  ss.filterMap part?

def text : Stretch → List Char
  | kept part => part.text
  | gone _ => []
  | space => [' ']

/-- The text after the edit. -/
def textOf (ss : List Stretch) : List Char :=
  ss.flatMap text

def mark? : Stretch → Option Mark
  | kept (.piece p) => some ⟨p, false⟩
  | gone (.piece p) => some ⟨p, true⟩
  | _ => none

/-- The pieces that are kept or taken away. -/
def marks (ss : List Stretch) : List Mark :=
  ss.filterMap mark?

/-- Whether a stretch is anything but a comment that is taken away. -/
def sparesComments : Stretch → Bool
  | gone part => !part.isComment
  | _ => true

/-- Whether a stretch can be given up: nothing is kept in it that says something. -/
def mayGo : Stretch → Bool
  | kept part => part.isSpare
  | _ => true

/-- Whether a space is put in only where none of these is in front: the start, a blank, a line end
and a semicolon. -/
def spacesApart (front : List Char) : List Stretch → Bool
  | [] => true
  | space :: ss =>
    front.getLast?.any (fun x => !(Separators.ofStatements.passes x || x == '\n')) &&
      spacesApart (front ++ [' ']) ss
  | s :: ss => spacesApart (front ++ s.text) ss

@[simp] theorem parts_nil : parts [] = [] := rfl

@[simp] theorem parts_append (ss others : List Stretch) :
    parts (ss ++ others) = parts ss ++ parts others :=
  List.filterMap_append

@[simp] theorem parts_kept (part : Part) (ss : List Stretch) :
    parts (kept part :: ss) = part :: parts ss := rfl

@[simp] theorem parts_space (ss : List Stretch) : parts (space :: ss) = parts ss := rfl

@[simp] theorem parts_map_gone (gone' : List Part) : parts (gone'.map gone) = gone' := by
  induction gone' with
  | nil => rfl
  | cons part gone' ih => exact congrArg (part :: ·) ih

@[simp] theorem parts_map_kept (kept' : List Part) : parts (kept'.map kept) = kept' := by
  induction kept' with
  | nil => rfl
  | cons part kept' ih => exact congrArg (part :: ·) ih

@[simp] theorem textOf_nil : textOf [] = [] := rfl

@[simp] theorem textOf_append (ss others : List Stretch) :
    textOf (ss ++ others) = textOf ss ++ textOf others :=
  List.flatMap_append

@[simp] theorem textOf_kept (part : Part) (ss : List Stretch) :
    textOf (kept part :: ss) = part.text ++ textOf ss := rfl

@[simp] theorem textOf_map_kept (kept' : List Part) :
    textOf (kept'.map kept) = Part.textOf kept' := by
  induction kept' with
  | nil => rfl
  | cons part kept' ih => exact congrArg (part.text ++ ·) ih

@[simp] theorem textOf_space (ss : List Stretch) : textOf (space :: ss) = ' ' :: textOf ss := rfl

@[simp] theorem textOf_map_gone (gone' : List Part) : textOf (gone'.map gone) = [] := by
  induction gone' with
  | nil => rfl
  | cons part gone' ih => exact ih

@[simp] theorem marks_nil : marks [] = [] := rfl

theorem marks_cons (s : Stretch) (ss : List Stretch) :
    marks (s :: ss) = s.mark?.toList ++ marks ss := by
  cases found : s.mark? <;> simp [marks, found]

@[simp] theorem marks_append (ss others : List Stretch) :
    marks (ss ++ others) = marks ss ++ marks others :=
  List.filterMap_append

@[simp] theorem marks_kept (part : Part) (ss : List Stretch) :
    marks (kept part :: ss) = Mark.all false (Part.pieces [part]) ++ marks ss := by
  cases part <;> rfl

@[simp] theorem marks_map_kept (kept' : List Part) :
    marks (kept'.map kept) = Mark.all false (Part.pieces kept') := by
  induction kept' with
  | nil => rfl
  | cons part kept' ih =>
    rw [List.map_cons, marks_kept, ih]
    cases part <;> rfl

@[simp] theorem marks_space (ss : List Stretch) : marks (space :: ss) = marks ss := rfl

@[simp] theorem marks_map_gone (gone' : List Part) :
    marks (gone'.map gone) = Mark.all true (Part.pieces gone') := by
  induction gone' with
  | nil => rfl
  | cons part gone' ih =>
    rw [List.map_cons, marks_cons, ih]
    cases part <;> rfl

@[simp] theorem spacesApart_append (front : List Char) (ss others : List Stretch) :
    spacesApart front (ss ++ others) =
      (spacesApart front ss && spacesApart (front ++ textOf ss) others) := by
  induction ss generalizing front with
  | nil => simp [spacesApart]
  | cons s ss ih => cases s <;> simp [spacesApart, ih, textOf, text, Bool.and_assoc]

@[simp] theorem spacesApart_kept (front : List Char) (part : Part) :
    spacesApart front [kept part] = true := rfl

@[simp] theorem spacesApart_map_kept (front : List Char) (kept' : List Part) :
    spacesApart front (kept'.map kept) = true := by
  induction kept' generalizing front with
  | nil => rfl
  | cons part kept' ih => exact ih _

@[simp] theorem spacesApart_map_gone (front : List Char) (gone' : List Part) :
    spacesApart front (gone'.map gone) = true := by
  induction gone' generalizing front with
  | nil => rfl
  | cons part gone' ih => exact ih _

/-- What can be given up takes no comment along. -/
theorem sparesComments_of_mayGo {ss : List Stretch} (light : ss.all mayGo = true)
    (spares : ss.all sparesComments = true) :
    ((parts ss).map gone).all sparesComments = true := by
  induction ss with
  | nil => rfl
  | cons s ss ih =>
    rw [List.all_cons, Bool.and_eq_true] at light spares
    have others := ih light.2 spares.2
    cases s with
    | space => exact others
    | gone part => simpa [parts, part?, spares.1] using others
    | kept part =>
      have plain : part.isComment = false := by
        cases part with
        | blank => simpa [mayGo, Part.isSpare] using light.1
        | piece => rfl
      simpa [parts, part?, sparesComments, plain] using others

/-- What is given up said nothing. -/
theorem significant_of_mayGo {ss : List Stretch} (light : ss.all mayGo = true) :
    (marks ((parts ss).map gone)).filter (!·.lexeme.isSeparator) =
      (marks ss).filter (!·.lexeme.isSeparator) := by
  induction ss with
  | nil => rfl
  | cons s ss ih =>
    rw [List.all_cons, Bool.and_eq_true] at light
    have others := ih light.2
    cases s with
    | space => exact others
    | gone part =>
      have split : parts (gone part :: ss) = part :: parts ss := rfl
      rw [split, List.map_cons, marks_cons, marks_cons, List.filter_append, others,
        List.filter_append]
    | kept part =>
      rw [parts_kept, List.map_cons, marks_cons, marks_cons, List.filter_append, others,
        List.filter_append]
      cases part with
      | blank => rfl
      | piece p =>
        have separator : p.isSeparator = true := light.1
        simp [mark?, separator]

end Stretch

namespace Cursor

/-- The text behind a cursor is what an edit leaves of a text. No comment goes in it, no space
stands behind something that keeps words apart, and nothing in the gap says something and is
kept. -/
structure Aligned (c : Cursor) (front back : List Stretch) : Prop where
  settled : c.settled = Stretch.textOf front
  gap : c.gap = Stretch.textOf back
  spares : (front ++ back).all Stretch.sparesComments = true
  light : back.all Stretch.mayGo = true
  spaces : Stretch.spacesApart [] (front ++ back) = true

theorem aligned_ofText (cs : List Char) : (ofText cs).Aligned [] [] :=
  ⟨rfl, rfl, rfl, rfl, rfl⟩

theorem Aligned.before {c : Cursor} {front back : List Stretch} (aligned : c.Aligned front back) :
    c.before = Stretch.textOf (front ++ back) := by
  rw [Cursor.before, aligned.settled, aligned.gap, Stretch.textOf_append]

/-- A cursor takes the edit further, over some pieces: no part of the text is lost, and of what says
something those pieces are kept and taken away that the marks tell. -/
def Aligns (c : Cursor) (marks : List Mark) (c' : Cursor) : Prop :=
  ∀ front back : List Stretch, c.Aligned front back → ∃ front' back', c'.Aligned front' back' ∧
    Stretch.parts (front' ++ back') ++ Part.ofText c'.rest =
      Stretch.parts (front ++ back) ++ Part.ofText c.rest ∧
    (Stretch.marks (front' ++ back')).filter (!·.lexeme.isSeparator) =
      (Stretch.marks (front ++ back)).filter (!·.lexeme.isSeparator) ++
        marks.filter (!·.lexeme.isSeparator)

namespace Aligns

variable {c c' c'' : Cursor} {marks others : List Mark} {part : Part} {r : List Char}

theorem of_same (settled : c'.settled = c.settled) (gap : c'.gap = c.gap)
    (rest : c'.rest = c.rest) : Aligns c [] c' := by
  intro S G aligned
  refine ⟨S, G, ⟨?_, ?_, aligned.spares, aligned.light, aligned.spaces⟩, by rw [rest], by simp⟩
  · rw [settled, aligned.settled]
  · rw [gap, aligned.gap]

theorem trans (first : Aligns c marks c') (second : Aligns c' others c'') :
    Aligns c (marks ++ others) c'' := by
  intro S G aligned
  obtain ⟨S', G', aligned', whole, same⟩ := first S G aligned
  obtain ⟨S'', G'', aligned'', whole', same'⟩ := second S' G' aligned'
  refine ⟨S'', G'', aligned'', whole'.trans whole, ?_⟩
  rw [same', same, List.filter_append, List.append_assoc]

/-- The first part of the rest is kept, and all behind the new place is settled. -/
theorem keep (splits : Part.ofText c.rest = part :: Part.ofText r) :
    Aligns c (Mark.all false (Part.pieces [part])) (c.keep part.text r) := by
  intro S G aligned
  refine ⟨S ++ G ++ [.kept part], [], ⟨?_, rfl, ?_, rfl, ?_⟩, ?_, ?_⟩
  · simp [Cursor.keep, aligned.before]
  · rw [List.append_nil, List.all_append, aligned.spares]
    rfl
  · rw [List.append_nil, Stretch.spacesApart_append, aligned.spaces]
    rfl
  · simp [Cursor.keep, splits]
  · simp

/-- The first part of the rest stays in the gap, if it says nothing. -/
theorem pass (spare : part.isSpare = true) (splits : Part.ofText c.rest = part :: Part.ofText r) :
    Aligns c (Mark.all false (Part.pieces [part]))
      { c with gap := c.gap ++ part.text, rest := r } := by
  intro S G aligned
  refine ⟨S, G ++ [.kept part], ⟨aligned.settled, ?_, ?_, ?_, ?_⟩, ?_, ?_⟩
  · simp [aligned.gap]
  · rw [← List.append_assoc, List.all_append, aligned.spares]
    rfl
  · rw [List.all_append, aligned.light]
    simp [Stretch.mayGo, spare]
  · rw [← List.append_assoc, Stretch.spacesApart_append, aligned.spaces]
    rfl
  · simp [splits]
  · simp

/-- Parts that are no comments can be taken away. -/
theorem cut {gone : List Part} (plain : gone.all (!·.isComment) = true)
    (splits : Part.ofText c.rest = gone ++ Part.ofText r) :
    Aligns c (Mark.all true (Part.pieces gone)) (c.cut r) := by
  intro S G aligned
  refine ⟨S, G ++ gone.map .gone, ⟨aligned.settled, ?_, ?_, ?_, ?_⟩, ?_, ?_⟩
  · simp [Cursor.cut, aligned.gap]
  · rw [← List.append_assoc, List.all_append, aligned.spares, Bool.true_and, List.all_map]
    exact plain
  · rw [List.all_append, aligned.light, Bool.true_and, List.all_map]
    exact List.all_eq_true.mpr fun _ _ => rfl
  · rw [← List.append_assoc, Stretch.spacesApart_append, aligned.spaces,
      Stretch.spacesApart_map_gone]
    rfl
  · simp [Cursor.cut, splits]
  · simp

/-- With the gap goes what was kept in it. -/
theorem giveUpGap (settled : c'.settled = c.settled) (gap : c'.gap = [])
    (rest : c'.rest = c.rest) : Aligns c [] c' := by
  intro S G aligned
  have spares := aligned.spares
  have spaces := aligned.spaces
  rw [List.all_append, Bool.and_eq_true] at spares
  rw [Stretch.spacesApart_append, Bool.and_eq_true] at spaces
  refine ⟨S, (Stretch.parts G).map .gone, ⟨?_, ?_, ?_, ?_, ?_⟩, ?_, ?_⟩
  · rw [settled, aligned.settled]
  · rw [gap, Stretch.textOf_map_gone]
  · rw [List.all_append, spares.1, Stretch.sparesComments_of_mayGo aligned.light spares.2]
    rfl
  · rw [List.all_map]
    exact List.all_eq_true.mpr fun _ _ => rfl
  · rw [Stretch.spacesApart_append, spaces.1, Stretch.spacesApart_map_gone]
    rfl
  · simp [rest]
  · rw [Stretch.marks_append, Stretch.marks_append, List.filter_append, List.filter_append,
      Stretch.significant_of_mayGo aligned.light, List.filter_nil, List.append_nil]

/-- A space may be put in where nothing keeps words apart. -/
theorem insertSpace (joined : c.followsSeparator = false) : Aligns c [] (c.insert [' ']) := by
  intro S G aligned
  refine ⟨S, G ++ [.space], ⟨aligned.settled, ?_, ?_, ?_, ?_⟩, ?_, ?_⟩
  · simp [Cursor.insert, aligned.gap]
  · rw [← List.append_assoc, List.all_append, aligned.spares]
    rfl
  · rw [List.all_append, aligned.light]
    rfl
  · have ends : (Stretch.textOf (S ++ G)).getLast?.any
        (fun x => !(Separators.ofStatements.passes x || x == '\n')) = true := by
      rw [← aligned.before]
      unfold followsSeparator at joined
      cases last : c.before.getLast? with
      | none => simp [last] at joined
      | some x => simpa [last] using joined
    rw [← List.append_assoc, Stretch.spacesApart_append, aligned.spaces, List.nil_append,
      Stretch.spacesApart, ends]
    rfl
  · simp [Cursor.insert]
  · simp

end Aligns

end Cursor

end DotText
