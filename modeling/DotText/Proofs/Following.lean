import DotText.Edit.Conditions
import DotText.Proofs.Joints
import DotText.Proofs.Separators
import DotText.Proofs.Settling
import DotText.Proofs.Stretches

set_option autoImplicit false

/- What a cursor does to the pieces of a text. It goes over pieces, each kept or taken away, and the
text behind it is made of parts: the kept pieces, but for separators that went with a gap, and
insignificant material. -/
namespace DotText

open Lexeme (Drops)

namespace Blank

theorem splitLine_closed {cs : List Char} (more : (splitLine cs).2 ≠ []) (r' : List Char) :
    splitLine ((splitLine cs).1 ++ r') = ((splitLine cs).1, r') := by
  induction cs with
  | nil => exact absurd rfl more
  | cons c cs ih =>
    by_cases ends : c = '\n'
    · simp [splitLine, ends]
    · simp only [splitLine, if_neg ends] at more ⊢
      simp [splitLine, ends, ih more]

theorem splitBlock_ne_nil {cs : List Char} (more : (splitBlock cs).2 ≠ []) :
    (splitBlock cs).1 ≠ [] := by
  fun_cases splitBlock cs
  · exact absurd rfl more
  · simp
  · simp

theorem splitBlock_closed {cs : List Char} (more : (splitBlock cs).2 ≠ []) (r' : List Char) :
    splitBlock ((splitBlock cs).1 ++ r') = ((splitBlock cs).1, r') := by
  fun_induction splitBlock cs with
  | case1 => exact absurd rfl more
  | case2 cs => rfl
  | case3 c cs unclosed ih =>
    rw [List.cons_append, splitBlock, ih more]
    rintro t rfl behind
    have whole : (splitBlock cs).1 ++ (splitBlock cs).2 = cs := splitBlock_append cs
    cases shape : (splitBlock cs).1 with
    | nil => exact splitBlock_ne_nil more shape
    | cons x w =>
      rw [shape, List.cons_append, List.cons.injEq] at behind
      rw [shape, List.cons_append, behind.1] at whole
      exact unclosed _ rfl whole.symm

/-- A landmark with something behind it is over where it ends. -/
theorem landmark?_closed {cs l r : List Char} (found : landmark? cs = some (l, r)) (more : r ≠ [])
    (r' : List Char) : landmark? (l ++ r') = some (l, r') := by
  unfold landmark? at found
  split at found
  · cases found
    rfl
  · next t =>
    cases found
    simp [landmark?, splitLine_closed more]
  · next t =>
    cases found
    simp [landmark?, splitLine_closed more]
  · next t =>
    cases found
    simp [landmark?, splitBlock_closed more]
  · cases found

theorem splitLine_endsSolid {cs : List Char} (more : (splitLine cs).2 ≠ []) :
    EndsSolid (splitLine cs).1 := by
  induction cs with
  | nil => exact absurd rfl more
  | cons c cs ih =>
    by_cases ends : c = '\n'
    · simpa [splitLine, ends] using EndsSolid.single (x := '\n') rfl
    · simp only [splitLine, if_neg ends] at more ⊢
      exact (ih more).cons c

theorem splitBlock_endsSolid {cs : List Char} (more : (splitBlock cs).2 ≠ []) :
    EndsSolid (splitBlock cs).1 := by
  fun_induction splitBlock cs with
  | case1 => exact absurd rfl more
  | case2 cs => exact (EndsSolid.single rfl).cons '*'
  | case3 c cs unclosed ih => exact (ih more).cons c

/-- A landmark with something behind it ends in a line end or in the end of a comment. -/
theorem landmark?_endsSolid {cs l r : List Char} (found : landmark? cs = some (l, r))
    (more : r ≠ []) : EndsSolid l := by
  unfold landmark? at found
  split at found
  · cases found
    exact .single rfl
  · next t =>
    cases found
    exact (splitLine_endsSolid more).cons '#'
  · next t =>
    cases found
    exact (splitLine_endsSolid more).append ['/', '/']
  · next t =>
    cases found
    exact (splitBlock_endsSolid more).append ['/', '*']
  · cases found

end Blank

namespace Part

theorem whole_inline {c : Char} (inline : Blank.isInline c = true) : (blank [c]).Whole :=
  ⟨by simp, fun r => Blank.skip_of_isInline inline r⟩

theorem whole_landmark {cs l r : List Char} (found : Blank.landmark? cs = some (l, r))
    (more : r ≠ []) : (blank l).Whole :=
  ⟨Blank.landmark?_ne_nil found,
    fun r' => Blank.skip_of_landmark (Blank.landmark?_closed found more r')⟩

theorem whole_separator {c : Char} (listed : c = ',' ∨ c = ';') :
    (piece (.separator c)).Whole :=
  ⟨by simp, c, [], [],
    Lexeme.first_of_opens (.separator c) ⟨listed, rfl, rfl⟩ (by simp)⟩

/-- Insignificant material and separators. -/
def isLoose : Part → Bool
  | blank _ => true
  | piece p => p.isSeparator

theorem isLoose_of_isSpare {part : Part} (spare : part.isSpare = true) : part.isLoose = true := by
  cases part with
  | blank => rfl
  | piece => exact spare

theorem plain_of_isSpare {parts : List Part} (spare : parts.all isSpare = true) :
    parts.all (!·.isComment) = true := by
  rw [List.all_eq_true] at spare ⊢
  intro part mem
  cases part with
  | blank => exact spare _ mem
  | piece => rfl

theorem pieces_of_isLoose {parts : List Part} (loose : parts.all isLoose = true) :
    (pieces parts).all Lexeme.isSeparator = true := by
  induction parts with
  | nil => rfl
  | cons part parts ih =>
    rw [List.all_cons, Bool.and_eq_true] at loose
    cases part with
    | blank => exact ih loose.2
    | piece p =>
      have first : p.isSeparator = true := loose.1
      simp [first, ih loose.2]

/-- No piece is gone on with by insignificant material or a separator. -/
theorem endsPieces_of_isLoose {part : Part} (whole : part.Whole) (loose : part.isLoose = true) :
    ∃ c t, part.text = c :: t ∧ endsPieces c = true := by
  cases part with
  | blank cs =>
    obtain ⟨c, t, rfl, begins⟩ := whole.mayBegin
    exact ⟨c, t, rfl, endsPieces_of_mayBegin begins⟩
  | piece p =>
    obtain ⟨-, c, cs, r, first⟩ := whole
    have opens := Lexeme.opens_first c cs
    rw [first] at opens
    cases p with
    | separator x =>
      refine ⟨x, [], rfl, ?_⟩
      obtain ⟨listed, rfl, -⟩ := opens
      rcases listed with rfl | rfl <;> decide
    | _ => cases loose

theorem apart_of_isLoose {parts : List Part} (loose : parts.all isLoose = true)
    (tail : List Char) : apart tail parts = true := by
  induction parts with
  | nil => rfl
  | cons part parts ih =>
    rw [List.all_cons, Bool.and_eq_true] at loose
    cases part with
    | blank => exact ih loose.2
    | piece p =>
      have separator : p.isSeparator = true := loose.1
      cases p with
      | separator =>
        rw [apart, ih loose.2]
        cases textOf parts ++ tail <;> rfl
      | _ => cases separator

/-- Insignificant material and separators behind some parts keep them as far apart as they are. -/
theorem apart_append_loose {parts others : List Part} (whole : ∀ part ∈ others, part.Whole)
    (loose : others.all isLoose = true) : apart [] (parts ++ others) = apart [] parts := by
  rw [apart_append, apart_of_isLoose loose [], Bool.and_true]
  apply apart_of_endsPieces
  intro c first
  cases others with
  | nil => cases first
  | cons part others =>
    rw [List.all_cons, Bool.and_eq_true] at loose
    obtain ⟨x, t, split, ends⟩ := endsPieces_of_isLoose (whole part List.mem_cons_self) loose.1
    rw [List.append_nil, textOf_cons, split] at first
    cases first
    exact ends

end Part

open DotText.Part (textOf pieces apart)

namespace Cursor

/-- The text behind a cursor is made of these parts: `parts` are settled, and `loose` is the gap. -/
structure Made (c : Cursor) (parts loose : List Part) : Prop where
  settled : c.settled = textOf parts
  gap : c.gap = textOf loose
  whole : ∀ part ∈ parts ++ loose, part.Whole
  isLoose : loose.all Part.isLoose = true

theorem Made.before {c : Cursor} {parts loose : List Part} (made : c.Made parts loose) :
    c.before = textOf (parts ++ loose) := by
  rw [Cursor.before, made.settled, made.gap, Part.textOf_append]

/-- What is settled, if anything is, ends in a token or a landmark, and so in no blank. -/
def EndsSettled (c : Cursor) : Prop :=
  c.settled = [] ∨ EndsSolid c.settled

theorem endsSettled_keep {c : Cursor} {kept : List Char} (ends : EndsSolid kept) (r : List Char) :
    (c.keep kept r).EndsSettled :=
  .inr (ends.append c.before)

/-- A cursor goes over some pieces. What it keeps is behind it then, but for separators; and the
parts there are apart exactly if they were before and `fits` holds. -/
structure Follows (fits : Bool) (c : Cursor) (marks : List Mark) (c' : Cursor) : Prop where
  splits : ∃ took, Part.ofText c.rest = took ++ Part.ofText c'.rest ∧
    pieces took = Mark.lexemes marks
  aligns : Aligns c marks c'
  makes : ∀ {parts loose : List Part}, c.Made parts loose → ∃ parts' loose', c'.Made parts' loose' ∧
    Drops (pieces (parts ++ loose) ++ Mark.survivors marks) (pieces (parts' ++ loose')) ∧
    apart [] (parts' ++ loose') = (apart [] (parts ++ loose) && fits)
  ends : c.EndsSettled → c'.EndsSettled

namespace Follows

theorem suffix {fits : Bool} {c c' : Cursor} {marks : List Mark}
    (follows : Follows fits c marks c') : c'.rest <:+ c.rest := by
  obtain ⟨took, splits, -⟩ := follows.splits
  have whole := congrArg textOf splits
  rw [Part.textOf_append, Part.textOf_ofText, Part.textOf_ofText] at whole
  exact ⟨textOf took, whole.symm⟩

theorem takes {fits : Bool} {c c' : Cursor} {marks : List Mark}
    (follows : Follows fits c marks c') :
    Lexeme.all c.rest = Mark.lexemes marks ++ Lexeme.all c'.rest := by
  obtain ⟨took, splits, said⟩ := follows.splits
  have whole := congrArg pieces splits
  rwa [Part.pieces_append, Part.pieces_ofText, Part.pieces_ofText, said] at whole

theorem refl (c : Cursor) : Follows true c [] c :=
  ⟨⟨[], rfl, rfl⟩, .of_same rfl rfl rfl,
    fun made => ⟨_, _, made, by simpa using Drops.refl _, by simp⟩, id⟩

theorem trans {fits fits' : Bool} {c c' c'' : Cursor} {marks others : List Mark}
    (first : Follows fits c marks c') (second : Follows fits' c' others c'') :
    Follows (fits && fits') c (marks ++ others) c'' := by
  obtain ⟨took, splits, said⟩ := first.splits
  obtain ⟨took', splits', said'⟩ := second.splits
  refine ⟨⟨took ++ took', ?_, ?_⟩, first.aligns.trans second.aligns, fun made => ?_,
    second.ends ∘ first.ends⟩
  · rw [splits, splits', List.append_assoc]
  · rw [Part.pieces_append, said, said', Mark.lexemes_append]
  obtain ⟨parts, loose, made', drops, separate⟩ := first.makes made
  obtain ⟨parts', loose', made'', drops', separate'⟩ := second.makes made'
  refine ⟨parts', loose', made'', ?_, by rw [separate', separate, Bool.and_assoc]⟩
  have joined := (drops.append (Drops.refl (Mark.survivors others))).trans drops'
  simpa using joined

/-- Moving past a landmark that is over there. -/
theorem keepLandmark {c : Cursor} {l r : List Char} (found : Blank.landmark? c.rest = some (l, r))
    (more : r ≠ []) : Follows true c [] (c.keep l r) := by
  have whole := Part.whole_landmark found more
  have splits := Part.ofText_of_landmark found
  refine ⟨⟨[.blank l], splits, rfl⟩, .keep splits, fun {parts loose} made => ?_,
    fun _ => endsSettled_keep (Blank.landmark?_endsSolid found more) r⟩
  refine ⟨parts ++ loose ++ [.blank l], [], ⟨?_, rfl, ?_, rfl⟩, ?_, ?_⟩
  · simp [keep, made.before, Part.text]
  · simpa [or_imp, forall_and, whole] using made.whole
  · simpa using Drops.refl _
  · simp only [List.append_nil, Bool.and_true]
    exact Part.apart_append_loose (by simpa using whole) rfl

/-- Moving past insignificant material or a separator can leave it in the gap. -/
theorem pass {c : Cursor} {part : Part} {r : List Char} (whole : part.Whole)
    (spare : part.isSpare = true) (splits : Part.ofText c.rest = part :: Part.ofText r) :
    Follows true c (Mark.all false (pieces [part]))
      { c with gap := c.gap ++ part.text, rest := r } := by
  have single : ∀ other ∈ [part], other.Whole := by simpa using whole
  have isLoose := Part.isLoose_of_isSpare spare
  refine ⟨⟨[part], splits, by simp⟩, .pass spare splits, fun {parts loose} made => ?_, id⟩
  refine ⟨parts, loose ++ [part], ⟨made.settled, ?_, ?_, ?_⟩, ?_, ?_⟩
  · simp [made.gap]
  · simpa [or_imp, forall_and, whole] using made.whole
  · simp [made.isLoose, isLoose]
  · simpa using Drops.refl _
  · rw [← List.append_assoc, Bool.and_true]
    exact Part.apart_append_loose single (by simpa using isLoose)

/-- What is no comment can be taken away. -/
theorem cut {c : Cursor} (gone : List Part) {r : List Char}
    (plain : gone.all (!·.isComment) = true)
    (splits : Part.ofText c.rest = gone ++ Part.ofText r) :
    Follows true c (Mark.all true (pieces gone)) (c.cut r) := by
  refine ⟨⟨gone, splits, by simp⟩, .cut plain splits,
    fun made => ⟨_, _, ⟨made.settled, made.gap, made.whole, made.isLoose⟩, ?_, by simp⟩, id⟩
  simpa using Drops.refl _

theorem drops_separators {seps : List Lexeme} (separators : seps.all Lexeme.isSeparator = true) :
    Drops seps [] := by
  induction seps with
  | nil => exact .nil
  | cons p seps ih =>
    rw [List.all_cons, Bool.and_eq_true] at separators
    cases p with
    | separator => exact .drop (ih separators.2)
    | _ => cases separators.1

/-- Giving up the gap takes no piece away but separators. -/
theorem giveUpGap {c c' : Cursor} (settled : c'.settled = c.settled) (gap : c'.gap = [])
    (same : c'.rest = c.rest) : Follows true c [] c' := by
  refine ⟨⟨[], by rw [same]; rfl, rfl⟩, .giveUpGap settled gap same, fun {parts loose} made => ?_,
    by simp only [EndsSettled, settled, imp_self]⟩
  refine ⟨parts, [], ⟨settled ▸ made.settled, gap, ?_, rfl⟩, ?_, ?_⟩
  · intro part mem
    exact made.whole part (List.mem_append_left _ (by simpa using mem))
  · have gone := drops_separators (Part.pieces_of_isLoose made.isLoose)
    simpa using (Drops.refl (pieces parts)).append gone
  · rw [List.append_nil, Bool.and_true]
    have loose' := fun part mem => made.whole part (List.mem_append_right _ mem)
    exact (Part.apart_append_loose loose' made.isLoose).symm

theorem trim (c : Cursor) : Follows true c [] c.trim := by
  unfold Cursor.trim
  split
  · exact giveUpGap rfl rfl rfl
  · exact refl c

theorem countErased (c : Cursor) : Follows true c [] c.countErased :=
  ⟨⟨[], rfl, rfl⟩, .of_same rfl rfl rfl,
    fun made => ⟨_, _, ⟨made.settled, made.gap, made.whole, made.isLoose⟩,
      by simpa using Drops.refl _, by simp⟩, id⟩

theorem insertSpace {c : Cursor} (joined : c.followsSeparator = false) :
    Follows true c [] (c.insert [' ']) := by
  have whole : (Part.blank [' ']).Whole := Part.whole_inline rfl
  refine ⟨⟨[], rfl, rfl⟩, .insertSpace joined, fun {parts loose} made => ?_, id⟩
  refine ⟨parts, loose ++ [.blank [' ']], ⟨made.settled, ?_, ?_, ?_⟩, ?_, ?_⟩
  · simp [Cursor.insert, made.gap, Part.text]
  · simpa [or_imp, forall_and, whole] using made.whole
  · simpa [Part.isLoose] using made.isLoose
  · simpa using Drops.refl _
  · rw [← List.append_assoc, Bool.and_true]
    exact Part.apart_append_loose (by simpa using whole) rfl

end Follows

/-- A piece joins the text in front of it exactly where the parts are no longer apart. -/
theorem apart_snoc {parts : List Part} (wholes : ∀ part ∈ parts, part.Whole) {p : Lexeme}
    (whole : (Part.piece p).Whole) :
    apart [] (parts ++ [.piece p]) = (apart [] parts && !Lexeme.joins (textOf parts) p.written) := by
  have both : ∀ part ∈ parts ++ [.piece p], part.Whole := by
    simpa [or_imp, forall_and, whole] using wholes
  have nothing : Lexeme.all [] = [] := Lexeme.all_of_skip_nil (by simp [Blank.skip, Blank.landmark?])
  have single : Lexeme.all p.written = [p] := by
    simpa [nothing] using whole.all_append (r := []) rfl
  cases separate : apart [] parts with
  | false =>
    rw [Bool.false_and, ← Bool.not_eq_true]
    intro together
    rw [Part.apart_append, Bool.and_eq_true] at together
    rw [Part.apart_nil_of_apart together.1] at separate
    cases separate
  | true =>
    have first := Part.all_textOf wholes separate
    rw [List.append_nil, nothing, List.append_nil] at first
    rw [Bool.true_and, Lexeme.joins, first, single, Bool.eq_iff_iff, Bool.not_eq_true',
      bne_eq_false_iff_eq]
    constructor
    · intro together
      simpa [nothing, Part.text] using Part.all_textOf both together
    · intro same
      apply Part.apart_of_significant both (by simp)
      rw [List.append_nil, Lexeme.significant]
      simpa [Part.text] using congrArg (List.filter (!·.isSeparator)) same

namespace Follows

/-- The first piece of the rest is kept. It joins the text behind the cursor or stays apart from
it. -/
theorem keepPiece {c : Cursor} {p : Lexeme} {r : List Char} (whole : (Part.piece p).Whole)
    (solid : p.isSeparator = false) (splits : Part.ofText c.rest = .piece p :: Part.ofText r) :
    Follows (!Lexeme.joins c.before p.written) c [⟨p, false⟩] (c.keep p.written r) := by
  refine ⟨⟨[.piece p], splits, rfl⟩, .keep splits, fun {parts loose} made => ?_,
    fun _ => endsSettled_keep (whole.endsSolid solid) r⟩
  have wholes : ∀ part ∈ parts ++ loose ++ [.piece p], part.Whole := by
    intro part mem
    rcases List.mem_append.mp mem with mem | mem
    · exact made.whole part mem
    · rw [List.mem_singleton.mp mem]
      exact whole
  refine ⟨parts ++ loose ++ [.piece p], [], ⟨?_, rfl, by simpa using wholes, rfl⟩, ?_, ?_⟩
  · simp [keep, made.before, Part.text]
  · simpa using Drops.refl _
  · rw [List.append_nil, apart_snoc made.whole whole, made.before]

/-- A piece never joins the text in front of it if it begins with a character that no piece goes on
with. -/
theorem keepClosed {c : Cursor} {p : Lexeme} {x : Char} {r : List Char} (whole : (Part.piece p).Whole)
    (solid : p.isSeparator = false) (begins : p.written.head? = some x) (ends : Part.endsPieces x = true)
    (splits : Part.ofText c.rest = .piece p :: Part.ofText r) :
    Follows true c [⟨p, false⟩] (c.keep p.written r) := by
  have kept := keepPiece whole solid splits
  refine ⟨kept.splits, kept.aligns, fun {parts loose} made => ?_, kept.ends⟩
  obtain ⟨parts', loose', made', drops, separate⟩ := kept.makes made
  refine ⟨parts', loose', made', drops, ?_⟩
  rw [separate, made.before, ← apart_snoc made.whole whole, Part.apart_append, Bool.and_true,
    Part.apart_of_endsPieces]
  · simp [apart]
  · intro y next
    obtain ⟨w, written⟩ := List.head?_eq_some_iff.mp begins
    rw [Part.textOf_cons, Part.textOf_nil, Part.text, written] at next
    cases next
    exact ends

/-- Behind separators there is as much to say as in front of them. -/
theorem significant_eq {fits : Bool} {c c' : Cursor} {marks : List Mark}
    (follows : Follows fits c marks c')
    (separators : (Mark.lexemes marks).all Lexeme.isSeparator = true) :
    Lexeme.significant c'.rest = Lexeme.significant c.rest := by
  have none : (Mark.lexemes marks).filter (!·.isSeparator) = [] := by
    rw [List.filter_eq_nil_iff]
    intro p mem
    simp [List.all_eq_true.mp separators p mem]
  rw [Lexeme.significant, Lexeme.significant, follows.takes, List.filter_append, none,
    List.nil_append]

end Follows

end Cursor

end DotText
