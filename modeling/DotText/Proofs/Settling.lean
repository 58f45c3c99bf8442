import DotText.Edit.Moves
import DotText.Proofs.Parts

set_option autoImplicit false

/- What no move takes back. The text that is settled stays at the start of the text whatever is done
behind it, the gap never holds more than blanks and separators, and only counting counts. -/
namespace DotText

namespace Separators

theorem ofEntries_passes {allowed : Separators} {c : Char} (passes : allowed.passes c = true) :
    ofEntries.passes c = true := by
  rw [passes_eq, Bool.or_eq_true] at passes ⊢
  refine passes.imp_right fun listed => ?_
  rcases eq_of_allows listed with rfl | rfl <;> rfl

end Separators

/-- A text that ends in something else than a blank or a separator. -/
def EndsSolid (cs : List Char) : Prop :=
  ∃ start x, cs = start ++ [x] ∧ Separators.ofEntries.passes x = false

namespace EndsSolid

theorem single {x : Char} (solid : Separators.ofEntries.passes x = false) : EndsSolid [x] :=
  ⟨[], x, rfl, solid⟩

theorem append {cs : List Char} (ends : EndsSolid cs) (front : List Char) :
    EndsSolid (front ++ cs) := by
  obtain ⟨start, x, rfl, solid⟩ := ends
  exact ⟨front ++ start, x, (List.append_assoc ..).symm, solid⟩

theorem cons {cs : List Char} (ends : EndsSolid cs) (c : Char) : EndsSolid (c :: cs) :=
  ends.append [c]

/-- Text of which the end is only blanks and separators has them behind its last solid character. -/
theorem isPrefix {cs settled gap more : List Char} (ends : EndsSolid cs)
    (passes : gap.all Separators.ofEntries.passes = true) (same : settled ++ gap = cs ++ more) :
    cs <+: settled := by
  rcases List.append_eq_append_iff.mp same with ⟨inner, rfl, rfl⟩ | ⟨behind, rfl, -⟩
  · obtain ⟨start, x, split, solid⟩ := ends
    rcases List.eq_nil_or_concat inner with rfl | ⟨inner', y, rfl⟩
    · simp
    · rw [List.concat_eq_append] at split passes
      rw [← List.append_assoc] at split
      obtain ⟨-, last⟩ := List.append_inj' split rfl
      rw [List.all_append, List.all_append, Bool.and_eq_true, Bool.and_eq_true] at passes
      have passes' : Separators.ofEntries.passes y = true := by simpa using passes.1.2
      rw [List.singleton_inj.mp last, solid] at passes'
      cases passes'
  · exact List.prefix_append _ _

theorem of_all {p : Char → Bool} (solid : ∀ x, p x = true → Separators.ofEntries.passes x = false)
    {cs : List Char} (some : cs ≠ []) (inside : cs.all p = true) : EndsSolid cs := by
  refine ⟨cs.dropLast, cs.getLast some, (List.dropLast_concat_getLast some).symm, solid _ ?_⟩
  exact List.all_eq_true.mp inside _ (List.getLast_mem some)

theorem passes_of_isRest (x : Char) (inside : Ident.isRest x = true) :
    Separators.ofEntries.passes x = false := by
  rw [← Bool.not_eq_true]
  intro passes
  have listed : x ∈ [' ', '\t', '\r', ',', ';'] := by
    simpa [Separators.passes, Separators.ofEntries, Blank.isInline, or_assoc] using passes
  have other : ∀ y ∈ [' ', '\t', '\r', ',', ';'], Ident.isRest y = false :=
    forall_mem_of_all (by decide)
  rw [other x listed] at inside
  cases inside

theorem of_digits {cs : List Char} (some : cs ≠ []) (digits : cs.all Char.isDigit = true) :
    EndsSolid cs :=
  of_all (fun x digit => passes_of_isRest x (by simp [Ident.isRest, digit])) some digits

theorem of_unsigned {cs : List Char} (unsigned : Ident.Unsigned cs) : EndsSolid cs := by
  cases unsigned with
  | whole digits some => exact of_digits some digits
  | @point ds es _ digits _ =>
    refine append ?_ ds
    cases es with
    | nil => exact single rfl
    | cons e es => exact (of_digits (List.cons_ne_nil e es) digits).cons '.'

theorem of_readNumeral {cs n r : List Char} (read : Ident.readNumeral cs = .ok (n, r)) :
    EndsSolid n := by
  rcases Ident.readNumeral_eq_ok.mp read with ⟨t, m, rfl, rfl, split⟩ | split
  · exact (of_unsigned (Ident.unsigned_of_split split).1).cons '-'
  · exact of_unsigned (Ident.unsigned_of_split split).1

end EndsSolid

/-- A piece that is no separator does not end in a blank or a separator. -/
theorem Part.Whole.endsSolid {p : Lexeme} (whole : (Part.piece p).Whole)
    (solid : p.isSeparator = false) : EndsSolid p.written := by
  obtain ⟨known, c, cs, r, first⟩ := whole
  have opens := Lexeme.opens_first c cs
  rw [first] at opens
  cases p with
  | word w =>
    obtain ⟨start, rfl, -⟩ := opens
    exact .of_all EndsSolid.passes_of_isRest (List.cons_ne_nil _ _)
      (Ident.word_of_isStart start cs).1
  | numeral n => exact .of_readNumeral opens.2
  | quoted s => exact (EndsSolid.single rfl).append ('"' :: Ident.escape s)
  | html s => exact (EndsSolid.single rfl).append ('<' :: s)
  | mark m =>
    rcases opens with ⟨op, rfl, -⟩ | ⟨punctuation, rfl, -⟩
    · simp only [Lexeme.startsOp, Bool.and_eq_true, Bool.or_eq_true, beq_iff_eq] at op
      obtain ⟨x, t, rfl⟩ : ∃ x t, cs = x :: t := by
        cases cs with
        | nil => simp at op
        | cons x t => exact ⟨x, t, rfl⟩
      have listed : x = '-' ∨ x = '>' := by simpa using op.2
      refine EndsSolid.cons (EndsSolid.single ?_) c
      rcases listed with rfl | rfl <;> rfl
    · have listed : c ∈ ['{', '}', '[', ']', '=', ':'] := by
        simpa [Lexeme.isPunctuation, or_assoc] using punctuation
      have other : ∀ y ∈ ['{', '}', '[', ']', '=', ':'], Separators.ofEntries.passes y = false :=
        forall_mem_of_all (by decide)
      exact .single (other c listed)
  | separator => cases solid
  | stray x => exact absurd rfl (known x)

namespace Cursor

/-- Whether there is nothing but blanks and separators in the gap. -/
def gapPasses (c : Cursor) : Bool :=
  c.gap.all Separators.ofEntries.passes

/-- From one place to the other what is settled stays, nothing else than blanks and separators comes
into the gap, and so many elements are counted. -/
structure Settles (counted : Nat) (c c' : Cursor) : Prop where
  settled : c.settled <+: c'.settled
  passes : c.gapPasses = true → c'.gapPasses = true
  erased : c'.erased = c.erased + counted

theorem Settles.refl (c : Cursor) : Settles 0 c c := ⟨List.prefix_refl _, id, rfl⟩

theorem Settles.trans {n k : Nat} {c c' c'' : Cursor} (first : Settles n c c')
    (second : Settles k c' c'') : Settles (n + k) c c'' :=
  ⟨first.settled.trans second.settled, second.passes ∘ first.passes,
    by rw [second.erased, first.erased, Nat.add_assoc]⟩

theorem settles_of_noGap {c c' : Cursor} (settled : c.settled <+: c'.settled) (gap : c'.gap = [])
    (erased : c'.erased = c.erased) : Settles 0 c c' :=
  ⟨settled, by rw [gapPasses, gapPasses, gap]; exact fun _ => rfl, erased⟩

theorem settles_keep (c : Cursor) (kept r : List Char) : Settles 0 c (c.keep kept r) := by
  refine settles_of_noGap ?_ rfl rfl
  rw [keep, before, List.append_assoc]
  exact List.prefix_append _ _

theorem settles_pass {c : Cursor} {x : Char} (passes : Separators.ofEntries.passes x = true)
    (r : List Char) : Settles 0 c { c with gap := c.gap ++ [x], rest := r } := by
  refine ⟨List.prefix_refl _, fun light => ?_, rfl⟩
  rw [gapPasses] at light ⊢
  rw [List.all_append, light, List.all_cons, passes]
  rfl

theorem settles_cut (c : Cursor) (r : List Char) : Settles 0 c (c.cut r) :=
  ⟨List.prefix_refl _, id, rfl⟩

theorem settles_passBlanks (allowed : Separators) (c : Cursor) :
    Settles 0 c (c.passBlanks allowed) := by
  fun_induction passBlanks allowed c with
  | case1 c l r found ih => exact (settles_keep c l r).trans ih
  | case2 c => exact Settles.refl c
  | case3 c _ x r start passes ih =>
    exact (settles_pass (Separators.ofEntries_passes passes) r).trans ih
  | case4 c => exact Settles.refl c

theorem settles_finishRound (rank : Nat) (c : Cursor) : Settles 0 c (c.finishRound rank) := by
  fun_induction finishRound rank c with
  | case1 rank c l r found later ih => exact (settles_keep c l r).trans ih
  | case2 rank c => exact Settles.refl c
  | case3 rank c => exact Settles.refl c

theorem settles_cutToLandmark (c : Cursor) (l r : List Char) :
    Settles 0 c (c.cutToLandmark l r) := by
  unfold cutToLandmark
  split
  · exact settles_of_noGap (List.prefix_refl _) rfl rfl
  · exact (settles_cut c r).trans (settles_keep _ l r)

theorem settles_cutRounds (allowed : Separators) (c : Cursor) (r : List Char) :
    Settles 0 c (cutRounds allowed c r) := by
  fun_induction cutRounds allowed c r with
  | case1 r r' l rest found reached same =>
    exact (settles_cutToLandmark c l rest).trans (settles_finishRound _ _)
  | case2 r r' l rest found reached moved =>
    have first := (settles_cutToLandmark c l rest).trans (settles_finishRound (Blank.rank l) _)
    exact first.trans (settles_passBlanks allowed _)
  | case3 r r' none shorter ih => exact ih
  | case4 r r' none last => exact settles_cut c r

theorem settles_skipBlanks (erase : Bool) (allowed : Separators) (c : Cursor) :
    Settles 0 c (c.skipBlanks erase allowed) := by
  cases erase with
  | false => exact settles_passBlanks allowed c
  | true => exact settles_cutRounds allowed c c.rest

theorem settles_keepToken (c : Cursor) (written r : List Char) :
    Settles 0 c (c.keepToken written r) := by
  unfold keepToken
  split
  · exact Settles.refl c
  · exact settles_keep c written r

theorem settles_cutToken (c : Cursor) (r : List Char) : Settles 0 c (c.cutToken r) :=
  (settles_cut c r).trans (settles_cutRounds .none _ _)

theorem settles_trim (c : Cursor) : Settles 0 c c.trim := by
  unfold trim
  split
  · exact settles_of_noGap (List.prefix_refl _) rfl rfl
  · exact Settles.refl c

end Cursor

open Cursor (Settles)

namespace Walk

theorem settles_skip {token : Token} {erase isOptional : Bool} {allowed : Separators}
    {c c' : Cursor} (ran : Walk.skip token erase allowed isOptional c = .ok c') :
    Settles 0 c c' := by
  have passed := Cursor.settles_skipBlanks (erase && allowed.any) allowed c
  simp only [Walk.skip, Cursor.skip, Cursor.approach] at ran
  generalize c.skipBlanks (erase && allowed.any) allowed = reached at passed ran
  cases found : token.split? reached.rest with
  | none =>
    rw [found] at ran
    cases isOptional with
    | false => cases ran
    | true =>
      cases ran
      cases erase with
      | false => exact passed
      | true => exact passed.trans (Cursor.settles_cutToken _ _)
  | some found' =>
    rw [found] at ran
    cases ran
    cases erase with
    | false => exact passed.trans (Cursor.settles_keepToken _ _ _)
    | true => exact passed.trans (Cursor.settles_cutToken _ _)

theorem settles_emptyLists {erase : Bool} {c c' : Cursor}
    (ran : Walk.emptyLists erase c = .ok c') : Settles 0 c c' :=
  emptyLists_induction Settles.refl (fun first second => first.trans second) settles_skip ran

theorem settles_spaceApart (c : Cursor) : Settles 0 c (Walk.spaceApart c) := by
  unfold Walk.spaceApart
  split
  · exact Settles.refl c
  · exact Cursor.settles_pass (x := ' ') rfl c.rest

namespace Move

theorem settles_apply {m : Move} {c c' : Cursor} (ran : m.apply c = .ok c') :
    Settles ([m].count .count) c c' := by
  cases m with
  | skip token erase allowed isOptional => exact settles_skip ran
  | emptyLists erase => exact settles_emptyLists ran
  | skipBlanks erase allowed =>
    cases ran
    exact Cursor.settles_skipBlanks erase allowed c
  | spaceApart =>
    cases ran
    exact settles_spaceApart c
  | count =>
    cases ran
    exact ⟨List.prefix_refl _, id, rfl⟩
  | trim =>
    cases ran
    exact Cursor.settles_trim c

/-- Whatever moves are made, what was settled before them is still there. -/
theorem settles_run {ms : List Move} {c c' : Cursor} (ran : run ms c = .ok c') :
    Settles (ms.count .count) c c' := by
  induction ms generalizing c with
  | nil =>
    cases ran
    exact Settles.refl _
  | cons m ms ih =>
    obtain ⟨c₁, applied, rest⟩ := bind_eq_ok.mp ran
    rw [← List.singleton_append, List.count_append]
    exact (settles_apply applied).trans (ih rest)

end Move

end Walk

end DotText
