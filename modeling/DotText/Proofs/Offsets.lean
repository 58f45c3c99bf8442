import DotText.Proofs.Offsets.Passes

set_option autoImplicit false

/- The cursor told by offsets and the cursor that holds the text in pieces go along with each other:
every operation comes to something on the offsets of a cursor, and that is what the cursor comes to. -/
namespace DotText.OffsetCursor

variable (c : Cursor)

theorem textFrom?_place : c.toOffsets.textFrom? c.toOffsets.place = some c.rest := by
  have text : c.toOffsets.text = c.before ++ c.rest := rfl
  exact textFrom?_eq text

theorem cutToken?_eq {c : Cursor} {w r : List Char} (split : c.rest = w ++ r) :
    c.toOffsets.cutToken? (c.toOffsets.place + utf8Length w) = some (c.cutToken r).toOffsets := by
  have stop : c.toOffsets.place + utf8Length w = utf8Length (c.before ++ w) :=
    (utf8Length_append ..).symm
  have cut : c.toOffsets.cut? c.toOffsets.place (utf8Length (c.before ++ w)) = _ := cut?_eq split
  rw [cutToken?, stop, cut, Option.bind_eq_bind, Option.bind_some, skipBlanks?_eq]
  rfl

/-- The mark moves on behind a token, unless that has no text. -/
theorem keepToken_eq {c : Cursor} {w r : List Char} (split : w ++ r = c.rest) :
    c.toOffsets.keepToken (c.toOffsets.place + utf8Length w) = (c.keepToken w r).toOffsets := by
  cases w with
  | nil =>
    have nothing : c.toOffsets.place + utf8Length [] = c.toOffsets.place := Nat.add_zero _
    rw [nothing, keepToken, if_neg (Nat.lt_irrefl _)]
    rfl
  | cons x w =>
    have more := utf8Length_pos (List.cons_ne_nil x w)
    have further : c.toOffsets.place < c.toOffsets.place + utf8Length (x :: w) := by omega
    have place : (c.keep (x :: w) r).offset = c.toOffsets.place + utf8Length (x :: w) := by
      rw [Cursor.offset, Cursor.keep, Cursor.before, List.append_nil]
      exact utf8Length_append ..
    have mark : utf8Length (c.keep (x :: w) r).settled = c.toOffsets.place + utf8Length (x :: w) :=
      utf8Length_append ..
    have kept : (c.keep (x :: w) r).toOffsets =
        ⟨c.text, c.toOffsets.place + utf8Length (x :: w), c.toOffsets.place + utf8Length (x :: w),
          c.removal, c.erased⟩ := by
      rw [Cursor.toOffsets, c.text_keep split, mark, place]
      rfl
    rw [keepToken, if_pos further, Cursor.keepToken, List.isEmpty_cons, if_neg Bool.false_ne_true, kept]
    rfl

theorem skip?_eq (token : Token) (erase : Bool) (allowed : Separators) (isOptional : Bool) :
    c.toOffsets.skip? token erase allowed isOptional =
      some ((c.skip token erase allowed isOptional).1.toOffsets,
        (c.skip token erase allowed isOptional).2) := by
  have approach : c.toOffsets.skipBlanks? (erase && allowed.any) allowed =
      some (c.approach erase allowed).toOffsets := skipBlanks?_eq c _ allowed
  rw [skip?, Cursor.skip, approach, Option.bind_eq_bind, Option.bind_some]
  generalize c.approach erase allowed = c'
  rw [textFrom?_place, Option.bind_eq_bind, Option.bind_some, Token.size?_eq]
  dsimp only
  cases found : token.split? c'.rest with
  | none =>
    have cut : c'.toOffsets.cutToken? c'.toOffsets.place = _ := cutToken?_eq (w := []) rfl
    have keep : c'.toOffsets.keepToken c'.toOffsets.place = _ := keepToken_eq (w := []) rfl
    cases isOptional with
    | false => rfl
    | true =>
      cases erase with
      | false => simp [keep, Cursor.keepToken]
      | true => simp [cut]
  | some pair =>
    obtain ⟨written, r⟩ := pair
    have split := Token.split?_append found
    cases erase with
    | false => simp [keepToken_eq split]
    | true => simp [cutToken?_eq split.symm]

theorem isSome_size? (token : Token) (cs : List Char) : (token.size? cs).isSome = token.isAt cs := by
  rw [Token.size?_eq, Option.isSome_map, Token.split?]
  cases token.isAt cs <;> rfl

theorem seek?_eq (token : Token) :
    c.toOffsets.seek? token = some ((c.seek token).1.toOffsets, (c.seek token).2) := by
  have blanks : c.toOffsets.skipBlanks? false .none = some (c.passBlanks .none).toOffsets :=
    skipBlanks?_eq c false .none
  rw [seek?, Cursor.seek, blanks, Option.bind_eq_bind, Option.bind_some, textFrom?_place,
    Option.bind_eq_bind, Option.bind_some, isSome_size?]

theorem inPlace : c.toOffsets.InPlace := by
  have text : c.toOffsets.text = c.before ++ c.rest := rfl
  refine ⟨?_, ?_, ⟨c.settled, ⟨c.gap ++ c.rest, ?_⟩, rfl⟩, ⟨c.before, ⟨c.rest, rfl⟩, rfl⟩⟩
  · rw [Cursor.toOffsets, Cursor.offset, Cursor.before, utf8Length_append]
    exact Nat.le_add_right _ _
  · rw [text, utf8Length_append]
    exact Nat.le_add_right _ _
  · rw [text, Cursor.before, List.append_assoc]

theorem trim?_eq : c.toOffsets.trim? = some c.trim.toOffsets := by
  have erasing : c.toOffsets.isErasing = c.isErasing := rfl
  have cut : cutBytes? c.toOffsets.mark c.toOffsets.place c.toOffsets.text =
      some (c.settled ++ c.rest) := by
    have text : c.toOffsets.text = c.settled ++ (c.gap ++ c.rest) := List.append_assoc ..
    rw [text]
    exact cutBytes?_append ..
  rw [trim?, Cursor.trim, erasing, decide_eq_true (inPlace c).ordered, Bool.and_true]
  split
  · rw [cut, Option.bind_eq_bind, Option.bind_some]
    simp [Cursor.toOffsets, Cursor.text, Cursor.before, Cursor.offset]
  · rfl

theorem insert?_eq (s : List Char) : c.toOffsets.insert? s = some (c.insert s).toOffsets := by
  have split : splitAtByte? c.toOffsets.place c.toOffsets.text = some (c.before, c.rest) :=
    splitAtByte?_append ..
  rw [insert?, split, Option.bind_eq_bind, Option.bind_some]
  simp [Cursor.toOffsets, Cursor.insert, Cursor.text, Cursor.before, Cursor.offset, utf8Length_append,
    Nat.add_assoc]

theorem atEmptyList?_eq : c.toOffsets.atEmptyList? = some c.atEmptyList := by
  have text : c.toOffsets.text = c.before ++ c.rest := rfl
  obtain ⟨v, first, peeked⟩ := peek?_eq text
  have text₁ : c.toOffsets.text = (c.before ++ v) ++ Blank.skip c.rest := by
    rw [List.append_assoc, ← first]
    rfl
  have place : c.toOffsets.place = utf8Length c.before := rfl
  rw [atEmptyList?, place, peeked, Option.bind_eq_bind, Option.bind_some,
    byteAt?_beq text₁ '[' (by decide), Cursor.atEmptyList]
  split
  · next opens =>
    obtain ⟨r, skipped⟩ := List.head?_eq_some_iff.mp (eq_of_beq opens)
    have text₂ : c.toOffsets.text = (c.before ++ v ++ ['[']) ++ r := by
      rw [text₁, skipped, List.append_assoc (c.before ++ v)]
      rfl
    have next : utf8Length (c.before ++ v) + 1 = utf8Length (c.before ++ v ++ ['[']) :=
      (utf8Length_append _ ['[']).symm
    obtain ⟨w, second, peeked₂⟩ := peek?_eq text₂
    have text₃ : c.toOffsets.text = (c.before ++ v ++ ['['] ++ w) ++ Blank.skip r := by
      rw [List.append_assoc _ w, ← second, text₂]
    rw [skipped, next, peeked₂, Option.bind_some, byteAt?_beq text₃ ']' (by decide)]
    rfl
  · next other =>
    split
    · next skipped =>
      rw [skipped] at other
      exact absurd rfl other
    · rfl

/-- The byte in front of the place is the last one of the character in front of it. -/
theorem exists_byteBefore (some : c.before ≠ []) :
    ∃ b x, 0 < c.toOffsets.place ∧ c.toOffsets.byteAt? (c.toOffsets.place - 1) = Option.some b ∧
      c.before.getLast? = Option.some x ∧ b ∈ String.utf8EncodeChar x := by
  obtain ⟨b, x, byte, last, mem⟩ := exists_getElem?_utf8_pred some c.rest
  exact ⟨b, x, utf8Length_pos some, byte, last, mem⟩

theorem followsSeparator?_eq : c.toOffsets.followsSeparator? = some c.followsSeparator := by
  rw [followsSeparator?, Cursor.followsSeparator]
  by_cases start : c.before = []
  · have place : c.toOffsets.place = 0 := by
      rw [Cursor.toOffsets, Cursor.offset, start]
      rfl
    rw [if_pos place, start]
    rfl
  · obtain ⟨b, x, further, byte, last, mem⟩ := exists_byteBefore c start
    have tells : Tells separatesByte fun x => Blank.isInline x || x == '\n' || x == ';' :=
      (tells_isInlineByte.or (tells_eq '\n' (by decide))).or (tells_eq ';' (by decide))
    rw [if_neg (by omega), byte, Option.map_some, tells x b mem, last]
    simp [Separators.passes, Separators.ofStatements]
    ac_rfl

theorem followsNewline?_eq : c.toOffsets.followsNewline? = some c.followsNewline := by
  rw [followsNewline?, Cursor.followsNewline]
  by_cases start : c.before = []
  · have place : c.toOffsets.place = 0 := by
      rw [Cursor.toOffsets, Cursor.offset, start]
      rfl
    rw [if_neg (by omega), start]
    rfl
  · obtain ⟨b, x, further, byte, last, mem⟩ := exists_byteBefore c start
    have told : (b == '\n'.toUInt8) = (x == '\n') := tells_eq '\n' (by decide) x b mem
    rw [if_pos further, byte, Option.map_some, told, last]
    rfl

/-- The cursor told by offsets goes along with the cursor, and gives the same answers. -/
theorem step?_eq (s : Cursor.Step) :
    c.toOffsets.step? s = some ((c.step s).1.toOffsets, (c.step s).2) := by
  cases s with
  | skip token erase allowed isOptional => rw [step?, skip?_eq]; rfl
  | seek token => rw [step?, seek?_eq]; rfl
  | skipBlanks erase allowed => rw [step?, skipBlanks?_eq]; rfl
  | trim => rw [step?, trim?_eq]; rfl
  | insert s => rw [step?, insert?_eq]; rfl
  | countErased => rfl
  | atEmptyList => rw [step?, atEmptyList?_eq]; rfl
  | followsSeparator => rw [step?, followsSeparator?_eq]; rfl
  | followsNewline => rw [step?, followsNewline?_eq]; rfl

theorem run?_eq (steps : List Cursor.Step) :
    c.toOffsets.run? steps = some (c.run steps).toOffsets := by
  induction steps generalizing c with
  | nil => rfl
  | cons s steps ih =>
    rw [run?, List.foldlM_cons, step?_eq]
    exact ih (c.step s).1

end DotText.OffsetCursor
