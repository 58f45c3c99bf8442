import DotText.Proofs.Offsets

set_option autoImplicit false

/- A cursor never loses its place. Told by offsets, there is a text in front of the place and one behind
it after any sequence of operations, and every further operation comes to something. -/
namespace DotText.OffsetCursor

/-- No sequence of operations loses the place. The offsets that it comes to are those of the cursor, in
order and between characters; the text behind the place is the end of the text there was at first, and
the text in front of it, if nothing was put in, is left of what has been gone over. Every further
operation comes to something as well, answers what it answers on the cursor, and leaves no more text
behind the place. -/
theorem inPlace_run (cs : List Char) (steps : List Cursor.Step) :
    ∃ c front rest passed, (ofText cs).run? steps = some c ∧
      c = ((Cursor.ofText cs).run steps).toOffsets ∧ c.InPlace ∧
      splitAtByte? c.place c.text = some (front, rest) ∧ passed ++ rest = cs ∧
      (steps.all (!·.isInsert) = true → front.Sublist passed) ∧
      ∀ s, ∃ c' front' rest',
        c.step? s = some (c', (((Cursor.ofText cs).run steps).step s).2) ∧ c'.InPlace ∧
        splitAtByte? c'.place c'.text = some (front', rest') ∧ rest' <:+ rest := by
  have start : ofText cs = (Cursor.ofText cs).toOffsets := rfl
  have split (c : Cursor) : splitAtByte? c.toOffsets.place c.toOffsets.text = some (c.before, c.rest) :=
    splitAtByte?_append ..
  obtain ⟨passed, whole⟩ := (Cursor.ofText cs).suffix_run steps
  refine ⟨_, _, _, passed, by rw [start, run?_eq], rfl, inPlace _, split _, whole, ?_, fun s => ?_⟩
  · intro steady
    obtain ⟨w, whole', left⟩ := (Cursor.ofText cs).traverses_run steady
    have same : passed = w := List.append_cancel_right (whole.trans whole'.symm)
    rw [same]
    exact left
  · exact ⟨_, _, _, step?_eq _ s, inPlace _, split _, Cursor.suffix_step _ s⟩

/-- A line goes together with the line end in front of it, a token that is not there is missed, and the
blanks in front of another token are given up, in a text with characters of two bytes. -/
theorem inPlace_run_umlauts :
    let cs := "[\n  ä\n  ö ]".toList
    let steps : List Cursor.Step :=
      [.skip (.mark ['[']) false .none false, .skip (.ident ['ä']) true .none false,
        .seek (.mark [';']), .skip (.ident ['ö']) true .none false, .trim]
    steps.all (!·.isInsert) = true ∧ ∃ front rest passed,
      (ofText cs).run? steps = some ⟨"[\n]".toList, 2, 2, some 4, 0⟩ ∧
      splitAtByte? 2 "[\n]".toList = some (front, rest) ∧ passed ++ rest = cs ∧
      front.Sublist passed := by
  intro cs steps
  have steady : steps.all (!·.isInsert) = true := by decide
  obtain ⟨c, front, rest, passed, run, same, -, split, whole, left, -⟩ := inPlace_run cs steps
  have reached : ((Cursor.ofText cs).run steps).toOffsets = ⟨"[\n]".toList, 2, 2, some 4, 0⟩ := by
    decide +kernel
  rw [same, reached] at run split
  exact ⟨steady, front, rest, passed, run, split, whole, left steady⟩

end DotText.OffsetCursor
