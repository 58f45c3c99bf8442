import DotText.Cursor.Offsets
import DotText.Proofs.Bytes

set_option autoImplicit false

/- Looks at a text by offsets find what looks at its characters find: a token, the landmark that comes
next, the place where a look ahead ends. -/
namespace DotText

theorem utf8Length_toLower (cs : List Char) : utf8Length (cs.map Char.toLower) = utf8Length cs := by
  rw [← length_utf8, ← map_lowerByte_utf8, List.length_map, length_utf8]

/-- Two texts that are the same but for the case of letters have the same size. -/
theorem utf8Length_of_eqIgnoringCase {s t : List Char} (same : Ident.eqIgnoringCase s t = true) :
    utf8Length s = utf8Length t := by
  have lower : s.map Char.toLower = t.map Char.toLower := eq_of_beq same
  rw [← utf8Length_toLower, lower, utf8Length_toLower]

/-- Bytes are compared without regard to case as the characters are. -/
theorem lowerByte_take_iff (word cs : List Char) :
    (utf8 word).length ≤ (utf8 cs).length ∧
        ((utf8 cs).take (utf8 word).length).map lowerByte = (utf8 word).map lowerByte ↔
      Ident.eqIgnoringCase word (cs.take word.length) = true := by
  have bytes : (utf8 word).length ≤ (utf8 cs).length ∧
        ((utf8 cs).take (utf8 word).length).map lowerByte = (utf8 word).map lowerByte ↔
      (utf8 word).map lowerByte <+: (utf8 cs).map lowerByte := by
    rw [List.prefix_iff_eq_take, List.length_map, ← List.map_take, eq_comm]
    constructor
    · exact And.right
    · intro same
      refine ⟨?_, same⟩
      have size := congrArg List.length same
      rw [List.length_map, List.length_map, List.length_take] at size
      omega
  rw [bytes, map_lowerByte_utf8, map_lowerByte_utf8, utf8_isPrefix_iff, List.prefix_iff_eq_take,
    List.length_map, ← List.map_take, Ident.eqIgnoringCase, beq_iff_eq]

namespace Token

theorem size?_keyword (word cs : List Char) :
    (keyword word).size? cs = ((keyword word).split? cs).map fun found => utf8Length found.1 := by
  have same := lowerByte_take_iff word cs
  have next := any_getElem?_utf8 tells_isIdentByte (cs.take word.length) (cs.drop word.length)
  rw [List.take_append_drop] at next
  simp only [size?, split?, isAt, spelling, Ident.dropWord?]
  by_cases here : Ident.eqIgnoringCase word (cs.take word.length) = true
  · have size : (utf8 word).length = utf8Length (cs.take word.length) := by
      rw [length_utf8, utf8Length_of_eqIgnoringCase here]
    obtain ⟨within, bytes⟩ := same.mpr here
    rw [size] at within bytes
    simp only [size, within, bytes, here, next, decide_true, beq_self_eq_true, Bool.true_and]
    cases (cs.drop word.length).head?.any Ident.isRest <;> rfl
  · have apart := mt same.mp here
    rw [if_neg (by simp only [Bool.and_eq_true, decide_eq_true_eq, beq_iff_eq]; exact fun h => apart h.1)]
    simp [here]

/-- A token that is looked for letter for letter is as long as it is spelled. -/
theorem sizeAtStart?_spelling {token : Token} {written cs : List Char}
    (spelled : token.spelling cs = written) (found : token.isAt cs = written.isPrefixOf cs) :
    sizeAtStart? written cs = (token.split? cs).map fun found => utf8Length found.1 := by
  rw [sizeAtStart?, split?, found, spelled]
  by_cases here : written.isPrefixOf cs = true
  · have front := List.prefix_iff_eq_take.mp (List.isPrefixOf_iff_prefix.mp here)
    rw [if_pos here, if_pos here, Option.map_some, ← front]
  · rw [if_neg here, if_neg here, Option.map_none]

theorem size?_html (label cs : List Char) :
    (html label).size? cs = sizeAtStart? ('<' :: (label ++ ['>'])) cs := by
  have size : utf8Length ('<' :: (label ++ ['>'])) = utf8Length label + 2 := by
    have first : '<'.utf8Size = 1 := rfl
    have last : utf8Length ['>'] = 1 := rfl
    rw [utf8Length, utf8Length_append, first, last]
    omega
  have closed (r : List Char) : (label.isPrefixOf r && (r.drop label.length).head? == some '>') =
      (label ++ ['>']).isPrefixOf r := by
    apply Bool.eq_iff_iff.mpr
    rw [Bool.and_eq_true, List.isPrefixOf_iff_prefix, List.isPrefixOf_iff_prefix, beq_iff_eq]
    constructor
    · rintro ⟨⟨t, rfl⟩, next⟩
      rw [List.drop_left] at next
      obtain ⟨t', rfl⟩ := List.head?_eq_some_iff.mp next
      exact ⟨t', by simp⟩
    · rintro ⟨t, rfl⟩
      refine ⟨⟨'>' :: t, by simp⟩, ?_⟩
      rw [List.append_assoc, List.drop_left]
      rfl
  rw [sizeAtStart?, size]
  cases cs with
  | nil => rfl
  | cons c r =>
    by_cases opens : c = '<'
    · subst opens
      simp only [size?, closed, List.isPrefixOf, beq_self_eq_true, Bool.true_and]
    · simp [size?, opens, List.isPrefixOf, Ne.symm opens]

/-- A token is found by bytes where it is found by characters, and is as long. -/
theorem size?_eq (token : Token) (cs : List Char) :
    token.size? cs = (token.split? cs).map fun found => utf8Length found.1 := by
  cases token with
  | keyword word => exact size?_keyword word cs
  | html label =>
    rw [size?_html]
    exact sizeAtStart?_spelling rfl rfl
  | ident name => exact sizeAtStart?_spelling rfl rfl
  | mark text => exact sizeAtStart?_spelling rfl rfl

end Token

theorem elim_offsetOf?_cons {part cs : List Char} {c : Char}
    (other : part.isPrefixOf (c :: cs) = false) :
    (offsetOf? part (c :: cs)).elim (utf8Length (c :: cs)) (· + utf8Length part) =
      c.utf8Size + (offsetOf? part cs).elim (utf8Length cs) (· + utf8Length part) := by
  rw [offsetOf?, other, if_neg Bool.false_ne_true]
  cases offsetOf? part cs with
  | none => rfl
  | some n => exact Nat.add_assoc ..

theorem elim_offsetOf?_newline (cs : List Char) :
    (offsetOf? ['\n'] cs).elim (utf8Length cs) (· + utf8Length ['\n']) =
      utf8Length (Blank.splitLine cs).1 := by
  induction cs with
  | nil => rfl
  | cons c cs ih =>
    rw [Blank.splitLine]
    by_cases newline : c = '\n'
    · subst newline
      rfl
    · have other : ['\n'].isPrefixOf (c :: cs) = false := by
        simp [List.isPrefixOf, Ne.symm newline]
      rw [elim_offsetOf?_cons other, ih, if_neg newline]
      rfl

theorem elim_offsetOf?_close (cs : List Char) :
    (offsetOf? ['*', '/'] cs).elim (utf8Length cs) (· + utf8Length ['*', '/']) =
      utf8Length (Blank.splitBlock cs).1 := by
  fun_induction Blank.splitBlock cs with
  | case1 => rfl
  | case2 cs => simp [offsetOf?, List.isPrefixOf]
  | case3 c cs unclosed ih =>
    have other : ['*', '/'].isPrefixOf (c :: cs) = false := by
      apply Bool.eq_false_iff.mpr
      intro close
      obtain ⟨t, whole⟩ := List.isPrefixOf_iff_prefix.mp close
      obtain ⟨rfl, rfl⟩ := List.cons.inj whole
      exact unclosed t rfl rfl
    rw [elim_offsetOf?_cons other, ih]
    rfl

/-- Where no landmark comes next, none of the signs is there that landmarks begin with. -/
theorem Blank.opens_nothing {cs : List Char} (missing : landmark? cs = none) :
    (cs.head? == some '\n') = false ∧ (cs.head? == some '#') = false ∧
      ['/', '/'].isPrefixOf cs = false ∧ ['/', '*'].isPrefixOf cs = false := by
  have head (x : Char) (opens : ∀ r, landmark? (x :: r) ≠ none) : (cs.head? == some x) = false := by
    apply beq_eq_false_iff_ne.mpr
    intro first
    obtain ⟨r, rfl⟩ := List.head?_eq_some_iff.mp first
    exact opens r missing
  have pair (x y : Char) (opens : ∀ r, landmark? (x :: y :: r) ≠ none) :
      [x, y].isPrefixOf cs = false := by
    apply Bool.eq_false_iff.mpr
    intro front
    obtain ⟨r, rfl⟩ := List.isPrefixOf_iff_prefix.mp front
    exact opens r missing
  exact ⟨head '\n' fun r => Option.some_ne_none _, head '#' fun r => Option.some_ne_none _,
    pair '/' '/' fun r => Option.some_ne_none _, pair '/' '*' fun r => Option.some_ne_none _⟩

namespace OffsetCursor

section Looks

variable {c : OffsetCursor} {front rest : List Char}

theorem textFrom?_eq (text : c.text = front ++ rest) :
    c.textFrom? (utf8Length front) = some rest := by
  rw [textFrom?, text, splitAtByte?_append]
  rfl

theorem any_byteAt? (text : c.text = front ++ rest) {test : UInt8 → Bool} {p : Char → Bool}
    (tells : Tells test p) : (c.byteAt? (utf8Length front)).any test = rest.head?.any p := by
  rw [byteAt?, text, any_getElem?_utf8 tells]

theorem beq_some_eq_any {α : Type} [BEq α] (o : Option α) (x : α) :
    (o == some x) = o.any (· == x) := by
  cases o <;> rfl

theorem byteAt?_beq (text : c.text = front ++ rest) (x : Char) (ascii : x.toNat < 0x80) :
    (c.byteAt? (utf8Length front) == some x.toUInt8) = (rest.head? == some x) := by
  rw [beq_some_eq_any, beq_some_eq_any, any_byteAt? text (tells_eq x ascii)]

theorem byteAt?_pred_beq (text : c.text = front ++ rest) (some : front ≠ []) (x : Char)
    (ascii : x.toNat < 0x80) :
    (c.byteAt? (utf8Length front - 1) == Option.some x.toUInt8) =
      (front.getLast? == Option.some x) := by
  obtain ⟨b, y, byte, last, mem⟩ := exists_getElem?_utf8_pred some rest
  rw [byteAt?, text, byte, last]
  exact tells_eq x ascii y b mem

/-- A comment of which `start` is known to be the beginning ends where it is taken to end. -/
theorem endOf_behind {part r : List Char} {taken : List Char → List Char} (start : List Char)
    (ends : ∀ cs, (offsetOf? part cs).elim (utf8Length cs) (· + utf8Length part) =
      utf8Length (taken cs))
    (text : c.text = front ++ (start ++ r)) :
    c.endOf part (utf8Length front + utf8Length start) = utf8Length (front ++ (start ++ taken r)) := by
  have text' : c.text = (front ++ start) ++ r := by rw [text, List.append_assoc]
  rw [← utf8Length_append, endOf, textFrom?_eq text', Option.bind_some, ← List.append_assoc,
    utf8Length_append _ (taken r), ← ends]
  cases offsetOf? part r with
  | none => rw [text']; exact utf8Length_append ..
  | some n => exact Nat.add_assoc ..

/-- Every landmark has a sign of its own to begin with, behind which its end is looked for. -/
theorem landmark_cases (text : c.text = front ++ rest) {l r : List Char}
    (found : Blank.landmark? rest = some (l, r)) :
    (∃ t, rest = '\n' :: t ∧ Blank.rank l = 0 ∧ utf8Length front + 1 = utf8Length (front ++ l)) ∨
      (∃ t, rest = '/' :: '*' :: t ∧ Blank.rank l = 1 ∧
        c.endOf ['*', '/'] (utf8Length front + 2) = utf8Length (front ++ l)) ∨
      (∃ t, rest = '/' :: '/' :: t ∧ Blank.rank l = 2 ∧
        c.endOf ['\n'] (utf8Length front + 2) = utf8Length (front ++ l)) ∨
      (∃ t, rest = '#' :: t ∧ Blank.rank l = 3 ∧
        c.endOf ['\n'] (utf8Length front + 1) = utf8Length (front ++ l)) := by
  unfold Blank.landmark? at found
  split at found
  · next r =>
    cases found
    exact .inl ⟨r, rfl, rfl, (utf8Length_append _ ['\n']).symm⟩
  · next r =>
    cases found
    exact .inr (.inr (.inr ⟨r, rfl, rfl, endOf_behind ['#'] elim_offsetOf?_newline text⟩))
  · next r =>
    cases found
    exact .inr (.inr (.inl ⟨r, rfl, rfl, endOf_behind ['/', '/'] elim_offsetOf?_newline text⟩))
  · next r =>
    cases found
    exact .inr (.inl ⟨r, rfl, rfl, endOf_behind ['/', '*'] elim_offsetOf?_close text⟩)
  · cases found

/-- At the place of a landmark it is found by its rank, and by no other rank. -/
theorem landmarkEnd?_of_landmark (text : c.text = front ++ rest) {l r : List Char}
    (found : Blank.landmark? rest = some (l, r)) {k : Nat} (known : k ∈ [0, 1, 2, 3]) :
    c.landmarkEnd? (utf8Length front) k =
      some (if Blank.rank l = k then some (utf8Length (front ++ l)) else none) := by
  have here := textFrom?_eq text
  have newline := byteAt?_beq text '\n' (by decide)
  have hash := byteAt?_beq text '#' (by decide)
  have ranks : k = 0 ∨ k = 1 ∨ k = 2 ∨ k = 3 := by simpa using known
  rcases landmark_cases text found with
    ⟨t, rfl, rank, size⟩ | ⟨t, rfl, rank, size⟩ | ⟨t, rfl, rank, size⟩ | ⟨t, rfl, rank, size⟩ <;>
  rcases ranks with rfl | rfl | rfl | rfl <;>
  simp [landmarkEnd?, here, newline, hash, rank, size]

theorem landmarkEnd?_of_none (text : c.text = front ++ rest)
    (missing : Blank.landmark? rest = none) (k : Nat) :
    c.landmarkEnd? (utf8Length front) k = some none := by
  obtain ⟨noNewline, noHash, noLine, noBlock⟩ := Blank.opens_nothing missing
  unfold landmarkEnd?
  split
  · rw [byteAt?_beq text '\n' (by decide), noNewline]
    rfl
  · rw [textFrom?_eq text, Option.bind_eq_bind, Option.bind_some, noBlock]
    rfl
  · rw [textFrom?_eq text, Option.bind_eq_bind, Option.bind_some, noLine]
    rfl
  · rw [byteAt?_beq text '#' (by decide), noHash]
    rfl

theorem remaining_eq (text : c.text = front ++ rest) :
    c.remaining (utf8Length front) = utf8Length rest := by
  rw [remaining, text, utf8Length_append, Nat.add_sub_cancel_left]

theorem blankEnd?_of_landmark (text : c.text = front ++ rest) {l r : List Char}
    (found : Blank.landmark? rest = some (l, r)) :
    c.blankEnd? (utf8Length front) = some (some (utf8Length (front ++ l))) := by
  have here := textFrom?_eq text
  rcases landmark_cases text found with
    ⟨t, rfl, -, size⟩ | ⟨t, rfl, -, size⟩ | ⟨t, rfl, -, size⟩ | ⟨t, rfl, -, size⟩ <;>
  simp [blankEnd?, here, Blank.isInline, size]

theorem blankEnd?_of_isInline {x : Char} {r : List Char} (text : c.text = front ++ (x :: r))
    (inline : Blank.isInline x = true) :
    c.blankEnd? (utf8Length front) = some (some (utf8Length (front ++ [x]))) := by
  have one : utf8Length [x] = 1 := utf8Length_of_ascii (Blank.toNat_of_isInline inline)
  rw [blankEnd?, textFrom?_eq text, utf8Length_append, one]
  simp [inline]

theorem blankEnd?_of_stops (text : c.text = front ++ rest) (missing : Blank.landmark? rest = none)
    (stops : rest.head?.any Blank.isInline = false) :
    c.blankEnd? (utf8Length front) = some none := by
  obtain ⟨noNewline, noHash, noLine, noBlock⟩ := Blank.opens_nothing missing
  have solid : (rest.head?.any fun x => Blank.isInline x || x == '\n') = false := by
    cases rest with
    | nil => rfl
    | cons x r =>
      rw [List.head?_cons, Option.any_some] at stops ⊢
      rw [stops]
      simpa using noNewline
  have noHash' : ['#'].isPrefixOf rest = false := by
    cases rest with
    | nil => rfl
    | cons x r =>
      have other : (x == '#') = false := noHash
      rw [List.isPrefixOf, Bool.beq_comm, other, Bool.false_and]
  rw [blankEnd?, textFrom?_eq text, Option.bind_eq_bind, Option.bind_some, solid, noBlock, noLine,
    noHash']
  rfl

theorem peek?_of_blankEnd {w r : List Char} (text : c.text = front ++ (w ++ r)) (some : w ≠ [])
    (ends : c.blankEnd? (utf8Length front) = Option.some (Option.some (utf8Length (front ++ w)))) :
    c.peek? (utf8Length front) = c.peek? (utf8Length (front ++ w)) := by
  have text' : c.text = (front ++ w) ++ r := by rw [text, List.append_assoc]
  have less : c.remaining (utf8Length (front ++ w)) < c.remaining (utf8Length front) := by
    have more := utf8Length_pos some
    rw [remaining_eq text, remaining_eq text', utf8Length_append]
    omega
  rw [peek?, ends]
  exact dif_pos less

/-- A look ahead ends where what matters begins. -/
theorem peek?_eq (text : c.text = front ++ rest) :
    ∃ w, rest = w ++ Blank.skip rest ∧
      c.peek? (utf8Length front) = some (utf8Length (front ++ w)) := by
  fun_induction Blank.skip rest generalizing front with
  | case1 rest l r found ih =>
    have split := Blank.landmark?_append found
    have text' : c.text = (front ++ l) ++ r := by rw [text, ← split, List.append_assoc]
    have ends := blankEnd?_of_landmark text found
    obtain ⟨w, skipped, peeked⟩ := ih text'
    refine ⟨l ++ w, by rw [← split, List.append_assoc, ← skipped], ?_⟩
    rw [peek?_of_blankEnd (split ▸ text) (Blank.landmark?_ne_nil found) ends, peeked,
      List.append_assoc]
  | case2 missing =>
    refine ⟨[], rfl, ?_⟩
    rw [peek?, blankEnd?_of_stops text missing rfl, List.append_nil]
  | case3 x r missing inline ih =>
    have text' : c.text = (front ++ [x]) ++ r := by rw [text, List.append_assoc]; rfl
    obtain ⟨w, skipped, peeked⟩ := ih text'
    refine ⟨x :: w, by rw [List.cons_append, ← skipped], ?_⟩
    rw [peek?_of_blankEnd text (List.cons_ne_nil x []) (blankEnd?_of_isInline text inline), peeked,
      List.append_assoc]
    rfl
  | case4 x r missing solid =>
    refine ⟨[], rfl, ?_⟩
    rw [peek?, blankEnd?_of_stops text missing (by simpa using solid), List.append_nil]

end Looks

end OffsetCursor

end DotText
