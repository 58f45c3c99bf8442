import DotText.Proofs.Following

set_option autoImplicit false

/- Going over insignificant material: what a pass goes over, and where it comes to rest. A text with
something to say ahead is assumed, so that no comment runs to the end of the text. -/
namespace DotText

open DotText.Part (textOf pieces)

/-- Whether a piece is a separator that may be passed. -/
def Separators.allowsPiece (allowed : Separators) : Lexeme → Bool
  | .separator c => allowed.allows c
  | _ => false

theorem Separators.isSeparator_of_allowsPiece {allowed : Separators} {p : Lexeme}
    (listed : allowed.allowsPiece p = true) : p.isSeparator = true := by
  cases p <;> first | rfl | cases listed

theorem Separators.all_isSeparator {allowed : Separators} {seps : List Lexeme}
    (listed : seps.all allowed.allowsPiece = true) : seps.all Lexeme.isSeparator = true := by
  rw [List.all_eq_true] at listed ⊢
  exact fun p mem => isSeparator_of_allowsPiece (listed p mem)

theorem Separators.eq_nil_of_none {seps : List Lexeme}
    (listed : seps.all none.allowsPiece = true) : seps = [] := by
  cases seps with
  | nil => rfl
  | cons p seps =>
    rw [List.all_cons, Bool.and_eq_true] at listed
    cases p <;> cases listed.1

/-- The part that a character inside a line is. -/
def Part.ofPassed (c : Char) : Part :=
  if Blank.isInline c then .blank [c] else .piece (.separator c)

namespace Part

variable {allowed : Separators}

theorem text_ofPassed (c : Char) : (ofPassed c).text = [c] := by
  unfold ofPassed
  split <;> rfl

theorem isSpare_ofPassed (c : Char) : (ofPassed c).isSpare = true := by
  unfold ofPassed
  split
  · next inline =>
    have plain : ¬ (c = '#' ∨ c = '/') := by rintro (rfl | rfl) <;> cases inline
    simpa [isSpare, isComment] using plain
  · rfl

theorem all_isSpare_ofPassed (w : List Char) : (w.map ofPassed).all isSpare = true := by
  simp [isSpare_ofPassed]

theorem allows_of_passes {c : Char} (passes : allowed.passes c = true)
    (solid : Blank.isInline c = false) : allowed.allows c = true := by
  rw [Separators.passes_eq, solid, Bool.false_or] at passes
  exact passes

theorem whole_ofPassed {c : Char} (passes : allowed.passes c = true) : (ofPassed c).Whole := by
  unfold ofPassed
  split
  · next inline => exact whole_inline inline
  · next solid =>
    exact whole_separator (Separators.eq_of_allows (allows_of_passes passes (by simpa using solid)))

/-- Characters that are passed are parts by themselves. -/
theorem ofText_ofPassed {c : Char} (passes : allowed.passes c = true) (r : List Char) :
    ofText (c :: r) = ofPassed c :: ofText r := by
  unfold ofPassed
  split
  · next inline => exact ofText_of_isInline inline r
  · next solid =>
    have separator := Separators.eq_of_allows (allows_of_passes passes (by simpa using solid))
    have plain : Blank.mayBegin c = false := by rcases separator with rfl | rfl <;> decide
    have first : Lexeme.first c r = (.separator c, r) :=
      Lexeme.first_of_opens (.separator c) ⟨separator, rfl, rfl⟩ (by simp)
    rw [ofText_of_skip (Blank.skip_of_not_mayBegin plain r), first]

theorem ofText_append_ofPassed {w : List Char} (passes : w.all allowed.passes = true)
    (r : List Char) : ofText (w ++ r) = w.map ofPassed ++ ofText r := by
  induction w with
  | nil => rfl
  | cons c w ih =>
    rw [List.all_cons, Bool.and_eq_true] at passes
    rw [List.cons_append, ofText_ofPassed passes.1, ih passes.2]
    rfl

theorem pieces_ofPassed (c : Char) (parts : List Part) :
    pieces (ofPassed c :: parts) =
      if Blank.isInline c then pieces parts else .separator c :: pieces parts := by
  unfold ofPassed
  split <;> rfl

theorem allowed_ofPassed {w : List Char} (passes : w.all allowed.passes = true) :
    (pieces (w.map ofPassed)).all allowed.allowsPiece = true := by
  induction w with
  | nil => rfl
  | cons c w ih =>
    rw [List.all_cons, Bool.and_eq_true] at passes
    rw [List.map_cons, pieces_ofPassed]
    split
    · exact ih passes.2
    · next solid =>
      have listed := allows_of_passes passes.1 (by simpa using solid)
      rw [List.all_cons, ih passes.2, Bool.and_true]
      exact listed

/-- What no separator is among is all blanks. -/
theorem isInline_of_pieces_eq_nil {w : List Char} (none : pieces (w.map ofPassed) = []) :
    w.all Blank.isInline = true := by
  induction w with
  | nil => rfl
  | cons c w ih =>
    rw [List.map_cons, pieces_ofPassed] at none
    split at none
    · next inline => rw [List.all_cons, inline, ih none]; rfl
    · cases none

end Part

namespace Cursor

variable {allowed : Separators}

/-- Nothing is left that may be passed. -/
def Clean (allowed : Separators) (cs : List Char) : Prop :=
  Blank.skip cs = cs ∧ cs.head?.any allowed.allows = false

theorem more_of_landmark {cs l r : List Char} (found : Blank.landmark? cs = some (l, r))
    (more : Lexeme.significant cs ≠ []) : Lexeme.significant r ≠ [] ∧ r ≠ [] := by
  have same : Lexeme.significant r = Lexeme.significant cs := by
    rw [Lexeme.significant, Lexeme.significant, ← Lexeme.all_skip, ← Blank.skip_of_landmark found,
      Lexeme.all_skip]
  rw [← same] at more
  refine ⟨more, ?_⟩
  rintro rfl
  exact more (by simp [Lexeme.significant, Lexeme.all_of_skip_nil, Blank.skip, Blank.landmark?])

/-- A pass goes over all the separators that it may pass. -/
theorem follows_passBlanks (allowed : Separators) (c : Cursor)
    (more : Lexeme.significant c.rest ≠ []) :
    ∃ seps, seps.all allowed.allowsPiece = true ∧
      Follows true c (Mark.all false seps) (c.passBlanks allowed) ∧
      Clean allowed (c.passBlanks allowed).rest := by
  fun_induction passBlanks allowed c with
  | case1 c l r found ih =>
    obtain ⟨more', some⟩ := more_of_landmark found more
    obtain ⟨seps, listed, follows, clean⟩ := ih more'
    have start := Follows.keepLandmark found some
    exact ⟨seps, listed, start.trans follows, clean⟩
  | case2 c missing nothing =>
    refine ⟨[], rfl, Follows.refl c, ?_⟩
    simp [Clean, nothing, Blank.skip, Blank.landmark?]
  | case3 c missing x r start passes ih =>
    have whole := Part.whole_ofPassed passes
    have first := Follows.pass whole (Part.isSpare_ofPassed x) (c := c) (r := r)
      (by rw [start, Part.ofText_ofPassed passes])
    rw [Part.text_ofPassed] at first
    have listed := Part.allowed_ofPassed (w := [x]) (by simpa using passes)
    have more' := first.significant_eq
      (by simpa using Separators.all_isSeparator listed)
    obtain ⟨seps, listed', follows, clean⟩ := ih (by rw [more']; exact more)
    refine ⟨pieces [Part.ofPassed x] ++ seps, ?_, ?_, clean⟩
    · rw [List.all_append, listed']
      simpa using listed
    · rw [Mark.all_append]
      exact first.trans follows
  | case4 c missing x r start stops =>
    refine ⟨[], rfl, Follows.refl c, ?_, ?_⟩
    · rw [start]
      rw [start] at missing
      rw [Separators.passes_eq] at stops
      exact Blank.skip_eq_self missing (by simp_all)
    · rw [start]
      rw [Separators.passes_eq] at stops
      simp_all

theorem dropOne_split (p : Char → Bool) (cs : List Char) :
    ∃ w, cs = w ++ Separators.dropOne p cs ∧ w.all p = true := by
  unfold Separators.dropOne
  cases cs with
  | nil => exact ⟨[], rfl, rfl⟩
  | cons c cs =>
    by_cases h : p c = true
    · exact ⟨[c], by simp [h], by simp [h]⟩
    · exact ⟨[], by simp [h], rfl⟩

/-- A round goes over characters that may be passed. -/
theorem afterRound_split (allowed : Separators) (cs : List Char) :
    ∃ w, cs = w ++ allowed.afterRound cs ∧ w.all allowed.passes = true := by
  obtain ⟨a, splitA, allA⟩ := dropOne_split Blank.isInline cs
  obtain ⟨b, splitB, allB⟩ := dropOne_split (fun c => allowed.comma && c == ',')
    (Separators.dropOne Blank.isInline cs)
  obtain ⟨d, splitD, allD⟩ := dropOne_split (fun c => allowed.semicolon && c == ';')
    (Separators.dropOne (fun c => allowed.comma && c == ',')
      (Separators.dropOne Blank.isInline cs))
  refine ⟨a ++ b ++ d, ?_, ?_⟩
  · rw [List.append_assoc, List.append_assoc, Separators.afterRound, ← splitD, ← splitB, ← splitA]
  · rw [List.all_eq_true] at allA allB allD ⊢
    intro c mem
    unfold Separators.passes
    rcases List.mem_append.mp mem with mem | mem
    · rcases List.mem_append.mp mem with mem | mem
      · rw [allA c mem, Bool.true_or, Bool.true_or]
      · rw [allB c mem, Bool.or_true, Bool.true_or]
    · rw [allD c mem, Bool.or_true]

/-- The rest behind one more round. -/
theorem afterRound_start {w r cs : List Char} (passes : w.all allowed.passes = true)
    (start : cs = w ++ r) :
    ∃ w', w'.all allowed.passes = true ∧ cs = w' ++ allowed.afterRound r := by
  obtain ⟨v, split, passesV⟩ := afterRound_split allowed r
  refine ⟨w ++ v, by rw [List.all_append, passes, passesV]; rfl, ?_⟩
  rw [start, List.append_assoc, ← split]

theorem length_dropOne (p : Char → Bool) (cs : List Char) :
    (Separators.dropOne p cs).length ≤ cs.length := by
  unfold Separators.dropOne
  split <;> simp

theorem dropOne_cons (p : Char → Bool) (c : Char) (cs : List Char) :
    Separators.dropOne p (c :: cs) = if p c then cs else c :: cs := rfl

/-- A round that changes nothing has nothing in front of it that may be passed inside a line. -/
theorem stops_of_afterRound {allowed : Separators} {cs : List Char}
    (same : allowed.afterRound cs = cs) : cs.head?.any allowed.passes = false := by
  cases cs with
  | nil => rfl
  | cons c cs =>
    have size := congrArg List.length same
    rw [Separators.afterRound, dropOne_cons, List.length_cons] at size
    rw [List.head?_cons, Option.any_some, Separators.passes]
    cases inline : Blank.isInline c with
    | true =>
      rw [inline, if_pos rfl] at size
      have last := length_dropOne (fun c => allowed.semicolon && c == ';')
        (Separators.dropOne (fun c => allowed.comma && c == ',') cs)
      have middle := length_dropOne (fun c => allowed.comma && c == ',') cs
      omega
    | false =>
      rw [inline, if_neg (by simp), dropOne_cons] at size
      cases comma : allowed.comma && c == ',' with
      | true =>
        rw [comma, if_pos rfl] at size
        have last := length_dropOne (fun c => allowed.semicolon && c == ';') cs
        omega
      | false =>
        rw [comma, if_neg (by simp), dropOne_cons] at size
        cases semicolon : allowed.semicolon && c == ';' with
        | true =>
          rw [semicolon, if_pos rfl] at size
          omega
        | false => rfl

theorem follows_finishRound (rank : Nat) (c : Cursor) (more : Lexeme.significant c.rest ≠ []) :
    Follows true c [] (c.finishRound rank) := by
  fun_induction finishRound rank c with
  | case1 rank c l r found later ih =>
    obtain ⟨more', some⟩ := more_of_landmark found more
    have start := Follows.keepLandmark found some
    exact start.trans (ih more')
  | case2 => exact Follows.refl _
  | case3 => exact Follows.refl _

theorem follows_cutToLandmark {c : Cursor} {w l r cs : List Char}
    (passes : w.all allowed.passes = true) (start : c.rest = w ++ cs)
    (found : Blank.landmark? cs = some (l, r)) (more : r ≠ []) :
    Follows true c (Mark.all true (pieces (w.map Part.ofPassed))) (c.cutToLandmark l r) := by
  have plain := Part.plain_of_isSpare (Part.all_isSpare_ofPassed w)
  have split := Blank.landmark?_append found
  unfold cutToLandmark
  split
  · next lineEnd =>
    have single : l = ['\n'] := by simp_all
    have gone := Follows.cut (c := c) (w.map Part.ofPassed ++ [.blank l]) (r := r)
      (by rw [List.all_append, plain, single]; rfl)
      (by rw [start, Part.ofText_append_ofPassed passes, Part.ofText_of_landmark found]; simp)
    have back : Follows true (c.cut r) []
        { c with gap := [], rest := r, removal := some (utf8Length c.settled.dropLast) } :=
      Follows.giveUpGap rfl rfl rfl
    simpa using gone.trans back
  · have gone := Follows.cut (c := c) (w.map Part.ofPassed) (r := l ++ r) plain
      (by rw [start, split, Part.ofText_append_ofPassed passes])
    have kept := Follows.keepLandmark (c := c.cut (l ++ r)) (by rw [cut, split]; exact found) more
    have same : (c.cut (l ++ r)).keep l r = (c.cut r).keep l r := rfl
    rw [same] at kept
    simpa using gone.trans kept

theorem follows_reached {c : Cursor} (more : Lexeme.significant c.rest ≠ []) {w l r cs : List Char}
    (passes : w.all allowed.passes = true) (start : c.rest = w ++ cs)
    (found : Blank.landmark? cs = some (l, r)) (rank : Nat) :
    Follows true c (Mark.all true (pieces (w.map Part.ofPassed)))
      ((c.cutToLandmark l r).finishRound rank) := by
  have separators := Separators.all_isSeparator (Part.allowed_ofPassed passes)
  have same : Lexeme.all c.rest = pieces (w.map Part.ofPassed) ++ Lexeme.all cs := by
    rw [start, ← Part.pieces_ofText, Part.ofText_append_ofPassed passes, Part.pieces_append,
      Part.pieces_ofText]
  have nonempty : r ≠ [] := by
    refine (more_of_landmark found ?_).2
    intro nothing
    apply more
    rw [Lexeme.significant, same, List.filter_append, ← Lexeme.significant, nothing,
      List.append_nil, List.filter_eq_nil_iff]
    intro p mem
    simp [List.all_eq_true.mp separators p mem]
  have gone := follows_cutToLandmark passes start found nonempty
  have further := follows_finishRound rank (c.cutToLandmark l r)
    (by rw [gone.significant_eq (by simpa using separators)]; exact more)
  simpa using gone.trans further

/-- What is taken away is the start of the rest, up to the first landmark or to the end of the
insignificant material; what comes behind the landmark is passed. -/
theorem follows_cutRounds (allowed : Separators) (c : Cursor) (r : List Char)
    (more : Lexeme.significant c.rest ≠ [])
    {w : List Char} (passes : w.all allowed.passes = true) (start : c.rest = w ++ r) :
    ∃ w' r' seps, c.rest = w' ++ r' ∧ w'.all allowed.passes = true ∧
      (Blank.landmark? r' ≠ none ∨ r'.head?.any allowed.passes = false) ∧
      seps.all allowed.allowsPiece = true ∧
      Follows true c (Mark.all true (pieces (w'.map Part.ofPassed)) ++ Mark.all false seps)
        (c.cutRounds allowed r) := by
  fun_induction cutRounds allowed c r generalizing w with
  | case1 r cs l rest found =>
    obtain ⟨w', passes', start'⟩ := afterRound_start passes start
    have gone := follows_reached more passes' start' found (Blank.rank l)
    refine ⟨w', cs, [], start', passes', .inl ?_, rfl, by simpa [Mark.all] using gone⟩
    rw [found]
    exact Option.some_ne_none _
  | case2 r cs l rest found reached =>
    obtain ⟨w', passes', start'⟩ := afterRound_start passes start
    have gone := follows_reached more passes' start' found (Blank.rank l)
    have separators := Separators.all_isSeparator (Part.allowed_ofPassed passes')
    obtain ⟨seps, listed, further, -⟩ := follows_passBlanks allowed reached
      (by rw [gone.significant_eq (by simpa using separators)]; exact more)
    refine ⟨w', cs, seps, start', passes', .inl ?_, listed, gone.trans further⟩
    rw [found]
    exact Option.some_ne_none _
  | case3 r cs missing shorter =>
    rename_i ih
    obtain ⟨w', passes', start'⟩ := afterRound_start passes start
    exact ih passes' start'
  | case4 r cs missing =>
    rename_i notShorter
    have unchanged : cs = r := by
      obtain ⟨v, split, -⟩ := afterRound_split allowed r
      have sizes := congrArg List.length split
      have least : r.length ≤ (allowed.afterRound r).length := Nat.not_lt.mp notShorter
      rw [List.length_append] at sizes
      have none : v = [] := List.length_eq_zero_iff.mp (by omega)
      rw [none, List.nil_append] at split
      exact split.symm
    have gone := Follows.cut (c := c) (r := r) (w.map Part.ofPassed)
      (Part.plain_of_isSpare (Part.all_isSpare_ofPassed w))
      (by rw [start, Part.ofText_append_ofPassed passes])
    exact ⟨w, r, [], start, passes, .inr (stops_of_afterRound unchanged), rfl,
      by simpa [Mark.all] using gone⟩

theorem dropWhile_inline_append {w r : List Char} (inline : w.all Blank.isInline = true)
    (solid : r.head?.any Blank.isInline = false) : (w ++ r).dropWhile Blank.isInline = r :=
  (takeWhile_of_boundary inline solid).2

/-- Where a text stops being insignificant, a separator comes next or nothing that may be passed. -/
theorem head_of_allowsPiece {cs : List Char}
    (listed : (Lexeme.all cs).head?.any allowed.allowsPiece = true) :
    ∃ x t, Blank.skip cs = x :: t ∧ allowed.allows x = true := by
  cases start : Blank.skip cs with
  | nil => simp [Lexeme.all_of_skip_nil start] at listed
  | cons x t =>
    rw [Lexeme.all_of_skip_cons start, List.head?_cons, Option.any_some] at listed
    have opens := Lexeme.opens_first x t
    cases piece : (Lexeme.first x t).1 with
    | separator y =>
      rw [piece] at opens listed
      obtain ⟨-, rfl, -⟩ := opens
      exact ⟨y, t, rfl, listed⟩
    | _ =>
      rw [piece] at listed
      cases listed

/-- Taking away insignificant material goes over separators, first such as go and then such as
stay. Where no landmark stands in front of a separator, that one goes. -/
theorem follows_cutBlanks (allowed : Separators) (c : Cursor)
    (more : Lexeme.significant c.rest ≠ []) :
    ∃ gone kept, gone.all allowed.allowsPiece = true ∧ kept.all allowed.allowsPiece = true ∧
      Follows true c (Mark.all true gone ++ Mark.all false kept) (c.cutBlanks allowed) ∧
      (c.sweeps allowed = true → gone = [] →
        (Lexeme.all c.rest).head?.any allowed.allowsPiece = false) := by
  obtain ⟨w, r, seps, start, passes, stops, listed, follows⟩ :=
    follows_cutRounds allowed c c.rest more (w := []) rfl rfl
  refine ⟨_, seps, Part.allowed_ofPassed passes, listed, follows, fun sweeps none => ?_⟩
  have inline := Part.isInline_of_pieces_eq_nil none
  rw [← Bool.not_eq_true]
  intro next
  obtain ⟨x, t, skipped, allows⟩ := head_of_allowsPiece next
  have solid : r.head?.any Blank.isInline = false := by
    cases r with
    | nil => rfl
    | cons y r =>
      rw [List.head?_cons, Option.any_some]
      rcases stops with landmark | stops
      · rw [← Bool.not_eq_true]
        exact fun blank => landmark (Blank.landmark?_of_isInline blank r)
      · rw [List.head?_cons, Option.any_some, Separators.passes_eq, Bool.or_eq_false_iff] at stops
        exact stops.1
  have same : r = x :: t := by
    rw [Cursor.sweeps, skipped, start, dropWhile_inline_append inline solid] at sweeps
    simpa [allows] using sweeps
  subst same
  have plain : Blank.mayBegin x = false := by
    rcases Separators.eq_of_allows allows with rfl | rfl <;> decide
  rcases stops with landmark | stops
  · refine landmark ?_
    simp only [Blank.mayBegin, Bool.or_eq_false_iff, beq_eq_false_iff_ne] at plain
    unfold Blank.landmark?
    split <;> simp_all
  · rw [List.head?_cons, Option.any_some, Separators.passes_eq, allows, Bool.or_true] at stops
    cases stops

end Cursor

end DotText
