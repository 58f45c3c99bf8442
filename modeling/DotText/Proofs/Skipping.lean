import DotText.Proofs.Passing
import DotText.Proofs.Tokens

set_option autoImplicit false

/- Skipping over a token, and what becomes of the separators in front of it. Those that an earlier
move left behind are pending; the others are the token's own, of which there is one at most. -/
namespace DotText

open Walk (Move)

theorem Lexeme.Separates.all_isSeparator {allowed : Separators} {seps : List Lexeme}
    (separates : Separates allowed seps) : seps.all isSeparator = true := by
  cases separates <;> rfl

/-- Two splits of the same pieces at the end of some separators. The second may come first. -/
theorem split_separators {seps gone others left : List Lexeme} {piece : Lexeme}
    (solid : piece.isSeparator = false) (separators : gone.all Lexeme.isSeparator = true)
    (same : seps ++ piece :: others = gone ++ left) :
    ∃ behind, seps = gone ++ behind ∧ left = behind ++ piece :: others := by
  rcases List.append_eq_append_iff.mp same with ⟨more, rfl, rest⟩ | ⟨behind, rfl, rest⟩
  · cases more with
    | nil => exact ⟨[], by simp, by simpa using rest.symm⟩
    | cons x more =>
      cases rest
      simp [solid] at separators
  · exact ⟨behind, rfl, rest⟩

namespace Cursor

variable {c : Cursor} {allowed : Separators} {pending seps others : List Lexeme} {piece : Lexeme}

theorem significant_ne_nil {cs : List Char} (found : piece ∈ Lexeme.all cs)
    (solid : piece.isSeparator = false) : Lexeme.significant cs ≠ [] := by
  apply List.ne_nil_of_mem
  exact List.mem_filter.mpr ⟨found, by simp [solid]⟩

theorem Clean.not_allowed {cs : List Char} (clean : Clean allowed cs) :
    (Lexeme.all cs).head?.any allowed.allowsPiece = false := by
  rw [← Bool.not_eq_true]
  intro next
  obtain ⟨x, t, start, allows⟩ := head_of_allowsPiece next
  rw [clean.1] at start
  have stops := clean.2
  rw [start, List.head?_cons, Option.any_some, allows] at stops
  cases stops

/-- No separator is left where all of them may be passed. -/
theorem Clean.not_isSeparator {cs : List Char} (clean : Clean .ofEntries cs) :
    (Lexeme.all cs).head?.any Lexeme.isSeparator = false := by
  cases found : Lexeme.all cs with
  | nil => rfl
  | cons x left =>
    obtain ⟨c, t, r, rfl, first, -⟩ := Lexeme.first_of_all clean.1 found
    cases x with
    | separator y =>
      have allows := clean.2
      rw [List.head?_cons, Option.any_some] at allows
      rcases (Lexeme.opens_of_first first).1 with rfl | rfl <;> cases allows
    | _ => rfl

/-- Going over separators, the pending ones and a token's own, to what is ahead of them. Some of them
may be left; if none were pending and they were swept, its own are what was gone over. -/
def GoesOver (separate erase : Bool) (pending seps ahead : List Lexeme) (swept : Prop)
    (c c' : Cursor) : Prop :=
  ∃ ev left, Follows separate c ev c' ∧ (Mark.lexemes ev).all Lexeme.isSeparator = true ∧
    left.all Lexeme.isSeparator = true ∧ Lexeme.all c'.rest = left ++ ahead ∧
    (pending = [] → swept → left = [] ∧ ev = Mark.all erase seps)

/-- What is gone over without a piece among it is separators, and so is what is left of them. -/
theorem goesOver_of_follows {c' : Cursor} {ev : List Mark} {erase : Bool} {swept : Prop}
    (follows : Follows true c ev c') (spare : (Mark.lexemes ev).all Lexeme.isSeparator = true)
    (loose : pending.all Lexeme.isSeparator = true) (separates : Lexeme.Separates allowed seps)
    (solid : piece.isSeparator = false)
    (start : Lexeme.all c.rest = pending ++ seps ++ piece :: others)
    (exact : ∀ {left}, seps = Mark.lexemes ev ++ left →
      Lexeme.all c'.rest = left ++ piece :: others → pending = [] → swept →
        left = [] ∧ ev = Mark.all erase seps) :
    GoesOver true erase pending seps (piece :: others) swept c c' := by
  have takes := follows.takes
  rw [start] at takes
  obtain ⟨left, split, rest⟩ := split_separators solid spare takes
  have separators : (pending ++ seps).all Lexeme.isSeparator = true := by
    rw [List.all_append, loose, separates.all_isSeparator]
    rfl
  rw [split, List.all_append, Bool.and_eq_true] at separators
  refine ⟨ev, left, follows, spare, separators.2, rest, fun fresh swept => ?_⟩
  rw [fresh, List.nil_append] at split
  exact exact split rest fresh swept

theorem goesOver_passBlanks (loose : pending.all Lexeme.isSeparator = true)
    (separates : Lexeme.Separates allowed seps) (solid : piece.isSeparator = false)
    (start : Lexeme.all c.rest = pending ++ seps ++ piece :: others) (swept : Prop) :
    GoesOver true false pending seps (piece :: others) swept c (c.passBlanks allowed) := by
  obtain ⟨gone, listed, follows, clean⟩ :=
    follows_passBlanks allowed c (significant_ne_nil (by simp [start]) solid)
  refine goesOver_of_follows follows (by simpa using Separators.all_isSeparator listed) loose
    separates solid start fun {left} split rest _ _ => ?_
  rw [Mark.lexemes_all] at split
  cases left with
  | nil => exact ⟨rfl, by rw [split, List.append_nil]⟩
  | cons x left =>
    have stops := clean.not_allowed
    rw [rest, List.cons_append, List.head?_cons, Option.any_some] at stops
    have next : x ∈ seps := by simp [split]
    cases separates with
    | none => cases next
    | one allows =>
      rw [List.mem_singleton.mp next, Separators.allowsPiece, allows] at stops
      cases stops

theorem goesOver_cutBlanks (loose : pending.all Lexeme.isSeparator = true)
    (separates : Lexeme.Separates allowed seps) (solid : piece.isSeparator = false)
    (start : Lexeme.all c.rest = pending ++ seps ++ piece :: others) :
    GoesOver true true pending seps (piece :: others) (c.sweeps allowed = true) c
      (c.cutBlanks allowed) := by
  obtain ⟨gone, kept, listed, listed', follows, swept⟩ :=
    follows_cutBlanks allowed c (significant_ne_nil (by simp [start]) solid)
  have spare : (gone ++ kept).all Lexeme.isSeparator = true := by
    rw [List.all_append, Separators.all_isSeparator listed, Separators.all_isSeparator listed']
    rfl
  refine goesOver_of_follows follows (by simpa using spare) loose separates solid start
    fun {left} split _ fresh sweeps => ?_
  rw [Mark.lexemes_append, Mark.lexemes_all, Mark.lexemes_all] at split
  cases separates with
  | none =>
    obtain ⟨both, rfl⟩ := List.append_eq_nil_iff.mp split.symm
    obtain ⟨rfl, rfl⟩ := List.append_eq_nil_iff.mp both
    exact ⟨rfl, rfl⟩
  | @one x allows =>
    cases gone with
    | nil =>
      have stops := swept sweeps rfl
      rw [start, fresh, List.nil_append, List.cons_append, List.head?_cons, Option.any_some,
        Separators.allowsPiece, allows] at stops
      cases stops
    | cons y gone =>
      rw [List.cons_append, List.cons_append, List.cons.injEq] at split
      obtain ⟨rfl, none⟩ := split
      obtain ⟨both, rfl⟩ := List.append_eq_nil_iff.mp none.symm
      obtain ⟨rfl, rfl⟩ := List.append_eq_nil_iff.mp both
      exact ⟨rfl, rfl⟩

/-- What goes over insignificant material goes over separators. One that comes next goes with what
is taken away, if no landmark stands in front of it. -/
theorem goesOver_skipBlanks (erase : Bool) (loose : pending.all Lexeme.isSeparator = true)
    (separates : Lexeme.Separates allowed seps) (solid : piece.isSeparator = false)
    (start : Lexeme.all c.rest = pending ++ seps ++ piece :: others) :
    GoesOver true erase pending seps (piece :: others) (erase = true → c.sweeps allowed = true) c
      (c.skipBlanks erase allowed) := by
  cases erase with
  | false => exact goesOver_passBlanks loose separates solid start _
  | true => simpa [skipBlanks] using goesOver_cutBlanks loose separates solid start

theorem Separates_none {seps : List Lexeme} (separates : Lexeme.Separates allowed seps)
    (none : allowed.any = false) : seps = [] := by
  cases separates with
  | none => rfl
  | one allows =>
    simp only [Separators.any, Bool.or_eq_false_iff] at none
    simp [Separators.allows, none] at allows

theorem goesOver_approach (erase : Bool) (loose : pending.all Lexeme.isSeparator = true)
    (separates : Lexeme.Separates allowed seps) (solid : piece.isSeparator = false)
    (start : Lexeme.all c.rest = pending ++ seps ++ piece :: others) :
    GoesOver true erase pending seps (piece :: others)
      ((erase && allowed.any) = true → c.sweeps allowed = true) c (c.approach erase allowed) := by
  obtain ⟨ev, left, follows, spare, loose', rest, exact⟩ :=
    goesOver_skipBlanks (erase && allowed.any) loose separates solid start
  refine ⟨ev, left, follows, spare, loose', rest, fun fresh sweeps => ?_⟩
  obtain ⟨none, same⟩ := exact fresh sweeps
  refine ⟨none, ?_⟩
  cases any : allowed.any with
  | true => rw [same, any, Bool.and_true]
  | false =>
    rw [same, Separates_none separates any]
    rfl

/-- Taking away blanks alone goes over no piece. -/
theorem follows_cutBlanks_none (c : Cursor) (more : Lexeme.significant c.rest ≠ []) :
    Follows true c [] (c.cutBlanks .none) := by
  obtain ⟨gone, kept, listed, listed', follows, -⟩ := follows_cutBlanks .none c more
  rw [Separators.eq_nil_of_none listed, Separators.eq_nil_of_none listed'] at follows
  exact follows

end Cursor

namespace Token

/-- A token that spells the first piece of a text is split off as the piece. -/
theorem Spells.split {token : Token} {piece : Lexeme} (spells : token.Spells piece)
    {cs : List Char} {others : List Lexeme} (solid : Blank.skip cs = cs)
    (found : Lexeme.all cs = piece :: others) :
    ∃ r, token.split? cs = some (piece.written, r) ∧ Lexeme.all r = others ∧
      Part.ofText cs = .piece piece :: Part.ofText r ∧ (Part.piece piece).Whole := by
  obtain ⟨c, t, r, rfl, first, rest⟩ := Lexeme.first_of_all solid found
  refine ⟨r, spells.split?_eq first, rest, ?_, spells.known, c, t, r, first⟩
  rw [Part.ofText_of_skip solid, first]

theorem isAt_of_split? {token : Token} {cs : List Char} {found : List Char × List Char}
    (split : token.split? cs = some found) : token.isAt cs = true := by
  unfold split? at split
  split at split
  · assumption
  · cases split

end Token

namespace Cursor

variable {c : Cursor} {token : Token} {allowed : Separators} {isOptional : Bool}
  {pending seps others : List Lexeme} {piece : Lexeme}

/-- Where a token is reached, nothing is left in front of it. -/
theorem rest_of_reaches {erase : Bool} (spells : token.Spells piece)
    (loose : pending.all Lexeme.isSeparator = true)
    (start : Lexeme.all (c.approach erase allowed).rest = pending ++ piece :: others)
    (reaches : Move.reaches (.skip token erase allowed isOptional) c = true) :
    pending = [] ∧ Blank.skip (c.approach erase allowed).rest = (c.approach erase allowed).rest := by
  have solid := spells.not_isSeparator
  obtain ⟨gone, listed, follows, clean⟩ :=
    follows_passBlanks .ofEntries (c.approach erase allowed)
      (significant_ne_nil (by simp [start]) solid)
  have takes := follows.takes
  rw [Mark.lexemes_all, start] at takes
  obtain ⟨left, split, rest⟩ := split_separators solid (Separators.all_isSeparator listed) takes
  have none : left = [] := by
    have stops := clean.not_isSeparator
    cases left with
    | nil => rfl
    | cons x left =>
      rw [split, List.all_append, List.all_cons, Bool.and_eq_true, Bool.and_eq_true] at loose
      rw [rest, List.cons_append, List.head?_cons, Option.any_some, loose.2.1] at stops
      cases stops
  subst none
  obtain ⟨r, found, -⟩ := spells.split clean.1 rest
  have same : (c.approach erase allowed).rest =
      (passBlanks .ofEntries (c.approach erase allowed)).rest := by
    simpa [Move.reaches, behindSeparators, Token.isAt_of_split? found] using reaches
  refine ⟨?_, by rw [same]; exact clean.1⟩
  rw [← same, start] at rest
  cases pending with
  | nil => rfl
  | cons x pending =>
    rw [List.all_cons, Bool.and_eq_true] at loose
    rw [← (List.cons.inj rest).1, loose.1] at solid
    cases solid

theorem sweeps_of_move {erase : Bool}
    (sweeps : Move.sweeps (.skip token erase allowed isOptional) c = true) :
    (erase && allowed.any) = true → c.sweeps allowed = true := by
  intro erasing
  cases erase with
  | false => cases erasing
  | true => exact sweeps

/-- A token that is reached comes next behind what is in front of it. A token that nothing is left
in front of and that no separators go with is reached. -/
theorem follows_to_token (erase isOptional : Bool) (spells : token.Spells piece)
    (loose : pending.all Lexeme.isSeparator = true) (separates : Lexeme.Separates allowed seps)
    (start : Lexeme.all c.rest = pending ++ seps ++ piece :: others)
    (reached : Move.reaches (.skip token erase allowed isOptional) c = true ∨
      pending = [] ∧ (erase && allowed.any) = false) :
    ∃ ev, Follows true c ev (c.approach erase allowed) ∧
      (Mark.lexemes ev).all Lexeme.isSeparator = true ∧
      Blank.skip (c.approach erase allowed).rest = (c.approach erase allowed).rest ∧
      Lexeme.all (c.approach erase allowed).rest = piece :: others ∧
      (pending = [] → Move.sweeps (.skip token erase allowed isOptional) c = true →
        ev = Mark.all erase seps) := by
  have solid := spells.not_isSeparator
  obtain ⟨ev, left, follows, spare, loose', rest, exact⟩ :=
    goesOver_approach erase loose separates solid start
  have reached' : left = [] ∧
      Blank.skip (c.approach erase allowed).rest = (c.approach erase allowed).rest := by
    rcases reached with reaches | ⟨fresh, keeps⟩
    · exact rest_of_reaches spells loose' rest reaches
    · refine ⟨(exact fresh (by simp [keeps])).1, ?_⟩
      obtain ⟨-, -, -, clean⟩ := follows_passBlanks allowed c
        (significant_ne_nil (by simp [start]) solid)
      unfold approach
      rw [keeps]
      exact clean.1
  obtain ⟨rfl, clean⟩ := reached'
  exact ⟨ev, follows, spare, clean, rest,
    fun fresh sweeps => (exact fresh (sweeps_of_move sweeps)).2⟩

theorem keepToken_eq {piece : Lexeme} (whole : (Part.piece piece).Whole) (c : Cursor)
    (r : List Char) : c.keepToken piece.written r = c.keep piece.written r := by
  obtain ⟨-, x, t, r', first⟩ := whole
  have some := Lexeme.written_first_ne_nil x t
  rw [first] at some
  unfold keepToken
  cases written : piece.written with
  | nil => exact absurd written some
  | cons => rfl

theorem follows_cutToken {r : List Char}
    (splits : Part.ofText c.rest = .piece piece :: Part.ofText r)
    (more : ∃ x ∈ Lexeme.all r, x.isSeparator = false) :
    Follows true c [⟨piece, true⟩] (c.cutToken r) := by
  obtain ⟨x, mem, solid⟩ := more
  exact (Follows.cut [.piece piece] rfl splits).trans
    (follows_cutBlanks_none (c.cut r) (significant_ne_nil mem solid))

/-- A token that comes next is gone over. -/
theorem skip_found (erase isOptional : Bool) (spells : token.Spells piece)
    (loose : pending.all Lexeme.isSeparator = true) (separates : Lexeme.Separates allowed seps)
    (start : Lexeme.all c.rest = pending ++ seps ++ piece :: others)
    (more : erase = true → ∃ x ∈ others, x.isSeparator = false)
    (reached : Move.reaches (.skip token erase allowed isOptional) c = true ∨
      pending = [] ∧ (erase && allowed.any) = false) :
    ∃ ev c', Walk.skip token erase allowed isOptional c = .ok c' ∧
      Follows (Move.keepsApart (.skip token erase allowed isOptional) c) c
        (ev ++ [⟨piece, erase⟩]) c' ∧
      (Mark.lexemes ev).all Lexeme.isSeparator = true ∧ Lexeme.all c'.rest = others ∧
      (pending = [] → Move.sweeps (.skip token erase allowed isOptional) c = true →
        ev = Mark.all erase seps) := by
  obtain ⟨ev, follows, spare, clean, rest, exact⟩ :=
    follows_to_token erase isOptional spells loose separates start reached
  obtain ⟨r, found, behind, splits, whole⟩ := spells.split clean rest
  cases erase with
  | false =>
    refine ⟨ev, (c.approach false allowed).keep piece.written r, ?_, ?_, spare, behind, exact⟩
    · simp [Walk.skip, skip, found, keepToken_eq whole]
    · have kept := follows.trans (Follows.keepPiece whole spells.not_isSeparator splits)
      simpa [Move.keepsApart, found] using kept
  | true =>
    have gone := follows_cutToken splits (by rw [behind]; exact more rfl)
    have final := gone.takes
    rw [rest] at final
    refine ⟨ev, (c.approach true allowed).cutToken r, ?_, follows.trans gone, spare, ?_, exact⟩
    · simp [Walk.skip, skip, found]
    · exact (List.cons.inj final).2.symm

/-- A token that may be absent, and is, is passed by. -/
theorem skip_absent (erase : Bool) (plain : token.isPlain = true) (absent : ¬ token.Spells piece)
    (solid : piece.isSeparator = false) (loose : pending.all Lexeme.isSeparator = true)
    (separates : Lexeme.Separates allowed seps)
    (start : Lexeme.all c.rest = pending ++ seps ++ piece :: others) :
    ∃ c', Walk.skip token erase allowed true c = .ok c' ∧
      GoesOver (Move.keepsApart (.skip token erase allowed true) c) erase pending seps
        (piece :: others) (Move.sweeps (.skip token erase allowed true) c = true) c c' := by
  obtain ⟨ev, left, follows, spare, loose', rest, exact⟩ :=
    goesOver_approach erase loose separates solid start
  have missing : token.split? (c.approach erase allowed).rest = none := by
    unfold Token.split?
    rw [if_neg]
    intro at_
    obtain ⟨other, behind, found, spells⟩ := Token.Spells.of_isAt plain at_
    rw [rest] at found
    cases left with
    | nil =>
      cases found
      exact absent spells
    | cons x left =>
      cases found
      rw [List.all_cons, spells.not_isSeparator] at loose'
      cases loose'
  have exact' := fun fresh (sweeps : Move.sweeps (.skip token erase allowed true) c = true) =>
    exact fresh (sweeps_of_move sweeps)
  cases erase with
  | false =>
    refine ⟨c.approach false allowed, ?_, ev, left, ?_, spare, loose', rest, exact'⟩
    · simp [Walk.skip, skip, missing]
    · simpa [Move.keepsApart, missing] using follows
  | true =>
    have none := Follows.cut (c := c.approach true allowed) []
      (r := (c.approach true allowed).rest) rfl rfl
    have gone := none.trans (follows_cutBlanks_none _
      (significant_ne_nil (by simp [cut, rest]) solid))
    refine ⟨(c.approach true allowed).cutToken (c.approach true allowed).rest, ?_, ev, left, ?_,
      spare, loose', ?_, exact'⟩
    · simp [Walk.skip, skip, missing]
    · simpa [Mark.all, Move.keepsApart, cutToken] using follows.trans gone
    · rw [← rest]
      exact gone.takes.symm

end Cursor

end DotText
