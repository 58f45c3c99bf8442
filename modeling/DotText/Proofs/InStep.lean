import DotText.Proofs.Skipping

set_option autoImplicit false

/- Moves that go over the pieces of a tree as it is spelled. Each is made at its place with the
text behind the cursor made of what stays; separators that an earlier move left behind may be
pending in front of the pieces. -/
namespace DotText.Walk

open Cursor (Follows)

namespace Move

theorem allAlong_singleton (p : Move → Cursor → Bool) (m : Move) (c : Cursor) :
    allAlong p [m] c = p m c := by
  unfold allAlong
  cases m.apply c <;> simp [allAlong]

theorem allAlong_start {p : Move → Cursor → Bool} {ms others : List Move} {c : Cursor}
    (along : allAlong p (ms ++ others) c = true) : allAlong p ms c = true := by
  induction ms generalizing c with
  | nil => rfl
  | cons m ms ih =>
    rw [List.cons_append, allAlong, Bool.and_eq_true] at along
    rw [allAlong, along.1, Bool.true_and]
    cases applied : m.apply c with
    | ok c' =>
      rw [applied] at along
      exact ih along.2
    | error failure => rfl

/-- What lets moves go through: every token is reached; or nothing is taken away and nothing was
left behind. -/
def Ready (pending : List Lexeme) (ms : List Move) (c : Cursor) : Prop :=
  allAlong reaches ms c = true ∨ pending = [] ∧ Calm ms

/-- Where nothing is taken away every separator stays. -/
theorem allAlong_sweeps {ms : List Move} (calm : Calm ms) (c : Cursor) :
    allAlong sweeps ms c = true := by
  induction ms generalizing c with
  | nil => rfl
  | cons m ms ih =>
    rw [calm_cons] at calm
    have here : sweeps m c = true := by
      cases m with
      | skip token erase => cases erase <;> first | rfl | cases calm.1
      | skipBlanks erase => cases erase <;> first | rfl | cases calm.1
      | _ => rfl
    rw [allAlong, here, Bool.true_and]
    split
    · exact ih calm.2 _
    · rfl

/-- Moves go over marked pieces: over all that say something, and over all of them exactly where
nothing was pending and every separator goes that is to go. -/
structure Goes (ms : List Move) (pending : List Lexeme) (c : Cursor) (marks : List Mark)
    (left : List Lexeme) (c' : Cursor) : Prop where
  ran : run ms c = .ok c'
  follows : ∃ ev, Follows (allAlong keepsApart ms c) c ev c' ∧
    ev.filter (!·.lexeme.isSeparator) = marks.filter (!·.lexeme.isSeparator) ∧
    (pending = [] → allAlong sweeps ms c = true → left = [] ∧ ev = marks)

variable {ms others : List Move} {c c' c'' : Cursor} {pending left behind : List Lexeme}
  {marks more : List Mark}

theorem Goes.nil (pending : List Lexeme) (c : Cursor) : Goes [] pending c [] pending c :=
  ⟨rfl, [], Follows.refl c, rfl, fun fresh _ => ⟨fresh, rfl⟩⟩

theorem Goes.append (first : Goes ms pending c marks left c')
    (second : Goes others left c' more behind c'') :
    Goes (ms ++ others) pending c (marks ++ more) behind c'' := by
  obtain ⟨ran, ev, follows, same, exact⟩ := first
  obtain ⟨ran', ev', follows', same', exact'⟩ := second
  refine ⟨by rw [run_append, ran]; exact ran', ev ++ ev', ?_, ?_, fun fresh sweeps => ?_⟩
  · rw [allAlong_append keepsApart ran]
    exact follows.trans follows'
  · rw [List.filter_append, same, same', List.filter_append]
  · rw [allAlong_append Move.sweeps ran, Bool.and_eq_true] at sweeps
    obtain ⟨none, rfl⟩ := exact fresh sweeps.1
    obtain ⟨none', rfl⟩ := exact' none sweeps.2
    exact ⟨none', rfl⟩

theorem Ready.first (ready : Ready pending (ms ++ others) c) : Ready pending ms c := by
  rcases ready with reaches | ⟨fresh, calm⟩
  · exact .inl (allAlong_start reaches)
  · exact .inr ⟨fresh, (calm_append.mp calm).1⟩

theorem Ready.second (ready : Ready pending (ms ++ others) c)
    (goes : Goes ms pending c marks left c') : Ready left others c' := by
  rcases ready with reaches | ⟨fresh, calm⟩
  · rw [allAlong_append Move.reaches goes.ran, Bool.and_eq_true] at reaches
    exact .inl reaches.2
  · rw [calm_append] at calm
    obtain ⟨ev, -, -, exact⟩ := goes.follows
    exact .inr ⟨(exact fresh (allAlong_sweeps calm.1 c)).1, calm.2⟩

/-- Whether something that says something comes next or later. -/
def Says (pieces : List Lexeme) : Prop :=
  ∃ piece ∈ pieces, piece.isSeparator = false

theorem Says.append {pieces : List Lexeme} (tells : Says pieces) (before : List Lexeme) :
    Says (before ++ pieces) := by
  obtain ⟨piece, mem, solid⟩ := tells
  exact ⟨piece, List.mem_append_right _ mem, solid⟩

/-- Moves go over marked pieces in front of any text that `follow` holds of. The two truth values
say whether separators may be pending before the moves, and whether some may be behind them. -/
def InStep (before : Bool) (ms : List Move) (marks : List Mark) (after : Bool)
    (follow : List Lexeme → Prop) : Prop :=
  ∀ (c : Cursor) (pending tail : List Lexeme), pending.all Lexeme.isSeparator = true →
    (before = false → pending = []) → follow tail → Says tail →
    Lexeme.all c.rest = pending ++ (Mark.lexemes marks ++ tail) → Ready pending ms c →
    ∃ left c', left.all Lexeme.isSeparator = true ∧ (after = false → left = []) ∧
      Lexeme.all c'.rest = left ++ tail ∧ Goes ms pending c marks left c'

variable {before between after : Bool} {follow behindFirst : List Lexeme → Prop}

theorem InStep.append (first : InStep before ms marks between behindFirst)
    (second : InStep between others more after follow)
    (fits : ∀ tail, follow tail → Says tail → behindFirst (Mark.lexemes more ++ tail)) :
    InStep before (ms ++ others) (marks ++ more) after follow := by
  intro c pending tail loose fresh follows tells start ready
  rw [Mark.lexemes_append, List.append_assoc] at start
  obtain ⟨left, c', loose', fresh', rest, goes⟩ :=
    first c _ _ loose fresh (fits tail follows tells) (tells.append _) start ready.first
  obtain ⟨behind, c'', loose'', fresh'', rest', goes'⟩ :=
    second c' _ _ loose' fresh' follows tells rest (ready.second goes)
  exact ⟨behind, c'', loose'', fresh'', rest', goes.append goes'⟩

theorem InStep.fresh (steps : InStep true ms marks after follow) (before : Bool) :
    InStep before ms marks after follow := by
  intro c pending tail loose _ follows tells start ready
  exact steps c _ _ loose (by simp) follows tells start ready

theorem InStep.loosen (steps : InStep before ms marks false follow) (after : Bool) :
    InStep before ms marks after follow := by
  intro c pending tail loose fresh follows tells start ready
  obtain ⟨left, c', loose', fresh', rest, goes⟩ := steps c _ _ loose fresh follows tells start ready
  exact ⟨left, c', loose', fun _ => fresh' rfl, rest, goes⟩

theorem InStep.mono (steps : InStep before ms marks after behindFirst)
    (fits : ∀ tail, follow tail → behindFirst tail) : InStep before ms marks after follow := by
  intro c pending tail loose fresh follows tells start ready
  exact steps c _ _ loose fresh (fits tail follows) tells start ready

theorem InStep.nil (before : Bool) (follow : List Lexeme → Prop) :
    InStep before [] [] before follow := by
  intro c pending tail loose fresh _ _ start _
  exact ⟨pending, c, loose, fresh, start, Goes.nil pending c⟩

/-- A move that goes over nothing. -/
theorem InStep.silent {m : Move} (apply : Cursor → Cursor) (applies : ∀ c, m.apply c = .ok (apply c))
    (follows : ∀ c, Follows true c [] (apply c)) (apart : ∀ c, keepsApart m c = true)
    (before : Bool) (follow : List Lexeme → Prop) : InStep before [m] [] before follow := by
  intro c pending tail loose fresh _ _ start _
  refine ⟨pending, apply c, loose, fresh, ?_, ?_, [], ?_, rfl, fun none _ => ⟨none, rfl⟩⟩
  · have takes := (follows c).takes
    rw [start] at takes
    exact takes.symm
  · rw [run_cons, applies]
    rfl
  · rw [allAlong_singleton, apart]
    exact follows c

theorem InStep.count (before : Bool) (follow : List Lexeme → Prop) :
    InStep before [Move.count] [] before follow :=
  .silent Cursor.countErased (fun _ => rfl) Follows.countErased (fun _ => rfl) _ _

theorem InStep.trim (before : Bool) (follow : List Lexeme → Prop) :
    InStep before [Move.trim] [] before follow :=
  .silent Cursor.trim (fun _ => rfl) Follows.trim (fun _ => rfl) _ _

theorem InStep.spaceApart (before : Bool) (follow : List Lexeme → Prop) :
    InStep before [Move.spaceApart] [] before follow := by
  refine .silent Walk.spaceApart (fun _ => rfl) (fun c => ?_) (fun _ => rfl) _ _
  unfold Walk.spaceApart
  split
  · exact Follows.refl c
  · next joined => exact Follows.insertSpace (by simpa using joined)

theorem InStep.counts (erase before : Bool) (follow : List Lexeme → Prop) :
    InStep before (Move.counts erase) [] before follow := by
  cases erase with
  | false => exact .nil before follow
  | true => exact .count before follow

theorem filter_loose {marks : List Mark}
    (loose : (Mark.lexemes marks).all Lexeme.isSeparator = true) :
    marks.filter (!·.lexeme.isSeparator) = [] := by
  rw [List.filter_eq_nil_iff]
  intro mark mem
  have separator := List.all_eq_true.mp loose mark.lexeme (List.mem_map_of_mem mem)
  simp [separator]

/-- A token goes over its piece and the separators of its own in front of it. -/
theorem goes_token {token : Token} {piece : Lexeme} {allowed : Separators} {seps tail : List Lexeme}
    {erase isOptional : Bool} (spells : token.Spells piece)
    (separates : Lexeme.Separates allowed seps)
    (loose : pending.all Lexeme.isSeparator = true) (tells : erase = true → Says tail)
    (start : Lexeme.all c.rest = pending ++ (seps ++ piece :: tail))
    (ready : Ready pending [.skip token erase allowed isOptional] c) :
    ∃ c', Lexeme.all c'.rest = tail ∧
      Goes [.skip token erase allowed isOptional] pending c
        (Mark.all erase (seps ++ [piece])) [] c' := by
  have reached : Move.reaches (.skip token erase allowed isOptional) c = true ∨
      pending = [] ∧ (erase && allowed.any) = false := by
    rcases ready with reaches | ⟨fresh, calm⟩
    · rw [allAlong_singleton] at reaches
      exact .inl reaches
    · refine .inr ⟨fresh, ?_⟩
      have keeps : erase = false := (calm_cons.mp calm).1
      rw [keeps, Bool.false_and]
  obtain ⟨ev, c', ran, follows, spare, rest, exact⟩ :=
    Cursor.skip_found erase isOptional spells loose separates (by rw [start, List.append_assoc])
      tells reached
  refine ⟨c', rest, by simpa [Move.apply] using ran, ev ++ [⟨piece, erase⟩], ?_, ?_,
    fun fresh sweeps => ⟨rfl, ?_⟩⟩
  · rw [allAlong_singleton]
    exact follows
  · rw [List.filter_append, filter_loose spare]
    have none : (Mark.all erase seps).filter (!·.lexeme.isSeparator) = [] :=
      filter_loose (by simpa using separates.all_isSeparator)
    rw [Mark.all_append, List.filter_append, none]
    rfl
  · rw [allAlong_singleton] at sweeps
    rw [exact fresh sweeps]
    simp [Mark.all]

section Tokens

variable {token : Token} {piece : Lexeme} {allowed : Separators} {seps : List Lexeme}

/-- A token with separators of its own. -/
theorem InStep.separated (spells : token.Spells piece)
    (separates : Lexeme.Separates allowed seps) (erase isOptional before : Bool)
    (follow : List Lexeme → Prop) :
    InStep before [.skip token erase allowed isOptional] (Mark.all erase (seps ++ [piece])) false
      follow := by
  intro c pending tail loose _ _ tells start ready
  obtain ⟨c', rest, goes⟩ :=
    goes_token spells separates loose (fun _ => tells) (by simpa using start) ready
  exact ⟨[], c', rfl, fun _ => rfl, rest, goes⟩

theorem InStep.single (spells : token.Spells piece) (erase : Bool) (allowed : Separators)
    (isOptional before : Bool) (follow : List Lexeme → Prop) :
    InStep before [.skip token erase allowed isOptional] (Mark.all erase [piece]) false follow :=
  InStep.separated spells .none erase isOptional before follow

/-- A token in front of other moves. -/
theorem InStep.afterToken (steps : InStep false others more after follow)
    (spells : token.Spells piece) (erase : Bool) (allowed : Separators)
    (isOptional before : Bool) :
    InStep before (.skip token erase allowed isOptional :: others) (⟨piece, erase⟩ :: more) after
      follow :=
  (InStep.single spells erase allowed isOptional before (fun _ => True)).append steps
    (fun _ _ _ => trivial)

/-- What comes next is neither the token nor a separator. -/
def Lacks (token : Token) (pieces : List Lexeme) : Prop :=
  ∃ piece others, pieces = piece :: others ∧ ¬ token.Spells piece ∧ piece.isSeparator = false

/-- A token that may be absent takes the separators of its own even so. -/
theorem InStep.absent (token : Token) (erase : Bool) (allowed : Separators)
    (plain : token.isPlain = true) (separates : Lexeme.Separates allowed seps) :
    InStep true [.skip token erase allowed true] (Mark.all erase seps) true (Lacks token) := by
  rintro c pending tail loose - ⟨piece, others, rfl, absent, solid⟩ - start -
  obtain ⟨c', ran, ev, left, follows, spare, loose', rest, exact⟩ :=
    Cursor.skip_absent erase plain absent solid loose separates
      (by simpa using start)
  refine ⟨left, c', loose', by simp, rest, by simpa [Move.apply] using ran, ev, ?_, ?_, ?_⟩
  · rw [allAlong_singleton]
    exact follows
  · rw [filter_loose spare, filter_loose (by simpa using separates.all_isSeparator)]
  · rw [allAlong_singleton]
    exact exact

/-- Nothing but separators stays in front of what stops a pass. -/
theorem InStep.skipBlanks (erase : Bool) (separates : Lexeme.Separates allowed seps) :
    InStep true [.skipBlanks erase allowed] (Mark.all erase seps) true
      (fun tail => ∃ piece others, tail = piece :: others ∧ piece.isSeparator = false) := by
  rintro c pending tail loose - ⟨piece, others, rfl, solid⟩ - start -
  obtain ⟨ev, left, follows, spare, loose', rest, exact⟩ :=
    Cursor.goesOver_skipBlanks (c := c) erase loose separates solid (by simpa using start)
  refine ⟨left, c.skipBlanks erase allowed, loose', by simp, rest, rfl, ev, ?_, ?_, ?_⟩
  · rw [allAlong_singleton]
    cases erase <;> exact follows
  · rw [filter_loose spare, filter_loose (by simpa using separates.all_isSeparator)]
  · rw [allAlong_singleton]
    intro fresh sweeps
    refine exact fresh ?_
    rintro rfl
    exact sweeps

end Tokens

/-- Lists with nothing in them. -/
def pairs : Nat → List Lexeme
  | 0 => []
  | n + 1 => .mark ['['] :: .mark [']'] :: pairs n

theorem pairs_append (n : Nat) : pairs (n + 1) = pairs n ++ [.mark ['['], .mark [']']] := by
  induction n with
  | zero => rfl
  | succ n ih =>
    exact congrArg (Lexeme.mark ['['] :: Lexeme.mark [']'] :: ·) ih

/-- An empty list comes next exactly where its brackets are the next pieces. -/
theorem atEmptyList_iff (c : Cursor) :
    c.atEmptyList = true ↔ ∃ tail, Lexeme.all c.rest = .mark ['['] :: .mark [']'] :: tail := by
  rw [← Lexeme.all_skip]
  have solid := Blank.skip_skip c.rest
  unfold Cursor.atEmptyList
  split
  · next r opened =>
    rw [opened, (Lexeme.takes_of_isPunctuation (c := '[') rfl r).1, beq_iff_eq,
      Lexeme.head?_eq_iff_of_isPunctuation rfl (Blank.skip_skip r), Lexeme.all_skip]
    cases Lexeme.all r <;> simp
  · next other =>
    constructor
    · intro absurd
      cases absurd
    · rintro ⟨tail, found⟩
      have next : (Blank.skip c.rest).head? = some '[' :=
        (Lexeme.head?_eq_iff_of_isPunctuation rfl solid).mpr (by rw [found]; rfl)
      obtain ⟨r, opened⟩ := List.head?_eq_some_iff.mp next
      exact absurd opened (other r)

theorem sweeps_none (c : Cursor) : c.sweeps .none = true := by
  unfold Cursor.sweeps
  cases (Blank.skip c.rest).head? <;> rfl

/-- A bracket is gone over, and never joins what is kept in front of it. -/
theorem follows_bracket {x : Char} {tail : List Lexeme} (listed : x = '[' ∨ x = ']') (erase : Bool)
    (start : Lexeme.all c.rest = .mark [x] :: tail) (tells : Says tail) :
    ∃ c', Walk.mark [x] erase c = .ok c' ∧ Follows true c [⟨.mark [x], erase⟩] c' ∧
      Lexeme.all c'.rest = tail := by
  have spells := Token.spells_mark [x]
  have loose : ([] : List Lexeme).all Lexeme.isSeparator = true := rfl
  have separates : Lexeme.Separates .none [] := .none
  have start' : Lexeme.all c.rest = [] ++ [] ++ .mark [x] :: tail := start
  cases erase with
  | true =>
    obtain ⟨ev, c', ran, follows, -, rest, exact⟩ :=
      Cursor.skip_found true false spells loose separates start' (fun _ => tells) (.inr ⟨rfl, rfl⟩)
    rw [exact rfl (sweeps_none c)] at follows
    exact ⟨c', ran, follows, rest⟩
  | false =>
    obtain ⟨ev, follows, -, clean, rest, exact⟩ :=
      Cursor.follows_to_token false false spells loose separates start' (.inr ⟨rfl, rfl⟩)
    rw [exact rfl rfl] at follows
    obtain ⟨r, found, behind, splits, whole⟩ := spells.split clean rest
    have ends : Part.endsPieces x = true := by rcases listed with rfl | rfl <;> rfl
    refine ⟨(c.approach false .none).keep [x] r, ?_, ?_, behind⟩
    · have kept := Cursor.keepToken_eq whole (c.approach false .none) r
      simp only [Lexeme.written] at kept found
      simp [Walk.mark, Walk.token, Walk.skip, Cursor.skip, found, kept]
    · exact follows.trans (Follows.keepClosed whole rfl rfl ends splits)

theorem follows_emptyLists (erase : Bool) (n : Nat) {tail : List Lexeme}
    (start : Lexeme.all c.rest = pairs n ++ tail) (tells : Says tail)
    (stops : ∀ others, tail ≠ .mark ['['] :: .mark [']'] :: others) :
    ∃ c', Walk.emptyLists erase c = .ok c' ∧ Follows true c (Mark.all erase (pairs n)) c' ∧
      Lexeme.all c'.rest = tail := by
  induction n generalizing c with
  | zero =>
    have none : c.atEmptyList = false := by
      rw [← Bool.not_eq_true, atEmptyList_iff]
      rintro ⟨others, found⟩
      exact stops others (start.symm.trans found)
    refine ⟨c, ?_, Follows.refl c, start⟩
    rw [Walk.emptyLists, none]
    rfl
  | succ n ih =>
    have next : c.atEmptyList = true := (atEmptyList_iff c).mpr ⟨pairs n ++ tail, start⟩
    obtain ⟨x, mem, solid⟩ := tells
    obtain ⟨c₁, ran₁, follows₁, rest₁⟩ :=
      follows_bracket (.inl rfl) erase start ⟨x, by simp [mem], solid⟩
    obtain ⟨c₂, ran₂, follows₂, rest₂⟩ :=
      follows_bracket (.inr rfl) erase rest₁ ⟨x, by simp [mem], solid⟩
    obtain ⟨c', ran, follows, rest⟩ := ih rest₂
    have both := follows₁.trans follows₂
    have shorter : c₂.rest.length < c.rest.length := by
      rcases Nat.lt_or_ge c₂.rest.length c.rest.length with shorter | longer
      · exact shorter
      · have same := both.suffix.eq_of_length_le longer
        have sizes := congrArg List.length (rest₂.symm.trans ((congrArg Lexeme.all same).trans start))
        simp only [pairs, List.append_eq, List.cons_append, List.length_cons] at sizes
        omega
    refine ⟨c', ?_, both.trans follows, rest⟩
    rw [Walk.emptyLists, if_pos next]
    simp only [ran₁, ran₂, bind, Except.bind, if_pos shorter]
    exact ran

/-- Whatever comes next, to look for lists with nothing in them goes through. -/
theorem emptyLists_eq_ok (erase : Bool) (c : Cursor) :
    ∃ c', Walk.emptyLists erase c = .ok c' := by
  induction size : c.rest.length using Nat.strongRecOn generalizing c with
  | ind n ih =>
    rw [Walk.emptyLists]
    split
    · next next =>
      obtain ⟨tail, start⟩ := (atEmptyList_iff c).mp next
      obtain ⟨c₁, open_, -, rest⟩ :=
        follows_bracket (.inl rfl) erase start ⟨.mark [']'], List.mem_cons_self, rfl⟩
      have separates : Lexeme.Separates .none [] := .none
      have start' : Lexeme.all c₁.rest = [] ++ [] ++ .mark [']'] :: tail := rest
      obtain ⟨-, -, -, clean, close, -⟩ := Cursor.follows_to_token false false
        (Token.spells_mark [']']) rfl separates start' (.inr ⟨rfl, rfl⟩)
      obtain ⟨r, found, -⟩ := (Token.spells_mark [']']).split clean close
      have same : c₁.approach erase .none = c₁.approach false .none := by cases erase <;> rfl
      have closed : ∃ c₂, Walk.mark [']'] erase c₁ = .ok c₂ := by
        simp [Walk.mark, Walk.token, Walk.skip, Cursor.skip, same, found]
      obtain ⟨c₂, ran⟩ := closed
      simp only [open_, ran, bind, Except.bind]
      split
      · next shorter => exact ih _ (size ▸ shorter) c₂ rfl
      · exact ⟨c₂, rfl⟩
    · exact ⟨c, rfl⟩

/-- Lists with nothing in them are gone over, as many as come next. -/
theorem InStep.emptyLists (erase : Bool) (n : Nat) :
    InStep false [.emptyLists erase] (Mark.all erase (pairs n)) false
      (fun tail => ∀ others, tail ≠ .mark ['['] :: .mark [']'] :: others) := by
  intro c pending tail _ fresh stops tells start _
  obtain rfl := fresh rfl
  obtain ⟨c', ran, follows, rest⟩ :=
    follows_emptyLists erase n (by simpa using start) tells stops
  refine ⟨[], c', rfl, fun _ => rfl, rest, by simpa [Move.apply] using ran, _, ?_, rfl,
    fun _ _ => ⟨rfl, rfl⟩⟩
  rw [allAlong_singleton]
  exact follows

/-- Where something else comes next, no list is looked for. -/
theorem InStep.noLists (erase : Bool) :
    InStep true [.emptyLists erase] [] true
      (fun tail => ∃ piece others, tail = piece :: others ∧ piece ≠ .mark ['[']) := by
  rintro c pending tail loose - ⟨piece, others, rfl, other⟩ tells start -
  have stops : ∀ behind, pending ++ piece :: others ≠ .mark ['['] :: .mark [']'] :: behind := by
    intro behind same
    cases pending with
    | nil => exact other (List.cons.inj same).1
    | cons p pending =>
      rw [(List.cons.inj same).1] at loose
      cases loose
  obtain ⟨c', ran, follows, rest⟩ :=
    follows_emptyLists (c := c) erase 0 start (tells.append pending) stops
  refine ⟨pending, c', loose, by simp, rest, by simpa [Move.apply] using ran, [], ?_, rfl,
    fun none _ => ⟨none, rfl⟩⟩
  rw [allAlong_singleton]
  exact follows

end Move

end DotText.Walk
