import DotText.Proofs.Grammar.Trees
import DotText.Proofs.InStep.Documents
import DotText.Proofs.Keeping
import DotText.Proofs.Reading.Sound
import DotText.Tree.Equality

set_option autoImplicit false

/- A text that is read can be edited along the tree it was read as: the walk finds in the text what
the tree has. A walk that takes nothing away always does; one that takes something away does where
it never stops short in front of a token. -/
namespace DotText

open Walk (Move)

namespace Target

theorem countOps_nothing (es : List Endpoint) : nothing.countOps es = 0 := by
  fun_induction countOps nothing es with
  | case1 left right es ih => rw [erasesOp_nothing, ih]; rfl
  | case2 => rfl

mutual

theorem countIn_nothing (s : Statement) : nothing.countIn s = 0 := by
  cases s with
  | node => rfl
  | edge endpoints =>
    rw [countIn, countInEndpoints_nothing endpoints, countOps_nothing]
  | attr => rfl
  | subgraph id body => exact countInAll_nothing body

theorem countInEndpoint_nothing (e : Endpoint) : nothing.countInEndpoint e = 0 := by
  cases e with
  | node => rfl
  | subgraph id body => exact countInAll_nothing body

theorem countInEndpoints_nothing (es : List Endpoint) : nothing.countInEndpoints es = 0 := by
  cases es with
  | nil => rfl
  | cons e es => rw [countInEndpoints, countInEndpoint_nothing e, countInEndpoints_nothing es]

theorem countInAll_nothing (ss : List Statement) : nothing.countInAll ss = 0 := by
  cases ss with
  | nil => rfl
  | cons s ss => rw [countInAll, countIn_nothing s, countInAll_nothing ss]

end

end Target

namespace Separators

theorem mayPrecede_of_landmark {cs : List Char} {found : List Char × List Char}
    (landmark : Blank.landmark? cs = some found) :
    ∃ x t, cs = x :: t ∧ mayPrecede x = true := by
  unfold Blank.landmark? at landmark
  split at landmark
  · exact ⟨_, _, rfl, rfl⟩
  · exact ⟨_, _, rfl, rfl⟩
  · exact ⟨_, _, rfl, rfl⟩
  · exact ⟨_, _, rfl, rfl⟩
  · cases landmark

theorem mayPrecede_of_passes {x : Char} (passes : ofEntries.passes x = true) :
    mayPrecede x = true := by
  simp only [Separators.passes, ofEntries, Bool.true_and, Bool.or_eq_true] at passes
  rcases passes with (inline | comma) | semicolon
  · simp [mayPrecede, inline]
  · simp [mayPrecede, comma]
  · simp [mayPrecede, semicolon]

end Separators

/-- Where a pass over everything insignificant moves on, something insignificant comes next. -/
theorem Cursor.starts_of_passBlanks {c : Cursor} (moves : c.rest ≠ c.behindSeparators) :
    ∃ x t, c.rest = x :: t ∧ Separators.mayPrecede x = true := by
  unfold behindSeparators at moves
  rw [passBlanks] at moves
  split at moves
  · next found => exact Separators.mayPrecede_of_landmark found
  · split at moves
    · exact absurd rfl moves
    · next x r start =>
      split at moves
      · next passes => exact ⟨x, r, start, Separators.mayPrecede_of_passes passes⟩
      · exact absurd rfl moves

theorem Separators.ne_of_mayPrecede {x : Char} (precedes : mayPrecede x = true) :
    x ≠ '"' ∧ x ≠ '<' ∧ x.isAlpha = false := by
  have listed : x ∈ [' ', '\t', '\r', '\n', '#', '/', ',', ';'] := by
    simpa [mayPrecede, Blank.isInline, or_assoc] using precedes
  have plain : ∀ x ∈ [' ', '\t', '\r', '\n', '#', '/', ',', ';'],
      x ≠ '"' ∧ x ≠ '<' ∧ x.isAlpha = false := forall_mem_of_all (by decide)
  exact plain x listed

theorem Token.not_isPrefixOf {text : List Char} {x : Char}
    (solid : text.head?.any (!Separators.mayPrecede ·) = true)
    (precedes : Separators.mayPrecede x = true) (t : List Char) :
    text.isPrefixOf (x :: t) = false := by
  rw [← Bool.not_eq_true]
  intro starts
  cases text with
  | nil => cases solid
  | cons y text =>
    obtain ⟨r, split⟩ := List.isPrefixOf_iff_prefix.mp starts
    rw [List.cons_append, List.cons.injEq] at split
    rw [List.head?_cons, Option.any_some, split.1, precedes] at solid
    cases solid

/-- A token that begins as tokens do does not stand where something insignificant does. -/
theorem Token.not_isAt {token : Token} (solid : token.isSolid = true) {x : Char}
    (precedes : Separators.mayPrecede x = true) (t : List Char) : token.isAt (x :: t) = false := by
  obtain ⟨quote, bracket, letter⟩ := Separators.ne_of_mayPrecede precedes
  cases token with
  | keyword word =>
    have listed : String.ofList word ∈ Ident.keywords := by simpa [isSolid] using solid
    rw [← Bool.not_eq_true]
    intro at_
    obtain ⟨r, found⟩ := Option.isSome_iff_exists.mp at_
    obtain ⟨w, split, same, -⟩ := Ident.dropWord?_eq_some.mp found
    have lower := Ident.keywords_isLower listed
    have some := Ident.keywords_ne_nil listed
    rw [String.toList_ofList] at lower some
    have letters := Ident.isAlpha_of_eqIgnoringCase lower same
    cases w with
    | nil =>
      cases word with
      | nil => exact some rfl
      | cons => cases same
    | cons y w =>
      rw [List.cons_append, List.cons.injEq] at split
      rw [List.all_cons, Bool.and_eq_true, ← split.1, letter] at letters
      cases letters.1
  | ident name =>
    have plain : (Token.ident name).spelling (x :: t) = name := by simp [spelling, quote]
    have at_ : (Token.ident name).isAt (x :: t) = name.isPrefixOf (x :: t) := by
      rw [← congrArg (·.isPrefixOf (x :: t)) plain]
      rfl
    rw [at_]
    exact not_isPrefixOf solid precedes t
  | html label =>
    have first : ('<' :: (label ++ ['>'])).head?.any (!Separators.mayPrecede ·) = true := rfl
    exact not_isPrefixOf first precedes t
  | mark text => exact not_isPrefixOf solid precedes t

/-- A token that has to be there and is not reached is a mismatch. -/
theorem Walk.skip_of_not_reaches {token : Token} (solid : token.isSolid = true) {erase : Bool}
    {allowed : Separators} {c : Cursor}
    (short : Move.reaches (.skip token erase allowed false) c = false) :
    Walk.skip token erase allowed false c =
      .error (token.mismatch (c.approach erase allowed).rest) := by
  simp only [Move.reaches, Bool.or_eq_false_iff, beq_eq_false_iff_ne] at short
  obtain ⟨x, t, start, precedes⟩ := Cursor.starts_of_passBlanks short.2
  have missing : token.split? (c.approach erase allowed).rest = none := by
    rw [start, Token.split?, Token.not_isAt solid precedes t]
    rfl
  simp [Walk.skip, Cursor.skip, missing]

namespace Walk.Move

theorem apply_eq_ok_iff (m : Move) (c : Cursor) :
    (∃ c', m.apply c = .ok c') ↔ m.finds c = true := by
  cases m with
  | skip token erase allowed isOptional =>
    simp only [apply, Walk.skip, Cursor.skip, Token.split?]
    cases isOptional <;> cases at_ : token.isAt (c.approach erase allowed).rest <;>
      simp [finds, at_]
  | emptyLists erase => exact iff_of_true (emptyLists_eq_ok erase c) rfl
  | skipBlanks | spaceApart | count | trim => exact iff_of_true ⟨_, rfl⟩ rfl

/-- A walk goes through exactly where every token is found that has to be there. -/
theorem run_eq_ok_iff (ms : List Move) (c : Cursor) :
    (∃ c', run ms c = .ok c') ↔ allAlong finds ms c = true := by
  induction ms generalizing c with
  | nil => exact iff_of_true ⟨c, rfl⟩ rfl
  | cons m ms ih =>
    rw [allAlong, Bool.and_eq_true, ← apply_eq_ok_iff, run_cons]
    cases applied : m.apply c with
    | error => simp [bind, Except.bind]
    | ok c' => simpa [bind, Except.bind] using ih c'

end Walk.Move

namespace Graph

variable {g : Graph} {cs : List Char}

/-- To erase goes through exactly where every token is found that has to be there. -/
theorem eraseFrom_eq_ok_iff (g : Graph) (target : Target) (cs : List Char) :
    (∃ e, g.eraseFrom target cs = .ok e) ↔
      Move.allAlong Move.finds (Move.whole target g) (.ofText cs) = true := by
  rw [← Move.run_eq_ok_iff, g.eraseFrom_eq_run]
  cases Move.run (Move.whole target g) (.ofText cs) <;> simp [Except.map]

/-- The walk up to the last brace goes over all that is in front of it, leaves the text as it is, and
has nothing but insignificant material behind the brace. -/
theorem walk_to_brace (found : Graph.read cs = .ok g) :
    ∃ c ls fits r, Walk.document .nothing g (.ofText cs) = .ok c ∧
      Cursor.Follows fits (.ofText cs) (Mark.all false ls) (c.passBlanks .none) ∧
      (c.passBlanks .none).text = cs ∧ (c.passBlanks .none).rest = '}' :: r ∧
      Lexeme.all r = [] := by
  have spelled := (Graph.read_iff_spelled cs g).mp found
  have calm := Move.calm_whole spelled.marked (Target.countInAll_nothing g.body)
  generalize whole : Lexeme.all cs = ls at spelled
  cases spelled with
  | document opening statements =>
    obtain ⟨left, c, -, rest, goes⟩ := Move.goes_document opening statements.marked
      (by simpa using whole) (.inr ⟨rfl, (Move.calm_append.mp calm).1⟩)
    -- No separator is to go, and so all pieces are gone over and none is pending at the brace.
    obtain ⟨_, follows, -, exact⟩ := goes.follows
    obtain ⟨rfl, rfl⟩ := exact rfl (Move.allAlong_sweeps (Move.calm_append.mp calm).1 _)
    obtain ⟨_, follows', -, clean, next, exact'⟩ := Cursor.follows_to_token false false
      (Token.spells_mark ['}']) rfl Lexeme.Separates.none rest (.inr ⟨rfl, rfl⟩)
    obtain rfl := exact' rfl rfl
    obtain ⟨x, t, r, start, first, nothing⟩ := Lexeme.first_of_all clean next
    have calm' := (Move.calm_append.mp calm).1
    have keeps := (Move.keeps_run calm' (Move.allAlong_keepsGap calm' rfl) goes.ran).trans
      (Cursor.keeps_passBlanks .none c)
    have brace := Lexeme.written_of_first first
    rw [← start] at brace
    have passed := follows.trans follows'
    rw [← Mark.all_append, ← Mark.all_append] at passed
    exact ⟨c, _, _, r, (Walk.document_eq_run ..).trans goes.ran, passed, keeps.text, brace,
      nothing⟩

/-- A text is put in front of the last brace, behind a line end if it is to have a line of its own. -/
theorem insertInto_eq {c : Cursor} {r : List Char}
    (ran : Walk.document .nothing g (.ofText cs) = .ok c)
    (brace : (c.passBlanks .none).rest = '}' :: r) (snippet : List Char) (freshLine : Bool) :
    g.insertInto snippet freshLine cs =
      .ok ((c.passBlanks .none).before ++
        ((if freshLine && !(c.passBlanks .none).followsNewline then ['\n'] else []) ++
          (snippet ++ '}' :: r))) := by
  have found : c.seek (.mark ['}']) = (c.passBlanks .none, .ok ()) := by
    simp [Cursor.seek, Token.isAt, Token.spelling, brace]
  rw [Graph.insertInto, ran]
  simp only [bind, Except.bind, found]
  split <;> simp [pure, Except.pure, Cursor.text, Cursor.before, Cursor.insert, brace]

/-- A text that is read can be inserted into. -/
theorem insertInto_of_read (found : Graph.read cs = .ok g) (snippet : List Char)
    (freshLine : Bool) : ∃ edited, g.insertInto snippet freshLine cs = .ok edited := by
  obtain ⟨c, -, -, r, ran, -, -, brace, -⟩ := walk_to_brace found
  exact ⟨_, insertInto_eq ran brace snippet freshLine⟩

/-- Where nothing matches the target the text stays as it is, and nothing is counted. -/
theorem eraseFrom_of_countErased (found : Graph.read cs = .ok g) {target : Target}
    (none : g.countErased target = 0) : g.eraseFrom target cs = .ok ⟨cs, 0⟩ := by
  obtain ⟨marks, marked, split⟩ := Graph.marked_of_read found target
  have calm := Move.calm_whole marked none
  obtain ⟨c, -, goes⟩ := Move.goes_whole marked split (.inr ⟨rfl, calm⟩)
  have keeps := Move.keeps_run calm (Move.allAlong_keepsGap calm rfl) goes.ran
  rw [g.eraseFrom_eq_run, goes.ran]
  simp only [Except.map, keeps.text, keeps.erased]
  rfl

theorem eraseFrom_of_reaches (found : Graph.read cs = .ok g) {target : Target}
    (reaches : Move.allAlong Move.reaches (Move.whole target g) (.ofText cs) = true) :
    ∃ e, g.eraseFrom target cs = .ok e := by
  obtain ⟨marks, marked, split⟩ := Graph.marked_of_read found target
  obtain ⟨c, -, goes⟩ := Move.goes_whole marked split (.inl reaches)
  refine ⟨⟨c.text, c.erased⟩, ?_⟩
  rw [g.eraseFrom_eq_run, goes.ran]
  rfl

theorem eraseFrom_of_not_reaches {target : Target} {before after : List Move} {token : Token}
    {erase : Bool} {allowed : Separators} {c : Cursor}
    (split : Move.whole target g = before ++ .skip token erase allowed false :: after)
    (solid : token.isSolid = true) (ran : Move.run before (.ofText cs) = .ok c)
    (short : Move.reaches (.skip token erase allowed false) c = false) :
    g.eraseFrom target cs = .error (token.mismatch (c.approach erase allowed).rest) := by
  have missing : (Move.skip token erase allowed false).apply c = _ :=
    Walk.skip_of_not_reaches solid short
  rw [g.eraseFrom_eq_run, split, Move.run_append, ran]
  simp only [bind, Except.bind, Move.run, missing]
  rfl

theorem eraseFrom_of_misses {target : Target}
    (misses : Move.allAlong (fun m c => !m.misses c) (Move.whole target g) (.ofText cs) = false) :
    ∃ m, g.eraseFrom target cs = .error m := by
  obtain ⟨before, m, after, c, split, ran, here⟩ := Move.exists_of_allAlong misses
  unfold Move.misses at here
  split at here
  · simp only [Bool.not_eq_false', Bool.and_eq_true, Bool.not_eq_true'] at here
    exact ⟨_, eraseFrom_of_not_reaches split here.1 ran here.2⟩
  · cases here

/-- The walk finds in a text what is in the tree that the text was read as. To insert always goes
through. To erase leaves the text as it is where nothing matches the target, and goes through exactly
where every token is found that has to be there. They are found where every token is reached, and not
where one is missed. -/
theorem edits_of_read (found : Graph.read cs = .ok g) :
    (∀ snippet freshLine, ∃ edited, g.insertInto snippet freshLine cs = .ok edited) ∧
      ∀ target,
        (g.countErased target = 0 → g.eraseFrom target cs = .ok ⟨cs, 0⟩) ∧
        ((∃ e, g.eraseFrom target cs = .ok e) ↔
          Move.allAlong Move.finds (Move.whole target g) (.ofText cs) = true) ∧
        (Move.allAlong Move.reaches (Move.whole target g) (.ofText cs) = true →
          ∃ e, g.eraseFrom target cs = .ok e) ∧
        (Move.allAlong (fun m c => !m.misses c) (Move.whole target g) (.ofText cs) = false →
          ∃ m, g.eraseFrom target cs = .error m) :=
  ⟨insertInto_of_read found, fun target =>
    ⟨eraseFrom_of_countErased found, g.eraseFrom_eq_ok_iff target cs, eraseFrom_of_reaches found,
      eraseFrom_of_misses⟩⟩

/-- To erase the second node goes through, and to erase the first does not. -/
theorem edits_of_two_nodes :
    ∃ cs g, cs = "graph\x7bx  \n  \n;y\x7d".toList ∧ Graph.read cs = .ok g ∧
      (∃ edited, g.insertInto "z".toList true cs = .ok edited) ∧
      g.eraseFrom (.node "z") cs = .ok ⟨cs, 0⟩ ∧
      (∃ e, g.eraseFrom (.node "y") cs = .ok e) ∧
      ∃ m, g.eraseFrom (.node "x") cs = .error m := by
  have found : Graph.read "graph\x7bx  \n  \n;y\x7d".toList =
      .ok ⟨false, .graph, none, [.node ⟨"x", none⟩ [], .node ⟨"y", none⟩ []]⟩ := by
    decide +kernel
  obtain ⟨inserts, erases⟩ := edits_of_read found
  obtain ⟨unchanged, -⟩ := erases (.node "z")
  obtain ⟨-, -, reached, -⟩ := erases (.node "y")
  obtain ⟨-, -, -, missed⟩ := erases (.node "x")
  exact ⟨_, _, rfl, found, inserts _ _, unchanged (by decide +kernel),
    reached (by decide +kernel), missed (by decide +kernel)⟩

/-- The pass that takes away what is behind the node stops in front of the semicolon, which nothing
takes away after it. -/
theorem mismatch_behind_blank_line :
    ∃ g, Graph.read "digraph\x7bx  \n  \n;y\x7d".toList = .ok g ∧
      g.eraseFrom (.node "x") "digraph\x7bx  \n  \n;y\x7d".toList =
        .error ⟨"y".toList, ";y\x7d".toList⟩ :=
  ⟨⟨false, .digraph, none, [.node ⟨"x", none⟩ [], .node ⟨"y", none⟩ []]⟩, by decide +kernel,
    by decide +kernel⟩

end Graph

end DotText
