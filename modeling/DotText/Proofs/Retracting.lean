import DotText.Proofs.Joining
import DotText.Proofs.Places

set_option autoImplicit false

/- Taking away a node statement that has a line of its own. Behind the place where the statement begins
its text goes piece by piece, and with the line end goes the indent. -/
namespace DotText

open Walk (Move)

/-- A text that begins with something that matters and is no separator. -/
def BeginsSolid (cs : List Char) : Prop :=
  ∃ x t, cs = x :: t ∧ Separators.mayPrecede x = false

namespace BeginsSolid

variable {cs : List Char}

theorem cons {x : Char} (solid : Separators.mayPrecede x = false) (t : List Char) :
    BeginsSolid (x :: t) :=
  ⟨x, t, rfl, solid⟩

theorem append (begins : BeginsSolid cs) (r : List Char) : BeginsSolid (cs ++ r) := by
  obtain ⟨x, t, rfl, solid⟩ := begins
  exact ⟨x, t ++ r, rfl, solid⟩

theorem landmark? (begins : BeginsSolid cs) : Blank.landmark? cs = none := by
  obtain ⟨x, t, rfl, solid⟩ := begins
  simp only [Separators.mayPrecede, Bool.or_eq_false_iff, beq_eq_false_iff_ne] at solid
  unfold Blank.landmark?
  split <;> simp_all

theorem skip_eq_self (begins : BeginsSolid cs) : Blank.skip cs = cs := by
  obtain ⟨x, t, rfl, solid⟩ := begins
  simp only [Separators.mayPrecede, Bool.or_eq_false_iff] at solid
  exact Blank.skip_of_not_mayBegin (by simp [Blank.mayBegin, solid]) t

theorem not_passes (begins : BeginsSolid cs) (allowed : Separators) :
    cs.head?.any allowed.passes = false := by
  obtain ⟨x, t, rfl, solid⟩ := begins
  rw [List.head?_cons, Option.any_some, ← Bool.not_eq_true]
  intro passes
  rw [Separators.mayPrecede_of_passes (Separators.ofEntries_passes passes)] at solid
  cases solid

theorem afterRound (begins : BeginsSolid cs) (allowed : Separators) :
    allowed.afterRound cs = cs := by
  obtain ⟨x, t, rfl, solid⟩ := begins
  simp only [Separators.mayPrecede, Bool.or_eq_false_iff, beq_eq_false_iff_ne] at solid
  simp [Separators.afterRound, Separators.dropOne, solid]

end BeginsSolid

namespace Cursor

variable {c : Cursor} {cs : List Char}

theorem passBlanks_of_beginsSolid (begins : BeginsSolid c.rest) (allowed : Separators) :
    c.passBlanks allowed = c :=
  passBlanks_of_stops begins.landmark? (begins.not_passes allowed)

theorem cutBlanks_of_beginsSolid (begins : BeginsSolid c.rest) (allowed : Separators) :
    c.cutBlanks allowed = c.cut c.rest := by
  rw [cutBlanks, cutRounds]
  simp only [begins.afterRound, begins.landmark?, Nat.lt_irrefl, if_false]

theorem cutToken_of_beginsSolid (begins : BeginsSolid cs) : c.cutToken cs = c.cut cs :=
  cutBlanks_of_beginsSolid (c := c.cut cs) begins .none

/-- A blank in front of what comes next goes as well. -/
theorem cutToken_space (begins : BeginsSolid cs) : c.cutToken (' ' :: cs) = c.cut cs := by
  have dropped : Separators.none.afterRound (' ' :: cs) = cs := by
    cases cs <;> rfl
  have first : (c.cut (' ' :: cs)).cutBlanks .none =
      (c.cut (' ' :: cs)).cutRounds .none cs := by
    rw [cutBlanks, cut, cutRounds]
    simp only [dropped, begins.landmark?, List.length_cons, Nat.lt_succ_self, if_true]
  rw [cutToken, first, cutRounds]
  simp only [begins.afterRound, begins.landmark?, Nat.lt_irrefl, if_false]
  rfl

/-- The place with the gap given up, and with a line end behind it in the place of the one in front of
the gap. -/
def closeLine (c : Cursor) (r : List Char) : Cursor :=
  { c with gap := [], rest := r, removal := some (utf8Length c.settled.dropLast) }

/-- With the line end of the line goes the gap in front of what was taken away. -/
theorem cutToken_line (begins : BeginsSolid cs) (line : c.settled.getLast? = some '\n') :
    c.cutToken ('\n' :: cs) = c.closeLine cs := by
  have ends : (c.cut ('\n' :: cs)).settled.getLast? = some '\n' := line
  have erasing : (c.cut ('\n' :: cs)).isErasing = true := by
    simp [isErasing, cut, offset, before, utf8Length_append]
  have reached : (c.cut ('\n' :: cs)).cutToLandmark ['\n'] cs = c.closeLine cs := by
    rw [cutToLandmark, if_pos (by simp [erasing, ends])]
    rfl
  have finished (rank : Nat) : (c.closeLine cs).finishRound rank = c.closeLine cs := by
    rw [finishRound]
    split
    · next found =>
      rw [closeLine, begins.landmark?] at found
      cases found
    · rfl
  have round : Separators.none.afterRound ('\n' :: cs) = '\n' :: cs := rfl
  have landmark : Blank.landmark? ('\n' :: cs) = some (['\n'], cs) := rfl
  have passed := passBlanks_of_beginsSolid (c := c.closeLine cs) begins .none
  have here : (c.cut ('\n' :: cs)).rest = '\n' :: cs := rfl
  rw [cutToken, cutBlanks, here, cutRounds]
  simp only [round, landmark]
  rw [reached, finished, passed, ite_self]

end Cursor

section Spelled

theorem Ident.beginsSolid_spell (name : List Char) :
    BeginsSolid (spell name) ∧ (spell name).head? ≠ some '[' ∧ (spell name).head? ≠ some ']' := by
  rcases head_of_spell name with ⟨-, c, t, split, start⟩ | ⟨-, t, split⟩
  · have other : ∀ x ∈ [' ', '\t', '\r', '\n', '#', '/', ',', ';', '[', ']'],
        isStart x = false := forall_mem_of_all (by decide)
    have unlisted : c ∉ [' ', '\t', '\r', '\n', '#', '/', ',', ';', '[', ']'] := by
      intro listed
      rw [other c listed] at start
      cases start
    simp only [List.mem_cons, List.not_mem_nil, or_false, not_or] at unlisted
    refine ⟨⟨c, t, split, ?_⟩, ?_, ?_⟩ <;>
      simp [split, Separators.mayPrecede, Blank.isInline, unlisted]
  · rw [split]
    exact ⟨.cons (by decide) t, by simp, by simp⟩

theorem Attribute.beginsSolid_render (a : Attribute) :
    BeginsSolid a.render ∧ a.render.head? ≠ some '[' ∧ a.render.head? ≠ some ']' := by
  obtain ⟨begins, opens, closes⟩ := Ident.beginsSolid_spell a.key.toList
  have ⟨x, t, split, _⟩ := begins
  rw [split] at opens closes
  refine ⟨begins.append _, ?_, ?_⟩
  · rw [render, split]
    exact opens
  · rw [render, split]
    exact closes

theorem Value.beginsSolid_render (value : Value) : BeginsSolid value.render := by
  cases value with
  | text s | ident s => exact (Ident.beginsSolid_spell s.toList).1
  | html s => exact .cons (by decide) _

/-- The text of some entries behind one, with the bracket that closes the list. -/
def Attribute.renderOthers (attrs : List Attribute) : List Char :=
  attrs.flatMap (' ' :: ·.render) ++ [']']

theorem Attribute.renderList_cons (a : Attribute) (attrs : List Attribute) :
    renderList (a :: attrs) = ' ' :: '[' :: (a.render ++ renderOthers attrs) := by
  have joined := intercalate_cons [' '] a.render (attrs.map render)
  rw [renderList, List.isEmpty_cons, if_neg (by simp), List.map_cons, joined, List.flatMap_map,
    renderOthers]
  simp

namespace Token

theorem split?_ident (name r : List Char) :
    (ident name).split? (Ident.spell name ++ r) = some (Ident.spell name, r) := by
  refine split?_of_text rfl ?_ rfl
  rcases Ident.head_of_spell name with ⟨bare, c, t, split, start⟩ | ⟨bare, t, split⟩
  · have other : c ≠ '"' := by
      rintro rfl
      exact absurd start (by decide)
    rw [spelling, split, List.cons_append, List.head?_cons, if_neg (by simpa using other), ← split,
      Ident.spell, if_pos bare]
  · rw [spelling, split, List.cons_append, List.head?_cons, if_pos rfl, ← split, Ident.spell,
      if_neg (by simp [bare])]

theorem split?_value (value : Value) (r : List Char) :
    (Walk.valueToken value).split? (value.render ++ r) = some (value.render, r) := by
  cases value with
  | text s | ident s => exact split?_ident s.toList r
  | html s => exact split?_of_text rfl rfl rfl

theorem split?_mark_eq_none {x : Char} {cs : List Char} (other : cs.head? ≠ some x) :
    (mark [x]).split? cs = none := by
  have missing : (mark [x]).isAt cs = false := by
    cases cs with
    | nil => rfl
    | cons c cs =>
      have differs : (x == c) = false := by
        rw [beq_eq_false_iff_ne]
        rintro rfl
        exact other rfl
      simp [isAt, spelling, List.isPrefixOf, differs]
  rw [split?, missing]
  rfl

theorem split?_mark (m r : List Char) : (mark m).split? (m ++ r) = some (m, r) :=
  split?_of_text rfl rfl rfl

end Token

end Spelled

namespace Walk

variable {c : Cursor} {w r : List Char}

/-- Behind a removal nothing is left in front of what comes next. -/
theorem approach_cut (begins : BeginsSolid r) (allowed : Separators) :
    (c.cut r).approach true allowed = c.cut r := by
  rw [Cursor.approach, Bool.true_and]
  cases allowed.any with
  | false => exact Cursor.passBlanks_of_beginsSolid begins allowed
  | true => exact Cursor.cutBlanks_of_beginsSolid begins allowed

namespace Move

/-- A token that comes next behind a removal goes as well. -/
theorem apply_skip_cut {token : Token} (begins : BeginsSolid w)
    (found : token.split? (w ++ r) = some (w, r)) (allowed : Separators) (isOptional : Bool) :
    (skip token true allowed isOptional).apply (c.cut (w ++ r)) = .ok (c.cutToken r) := by
  have next : token.split? (c.cut (w ++ r)).rest = some (w, r) := found
  rw [apply, Walk.skip, Cursor.skip]
  simp only [approach_cut (begins.append r), next]
  rfl

/-- A token that does not come next behind a removal changes nothing. -/
theorem apply_skip_absent {token : Token} (begins : BeginsSolid r) (missing : token.split? r = none)
    (allowed : Separators) : (skip token true allowed true).apply (c.cut r) = .ok (c.cut r) := by
  have next : token.split? (c.cut r).rest = none := missing
  have same := Cursor.cutToken_of_beginsSolid (c := c.cut r) begins
  rw [apply, Walk.skip, Cursor.skip]
  simp only [approach_cut begins, next]
  exact congrArg Except.ok same

theorem run_cons_of_apply {m : Move} {ms : List Move} {c c' : Cursor} (applied : m.apply c = .ok c') :
    run (m :: ms) c = run ms c' := by
  rw [run_cons, applied]
  rfl

theorem run_append_of_run {ms others : List Move} {c c' : Cursor} (first : run ms c = .ok c') :
    run (ms ++ others) c = run others c' := by
  rw [run_append, first]
  rfl

theorem apply_emptyLists (none : c.atEmptyList = false) (erase : Bool) :
    (emptyLists erase).apply c = .ok c := by
  rw [apply, Walk.emptyLists, none]
  rfl

theorem not_atEmptyList (begins : BeginsSolid c.rest) (other : c.rest.head? ≠ some '[') :
    c.atEmptyList = false := by
  rw [Cursor.atEmptyList, begins.skip_eq_self]
  split
  · next split => exact absurd (by rw [split]; rfl) other
  · rfl

/-- A list with an entry is not empty. -/
theorem not_atEmptyList_cut (begins : BeginsSolid r) (other : r.head? ≠ some ']') :
    (c.cut ('[' :: r)).atEmptyList = false := by
  have bracket : BeginsSolid ('[' :: r) := .cons (by decide) r
  have here : (c.cut ('[' :: r)).rest = '[' :: r := rfl
  rw [Cursor.atEmptyList, here, bracket.skip_eq_self]
  simpa [begins.skip_eq_self] using other

/-- The bracket in front of an entry goes, if there is one. -/
theorem run_bracket {bracket : List Char} (listed : bracket = [] ∨ bracket = ['[']) (a : Attribute) :
    run [emptyLists true, optional (.mark ['[']) true] (c.cut (bracket ++ (a.render ++ r))) =
      .ok (c.cut (a.render ++ r)) := by
  obtain ⟨begins, opens, closes⟩ := a.beginsSolid_render
  have ⟨x, t, split, _⟩ := begins
  have heads : (a.render ++ r).head? = a.render.head? := by simp [split]
  rw [← heads] at opens closes
  have begins := begins.append r
  rcases listed with rfl | rfl
  · have lists := apply_emptyLists (not_atEmptyList (c := c.cut (a.render ++ r)) begins opens) true
    have absent := apply_skip_absent (c := c) begins (Token.split?_mark_eq_none opens) .none
    exact (run_cons_of_apply lists).trans (run_cons_of_apply absent)
  · have lists := apply_emptyLists (not_atEmptyList_cut (c := c) begins closes) true
    have found := apply_skip_cut (c := c) (.cons (by decide) [])
      (Token.split?_mark ['['] (a.render ++ r)) .none true
    rw [Cursor.cutToken_of_beginsSolid begins] at found
    exact (run_cons_of_apply lists).trans (run_cons_of_apply found)

/-- An entry goes from its key to its value. -/
theorem run_assignment (a : Attribute) :
    run [.skip (.ident a.key.toList) true .ofEntries false, mark ['='] true,
        .skip (valueToken a.value) true .none false] (c.cut (a.render ++ r)) =
      .ok (c.cutToken r) := by
  have key := apply_skip_cut (c := c) (Ident.beginsSolid_spell a.key.toList).1
    (Token.split?_ident a.key.toList ('=' :: (a.value.render ++ r))) .ofEntries false
  have equals := apply_skip_cut (c := c) (.cons (by decide) [])
    (Token.split?_mark ['='] (a.value.render ++ r)) .none false
  have value := apply_skip_cut (c := c) a.value.beginsSolid_render (Token.split?_value a.value r) .none
    false
  rw [Cursor.cutToken_of_beginsSolid (.cons (by decide) _)] at key
  rw [Cursor.cutToken_of_beginsSolid (a.value.beginsSolid_render.append r)] at equals
  have text : a.render ++ r = Ident.spell a.key.toList ++ '=' :: (a.value.render ++ r) :=
    List.append_assoc ..
  rw [text]
  exact (run_cons_of_apply key).trans ((run_cons_of_apply equals).trans (run_cons_of_apply value))

/-- Lists go to the end of the line, and the line end goes as well. -/
theorem run_attributes {y : List Char} (begins : BeginsSolid y) (other : y.head? ≠ some '[')
    (line : c.settled.getLast? = some '\n') (a : Attribute) (as : List Attribute)
    {bracket : List Char} (listed : bracket = [] ∨ bracket = ['[']) :
    run (attributes true (a :: as))
        (c.cut (bracket ++ (a.render ++ (Attribute.renderOthers as ++ '\n' :: y)))) =
      .ok (c.closeLine y) := by
  have split (a : Attribute) (ms : List Move) : entry true a ++ ms =
      [emptyLists true, optional (.mark ['[']) true] ++
        ([.skip (.ident a.key.toList) true .ofEntries false, mark ['='] true,
          .skip (valueToken a.value) true .none false] ++
          (.skip (.mark [']']) true .ofEntries true :: ms)) := rfl
  induction as generalizing a bracket with
  | nil =>
    have closed := apply_skip_cut (c := c) (.cons (by decide) [])
      (Token.split?_mark [']'] ('\n' :: y)) .ofEntries true
    rw [Cursor.cutToken_line begins line] at closed
    have value : c.cutToken (']' :: '\n' :: y) = c.cut (']' :: '\n' :: y) :=
      Cursor.cutToken_of_beginsSolid (.cons (by decide) _)
    have lists := apply_emptyLists (not_atEmptyList (c := c.closeLine y) begins other) true
    rw [attributes, split]
    refine (run_append_of_run (run_bracket listed a)).trans ?_
    refine (run_append_of_run (run_assignment a)).trans ?_
    rw [Attribute.renderOthers, List.flatMap_nil, List.nil_append, List.singleton_append, value]
    exact (run_cons_of_apply closed).trans (run_cons_of_apply lists)
  | cons b bs ih =>
    obtain ⟨starts, -, unclosed⟩ := b.beginsSolid_render
    obtain ⟨x, t, first, -⟩ := b.beginsSolid_render.1
    have text : Attribute.renderOthers (b :: bs) ++ '\n' :: y =
        ' ' :: (b.render ++ (Attribute.renderOthers bs ++ '\n' :: y)) := by
      simp [Attribute.renderOthers]
    have starts := starts.append (Attribute.renderOthers bs ++ '\n' :: y)
    have open_ := apply_skip_absent (c := c) starts
      (Token.split?_mark_eq_none (by rw [first] at unclosed ⊢; exact unclosed)) .ofEntries
    rw [attributes, split]
    refine (run_append_of_run (run_bracket listed a)).trans ?_
    refine (run_append_of_run (run_assignment a)).trans ?_
    rw [text, Cursor.cutToken_space starts]
    exact (run_cons_of_apply open_).trans (ih b (.inl rfl))

/-- A statement about a node goes with the line that it stands on. -/
theorem run_node {c₀ : Cursor} {name : String} {attrs : List Attribute} {op y : List Char}
    (passed : c₀.passBlanks .none = c)
    (rest : c.rest = (Statement.node ⟨name, none⟩ attrs).render op ++ '\n' :: y)
    (begins : BeginsSolid y) (other : y.head? ≠ some '[')
    (line : c.settled.getLast? = some '\n') :
    run (entire (.node name) op (.node ⟨name, none⟩ attrs)) c₀ =
      .ok ((c.closeLine y).countErased.cut y) := by
  have erases : (Target.node name).erasesNode ⟨name, none⟩ = true := beq_self_eq_true name
  have text : c.rest = Ident.spell name.toList ++ (Attribute.renderList attrs ++ '\n' :: y) := by
    rw [rest, Statement.render_node, List.append_assoc]
  have named : (ident name true).apply c₀ =
      .ok (c.cutToken (Attribute.renderList attrs ++ '\n' :: y)) := by
    have found := Token.split?_ident name.toList (Attribute.renderList attrs ++ '\n' :: y)
    rw [← text] at found
    have approached : c₀.approach true .none = c := passed
    rw [ident, apply, Walk.skip, Cursor.skip]
    simp only [approached, found]
    rfl
  have listed : run (attributes true attrs) (c.cutToken (Attribute.renderList attrs ++ '\n' :: y)) =
      .ok (c.closeLine y) := by
    cases attrs with
    | nil =>
      have nothing : Attribute.renderList [] = [] := rfl
      rw [nothing, List.nil_append, Cursor.cutToken_line begins line]
      exact run_cons_of_apply (apply_emptyLists (not_atEmptyList begins other) true)
    | cons a as =>
      have bracket : BeginsSolid ('[' :: (a.render ++ (Attribute.renderOthers as ++ '\n' :: y))) :=
        .cons (by decide) _
      rw [Attribute.renderList_cons, List.cons_append, List.cons_append, List.append_assoc,
        Cursor.cutToken_space bracket]
      exact run_attributes begins other line a as (.inr rfl)
  have blanks : ((c.closeLine y).countErased.skipBlanks true .ofStatements) =
      (c.closeLine y).countErased.cut y :=
    Cursor.cutBlanks_of_beginsSolid (c := (c.closeLine y).countErased) begins .ofStatements
  rw [entire, statement, Target.erasesStatement, erases, List.append_assoc, List.append_assoc]
  refine (run_cons_of_apply named).trans ((run_append_of_run listed).trans ?_)
  rw [counts, if_pos rfl]
  exact congrArg Except.ok blanks

end Move

end Walk

end DotText
