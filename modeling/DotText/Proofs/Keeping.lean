import DotText.Edit.Conditions
import DotText.Edit.Marking
import DotText.Tree.WellFormed

set_option autoImplicit false

/- A walk that takes nothing away leaves the text as it was, and where nothing matches the target a
walk takes nothing away. -/
namespace DotText

namespace Cursor

/-- Nothing has been taken away on the way from one place to the other. -/
structure Keeps (c c' : Cursor) : Prop where
  text : c'.text = c.text
  erased : c'.erased = c.erased
  removal : c'.removal = c.removal

theorem Keeps.refl (c : Cursor) : Keeps c c := ⟨rfl, rfl, rfl⟩

theorem Keeps.trans {c c' c'' : Cursor} (first : Keeps c c') (second : Keeps c' c'') :
    Keeps c c'' :=
  ⟨second.text.trans first.text, second.erased.trans first.erased,
    second.removal.trans first.removal⟩

theorem keeps_keep {c : Cursor} {kept r : List Char} (start : kept ++ r = c.rest) :
    Keeps c (c.keep kept r) :=
  ⟨text_keep c start, rfl, rfl⟩

theorem keeps_passBlanks (allowed : Separators) (c : Cursor) : Keeps c (c.passBlanks allowed) := by
  fun_induction passBlanks allowed c with
  | case1 c l r found ih => exact (keeps_keep (Blank.landmark?_append found)).trans ih
  | case2 c => exact Keeps.refl c
  | case3 c _ x r start _ ih =>
    have passed : Keeps c { c with gap := c.gap ++ [x], rest := r } :=
      ⟨by simp [text, before, start], rfl, rfl⟩
    exact passed.trans ih
  | case4 c => exact Keeps.refl c

theorem keeps_keepToken {c : Cursor} {written r : List Char} (start : written ++ r = c.rest) :
    Keeps c (c.keepToken written r) := by
  unfold keepToken
  split
  · exact Keeps.refl c
  · exact keeps_keep start

end Cursor

open Cursor (Keeps)

namespace Walk

theorem keeps_skip {token : Token} {allowed : Separators} {isOptional : Bool} {c c' : Cursor}
    (ran : Walk.skip token false allowed isOptional c = .ok c') : Keeps c c' := by
  have passed := Cursor.keeps_passBlanks allowed c
  simp only [Walk.skip, Cursor.skip, Cursor.approach, Cursor.skipBlanks, Bool.false_and,
    Bool.false_eq_true, if_false] at ran
  cases found : token.split? (c.passBlanks allowed).rest with
  | none =>
    rw [found] at ran
    cases isOptional with
    | true =>
      cases ran
      exact passed
    | false => cases ran
  | some found' =>
    rw [found] at ran
    cases ran
    exact passed.trans (Cursor.keeps_keepToken (Token.split?_append found))

theorem keeps_emptyLists {c c' : Cursor} (ran : Walk.emptyLists false c = .ok c') : Keeps c c' :=
  emptyLists_induction Keeps.refl Keeps.trans keeps_skip ran

namespace Move

/-- A gap that nothing is in, or behind which nothing was taken away, is the same when trimmed. -/
theorem keeps_trim {c : Cursor} (keeps : keepsGap .trim c = true) : Keeps c c.trim := by
  rw [keepsGap, Bool.or_eq_true, Bool.not_eq_true', List.isEmpty_iff] at keeps
  unfold Cursor.trim
  split
  · next erasing =>
    rcases keeps with idle | empty
    · rw [erasing] at idle
      cases idle
    · exact ⟨by simp [Cursor.text, Cursor.before, empty], rfl, rfl⟩
  · exact Keeps.refl c

theorem keeps_apply {m : Move} {c c' : Cursor} (calm : m.erases = false)
    (keeps : m.keepsGap c = true) (ran : m.apply c = .ok c') : Keeps c c' := by
  cases m with
  | skip token erase allowed isOptional =>
    obtain rfl : erase = false := calm
    exact keeps_skip ran
  | emptyLists erase =>
    obtain rfl : erase = false := calm
    exact keeps_emptyLists ran
  | skipBlanks erase allowed =>
    obtain rfl : erase = false := calm
    cases ran
    exact Cursor.keeps_passBlanks allowed c
  | spaceApart => cases calm
  | count => cases calm
  | trim =>
    cases ran
    exact keeps_trim keeps

/-- Moves that take nothing away leave the text as it was, if they give up no gap. -/
theorem keeps_run {ms : List Move} {c c' : Cursor} (calm : Calm ms)
    (keeps : allAlong keepsGap ms c = true) (ran : run ms c = .ok c') : Keeps c c' := by
  induction ms generalizing c with
  | nil =>
    cases ran
    exact Keeps.refl _
  | cons m ms ih =>
    rw [calm_cons] at calm
    obtain ⟨c₁, applied, rest⟩ := bind_eq_ok.mp ran
    rw [allAlong, applied, Bool.and_eq_true] at keeps
    exact (keeps_apply calm.1 keeps.1 applied).trans (ih calm.2 keeps.2 rest)

/-- Where nothing was taken away before, no gap is given up. -/
theorem allAlong_keepsGap {ms : List Move} {c : Cursor} (calm : Calm ms)
    (fresh : c.removal = none) : allAlong keepsGap ms c = true := by
  induction ms generalizing c with
  | nil => rfl
  | cons m ms ih =>
    rw [calm_cons] at calm
    have here : m.keepsGap c = true := by
      cases m with
      | trim => rw [keepsGap, Cursor.isErasing, fresh]; rfl
      | _ => rfl
    rw [allAlong, here, Bool.true_and]
    split
    · next applied =>
      exact ih calm.2 ((keeps_apply calm.1 here applied).removal.trans fresh)
    · rfl

/-- A gap that is given up makes the text shorter. -/
theorem length_text_apply {m : Move} {c c' : Cursor} (calm : m.erases = false)
    (gives : m.keepsGap c = false) (ran : m.apply c = .ok c') :
    c'.text.length < c.text.length := by
  cases m with
  | trim =>
    rw [keepsGap, Bool.or_eq_false_iff, Bool.not_eq_false', List.isEmpty_eq_false_iff] at gives
    obtain ⟨erasing, some⟩ := gives
    have start := List.length_pos_iff.mpr some
    cases ran
    simp only [Cursor.trim, if_pos erasing, Cursor.text, Cursor.before, List.length_append,
      List.length_nil]
    omega
  | _ => cases gives

theorem length_text_run {ms : List Move} {c c' : Cursor} (calm : Calm ms)
    (ran : run ms c = .ok c') :
    c'.text.length ≤ c.text.length ∧
      (allAlong keepsGap ms c = false → c'.text.length < c.text.length) := by
  induction ms generalizing c with
  | nil =>
    cases ran
    exact ⟨Nat.le_refl _, by simp [allAlong]⟩
  | cons m ms ih =>
    rw [calm_cons] at calm
    obtain ⟨c₁, applied, rest⟩ := bind_eq_ok.mp ran
    obtain ⟨shorter, strict⟩ := ih calm.2 rest
    cases keeps : m.keepsGap c with
    | true =>
      have same := congrArg List.length (keeps_apply calm.1 keeps applied).text
      refine ⟨same ▸ shorter, fun gives => same ▸ strict ?_⟩
      simpa [allAlong, keeps, applied] using gives
    | false =>
      have less := length_text_apply calm.1 keeps applied
      exact ⟨by omega, fun _ => by omega⟩

/-- Moves that take nothing away leave the text as it was exactly if they give up no gap. -/
theorem text_run_iff {ms : List Move} {c c' : Cursor} (calm : Calm ms) (ran : run ms c = .ok c') :
    c'.text = c.text ↔ allAlong keepsGap ms c = true := by
  refine ⟨fun same => ?_, fun keeps => (keeps_run calm keeps ran).text⟩
  rw [← Bool.not_eq_false]
  intro gives
  have less := (length_text_run calm ran).2 gives
  rw [same] at less
  omega

end Move

end Walk

namespace Target

variable {target : Target}

/-- Where no operator of a chain is counted, none goes. -/
theorem erasesSomeOp_of_countOps {es : List Endpoint} (none : target.countOps es = 0) :
    target.erasesSomeOp es = false := by
  fun_induction countOps target es with
  | case1 left right es ih =>
    rw [Nat.add_eq_zero_iff] at none
    have stays : target.erasesOp left right = false := by
      rw [← Bool.not_eq_true]
      intro goes
      simp [goes] at none
    rw [erasesSomeOp, stays, ih none.2]
    rfl
  | case2 es other =>
    unfold erasesSomeOp
    split
    · exact absurd rfl (other _ _ _)
    · rfl

theorem erasesLastOp_of_erasesSomeOp {es : List Endpoint} (none : target.erasesSomeOp es = false) :
    target.erasesLastOp es = false := by
  fun_induction erasesLastOp target es with
  | case1 left right =>
    rw [erasesSomeOp, Bool.or_eq_false_iff] at none
    exact none.1
  | case2 left es other ih =>
    apply ih
    cases es with
    | nil => rfl
    | cons right es =>
      rw [erasesSomeOp, Bool.or_eq_false_iff] at none
      exact none.2
  | case3 => rfl

end Target

namespace Walk.Move

open Marking

theorem calm_nodeRef (ref : NodeRef) : Calm (nodeRef false ref) := by
  obtain ⟨id, port⟩ := ref
  cases port with
  | none => rfl
  | some port =>
    obtain ⟨port, compass⟩ := port
    cases compass <;> rfl

theorem calm_attributes (attrs : List Attribute) : Calm (attributes false attrs) := by
  induction attrs with
  | nil => rfl
  | cons a as ih => exact calm_append.mpr ⟨rfl, ih⟩

theorem calm_header (id : Option String) : Calm (header id) := by
  cases id <;> rfl

theorem calm_braces (id : Option String) {ms : List Move} (calm : Calm ms) :
    Calm (header id ++ mark ['{'] false :: (ms ++ [mark ['}'] false])) :=
  calm_append.mpr ⟨calm_header id, calm_cons.mpr ⟨rfl, calm_append.mpr ⟨calm, rfl⟩⟩⟩

theorem calm_opening (g : Graph) : Calm (opening g) := by
  obtain ⟨strict, kind, id, body⟩ := g
  cases strict <;> cases id <;> rfl

variable {target : Target} {op : List Char}

mutual

/-- Where nothing of a tree matches the target nothing is taken away, whatever the text has. -/
theorem calm_of_countIn : (s : Statement) → s.everywhere Statement.isLinked = true →
    target.countIn s = 0 → Calm (statement target op s) ∧ target.erasesStatement s = false
  | .node ref attrs, _, zero => by
    have stays : target.erasesNode ref = false := by simpa [Target.countIn] using zero
    rw [statement, Target.erasesStatement, stays]
    exact ⟨calm_append.mpr ⟨calm_append.mpr ⟨calm_nodeRef ref, calm_attributes attrs⟩, rfl⟩, rfl⟩
  | .edge [] _, linked, _ => by cases linked
  | .edge (first :: others) attrs, linked, zero => by
    rw [Target.countIn, Nat.add_eq_zero_iff, Target.countInEndpoints, Nat.add_eq_zero_iff] at zero
    rw [Statement.everywhere, Bool.and_eq_true, Endpoint.everywhereInAll, Bool.and_eq_true] at linked
    obtain ⟨ops, first', others'⟩ := zero
    obtain ⟨calm, stays⟩ := calm_of_countInEndpoint first linked.2.1 first'
    have kept := Target.erasesSomeOp_of_countOps ops
    have lists : target.erasesAttributes (first :: others) = false := by
      rw [Target.erasesAttributes, kept]
      rfl
    have last := Target.erasesLastOp_of_erasesSomeOp kept
    refine ⟨?_, ?_⟩
    · rw [statement, chain, lists, last]
      refine calm_append.mpr ⟨calm_append.mpr ⟨calm_append.mpr ⟨calm, ?_⟩, ?_⟩, rfl⟩
      · exact calm_of_countInEndpoints first others kept linked.2.2 others' _
      · exact calm_attributes attrs
    · rw [Target.erasesStatement, List.all_cons, stays]
      rfl
  | .attr kind attrs, _, _ => by
    rw [statement]
    exact ⟨calm_cons.mpr ⟨rfl, calm_attributes attrs⟩, rfl⟩
  | .subgraph id body, linked, zero => by
    rw [Statement.everywhere, Bool.and_eq_true] at linked
    rw [statement]
    exact ⟨calm_braces id (calm_of_countInAll body linked.2 zero), rfl⟩

theorem calm_of_countInEndpoint : (e : Endpoint) → e.everywhere Statement.isLinked = true →
    target.countInEndpoint e = 0 → Calm (endpoint target op e) ∧ target.erasesEndpoint e = false
  | .node ref, _, zero => by
    have stays : target.erasesNode ref = false := by simpa [Target.countInEndpoint] using zero
    rw [endpoint, Target.erasesEndpoint, stays]
    exact ⟨calm_append.mpr ⟨calm_nodeRef ref, rfl⟩, rfl⟩
  | .subgraph id body, linked, zero => by
    rw [endpoint]
    exact ⟨calm_braces id (calm_of_countInAll body linked zero), rfl⟩

theorem calm_of_countInEndpoints (left : Endpoint) : (es : List Endpoint) →
    target.erasesSomeOp (left :: es) = false → Endpoint.everywhereInAll Statement.isLinked es = true →
      target.countInEndpoints es = 0 → ∀ survivor, Calm (Move.links target op survivor left es)
  | [], _, _, _, survivor => by
    rw [Move.links]
    exact calm_nil
  | right :: others, ops, linked, zero, survivor => by
    rw [Target.erasesSomeOp, Bool.or_eq_false_iff] at ops
    rw [Endpoint.everywhereInAll, Bool.and_eq_true] at linked
    rw [Target.countInEndpoints, Nat.add_eq_zero_iff] at zero
    rw [Move.links, operator, ops.1]
    have calm := (calm_of_countInEndpoint right linked.1 zero.1).1
    refine calm_append.mpr ⟨calm_append.mpr ⟨rfl, calm⟩, ?_⟩
    exact calm_of_countInEndpoints right others ops.2 linked.2 zero.2 _

theorem calm_of_countInAll : (ss : List Statement) →
    Statement.everywhereInAll Statement.isLinked ss = true → target.countInAll ss = 0 →
      Calm (statements target op ss)
  | [], _, _ => by
    rw [statements]
    rfl
  | s :: ss, linked, zero => by
    rw [Statement.everywhereInAll, Bool.and_eq_true] at linked
    rw [Target.countInAll, Nat.add_eq_zero_iff] at zero
    obtain ⟨calm, stays⟩ := calm_of_countIn s linked.1 zero.1
    rw [statements, stays]
    exact calm_append.mpr ⟨calm, calm_cons.mpr ⟨rfl, calm_of_countInAll ss linked.2 zero.2⟩⟩

end

theorem calm_of_countErased {g : Graph}
    (linked : Statement.everywhereInAll Statement.isLinked g.body = true)
    (zero : g.countErased target = 0) : Calm (whole target g) :=
  calm_append.mpr
    ⟨calm_append.mpr ⟨calm_opening g, calm_of_countInAll g.body linked zero⟩, rfl⟩

mutual

/-- A chain that is spelled has an edge. -/
theorem isLinked_of_marking {s : Statement} {marks : List Mark} :
    OfStatement target op s marks → s.everywhere Statement.isLinked = true
  | .node .. | .attr .. | .assign .. => rfl
  | .edge first links _ => by
    rw [Statement.everywhere, Endpoint.everywhereInAll, isLinked_of_endpoint first,
      isLinked_of_links links, Statement.isLinked]
    simp
  | .subgraph inner => isLinked_of_subgraph inner

theorem isLinked_of_endpoint {e : Endpoint} {marks : List Mark} :
    OfEndpoint target op e marks → e.everywhere Statement.isLinked = true
  | .node _ => rfl
  | .subgraph inner => isLinked_of_subgraph inner

theorem isLinked_of_links {left : Endpoint} {es : List Endpoint} {links : List Mark} :
    OfLinks target op left es links → Endpoint.everywhereInAll Statement.isLinked es = true
  | .nil => rfl
  | .cons right links =>
    Bool.and_eq_true_iff.mpr ⟨isLinked_of_endpoint right, isLinked_of_links links⟩

theorem isLinked_of_subgraph {id : Option String} {body : List Statement} {marks : List Mark} :
    OfSubgraph target op id body marks → Statement.everywhereInAll Statement.isLinked body = true
  | .block _ block => isLinked_of_block block

theorem isLinked_of_block {ss : List Statement} {marks : List Mark} : OfBlock target op ss marks →
    Statement.everywhereInAll Statement.isLinked ss = true
  | .nil => rfl
  | .cons statement _ block =>
    Bool.and_eq_true_iff.mpr ⟨isLinked_of_marking statement, isLinked_of_block block⟩

end

theorem calm_statement {s : Statement} {marks : List Mark} (spelled : OfStatement target op s marks)
    (zero : target.countIn s = 0) :
    Calm (statement target op s) ∧ target.erasesStatement s = false :=
  calm_of_countIn s (isLinked_of_marking spelled) zero

/-- Where nothing matches the target nothing is taken away. -/
theorem calm_whole {g : Graph} {marks : List Mark} (marked : g.Marked target marks)
    (zero : g.countErased target = 0) : Calm (whole target g) := by
  cases marked with
  | document _ block => exact calm_of_countErased (isLinked_of_block block) zero

end Walk.Move

end DotText
