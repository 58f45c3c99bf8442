import DotText.Proofs.Brackets
import DotText.Proofs.Printing
import DotText.Tree.WellFormed

set_option autoImplicit false

/- The canonical text of a writable tree spells its normal form, and is read as it. -/
namespace DotText

/-- Whether a statement by itself, without those in it, is written in full. -/
def Statement.isWritable (s : Statement) : Bool :=
  s.isLinked && s.isGiving && s.isSpellable Value.isWritable

/-- Whether a statement by itself is written in full, the brackets of its attributes apart. -/
def Statement.isPrintable (s : Statement) : Bool :=
  s.isLinked && s.isSpellable Value.isWritable

theorem Statement.isPrintable_of_isWritable (s : Statement) (writable : s.isWritable = true) :
    s.isPrintable = true := by
  simp only [isWritable, isPrintable, Bool.and_eq_true] at writable ⊢
  exact ⟨writable.1.1, writable.2⟩

theorem Statement.isGiving_of_isWritable (s : Statement) (writable : s.isWritable = true) :
    s.isGiving = true := by
  simp only [isWritable, Bool.and_eq_true] at writable
  exact writable.1.2

theorem Statement.isSpellable_of_isPrintable {s : Statement} (printable : s.isPrintable = true) :
    s.ownNames.all Ident.isSpellable = true ∧
      s.ownAttrs.all (fun a => Ident.isSpellable a.key && a.value.isWritable) = true := by
  simp only [isPrintable, isSpellable, Bool.and_eq_true] at printable
  exact printable.2

/-- Pieces that spell a part of a tree if `giving` holds, and else lack a bracket in front of all that
fits behind them. -/
structure Shows (fits : List Lexeme → Prop) (giving : Bool) (spells : Prop) (ls : List Lexeme) :
    Prop where
  spells : giving = true → spells
  lacks : giving = false → Lexeme.Unbracketed fits ls

namespace Shows

variable {fits : List Lexeme → Prop} {giving giving' : Bool} {spells spells' : Prop}
  {ls ls' : List Lexeme}

theorem of_spells (said : spells) : Shows fits true spells ls :=
  ⟨fun _ => said, fun never => by cases never⟩

theorem imp (shows_ : Shows fits giving spells ls) (implies : spells → spells') :
    Shows fits giving spells' ls :=
  ⟨fun all => implies (shows_.spells all), shows_.lacks⟩

theorem append (first : Shows (fun _ => True) giving spells ls)
    (second : Shows fits giving' spells' ls') :
    Shows fits (giving && giving') (spells ∧ spells') (ls ++ ls') := by
  constructor
  · intro both
    rw [Bool.and_eq_true] at both
    exact ⟨first.spells both.1, second.spells both.2⟩
  · intro lacking
    rcases Bool.and_eq_false_iff.mp lacking with left | right
    · exact (first.lacks left).append_left ls'
    · exact (second.lacks right).append_right ls

theorem append_ends (first : Shows Lexeme.Ends giving spells ls)
    (second : Shows Lexeme.Ends giving' spells' ls') (ends : Lexeme.Ends ls') :
    Shows Lexeme.Ends (giving && giving') (spells ∧ spells') (ls ++ ls') := by
  constructor
  · intro both
    rw [Bool.and_eq_true] at both
    exact ⟨first.spells both.1, second.spells both.2⟩
  · intro lacking
    rcases Bool.and_eq_false_iff.mp lacking with left | right
    · exact (first.lacks left).append_ends ends
    · exact (second.lacks right).append_right ls

end Shows

theorem Lexeme.ends_of_startsStatement {piece : Lexeme} (starts : piece.startsStatement = true)
    (ls : List Lexeme) : Ends (piece :: ls) := by
  intro first same
  cases same
  exact goesOn_of_startsStatement starts

theorem NodeRef.Spelled.ends {ref : NodeRef} {name : List Lexeme} (spelled : ref.Spelled name)
    (ls : List Lexeme) : Lexeme.Ends (name ++ ls) := by
  obtain ⟨piece, others, rfl, starts⟩ := Marking.head_of_name spelled
  exact Lexeme.ends_of_startsStatement starts _

theorem BlockHead.ends {id : Option String} {head : List Lexeme} (spelled : BlockHead id head)
    (ls : List Lexeme) : Lexeme.Ends (head ++ .mark ['{'] :: ls) := by
  cases spelled with
  | bare => exact Lexeme.ends_of_startsStatement rfl _
  | keyword same | named same =>
    exact Lexeme.ends_of_startsStatement (Lexeme.startsStatement_of_isKeyword same) _

/-- An empty subgraph has no attribute statement in it. -/
theorem Statement.isGiving_of_isHollow {s : Statement} (hollow : s.isHollow = true) :
    s.everywhere Statement.isGiving = true := by
  match s, hollow with
  | .subgraph none [], _ => rfl

section Trees

variable (kind : Kind)

/-- A block in braces, once it is known what its statements are written as. -/
theorem Endpoint.braced_of_render {id : Option String}
    (spellable : id.toList.all Ident.isSpellable = true) {body : List Statement} {giving : Bool}
    {texts : List (List Char)} {ls : List Lexeme}
    (writes : Writes (texts.flatMap ([' '] ++ ·)) ls)
    (shown : Shows Lexeme.Ends giving (Statement.Listed kind.edgeOp.toList body ls) ls) :
    ∃ braced, Writes (renderHeader id ++ '{' :: ([' '].intercalate texts ++ ['}'])) braced ∧
      (∀ behind, Lexeme.Ends (braced ++ behind)) ∧
      Shows (fun _ => True) giving (Endpoint.Braced kind.edgeOp.toList id body braced) braced := by
  have closes := writes.spaced.append (Writes.nil.punctuation (c := '}') (by decide))
    (stops_cons (by decide) _)
  obtain ⟨head, spelled, whole⟩ :=
    Endpoint.header_writes spellable (closes.punctuation (c := '{') (by decide))
  refine ⟨_, whole, fun behind => ?_, fun all => .block spelled (shown.spells all), ?_⟩
  · simpa using spelled.ends _
  intro lacking behind _
  have missing : Lexeme.isBracketed (ls ++ .mark ['}'] :: behind) = false :=
    shown.lacks lacking _ fun _ same => by cases same; rfl
  have inside := Lexeme.isBracketed_append_right (head ++ [.mark ['{']]) missing
  simpa using inside

mutual

/-- The text of a statement says its normal form, unless an attribute statement in it has no
attributes: then it says nothing, since the brackets are left out with them. -/
theorem Statement.shown_of_render : (s : Statement) →
    s.everywhere Statement.isPrintable = true →
    ∃ ls, Writes (s.render kind.edgeOp.toList) ls ∧ Lexeme.Ends ls ∧
      Shows Lexeme.Ends (s.everywhere Statement.isGiving)
        (s.normal.Spelled kind.edgeOp.toList ls) ls
  | .node ref attrs, printable => by
    obtain ⟨names, entries⟩ := Statement.isSpellable_of_isPrintable printable
    obtain ⟨name, spelled, first⟩ := NodeRef.writes names
    obtain ⟨ls, listed, second, stops⟩ := Attribute.listed_of_renderList entries
    exact ⟨name ++ ls, first.append second stops, spelled.ends ls, .of_spells (.node spelled listed)⟩
  | .edge endpoints attrs, printable => by
    rw [Statement.everywhere, Bool.and_eq_true] at printable
    obtain ⟨names, entries⟩ := Statement.isSpellable_of_isPrintable printable.1
    obtain ⟨ls, listed, third, stops⟩ := Attribute.listed_of_renderList entries
    match endpoints, printable, names with
    | [], printable, _ => cases printable.1
    | [_], printable, _ => cases printable.1
    | e :: f :: es, printable, names =>
      rw [Endpoint.everywhereInAll, Bool.and_eq_true] at printable
      rw [Statement.ownNames, List.flatMap_cons, List.all_append, Bool.and_eq_true] at names
      obtain ⟨start, first, ends, head⟩ := Endpoint.shown_of_render e names.1 printable.2.1
      obtain ⟨links, second, chain⟩ :=
        Endpoint.shown_of_renderAll (f :: es) names.2 printable.2.2
      refine ⟨start ++ (links ++ ls), ?_, ?_, ?_⟩
      · rw [Statement.render, Endpoint.renderAll, intercalate_cons, List.append_assoc]
        refine first.append (second.append third stops) (Stops.append ?_ stops)
        exact stops_flatMap (stops_cons (by decide) _) (by simp) _
      · exact ends _
      · have lists : Shows Lexeme.Ends true _ ls := .of_spells listed
        have whole := head.append (chain.append lists)
        rw [Bool.and_true] at whole
        exact whole.imp fun ⟨spelled, linked, listed⟩ => .edge spelled linked listed
  | .attr target [], _ => by
    obtain ⟨w, same, first⟩ := Writes.keyword target.keyword (by cases target <;> decide)
    have starts := Lexeme.startsStatement_of_isKeyword same
    refine ⟨[w], ?_, Lexeme.ends_of_startsStatement starts _, fun never => (by cases never),
      fun _ => Lexeme.unbracketed_keyword same⟩
    simpa [Statement.render, Attribute.renderList] using first
  | .attr target (a :: attrs), printable => by
    obtain ⟨-, entries⟩ := Statement.isSpellable_of_isPrintable printable
    obtain ⟨ls, listed, second, stops⟩ := Attribute.listed_of_renderList entries
    obtain ⟨w, same, first⟩ := Writes.keyword target.keyword (by cases target <;> decide)
    have starts := Lexeme.startsStatement_of_isKeyword same
    -- With an attribute to list there is a bracket, which the statement has to have.
    have listed' : Attribute.Listed false (a.normal :: attrs.map Attribute.normal) ls := listed
    cases listed' with
    | opened inner =>
      exact ⟨_, first.append second stops, Lexeme.ends_of_startsStatement starts _,
        .of_spells (.attr same inner)⟩
  | .subgraph id body, printable => by
    rw [Statement.everywhere, Bool.and_eq_true] at printable
    obtain ⟨names, -⟩ := Statement.isSpellable_of_isPrintable printable.1
    obtain ⟨ls, writes, -, shown⟩ := Statement.shown_of_renderAll false body printable.2
    obtain ⟨braced, whole, ends, shown⟩ := Endpoint.braced_of_render kind names writes shown
    refine ⟨braced, whole, ?_, fun all => .subgraph (shown.spells all),
      fun lacking behind _ => shown.lacks lacking behind trivial⟩
    simpa using ends []

theorem Endpoint.shown_of_render : (e : Endpoint) → e.ownNames.all Ident.isSpellable = true →
    e.everywhere Statement.isPrintable = true →
    ∃ ls, Writes (e.render kind.edgeOp.toList) ls ∧ (∀ behind, Lexeme.Ends (ls ++ behind)) ∧
      Shows (fun _ => True) (e.everywhere Statement.isGiving)
        (e.normal.Spelled kind.edgeOp.toList ls) ls
  | .node ref, names, _ => by
    obtain ⟨name, spelled, writes⟩ := NodeRef.writes names
    exact ⟨name, writes, spelled.ends, .of_spells (.node spelled)⟩
  | .subgraph id body, names, printable => by
    obtain ⟨ls, writes, -, shown⟩ := Statement.shown_of_renderAll false body printable
    obtain ⟨braced, whole, ends, shown⟩ := Endpoint.braced_of_render kind names writes shown
    exact ⟨braced, whole, ends, shown.imp .subgraph⟩

/-- The ends of edges behind the first, each with the operator between two spaces in front. -/
theorem Endpoint.shown_of_renderAll : (es : List Endpoint) →
    (es.flatMap Endpoint.ownNames).all Ident.isSpellable = true →
    Endpoint.everywhereInAll Statement.isPrintable es = true →
    ∃ ls, Writes ((Endpoint.renderAll kind.edgeOp.toList es).flatMap
        ((' ' :: (kind.edgeOp.toList ++ [' '])) ++ ·)) ls ∧
      Shows (fun _ => True) (Endpoint.everywhereInAll Statement.isGiving es)
        (Endpoint.Linked kind.edgeOp.toList (Endpoint.normalAll es) ls) ls
  | [], _, _ => ⟨[], Writes.nil, .of_spells .nil⟩
  | e :: es, names, printable => by
    rw [Endpoint.everywhereInAll, Bool.and_eq_true] at printable
    rw [List.flatMap_cons, List.all_append, Bool.and_eq_true] at names
    obtain ⟨ls, first, -, shown⟩ := Endpoint.shown_of_render e names.1 printable.1
    obtain ⟨links, second, others⟩ := Endpoint.shown_of_renderAll es names.2 printable.2
    refine ⟨.mark kind.edgeOp.toList :: (ls ++ links), ?_, ?_⟩
    · have behind :=
        first.append second (stops_flatMap (stops_cons (by decide) _) (by simp) _)
      simpa [Endpoint.renderAll] using (behind.space.edgeOp kind).space
    · have whole := shown.append others
      exact ⟨fun all => .cons (whole.spells all).1 (whole.spells all).2,
        fun lacking => (whole.lacks lacking).append_right [_]⟩

/-- The statements of a block, each with a space in front. -/
theorem Statement.shown_of_renderAll : (after : Bool) → (ss : List Statement) →
    Statement.everywhereInAll Statement.isPrintable ss = true →
    ∃ ls, Writes ((Statement.renderAll kind.edgeOp.toList after ss).flatMap ([' '] ++ ·)) ls ∧
      Lexeme.Ends ls ∧
      Shows Lexeme.Ends (Statement.everywhereInAll Statement.isGiving ss)
        (Statement.Listed kind.edgeOp.toList (Statement.normalAll after ss) ls) ls
  | _, [], _ => ⟨[], Writes.nil, by simp [Lexeme.Ends], .of_spells .nil⟩
  | after, s :: ss, printable => by
    rw [Statement.everywhereInAll, Bool.and_eq_true] at printable
    rw [Statement.normalAll, Statement.renderAll, Statement.everywhereInAll]
    split
    · next skipped =>
      rw [Bool.and_eq_true] at skipped
      rw [Statement.isGiving_of_isHollow skipped.2, Bool.true_and]
      exact Statement.shown_of_renderAll after ss printable.2
    · obtain ⟨ls, first, ends, shown⟩ := Statement.shown_of_render s printable.1
      obtain ⟨others, second, ends', shown'⟩ :=
        Statement.shown_of_renderAll s.isSubgraph ss printable.2
      refine ⟨ls ++ others, ?_, ends.append ends', ?_⟩
      · exact (first.append second (stops_flatMap (stops_cons (by decide) _) (by simp) _)).space
      · refine (shown.append_ends shown' ends').imp fun ⟨spelled, listed⟩ => ?_
        simpa using Statement.Listed.cons spelled .none listed

end

end Trees

/-- What stands in front of the first brace of a document, with the brace and what comes behind. -/
theorem Graph.header_writes {g : Graph} (spellable : g.id.all Ident.isSpellable = true)
    {cs : List Char} {ls : List Lexeme} (writes : Writes ('{' :: cs) ls) :
    ∃ head, DocumentHead g.kind g.strict g.id head ∧
      Writes ((if g.strict then "strict ".toList else []) ++ g.kind.keyword.toList ++ [' '] ++
        (g.id.map fun id => Ident.spell id.toList ++ [' ']).getD [] ++ '{' :: cs) (head ++ ls) := by
  obtain ⟨strict, kind, id, body⟩ := g
  have space (cs : List Char) : Stops (' ' :: cs) := stops_cons (by decide) cs
  obtain ⟨k, same, first⟩ := Writes.keyword kind.keyword (by cases kind <;> decide)
  have named : ∃ head, DocumentHead kind false id head ∧
      Writes (kind.keyword.toList ++ ' ' ::
        ((id.map fun id => Ident.spell id.toList ++ [' ']).getD [] ++ '{' :: cs)) (head ++ ls) := by
    cases id with
    | none => exact ⟨[k], .plain same, first.append writes.space (space _)⟩
    | some id =>
      obtain ⟨n, named, second⟩ := Writes.spell spellable
      refine ⟨[k, n], .named same named, ?_⟩
      have behind := (second.append writes.space (space _)).space
      simpa using first.append behind (space _)
  obtain ⟨head, opening, whole⟩ := named
  cases strict with
  | false => exact ⟨head, opening, by simpa using whole⟩
  | true =>
    obtain ⟨w, same', strict⟩ := Writes.keyword "strict" (by decide)
    refine ⟨w :: head, .strict same' opening, ?_⟩
    have split : "strict ".toList = "strict".toList ++ [' '] := by decide
    simpa [split] using strict.append whole.space (space _)

/-- The canonical text of a statement spells its normal form. -/
theorem Statement.spelled_of_render (kind : Kind) (s : Statement)
    (writable : s.everywhere Statement.isWritable = true) :
    ∃ ls, s.normal.Spelled kind.edgeOp.toList ls ∧ Writes (s.render kind.edgeOp.toList) ls := by
  have printable := Statement.everywhere_imp Statement.isPrintable_of_isWritable s writable
  have giving := Statement.everywhere_imp Statement.isGiving_of_isWritable s writable
  obtain ⟨ls, writes, -, shown⟩ := Statement.shown_of_render kind s printable
  exact ⟨ls, shown.spells giving, writes⟩

/-- The pieces of the canonical text of a document. -/
theorem Graph.shown_of_render {g : Graph} (spellable : g.id.all Ident.isSpellable = true)
    (printable : Statement.everywhereInAll Statement.isPrintable g.body = true) :
    ∃ head ls, Lexeme.all g.render = head ++ .mark ['{'] :: (ls ++ [.mark ['}']]) ∧
      DocumentHead g.kind g.strict g.id head ∧
      Shows Lexeme.Ends g.isGiving
        (Statement.Listed g.kind.edgeOp.toList (Statement.normalAll false g.body) ls) ls := by
  obtain ⟨ls, writes, -, shown⟩ := Statement.shown_of_renderAll g.kind false g.body printable
  have closes := writes.spaced.append (Writes.nil.punctuation (c := '}') (by decide))
    (stops_cons (by decide) _)
  obtain ⟨head, opening, whole⟩ :=
    Graph.header_writes spellable (closes.punctuation (c := '{') (by decide))
  exact ⟨head, ls, whole.all_eq, opening, shown⟩

/-- The canonical text of a writable tree is read as its normal form. -/
theorem Graph.read_render {g : Graph} (writable : g.isWritable = true) :
    Graph.read g.render = .ok g.normal := by
  rw [Graph.isWritable, Bool.and_eq_true] at writable
  have printable :=
    Statement.everywhereInAll_imp Statement.isPrintable_of_isWritable g.body writable.2
  have giving := Statement.everywhereInAll_imp Statement.isGiving_of_isWritable g.body writable.2
  obtain ⟨head, ls, pieces, opening, shown⟩ := Graph.shown_of_render writable.1 printable
  rw [Graph.read_iff_spelled, pieces]
  exact .document opening (shown.spells giving)

end DotText
