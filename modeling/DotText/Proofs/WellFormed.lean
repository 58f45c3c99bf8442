import DotText.Proofs.Canonical
import DotText.Proofs.Elements

set_option autoImplicit false

/- The trees that texts are read as. A tree that is well-formed everywhere has a text, which keeps
all that the canonical text leaves out: brackets with nothing in them, and empty subgraphs. -/
namespace DotText

/-- The values that can come out of a text. -/
def Value.WellFormed : Value → Prop
  | .text s => Ident.Paired s.toList
  | .ident _ => False
  | .html s => Html.Balanced s.toList

/-- What holds of a statement that is read, apart from the statements in it: a chain has an edge, and
its names and values could stand in a text. -/
structure Statement.WellFormed (s : Statement) : Prop where
  linked : ∀ endpoints attrs, s = .edge endpoints attrs → 2 ≤ endpoints.length
  names : ∀ name ∈ s.ownNames, Ident.Paired name.toList
  attrs : ∀ a ∈ s.ownAttrs, Ident.Paired a.key.toList ∧ a.value.WellFormed

/-- Every statement of the document, at any depth, is well-formed. -/
structure Graph.WellFormed (g : Graph) : Prop where
  id : ∀ name, g.id = some name → Ident.Paired name.toList
  statements : ∀ path s, g.at? path = some (.statement s) → s.WellFormed

theorem Value.isReadable_iff (value : Value) : value.isReadable = true ↔ value.WellFormed := by
  cases value with
  | text s => exact Ident.isSpellable_iff s
  | ident s => simp [isReadable, WellFormed]
  | html s => exact Html.isBalanced_iff s.toList

theorem Statement.isLinked_iff (s : Statement) :
    s.isLinked = true ↔ ∀ endpoints attrs, s = .edge endpoints attrs → 2 ≤ endpoints.length := by
  cases s <;> simp [isLinked]

theorem Statement.isReadable_iff (s : Statement) : s.isReadable = true ↔ s.WellFormed := by
  simp only [isReadable, isSpellable, Bool.and_eq_true, List.all_eq_true, isLinked_iff,
    Ident.isSpellable_iff, Value.isReadable_iff]
  exact ⟨fun ⟨linked, names, attrs⟩ => ⟨linked, names, attrs⟩,
    fun ⟨linked, names, attrs⟩ => ⟨linked, names, attrs⟩⟩

section Everywhere

variable (p : Statement → Bool)

namespace Element

/-- Whether a property holds of every statement that an element is or has in it. -/
def everywhere : Element → Bool
  | .statement s => s.everywhere p
  | .endpoint _ _ e => e.everywhere p

theorem everywhereInAll_eq_block (ss : List Statement) :
    Statement.everywhereInAll p ss = (ss.map statement).all (everywhere p) := by
  induction ss with
  | nil => rfl
  | cons s ss ih =>
    rw [Statement.everywhereInAll, ih]
    rfl

theorem everywhereInAll_eq_chain (attrs : List Attribute) (left : Option Endpoint)
    (es : List Endpoint) : Endpoint.everywhereInAll p es =
      (((left :: es.map some).zip es).map fun (left, e) => endpoint attrs left e).all
        (everywhere p) := by
  induction es generalizing left with
  | nil => rfl
  | cons e es ih =>
    rw [Endpoint.everywhereInAll, ih (some e)]
    rfl

/-- A property holds everywhere in an element if it holds of the element, where that is a statement,
and everywhere in its children. -/
theorem everywhere_iff_children (element : Element) :
    element.everywhere p = true ↔
      (∀ s, element = .statement s → p s = true) ∧
        ∀ child ∈ element.children, child.everywhere p = true := by
  rw [← List.all_eq_true]
  match element with
  | .statement (.node ..) | .statement (.attr ..) => simp [everywhere, Statement.everywhere, children]
  | .statement (.edge endpoints attrs) =>
    rw [everywhere, Statement.everywhere, everywhereInAll_eq_chain p attrs none, Bool.and_eq_true,
      children]
    simp
  | .statement (.subgraph id body) =>
    rw [everywhere, Statement.everywhere, everywhereInAll_eq_block, Bool.and_eq_true, children]
    simp
  | .endpoint _ _ (.node _) => simp [everywhere, Endpoint.everywhere, children]
  | .endpoint _ _ (.subgraph _ body) =>
    rw [everywhere, Endpoint.everywhere, everywhereInAll_eq_block, children]
    simp

theorem everywhere_iff (element : Element) :
    element.everywhere p = true ↔
      ∀ path s, element.at? path = some (.statement s) → p s = true := by
  induction element using Element.induction with
  | step element ih =>
    rw [everywhere_iff_children]
    constructor
    · rintro ⟨own, inside⟩ path s there
      cases path with
      | nil => exact own s (Option.some.inj there)
      | cons i path =>
        obtain ⟨child, numbered, there⟩ := Option.bind_eq_some_iff.mp there
        have mem := List.mem_of_getElem? numbered
        exact (ih child mem).mp (inside child mem) path s there
    · intro all
      refine ⟨fun s same => all [] s (congrArg some same), fun child mem => ?_⟩
      obtain ⟨i, numbered⟩ := List.getElem?_of_mem mem
      refine (ih child mem).mpr fun path s there => all (i :: path) s ?_
      exact Option.bind_eq_some_iff.mpr ⟨child, numbered, there⟩

end Element

/-- What holds everywhere in a document holds of the statement at every path. -/
theorem Graph.everywhereInAll_iff (g : Graph) :
    Statement.everywhereInAll p g.body = true ↔
      ∀ path s, g.at? path = some (.statement s) → p s = true := by
  rw [Element.everywhereInAll_eq_block, List.all_map, List.all_eq_true]
  constructor
  · intro all path s there
    cases path with
    | nil => cases there
    | cons i path =>
      obtain ⟨t, numbered, there⟩ := Option.bind_eq_some_iff.mp there
      have inside := all t (List.mem_of_getElem? numbered)
      exact (Element.everywhere_iff p (.statement t)).mp inside path s there
  · intro all t mem
    obtain ⟨i, numbered⟩ := List.getElem?_of_mem mem
    refine (Element.everywhere_iff p (.statement t)).mpr fun path s there => all (i :: path) s ?_
    exact Option.bind_eq_some_iff.mpr ⟨t, numbered, there⟩

end Everywhere

theorem Graph.isReadable_iff (g : Graph) : g.isReadable = true ↔ g.WellFormed := by
  have body : Statement.everywhereInAll Statement.isReadable g.body = true ↔
      ∀ path s, g.at? path = some (.statement s) → s.WellFormed := by
    simp only [everywhereInAll_iff, Statement.isReadable_iff]
  have id : g.id.all Ident.isSpellable = true ↔
      ∀ name, g.id = some name → Ident.Paired name.toList := by
    simp [Option.all_eq_true, Ident.isSpellable_iff]
  rw [isReadable, Bool.and_eq_true, id]
  constructor
  · rintro ⟨id, all⟩
    exact ⟨id, body.mp all⟩
  · rintro ⟨id, all⟩
    exact ⟨id, body.mpr all⟩

/-- Pieces that some text says. -/
def Sayable (ls : List Lexeme) : Prop :=
  ∃ cs, Writes cs ls

namespace Sayable

variable {ls others : List Lexeme}

theorem nil : Sayable [] :=
  ⟨[], Writes.nil⟩

/-- Between two texts that say something there is room for a space. -/
theorem append (first : Sayable ls) (second : Sayable others) : Sayable (ls ++ others) := by
  obtain ⟨cs, writes⟩ := first
  obtain ⟨cs', writes'⟩ := second
  exact ⟨cs ++ ' ' :: cs', writes.append writes'.space (stops_cons (by decide) _)⟩

theorem punctuation {c : Char} (listed : Lexeme.isPunctuation c = true) :
    Sayable [.mark [c]] :=
  ⟨[c], Writes.nil.punctuation listed⟩

theorem punctuation_cons {c : Char} (sayable : Sayable ls)
    (listed : Lexeme.isPunctuation c = true) : Sayable (.mark [c] :: ls) :=
  (punctuation listed).append sayable

theorem edgeOp (kind : Kind) : Sayable [.mark kind.edgeOp.toList] :=
  ⟨kind.edgeOp.toList ++ [], Writes.nil.edgeOp kind⟩

end Sayable

theorem Statement.isSpellable_of_isReadable {s : Statement} (readable : s.isReadable = true) :
    s.ownNames.all Ident.isSpellable = true ∧
      s.ownAttrs.all (fun a => Ident.isSpellable a.key && a.value.isReadable) = true := by
  simp only [isReadable, isSpellable, Bool.and_eq_true] at readable
  exact readable.2

/-- A list in brackets, which may be empty. -/
theorem Attribute.exists_listed {attrs : List Attribute}
    (readable : attrs.all (fun a => Ident.isSpellable a.key && a.value.isReadable) = true) :
    ∃ ls, Listed true attrs ls ∧ Sayable ls := by
  have plain : attrs.all (fun a => !a.value.isIdent) = true := by
    simp only [List.all_eq_true, Bool.and_eq_true, Bool.not_eq_true'] at readable ⊢
    exact fun a mem => Value.not_isIdent_of_isReadable (readable a mem).2
  have writable : attrs.all (fun a => Ident.isSpellable a.key && a.value.isWritable) = true := by
    simp only [List.all_eq_true, Bool.and_eq_true] at readable ⊢
    exact fun a mem => ⟨(readable a mem).1, Value.isWritable_of_isReadable (readable a mem).2⟩
  obtain ⟨ls, listed, writes⟩ := listed_of_render writable
  rw [map_normal plain] at listed
  exact ⟨_, listed, Sayable.append ⟨_, writes⟩ (.punctuation (by decide))⟩

section Trees

variable (kind : Kind)

theorem Endpoint.exists_braced {id : Option String} {body : List Statement} {ls : List Lexeme}
    (spellable : id.toList.all Ident.isSpellable = true)
    (listed : Statement.Listed kind.edgeOp.toList body ls) (sayable : Sayable ls) :
    ∃ braced, Endpoint.Braced kind.edgeOp.toList id body braced ∧ Sayable braced := by
  obtain ⟨cs, writes⟩ := sayable.append (Sayable.punctuation (c := '}') (by decide))
  obtain ⟨head, spelled, whole⟩ :=
    header_writes spellable (writes.punctuation (c := '{') (by decide))
  exact ⟨_, .block spelled listed, _, whole⟩

mutual

/-- A statement has brackets also where it has no attributes: a keyword alone would be none, and what
follows cannot be taken for its list. -/
theorem Statement.exists_spelled : (s : Statement) → s.everywhere Statement.isReadable = true →
    ∃ ls, s.Spelled kind.edgeOp.toList ls ∧ Sayable ls
  | .node ref attrs, readable => by
    obtain ⟨names, entries⟩ := Statement.isSpellable_of_isReadable readable
    obtain ⟨name, spelled, first⟩ := NodeRef.writes names
    obtain ⟨ls, listed, second⟩ := Attribute.exists_listed entries
    have lists := second.punctuation_cons (c := '[') (by decide)
    exact ⟨_, .node spelled (.opened listed), Sayable.append ⟨_, first⟩ lists⟩
  | .edge endpoints attrs, readable => by
    rw [Statement.everywhere, Bool.and_eq_true] at readable
    obtain ⟨names, entries⟩ := Statement.isSpellable_of_isReadable readable.1
    obtain ⟨ls, listed, third⟩ := Attribute.exists_listed entries
    have lists := third.punctuation_cons (c := '[') (by decide)
    match endpoints, readable, names with
    | [], readable, _ => cases readable.1
    | [_], readable, _ => cases readable.1
    | e :: f :: es, readable, names =>
      rw [Endpoint.everywhereInAll, Bool.and_eq_true] at readable
      rw [Statement.ownNames, List.flatMap_cons, List.all_append, Bool.and_eq_true] at names
      obtain ⟨start, spelled, first⟩ := Endpoint.exists_spelled e names.1 readable.2.1
      obtain ⟨links, linked, second⟩ := Endpoint.exists_linked (f :: es) names.2 readable.2.2
      exact ⟨_, .edge spelled linked (.opened listed), first.append (second.append lists)⟩
  | .attr target attrs, readable => by
    obtain ⟨-, entries⟩ := Statement.isSpellable_of_isReadable readable
    obtain ⟨w, same, first⟩ := Writes.keyword target.keyword (by cases target <;> decide)
    obtain ⟨ls, listed, second⟩ := Attribute.exists_listed entries
    have lists := second.punctuation_cons (c := '[') (by decide)
    exact ⟨_, .attr same listed, Sayable.append ⟨_, first⟩ lists⟩
  | .subgraph id body, readable => by
    rw [Statement.everywhere, Bool.and_eq_true] at readable
    obtain ⟨names, -⟩ := Statement.isSpellable_of_isReadable readable.1
    obtain ⟨ls, listed, sayable⟩ := Statement.exists_listed body readable.2
    obtain ⟨braced, block, sayable⟩ := Endpoint.exists_braced kind names listed sayable
    exact ⟨braced, .subgraph block, sayable⟩

theorem Endpoint.exists_spelled : (e : Endpoint) → e.ownNames.all Ident.isSpellable = true →
    e.everywhere Statement.isReadable = true →
    ∃ ls, e.Spelled kind.edgeOp.toList ls ∧ Sayable ls
  | .node ref, names, _ => by
    obtain ⟨name, spelled, writes⟩ := NodeRef.writes names
    exact ⟨name, .node spelled, _, writes⟩
  | .subgraph id body, names, readable => by
    obtain ⟨ls, listed, sayable⟩ := Statement.exists_listed body readable
    obtain ⟨braced, block, sayable⟩ := Endpoint.exists_braced kind names listed sayable
    exact ⟨braced, .subgraph block, sayable⟩

theorem Endpoint.exists_linked : (es : List Endpoint) →
    (es.flatMap Endpoint.ownNames).all Ident.isSpellable = true →
    Endpoint.everywhereInAll Statement.isReadable es = true →
    ∃ ls, Endpoint.Linked kind.edgeOp.toList es ls ∧ Sayable ls
  | [], _, _ => ⟨[], .nil, .nil⟩
  | e :: es, names, readable => by
    rw [Endpoint.everywhereInAll, Bool.and_eq_true] at readable
    rw [List.flatMap_cons, List.all_append, Bool.and_eq_true] at names
    obtain ⟨ls, spelled, first⟩ := Endpoint.exists_spelled e names.1 readable.1
    obtain ⟨links, linked, second⟩ := Endpoint.exists_linked es names.2 readable.2
    exact ⟨_, .cons spelled linked, (Sayable.edgeOp kind).append (first.append second)⟩

theorem Statement.exists_listed : (ss : List Statement) →
    Statement.everywhereInAll Statement.isReadable ss = true →
    ∃ ls, Statement.Listed kind.edgeOp.toList ss ls ∧ Sayable ls
  | [], _ => ⟨[], .nil, .nil⟩
  | s :: ss, readable => by
    rw [Statement.everywhereInAll, Bool.and_eq_true] at readable
    obtain ⟨ls, spelled, first⟩ := Statement.exists_spelled s readable.1
    obtain ⟨others, listed, second⟩ := Statement.exists_listed ss readable.2
    exact ⟨_, .cons spelled .none listed, first.append second⟩

end

end Trees

namespace Graph

/-- A readable tree has a text that is read as it. -/
theorem exists_read {g : Graph} (readable : g.isReadable = true) :
    ∃ cs, Graph.read cs = .ok g := by
  rw [isReadable, Bool.and_eq_true] at readable
  obtain ⟨ls, listed, sayable⟩ := Statement.exists_listed g.kind g.body readable.2
  obtain ⟨cs, writes⟩ := sayable.append (Sayable.punctuation (c := '}') (by decide))
  obtain ⟨head, opening, whole⟩ :=
    header_writes readable.1 (writes.punctuation (c := '{') (by decide))
  have spelled : g.Spelled (head ++ .mark ['{'] :: (ls ++ [.mark ['}']])) := .document opening listed
  rw [← whole.all_eq, ← read_iff_spelled] at spelled
  exact ⟨_, spelled⟩

/-- The trees that texts are read as are the well-formed ones. -/
theorem exists_text_iff (g : Graph) : (∃ text, Graph.ofText text = .ok g) ↔ g.WellFormed := by
  rw [← isReadable_iff]
  constructor
  · rintro ⟨text, found⟩
    exact isReadable_of_read (ofText_eq_ok.mp found)
  · intro readable
    obtain ⟨cs, found⟩ := exists_read readable
    exact ⟨String.ofList cs, ofText_eq_ok.mpr (by rwa [String.toList_ofList])⟩

end Graph

end DotText
