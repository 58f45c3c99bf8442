import DotText.Document
import DotText.Proofs.Insertion
import DotText.Proofs.NormalForm
import DotText.Proofs.Readable

set_option autoImplicit false

/- Documents open for editing. Whatever edits are attempted, the tree of a document is what its text
is read as and the index is what the tree declares; and an insertion of what can be spelled adds the
one statement that it is asked for, and what that declares. -/
namespace DotText

theorem map_eq_ok {ε α β : Type} {x : Except ε α} {f : α → β} {b : β} :
    x.map f = .ok b ↔ ∃ a, x = .ok a ∧ f a = b := by
  cases x <;> simp [Except.map]

theorem map_eq_error {ε α β : Type} {x : Except ε α} {f : α → β} {e : ε} :
    x.map f = .error e ↔ x = .error e := by
  cases x <;> simp [Except.map]

namespace Document

/-- The tree and the index of a document are those of its text. -/
structure Current (d : Document) : Prop where
  tree : Graph.read d.text.toList = .ok d.tree
  index : d.index = d.tree.index

/-- A document that comes about when a text is opened and edits are attempted one after another. -/
def Reachable (d : Document) : Prop :=
  ∃ layout text opened edits, ofText layout text = .ok opened ∧ d = opened.run edits

theorem ofText_eq_ok {layout : Layout} {text : String} {d : Document} :
    ofText layout text = .ok d ↔
      ∃ g, Graph.read text.toList = .ok g ∧ d = ⟨text, g, g.index, layout⟩ := by
  simp only [← Graph.ofText_eq_ok, ofText]
  cases Graph.ofText text <;> simp [bind, Except.bind, pure, Except.pure, eq_comm]

theorem current_of_ofText {layout : Layout} {text : String} {d : Document}
    (opened : ofText layout text = .ok d) : d.Current ∧ d.layout = layout := by
  obtain ⟨g, read, rfl⟩ := ofText_eq_ok.mp opened
  exact ⟨⟨read, rfl⟩, rfl⟩

variable {d d' : Document}

theorem commit_eq_ok {text : List Char} :
    d.commit text = .ok d' ↔ ofText d.layout (String.ofList text) = .ok d' := by
  unfold commit
  cases ofText d.layout (String.ofList text) <;> simp

/-- A text that is read as a tree is committed with it. -/
theorem commit_of_read {text : List Char} {g : Graph} (read : Graph.read text = .ok g) :
    d.commit text = .ok ⟨String.ofList text, g, g.index, d.layout⟩ := by
  refine commit_eq_ok.mpr (ofText_eq_ok.mpr ⟨g, ?_, rfl⟩)
  rwa [String.toList_ofList]

theorem current_of_commit {text : List Char} (committed : d.commit text = .ok d') :
    d'.Current ∧ d'.layout = d.layout :=
  current_of_ofText (commit_eq_ok.mp committed)

theorem current_of_append {s : Statement} (appended : d.append s = .ok d') :
    d'.Current ∧ d'.layout = d.layout := by
  unfold append at appended
  split at appended
  · exact current_of_commit appended
  · cases appended

theorem current_of_erase {target : Target} {n : Nat} (current : d.Current)
    (erased : d.erase target = .ok (d', n)) : d'.Current ∧ d'.layout = d.layout := by
  unfold erase at erased
  split at erased
  · cases erased
  split at erased
  · cases erased
    exact ⟨current, rfl⟩
  · obtain ⟨d'', committed, same⟩ := map_eq_ok.mp erased
    cases same
    exact current_of_commit committed

/-- An edit leaves the tree and the index those of the text. -/
theorem current_of_apply {edit : Edit} {answer : Option Nat} (current : d.Current)
    (applied : edit.apply d = .ok (d', answer)) : d'.Current ∧ d'.layout = d.layout := by
  cases edit with
  | insertNode name entries =>
    obtain ⟨_, inserted, same⟩ := map_eq_ok.mp applied
    cases same
    exact current_of_append inserted
  | insertEdge tail head entries =>
    obtain ⟨_, inserted, same⟩ := map_eq_ok.mp applied
    cases same
    exact current_of_append inserted
  | deleteNode name =>
    obtain ⟨_, deleted, same⟩ := map_eq_ok.mp applied
    cases same
    exact current_of_erase current deleted
  | deleteEdge name =>
    obtain ⟨_, deleted, same⟩ := map_eq_ok.mp applied
    cases same
    unfold deleteEdge at deleted
    split at deleted
    · cases deleted
    · exact current_of_erase current deleted
  | reread =>
    obtain ⟨_, read, same⟩ := map_eq_ok.mp applied
    cases same
    exact current_of_commit read

/-- An attempt at an edit leaves the tree and the index those of the text, and the layout as it
is. -/
theorem Current.attempt (current : d.Current) (edit : Edit) :
    (d.attempt edit).1.Current ∧ (d.attempt edit).1.layout = d.layout := by
  unfold Document.attempt
  split
  · next applied => exact current_of_apply current applied
  · exact ⟨current, rfl⟩

theorem Current.run (current : d.Current) (edits : List Edit) : (d.run edits).Current := by
  induction edits generalizing d with
  | nil => exact current
  | cons edit edits ih => exact ih (current.attempt edit).1

theorem Reachable.current (reachable : d.Reachable) : d.Current := by
  obtain ⟨layout, text, opened, edits, open_, rfl⟩ := reachable
  exact (current_of_ofText open_).1.run edits

/-- A layout under which an inserted statement stands apart from what is in front of it. -/
structure Layout.Spaced (layout : Layout) : Prop where
  blank : ∀ x ∈ layout.indent.toList, x ∈ [' ', '\t', '\r', '\n']
  apart : layout.freshLine = true ∨ layout.indent ≠ ""

/-- The keys and values that an insertion gives can be spelled. -/
def Spellable (entries : List (String × Option String)) : Prop :=
  ∀ key value, (key, some value) ∈ entries →
    Ident.isSpellable key = true ∧ Ident.isSpellable value = true

theorem all_attributes_iff (allowed : Value → Bool)
    (text : ∀ s, allowed (.text s) = Ident.isSpellable s) (entries : List (String × Option String)) :
    (attributes entries).all (fun a => Ident.isSpellable a.key && allowed a.value) = true ↔
      Spellable entries := by
  simp only [attributes, List.all_eq_true, List.mem_filterMap, Option.map_eq_some_iff, Spellable,
    Bool.and_eq_true]
  constructor
  · intro all key value given
    have entry := all (.ofText key value) ⟨(key, some value), given, value, rfl, rfl⟩
    exact ⟨entry.1, (text value).symm.trans entry.2⟩
  · rintro spellable a ⟨⟨key, given⟩, listed, value, rfl, rfl⟩
    obtain ⟨first, second⟩ := spellable key value listed
    exact ⟨first, (text value).trans second⟩

theorem attributes_normal (entries : List (String × Option String)) :
    (attributes entries).map Attribute.normal = attributes entries := by
  refine Attribute.map_normal (List.all_eq_true.mpr fun a mem => ?_)
  obtain ⟨⟨key, given⟩, -, found⟩ := List.mem_filterMap.mp mem
  obtain ⟨value, -, rfl⟩ := Option.map_eq_some_iff.mp found
  rfl

theorem node_normal (name : String) (entries : List (String × Option String)) :
    (Statement.node ⟨name, none⟩ (attributes entries)).normal =
      .node ⟨name, none⟩ (attributes entries) := by
  rw [Statement.normal, attributes_normal]

theorem isWritable_node_iff (name : String) (entries : List (String × Option String)) :
    (Statement.node ⟨name, none⟩ (attributes entries)).everywhere Statement.isWritable = true ↔
      Ident.isSpellable name = true ∧ Spellable entries := by
  rw [← all_attributes_iff Value.isWritable (fun _ => rfl) entries]
  simp [Statement.everywhere, Statement.isWritable, Statement.isLinked, Statement.isGiving,
    Statement.isSpellable, Statement.ownNames, Statement.ownAttrs, NodeRef.names]

section Append

variable (current : d.Current) (spaced : Layout.Spaced d.layout)

include current spaced

/-- A statement that can be written is the one that is appended. -/
theorem append_of_writable {s : Statement} (writable : s.everywhere Statement.isWritable = true) :
    ∃ d', d.append s = .ok d' ∧ d'.tree = d.tree.append s.normal := by
  obtain ⟨text, inserted, read⟩ := Graph.read_insertInto current.tree writable spaced.blank
    (spaced.apart.imp_right fun some none => some (String.toList_eq_nil_iff.mp none))
  have committed := commit_of_read (d := d) read
  have appended : d.append s = d.commit text := by
    rw [append, line, List.append_assoc, inserted]
  exact ⟨_, appended.trans committed, rfl⟩

omit spaced in
/-- Where the tree has one statement more, that statement is readable. -/
theorem readable_of_append {g : Graph} {s : Statement} (tree : d.tree = g.append s) :
    s.everywhere Statement.isReadable = true := by
  have readable := Graph.isReadable_of_read current.tree
  rw [tree, Graph.isReadable, Bool.and_eq_true] at readable
  have body : Statement.everywhereInAll Statement.isReadable (g.body ++ [s]) = true := readable.2
  rw [Statement.everywhereInAll_append, Statement.everywhereInAll, Statement.everywhereInAll,
    Bool.and_true, Bool.and_eq_true] at body
  exact body.2

/-- The statement that is asked for is the one that is appended exactly where it can be written. -/
theorem append_iff {s : Statement} {spellable : Prop} (normal : s.normal = s)
    (writable : s.everywhere Statement.isWritable = true ↔ spellable)
    (readable : s.everywhere Statement.isReadable = true ↔ spellable) :
    (∃ d', d.append s = .ok d' ∧ d'.tree = d.tree.append s) ↔ spellable := by
  constructor
  · rintro ⟨d', appended, tree⟩
    exact readable.mp (readable_of_append (current_of_append appended).1 tree)
  · intro given
    have appended := append_of_writable current spaced (writable.mpr given)
    rwa [normal] at appended

theorem insertNode_iff (name : String) (entries : List (String × Option String)) :
    (∃ d', d.insertNode name entries = .ok d' ∧
        d'.tree = d.tree.append (.node ⟨name, none⟩ (attributes entries))) ↔
      Ident.isSpellable name = true ∧ Spellable entries := by
  refine append_iff current spaced (node_normal name entries) (isWritable_node_iff name entries) ?_
  rw [← all_attributes_iff Value.isReadable (fun _ => rfl) entries]
  simp [Statement.everywhere, Statement.isReadable, Statement.isLinked, Statement.isSpellable,
    Statement.ownNames, Statement.ownAttrs, NodeRef.names]

theorem insertEdge_iff (tail head : String) (entries : List (String × Option String)) :
    (∃ d', d.insertEdge tail head entries = .ok d' ∧
        d'.tree = d.tree.append
          (.edge [.node ⟨tail, none⟩, .node ⟨head, none⟩] (attributes entries))) ↔
      (Ident.isSpellable tail = true ∧ Ident.isSpellable head = true) ∧ Spellable entries := by
  refine append_iff current spaced ?_ ?_ ?_
  · rw [Statement.normal, attributes_normal]
    rfl
  · rw [← all_attributes_iff Value.isWritable (fun _ => rfl) entries]
    simp [Statement.everywhere, Statement.isWritable, Statement.isLinked, Statement.isGiving,
      Statement.isSpellable, Statement.ownNames, Statement.ownAttrs, NodeRef.names,
      Endpoint.ownNames, Endpoint.everywhere, Endpoint.everywhereInAll]
  · rw [← all_attributes_iff Value.isReadable (fun _ => rfl) entries]
    simp [Statement.everywhere, Statement.isReadable, Statement.isLinked, Statement.isSpellable,
      Statement.ownNames, Statement.ownAttrs, NodeRef.names, Endpoint.ownNames,
      Endpoint.everywhere, Endpoint.everywhereInAll]

end Append

/-- The attributes that the entries of an insertion give: plain text under each key that has a value,
in the order of the entries. -/
inductive Gives : List (String × Option String) → List Attribute → Prop where
  | nil : Gives [] []
  | given {key value : String} {entries : List (String × Option String)} {attrs : List Attribute} :
      Gives entries attrs → Gives ((key, some value) :: entries) (⟨key, .text value⟩ :: attrs)
  | absent {key : String} {entries : List (String × Option String)} {attrs : List Attribute} :
      Gives entries attrs → Gives ((key, none) :: entries) attrs

theorem gives_iff {entries : List (String × Option String)} {attrs : List Attribute} :
    Gives entries attrs ↔ attrs = attributes entries := by
  constructor
  · intro gives
    induction gives with
    | nil => rfl
    | given _ ih => rw [ih]; rfl
    | absent _ ih => exact ih
  · rintro rfl
    induction entries with
    | nil => exact .nil
    | cons entry entries ih =>
      obtain ⟨key, value⟩ := entry
      cases value with
      | none => exact .absent ih
      | some value => exact .given ih

/-- The second document is the first one with a node at its end. The node keeps its place in the
index or comes last, with the attributes on top of those that it has, and nothing else changes. -/
structure AddsNode (d d' : Document) (name : String) (attrs : List Attribute) : Prop where
  tree : d'.tree = d.tree.append (.node ⟨name, none⟩ attrs)
  kind : d'.index.kind = d.index.kind
  nodes : d.index.nodes.Gains d'.index.nodes name attrs
  edges : d'.index.edges = d.index.edges

/-- The second document is the first one with an edge at its end. First the tail and then the head
keep their places in the index, with the attributes that they have, or come last; so does the edge,
with the attributes on top of those that it has; and nothing else changes. -/
structure AddsEdge (d d' : Document) (tail head : String) (attrs : List Attribute) : Prop where
  tree : d'.tree = d.tree.append (.edge [.node ⟨tail, none⟩, .node ⟨head, none⟩] attrs)
  kind : d'.index.kind = d.index.kind
  nodes : ∃ between : Table Attributes,
    d.index.nodes.Sets between tail ((d.index.nodes.get? tail).getD .empty) ∧
      between.Sets d'.index.nodes head ((between.get? head).getD .empty)
  edges : d.index.edges.Gains d'.index.edges (d.tree.kind.joined tail head) attrs

theorem addsNode_of_tree (current : d.Current) (current' : d'.Current) {name : String}
    {attrs : List Attribute} (tree : d'.tree = d.tree.append (.node ⟨name, none⟩ attrs)) :
    AddsNode d d' name attrs := by
  obtain ⟨nodes, edges⟩ := d.tree.index_append_node name attrs
  have index := current'.index
  rw [tree] at index
  exact ⟨tree, by rw [index, current.index]; rfl, by rwa [index, current.index],
    by rwa [index, current.index]⟩

theorem addsEdge_of_tree (current : d.Current) (current' : d'.Current) {tail head : String}
    {attrs : List Attribute}
    (tree : d'.tree = d.tree.append (.edge [.node ⟨tail, none⟩, .node ⟨head, none⟩] attrs)) :
    AddsEdge d d' tail head attrs := by
  obtain ⟨nodes, edges⟩ := d.tree.index_append_edge tail head attrs
  have index := current'.index
  rw [tree] at index
  exact ⟨tree, by rw [index, current.index]; rfl, by rwa [index, current.index],
    by rwa [index, current.index]⟩

/-- Whatever document has come about, an insertion goes through if all that is given can be spelled,
and adds one statement to the tree and what that declares to the index. -/
theorem insert_of_spellable (reachable : d.Reachable) (spaced : Layout.Spaced d.layout)
    {entries : List (String × Option String)} (spellable : Spellable entries) :
    ∃ attrs, Gives entries attrs ∧
      (∀ name, Ident.isSpellable name = true →
        ∃ d', d.insertNode name entries = .ok d' ∧ AddsNode d d' name attrs) ∧
      ∀ tail head, Ident.isSpellable tail = true → Ident.isSpellable head = true →
        ∃ d', d.insertEdge tail head entries = .ok d' ∧ AddsEdge d d' tail head attrs := by
  have current := reachable.current
  refine ⟨attributes entries, gives_iff.mpr rfl, ?_, ?_⟩
  · intro name named
    obtain ⟨d', inserted, tree⟩ := (insertNode_iff current spaced name entries).mpr
      ⟨named, spellable⟩
    exact ⟨d', inserted, addsNode_of_tree current (current_of_append inserted).1 tree⟩
  · intro tail head tailNamed headNamed
    obtain ⟨d', inserted, tree⟩ := (insertEdge_iff current spaced tail head entries).mpr
      ⟨⟨tailNamed, headNamed⟩, spellable⟩
    exact ⟨d', inserted, addsEdge_of_tree current (current_of_append inserted).1 tree⟩

theorem Layout.spaced_default : Layout.Spaced {} :=
  ⟨by simp, .inl rfl⟩

/-- A node and an edge that are there already, put in once more: a key that is given twice has its last
value, a key without a value is left out, and the keys that are not given keep their values. -/
theorem insert_over_attributes :
    let entries := [("n", some "x y"), ("k", some "7"), ("z", none), ("n", some "a\\b")]
    ∃ d d' d'' node edge,
      ofText ⟨"\t", false⟩ "digraph\x7ba [k=1 c=2]; a->b [w=5]; node [x=1] /* \x7d */\x7d" = .ok d ∧
        d.insertNode "a" entries = .ok d' ∧
        d'.tree.body = d.tree.body ++ [.node ⟨"a", none⟩
          [⟨"n", .text "x y"⟩, ⟨"k", .text "7"⟩, ⟨"n", .text "a\\b"⟩]] ∧
        d'.index.nodes.keys = ["a", "b"] ∧ d'.index.nodes.get? "a" = some node ∧
        node.keys = ["k", "c", "n"] ∧ node.get? "k" = some (.text "7") ∧
        node.get? "c" = some (.text "2") ∧ node.get? "n" = some (.text "a\\b") ∧
        d.insertEdge "a" "b" entries = .ok d'' ∧
        d''.index.edges.keys = ["a->b"] ∧ d''.index.edges.get? "a->b" = some edge ∧
        edge.keys = ["w", "n", "k"] ∧ edge.get? "w" = some (.text "5") := by
  intro entries
  let g : Graph := ⟨false, .digraph, none,
    [.node ⟨"a", none⟩ [⟨"k", .text "1"⟩, ⟨"c", .text "2"⟩],
      .edge [.node ⟨"a", none⟩, .node ⟨"b", none⟩] [⟨"w", .text "5"⟩],
      .attr .node [⟨"x", .text "1"⟩]]⟩
  let text := "digraph\x7ba [k=1 c=2]; a->b [w=5]; node [x=1] /* \x7d */\x7d"
  let d : Document := ⟨text, g, g.index, ⟨"\t", false⟩⟩
  have opened : ofText ⟨"\t", false⟩ text = .ok d :=
    ofText_eq_ok.mpr ⟨g, by decide +kernel, rfl⟩
  have spaced : Layout.Spaced ⟨"\t", false⟩ := ⟨by simp, .inr (by decide)⟩
  have spellable : Spellable entries := by
    intro key value given
    simp only [entries, List.mem_cons, Prod.mk.injEq, Option.some.injEq, reduceCtorEq, and_false,
      List.not_mem_nil, or_false, false_or] at given
    rcases given with ⟨rfl, rfl⟩ | ⟨rfl, rfl⟩ | ⟨rfl, rfl⟩ <;> decide
  obtain ⟨attrs, gives, node, edge⟩ :=
    insert_of_spellable ⟨_, _, d, [], opened, rfl⟩ spaced spellable
  obtain rfl := gives_iff.mp gives
  obtain ⟨d', inserted, adds⟩ := node "a" (by decide)
  obtain ⟨d'', inserted', adds'⟩ := edge "a" "b" (by decide) (by decide)
  obtain ⟨ofNode, nodes, overlays⟩ := adds.nodes
  obtain ⟨ofEdge, edges, overlays'⟩ := adds'.edges
  refine ⟨d, d', d'', ofNode, ofEdge, opened, inserted, adds.tree ▸ rfl, nodes.keys.trans ?_,
    nodes.value, overlays.keys.trans ?_, overlays.last "k" ⟨"k", .text "7"⟩ (by decide), ?_,
    overlays.last "n" ⟨"n", .text "a\\b"⟩ (by decide), inserted', edges.keys.trans ?_, edges.value,
    overlays'.keys.trans ?_, ?_⟩
  · decide +kernel
  · decide +kernel
  · exact (overlays.kept "c" (by decide)).trans (by decide +kernel)
  · decide +kernel
  · decide +kernel
  · exact (overlays'.kept "w" (by decide)).trans (by decide +kernel)

end Document

end DotText
