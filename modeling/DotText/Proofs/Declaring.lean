import DotText.Index.Gathering

set_option autoImplicit false

/- What a statement at the end of a document adds to its index: a name that is declared there keeps
its place or comes last, and gets the attributes on top of those that it has. -/
namespace DotText

namespace Table

variable {α : Type}

/-- The second table is the first one with this value for the name: the name keeps its place, or
comes last if it is new, and no other name gets another value or another place. -/
structure Sets (t u : Table α) (name : String) (a : α) : Prop where
  keys : u.keys = if name ∈ t.keys then t.keys else t.keys ++ [name]
  value : u.get? name = some a
  others : ∀ other, other ≠ name → u.get? other = t.get? other

theorem sets_alter (t : Table α) (name : String) (f : Option α → α) :
    t.Sets (t.alter name f) name (f (t.get? name)) where
  keys := t.keys_alter name f
  value := by rw [get?_alter, if_pos rfl]
  others other differs := by rw [get?_alter, if_neg differs]

end Table

/-- The second table is the first one with these attributes on top of those that the name has. -/
def Table.Gains (t u : Table Attributes) (name : String) (attrs : List Attribute) : Prop :=
  ∃ after, t.Sets u name after ∧ Attributes.Overlays ((t.get? name).getD .empty) attrs after

theorem Kind.edgeName_eq_joined (kind : Kind) (tail head : String) :
    kind.edgeName tail head = kind.joined tail head := by
  cases kind <;> rfl

namespace Declaration

/-- The names among others, each at the place where it comes first. -/
def addName (keys : List String) (name : String) : List String :=
  if name ∈ keys then keys else keys ++ [name]

/-- Names that are added one after another come as they are first added. -/
theorem foldl_addName (names keys : List String) :
    names.foldl addName keys = keys ++ (names.filter (· ∉ keys)).eraseDups := by
  induction names generalizing keys with
  | nil => simp
  | cons name names ih =>
    rw [List.foldl_cons, ih, addName]
    by_cases listed : name ∈ keys
    · rw [if_pos listed, List.filter_cons_of_neg (by simpa using listed)]
    · have fresh : (names.filter (· ∉ keys ++ [name])).eraseDups =
          ((names.filter (· ∉ keys)).filter (fun other => !other == name)).eraseDups := by
        rw [List.filter_filter]
        congr 2
        funext other
        simp [Bool.and_comm, Bool.beq_eq_decide_eq]
      rw [if_neg listed, List.filter_cons_of_pos (by simpa using listed), List.eraseDups_cons,
        fresh, List.append_assoc, List.singleton_append]

theorem foldl_addName_nil (names : List String) : names.foldl addName [] = names.eraseDups := by
  rw [foldl_addName, List.nil_append, List.filter_eq_self.mpr (by simp)]

end Declaration

namespace Attributes

theorem keys_merge (table : Attributes) (attrs : List Attribute) :
    (table.merge attrs).keys = (attrs.map Attribute.key).foldl Declaration.addName table.keys := by
  induction attrs generalizing table with
  | nil => rfl
  | cons a attrs ih =>
    rw [merge, List.foldl_cons, ← merge, ih, Table.set, Table.keys_alter]
    rfl

/-- Of attributes that are set one after another the last one of a key counts, and a key that is not
among them keeps its value. -/
theorem get?_merge (table : Attributes) (attrs : List Attribute) (key : String) :
    (table.merge attrs).get? key =
      ((attrs.filter (·.key = key)).getLast?.map Attribute.value).or (table.get? key) := by
  induction attrs generalizing table with
  | nil => rfl
  | cons a attrs ih =>
    rw [merge, List.foldl_cons, ← merge, ih, Table.set, Table.get?_alter, List.filter_cons]
    by_cases same : a.key = key
    · cases others : (attrs.filter (·.key = key)).getLast? with
      | none =>
        have nothing : attrs.filter (·.key = key) = [] := List.getLast?_eq_none_iff.mp others
        simp [same, nothing]
      | some last => simp [same, List.getLast?_cons, others]
    · simp [same, Ne.symm same]

theorem overlays_merge (table : Attributes) (attrs : List Attribute) :
    Overlays table attrs (table.merge attrs) where
  keys := (keys_merge table attrs).trans (Declaration.foldl_addName _ _)
  last key a found := by rw [get?_merge, found, Option.map_some, Option.some_or]
  kept key absent := by
    have none : attrs.filter (·.key = key) = [] := by simpa using absent
    rw [get?_merge, none, List.getLast?_nil, Option.map_none, Option.none_or]

end Attributes

/-- The table with these attributes on top of those that a name has. -/
def Declaration.addTo (table : Table Attributes) (d : Declaration) : Table Attributes :=
  table.alter d.name fun a => (a.getD .empty).merge d.attrs

theorem Declaration.collect_append (ds others : List Declaration) :
    collect (ds ++ others) = others.foldl addTo (collect ds) :=
  List.foldl_append

theorem Declaration.sets_addTo (table : Table Attributes) (d : Declaration) :
    table.Sets (d.addTo table) d.name (((table.get? d.name).getD .empty).merge d.attrs) :=
  table.sets_alter d.name _

theorem Declaration.gains_addTo (table : Table Attributes) (d : Declaration) :
    table.Gains (d.addTo table) d.name d.attrs :=
  ⟨_, d.sets_addTo table, Attributes.overlays_merge _ _⟩

theorem Statement.nodesOfAll_append (ss ts : List Statement) :
    nodesOfAll (ss ++ ts) = nodesOfAll ss ++ nodesOfAll ts := by
  induction ss with
  | nil => rfl
  | cons s ss ih => rw [List.cons_append, nodesOfAll, ih, nodesOfAll, List.append_assoc]

theorem Statement.edgesOfAll_append (kind : Kind) (ss ts : List Statement) :
    edgesOfAll kind (ss ++ ts) = edgesOfAll kind ss ++ edgesOfAll kind ts := by
  induction ss with
  | nil => rfl
  | cons s ss ih => rw [List.cons_append, edgesOfAll, ih, edgesOfAll, List.append_assoc]

/-- The document with a statement at its end. -/
def Graph.append (g : Graph) (s : Statement) : Graph :=
  { g with body := g.body ++ [s] }

namespace Graph

/-- A statement at the end declares its nodes and edges behind those of the document. -/
theorem index_append (g : Graph) (s : Statement) :
    (g.append s).index =
      ⟨g.kind, s.nodes.foldl Declaration.addTo g.index.nodes,
        (s.edges g.kind).foldl Declaration.addTo g.index.edges⟩ := by
  have nodes : Statement.nodesOfAll [s] = s.nodes := by simp [Statement.nodesOfAll]
  have edges : Statement.edgesOfAll g.kind [s] = s.edges g.kind := by simp [Statement.edgesOfAll]
  rw [index, append, Statement.nodesOfAll_append, Statement.edgesOfAll_append, nodes, edges,
    Declaration.collect_append, Declaration.collect_append]
  rfl

/-- A node without a port, with attributes on top of those that it has. -/
theorem index_append_node (g : Graph) (name : String) (attrs : List Attribute) :
    g.index.nodes.Gains (g.append (.node ⟨name, none⟩ attrs)).index.nodes name attrs ∧
      (g.append (.node ⟨name, none⟩ attrs)).index.edges = g.index.edges := by
  rw [index_append]
  exact ⟨Declaration.gains_addTo g.index.nodes ⟨name, attrs⟩, rfl⟩

/-- An edge between two nodes without ports, which are declared first if they are new. -/
theorem index_append_edge (g : Graph) (tail head : String) (attrs : List Attribute) :
    let s : Statement := .edge [.node ⟨tail, none⟩, .node ⟨head, none⟩] attrs
    (∃ nodes : Table Attributes,
        g.index.nodes.Sets nodes tail ((g.index.nodes.get? tail).getD .empty) ∧
        nodes.Sets (g.append s).index.nodes head ((nodes.get? head).getD .empty)) ∧
      g.index.edges.Gains (g.append s).index.edges (g.kind.joined tail head) attrs := by
  intro s
  have single (name : String) : [name].eraseDups = [name] := rfl
  have edges : s.edges g.kind = [⟨g.kind.joined tail head, attrs⟩] := by
    simp [s, Statement.edges, Endpoint.edgesOfChain, Endpoint.edges, Declaration.edges,
      Endpoint.names, Endpoint.nodes, single, Kind.edgeName_eq_joined]
  rw [index_append, edges]
  refine ⟨⟨Declaration.addTo g.index.nodes ⟨tail, []⟩, ?_, ?_⟩, ?_⟩
  · exact Declaration.sets_addTo g.index.nodes ⟨tail, []⟩
  · exact Declaration.sets_addTo _ ⟨head, []⟩
  · exact Declaration.gains_addTo g.index.edges ⟨g.kind.joined tail head, attrs⟩

end Graph

end DotText
