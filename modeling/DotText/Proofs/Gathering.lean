import DotText.Index.Gathering
import DotText.Proofs.Declared
import DotText.Proofs.Elements

set_option autoImplicit false

/- The index of a document says what its elements declare, one after another as they are over: every
node that is mentioned anywhere, and every edge between the nodes on the two sides of an operator. -/
namespace DotText

namespace Attributes

theorem merge_append (table : Attributes) (attrs others : List Attribute) :
    table.merge (attrs ++ others) = (table.merge attrs).merge others :=
  List.foldl_append

theorem merges_merge (attrs : List Attribute) : Merges (merge .empty attrs) attrs where
  keys := (keys_merge .empty attrs).trans (Declaration.foldl_addName_nil _)
  values key := by
    rw [get?_merge]
    exact Option.or_none

end Attributes

namespace Declaration

theorem given_cons (name : String) (d : Declaration) (ds : List Declaration) :
    given name (d :: ds) = (if d.name = name then d.attrs else []) ++ given name ds := by
  by_cases same : d.name = name <;> simp [given, same]

/-- A name gets the attributes that it is given on top of those that it has. -/
theorem get?_foldl_addTo (ds : List Declaration) (table : Table Attributes) (name : String) :
    (ds.foldl addTo table).get? name =
      if name ∈ names ds then
        some (((table.get? name).getD .empty).merge (given name ds))
      else table.get? name := by
  induction ds generalizing table with
  | nil => rfl
  | cons d ds ih =>
    have first := table.get?_alter d.name name fun a => (a.getD .empty).merge d.attrs
    rw [List.foldl_cons, ih, addTo, first, given_cons]
    have mem : name ∈ names (d :: ds) ↔ name = d.name ∨ name ∈ names ds := List.mem_cons
    by_cases same : name = d.name
    · rw [if_pos same, if_pos (mem.mpr (.inl same)), if_pos same.symm, Attributes.merge_append,
        same]
      split
      · rfl
      · next others =>
        have nothing : given d.name ds = [] := by
          rw [given, List.filter_eq_nil_iff.mpr, List.flatMap_nil]
          intro other listed equal
          exact others (List.mem_map.mpr ⟨other, listed, by simpa using equal⟩)
        rw [nothing]
        rfl
    · rw [if_neg same, if_neg (Ne.symm same), List.nil_append]
      simp only [mem, same, false_or]

theorem gathers_collect (ds : List Declaration) : (collect ds).Gathers ds where
  keys := (keys_collect ds).trans (foldl_addName_nil _)
  attrs name listed := by
    have value := get?_foldl_addTo ds .empty name
    rw [if_pos (mem_keys_collect.mp listed)] at value
    exact ⟨_, value, Attributes.merges_merge _⟩

end Declaration

namespace Element

/-- What is collected from all that is inside an element, if it is collected from its children and
then from itself. -/
theorem flatMap_places {β : Type} {own whole : Element → List β}
    (step : ∀ element, whole element = element.children.flatMap whole ++ own element)
    (element : Element) : element.places.flatMap (fun place => own place.2) = whole element := by
  have children (k : Nat) (elements : List Element)
      (each : ∀ child ∈ elements,
        child.places.flatMap (fun place => own place.2) = whole child) :
      (placesFrom k elements).flatMap (fun place => own place.2) = elements.flatMap whole := by
    induction elements generalizing k with
    | nil => rfl
    | cons child elements ih =>
      rw [List.forall_mem_cons] at each
      rw [placesFrom_cons, List.flatMap_append, List.flatMap_map, ih (k + 1) each.2,
        List.flatMap_cons, ← each.1]
      rfl
  induction element using Element.induction with
  | step element ih =>
    rw [places, within_eq, List.flatMap_append, children 0 element.children ih, step element,
      List.flatMap_singleton]

/-- The nodes that are mentioned in an element. -/
def nodes : Element → List Declaration
  | .statement s => s.nodes
  | .endpoint _ _ e => e.nodes

/-- The edges that an element declares, with those of the operator in front of it. -/
def edges (kind : Kind) : Element → List Declaration
  | .statement s => s.edges kind
  | .endpoint attrs left e => e.edges kind ++ ownEdges kind (.endpoint attrs left e)

theorem nodes_eq (element : Element) :
    element.nodes = element.children.flatMap nodes ++ element.ownNodes := by
  have block (ss : List Statement) : Statement.nodesOfAll ss = (ss.map statement).flatMap nodes := by
    induction ss with
    | nil => rfl
    | cons s ss ih => rw [Statement.nodesOfAll, ih]; rfl
  have chain (attrs : List Attribute) (left : Option Endpoint) (es : List Endpoint) :
      Endpoint.nodesOfAll es =
        (((left :: es.map some).zip es).map fun p => endpoint attrs p.1 p.2).flatMap nodes := by
    induction es generalizing left with
    | nil => rfl
    | cons e es ih => rw [Endpoint.nodesOfAll, ih (some e)]; rfl
  match element with
  | .statement (.node ..) | .statement (.attr ..) | .endpoint _ _ (.node _) => rfl
  | .statement (.edge endpoints attrs) =>
    exact (chain attrs none endpoints).trans (List.append_nil _).symm
  | .statement (.subgraph _ body) | .endpoint _ _ (.subgraph _ body) =>
    exact (block body).trans (List.append_nil _).symm

theorem ownEdges_operator (kind : Kind) (attrs : List Attribute) (left e : Endpoint) :
    ownEdges kind (.endpoint attrs (some left) e) =
      Declaration.edges kind attrs left.names e.names := by
  simp only [ownEdges, Declaration.edges, Kind.edgeName_eq_joined]

theorem edges_eq (kind : Kind) (element : Element) :
    element.edges kind = element.children.flatMap (edges kind) ++ element.ownEdges kind := by
  have block (ss : List Statement) :
      Statement.edgesOfAll kind ss = (ss.map statement).flatMap (edges kind) := by
    induction ss with
    | nil => rfl
    | cons s ss ih => rw [Statement.edgesOfAll, ih]; rfl
  have chain (attrs : List Attribute) (left : Option Endpoint) (es : List Endpoint) :
      Endpoint.edgesOfChain kind attrs (left.elim [] Endpoint.names) es =
        (((left :: es.map some).zip es).map fun p =>
          endpoint attrs p.1 p.2).flatMap (edges kind) := by
    induction es generalizing left with
    | nil => rfl
    | cons e es ih =>
      have others := ih (some e)
      rw [Option.elim_some] at others
      rw [Endpoint.edgesOfChain, others, List.map_cons, List.zip_cons_cons, List.map_cons,
        List.flatMap_cons, edges]
      cases left with
      | none => rfl
      | some left => rw [ownEdges_operator, Option.elim_some]
  match element with
  | .statement (.node ..) | .statement (.attr ..) => rfl
  | .statement (.edge endpoints attrs) =>
    exact (chain attrs none endpoints).trans (List.append_nil _).symm
  | .statement (.subgraph _ body) => exact (block body).trans (List.append_nil _).symm
  | .endpoint attrs left (.node ref) => rfl
  | .endpoint attrs left (.subgraph id body) =>
    rw [edges, Endpoint.edges, block body]
    rfl

end Element

section WithoutDefaults

variable (kind : Kind)

mutual

theorem Statement.declares_withoutDefaults (s : Statement) :
    s.withoutDefaults.nodes = s.nodes ∧ s.withoutDefaults.edges kind = s.edges kind := by
  cases s with
  | node | attr => exact ⟨rfl, rfl⟩
  | edge endpoints attrs =>
    obtain ⟨nodes, edges⟩ := Endpoint.declares_withoutDefaultsInAll endpoints
    exact ⟨nodes, edges attrs []⟩
  | subgraph id body => exact Statement.declares_withoutDefaultsInAll body

theorem Endpoint.declares_withoutDefaults (e : Endpoint) :
    e.withoutDefaults.nodes = e.nodes ∧ e.withoutDefaults.edges kind = e.edges kind := by
  cases e with
  | node => exact ⟨rfl, rfl⟩
  | subgraph id body => exact Statement.declares_withoutDefaultsInAll body

theorem Endpoint.declares_withoutDefaultsInAll (es : List Endpoint) :
    Endpoint.nodesOfAll (Endpoint.withoutDefaultsInAll es) = Endpoint.nodesOfAll es ∧
      ∀ attrs tails, Endpoint.edgesOfChain kind attrs tails (Endpoint.withoutDefaultsInAll es) =
        Endpoint.edgesOfChain kind attrs tails es := by
  cases es with
  | nil => exact ⟨rfl, fun _ _ => rfl⟩
  | cons e es =>
    obtain ⟨nodes, edges⟩ := Endpoint.declares_withoutDefaults e
    obtain ⟨nodes', edges'⟩ := Endpoint.declares_withoutDefaultsInAll es
    have names : e.withoutDefaults.names = e.names := by
      rw [Endpoint.names, nodes, Endpoint.names]
    constructor
    · rw [Endpoint.withoutDefaultsInAll, Endpoint.nodesOfAll, nodes, nodes', Endpoint.nodesOfAll]
    · intro attrs tails
      rw [Endpoint.withoutDefaultsInAll, Endpoint.edgesOfChain, edges, names, edges',
        Endpoint.edgesOfChain]

theorem Statement.declares_withoutDefaultsInAll (ss : List Statement) :
    Statement.nodesOfAll (Statement.withoutDefaultsInAll ss) = Statement.nodesOfAll ss ∧
      Statement.edgesOfAll kind (Statement.withoutDefaultsInAll ss) =
        Statement.edgesOfAll kind ss := by
  cases ss with
  | nil => exact ⟨rfl, rfl⟩
  | cons s ss =>
    obtain ⟨nodes, edges⟩ := Statement.declares_withoutDefaults s
    obtain ⟨nodes', edges'⟩ := Statement.declares_withoutDefaultsInAll ss
    cases s with
    | attr target attrs => exact ⟨nodes', edges'⟩
    | node | edge | subgraph =>
      rw [Statement.withoutDefaultsInAll, Statement.nodesOfAll, Statement.edgesOfAll, nodes, nodes',
        edges, edges']
      exact ⟨rfl, rfl⟩

end

end WithoutDefaults

namespace Graph

variable (g : Graph)

theorem flatMap_ownNodes :
    g.places.flatMap (fun place => place.2.ownNodes) = Statement.nodesOfAll g.body := by
  have whole := Element.flatMap_places Element.nodes_eq g.block
  rw [Element.places, List.flatMap_append] at whole
  exact (List.append_nil _).symm.trans whole

theorem flatMap_ownEdges : g.places.flatMap (fun place => place.2.ownEdges g.kind) =
    Statement.edgesOfAll g.kind g.body := by
  have whole := Element.flatMap_places (Element.edges_eq g.kind) g.block
  rw [Element.places, List.flatMap_append] at whole
  exact (List.append_nil _).symm.trans whole

/-- An endpoint stands for the nodes that are mentioned in it. -/
theorem names_of_endpoint {path : List Nat} {attrs : List Attribute} {left : Option Endpoint}
    {e : Endpoint} (there : g.at? path = some (.endpoint attrs left e)) :
    e.names = (((g.places.filter (path.isPrefixOf ·.1)).flatMap
      (fun place => place.2.ownNodes)).map Declaration.name).eraseDups := by
  have whole := Element.flatMap_places Element.nodes_eq (.endpoint attrs left e)
  rw [g.filter_places there, List.flatMap_map, whole]
  rfl

theorem index_withoutDefaults : g.withoutDefaults.index = g.index := by
  obtain ⟨nodes, edges⟩ := Statement.declares_withoutDefaultsInAll g.kind g.body
  rw [index, index, withoutDefaults, nodes, edges]

theorem mem_keys_of_endpoint {path : List Nat} {attrs : List Attribute} {left : Option Endpoint}
    {e : Endpoint} (there : g.at? path = some (.endpoint attrs left e)) {name : String}
    (mentioned : name ∈ e.names) : name ∈ g.index.nodes.keys := by
  rw [g.names_of_endpoint there, List.mem_eraseDups, List.mem_map] at mentioned
  obtain ⟨d, inside, rfl⟩ := mentioned
  obtain ⟨place, listed, own⟩ := List.mem_flatMap.mp inside
  rw [index, Declaration.mem_keys_collect, ← flatMap_ownNodes]
  refine List.mem_map.mpr ⟨d, ?_, rfl⟩
  exact List.mem_flatMap.mpr ⟨place, (List.mem_filter.mp listed).1, own⟩

theorem mem_keys_of_operator {path : List Nat} {attrs : List Attribute} {left e : Endpoint}
    (there : g.at? path = some (.endpoint attrs (some left) e)) {tail head : String}
    (before : tail ∈ left.names) (behind : head ∈ e.names) :
    g.kind.joined tail head ∈ g.index.edges.keys := by
  rw [index, Declaration.mem_keys_collect, ← flatMap_ownEdges]
  refine List.mem_map.mpr ⟨⟨g.kind.joined tail head, attrs⟩, ?_, rfl⟩
  refine List.mem_flatMap.mpr ⟨_, (g.mem_places_iff _ _).mpr there, ?_⟩
  exact List.mem_flatMap.mpr ⟨tail, before, List.mem_map.mpr ⟨head, behind, rfl⟩⟩

/-- The index of a document gathers what its elements declare in the order in which they are over: a
node where it is mentioned, and edges where there is an operator, when the endpoint behind it is over.
An endpoint, on either side of an operator, stands for the nodes that are mentioned in it. All of these
are declared, and attribute statements declare nothing. -/
theorem index_of_places : ∃ places, g.Lists places ∧
    g.index.kind = g.kind ∧
    g.index.nodes.Gathers (places.flatMap fun place => place.2.ownNodes) ∧
    g.index.edges.Gathers (places.flatMap fun place => place.2.ownEdges g.kind) ∧
    (∀ path attrs left e, g.at? path = some (.endpoint attrs left e) →
      e.names = (((places.filter (path.isPrefixOf ·.1)).flatMap
        fun place => place.2.ownNodes).map Declaration.name).eraseDups) ∧
    (∀ path attrs left e, g.at? path = some (.endpoint attrs (some left) e) →
      (∃ path' left', g.at? path' = some (.endpoint attrs left' left)) ∧
        ∀ tail ∈ left.names, ∀ head ∈ e.names,
          tail ∈ g.index.nodes.keys ∧ head ∈ g.index.nodes.keys ∧
            g.kind.joined tail head ∈ g.index.edges.keys) ∧
    g.withoutDefaults.index = g.index := by
  refine ⟨g.places, g.lists_places, rfl, ?_, ?_, ?_, ?_, g.index_withoutDefaults⟩
  · rw [flatMap_ownNodes]
    exact Declaration.gathers_collect _
  · rw [flatMap_ownEdges]
    exact Declaration.gathers_collect _
  · intro path attrs left e there
    exact g.names_of_endpoint there
  · intro path attrs left e there
    obtain ⟨path', left', there'⟩ := g.exists_left there
    refine ⟨⟨path', left', there'⟩, fun tail before head behind => ?_⟩
    exact ⟨g.mem_keys_of_endpoint there' before, g.mem_keys_of_endpoint there behind,
      g.mem_keys_of_operator there before behind⟩

end Graph

end DotText
