import DotText.Tree.Element
import Mathlib.Data.List.Basic

set_option autoImplicit false

/- Every document has a list of its elements in the order in which they are over. -/
namespace DotText

/-- The place of what is inside the element of this number. -/
def Place.under (i : Nat) (place : Place) : Place :=
  (i :: place.1, place.2)

mutual

/-- The elements inside a statement, in the order in which they are over. -/
def Statement.within : Statement → List Place
  | .node .. | .attr .. => []
  | .edge endpoints attrs => Endpoint.withinChain attrs none 0 endpoints
  | .subgraph _ body => Statement.withinBlock 0 body

def Endpoint.within : Endpoint → List Place
  | .node _ => []
  | .subgraph _ body => Statement.withinBlock 0 body

/-- The endpoints of a chain behind `left`, numbered from `i` on, with what is inside them. -/
def Endpoint.withinChain (attrs : List Attribute) (left : Option Endpoint) (i : Nat) :
    List Endpoint → List Place
  | [] => []
  | e :: es =>
    (e.within ++ [([], Element.endpoint attrs left e)]).map (Place.under i) ++
      Endpoint.withinChain attrs (some e) (i + 1) es

/-- The statements of a block, numbered from `i` on, with what is inside them. -/
def Statement.withinBlock (i : Nat) : List Statement → List Place
  | [] => []
  | s :: ss =>
    (s.within ++ [([], Element.statement s)]).map (Place.under i) ++ Statement.withinBlock (i + 1) ss

end

namespace Element

/-- The elements inside an element, in the order in which they are over. -/
def within : Element → List Place
  | .statement s => s.within
  | .endpoint _ _ e => e.within

/-- An element with all that is inside it. It is over last itself. -/
def places (element : Element) : List Place :=
  element.within ++ [([], element)]

/-- Elements that are numbered from `i` on, with all that is inside them. -/
def placesFrom (i : Nat) (elements : List Element) : List Place :=
  (elements.zipIdx i).flatMap fun p => p.1.places.map (Place.under p.2)

theorem placesFrom_cons (i : Nat) (element : Element) (elements : List Element) :
    placesFrom i (element :: elements) =
      element.places.map (Place.under i) ++ placesFrom (i + 1) elements := by
  rw [placesFrom, List.zipIdx_cons, List.flatMap_cons]
  rfl

theorem withinBlock_eq (i : Nat) (ss : List Statement) :
    Statement.withinBlock i ss = placesFrom i (ss.map statement) := by
  induction ss generalizing i with
  | nil => rfl
  | cons s ss ih =>
    rw [Statement.withinBlock, ih, List.map_cons, placesFrom_cons]
    rfl

theorem withinChain_eq (attrs : List Attribute) (left : Option Endpoint) (i : Nat)
    (es : List Endpoint) : Endpoint.withinChain attrs left i es =
      placesFrom i (((left :: es.map some).zip es).map fun p => endpoint attrs p.1 p.2) := by
  induction es generalizing left i with
  | nil => rfl
  | cons e es ih =>
    rw [Endpoint.withinChain, ih, List.map_cons, List.zip_cons_cons, List.map_cons,
      placesFrom_cons]
    rfl

/-- What is inside an element is made up of its children. -/
theorem within_eq (element : Element) : element.within = placesFrom 0 element.children := by
  match element with
  | .statement (.node ..) | .statement (.attr ..) | .endpoint _ _ (.node _) => rfl
  | .statement (.edge endpoints attrs) => exact withinChain_eq attrs none 0 endpoints
  | .statement (.subgraph _ body) | .endpoint _ _ (.subgraph _ body) => exact withinBlock_eq 0 body

section Induction

/-- What an element is if its children are. -/
def Ascends (motive : Element → Prop) : Prop :=
  ∀ element, (∀ child ∈ element.children, motive child) → motive element

variable {motive : Element → Prop}

mutual

theorem of_statement (step : Ascends motive) : (s : Statement) → motive (.statement s)
  | .node .. | .attr .. => step _ nofun
  | .edge endpoints attrs => step _ (of_chain step endpoints attrs none)
  | .subgraph _ body => step _ (of_block step body)

theorem of_endpoint (step : Ascends motive) (attrs : List Attribute) (left : Option Endpoint) :
    (e : Endpoint) → motive (.endpoint attrs left e)
  | .node _ => step _ nofun
  | .subgraph _ body => step _ (of_block step body)

theorem of_chain (step : Ascends motive) :
    (es : List Endpoint) → (attrs : List Attribute) → (left : Option Endpoint) →
    ∀ child ∈ ((left :: es.map some).zip es).map fun p => endpoint attrs p.1 p.2, motive child
  | [], _, _ => nofun
  | e :: es, attrs, left => by
    rw [List.map_cons, List.zip_cons_cons, List.map_cons, List.forall_mem_cons]
    exact ⟨of_endpoint step attrs left e, of_chain step es attrs (some e)⟩

theorem of_block (step : Ascends motive) :
    (ss : List Statement) → ∀ child ∈ ss.map statement, motive child
  | [] => nofun
  | s :: ss => by
    rw [List.map_cons, List.forall_mem_cons]
    exact ⟨of_statement step s, of_block step ss⟩

end

/-- What holds of an element if it holds of its children holds of every element. -/
theorem induction
    (step : ∀ element, (∀ child ∈ element.children, motive child) → motive element) :
    (element : Element) → motive element
  | .statement s => of_statement step s
  | .endpoint attrs left e => of_endpoint step attrs left e

end Induction

theorem mem_placesFrom {k : Nat} {elements : List Element} {path : List Nat} {element : Element} :
    (path, element) ∈ placesFrom k elements ↔
      ∃ i rest child, path = (k + i) :: rest ∧ elements[i]? = some child ∧
        (rest, element) ∈ child.places := by
  constructor
  · intro mem
    obtain ⟨⟨child, number⟩, numbered, mem⟩ := List.mem_flatMap.mp mem
    obtain ⟨⟨rest, found⟩, inside, same⟩ := List.mem_map.mp mem
    cases same
    obtain ⟨i, rfl⟩ := Nat.exists_eq_add_of_le (List.le_snd_of_mem_zipIdx numbered)
    exact ⟨i, rest, child, rfl, List.mk_add_mem_zipIdx_iff_getElem?.mp numbered, inside⟩
  · rintro ⟨i, rest, child, rfl, numbered, inside⟩
    have numbered := List.mk_add_mem_zipIdx_iff_getElem? (k := k) |>.mpr numbered
    exact List.mem_flatMap.mpr ⟨(child, k + i), numbered, List.mem_map.mpr ⟨_, inside, rfl⟩⟩

/-- What is listed with an element is what is found in it. -/
theorem mem_places_iff (element found : Element) (path : List Nat) :
    (path, found) ∈ element.places ↔ element.at? path = some found := by
  induction path generalizing element with
  | nil =>
    rw [places, within_eq, List.mem_append, mem_placesFrom, at?]
    simp [eq_comm]
  | cons i path ih =>
    rw [places, within_eq, List.mem_append, mem_placesFrom, at?, Option.bind_eq_some_iff]
    constructor
    · rintro (⟨_, _, child, same, numbered, inside⟩ | last)
      · rw [Nat.zero_add] at same
        cases same
        exact ⟨child, numbered, (ih child).mp inside⟩
      · simp at last
    · rintro ⟨child, numbered, there⟩
      exact .inl ⟨i, path, child, by rw [Nat.zero_add], numbered, (ih child).mpr there⟩

/-- Children are over one after another, and each of them when all that is inside it is. -/
theorem pairwise_placesFrom (k : Nat) {elements : List Element}
    (inOrder : ∀ child ∈ elements,
      child.places.Pairwise fun first second => EndsBefore first.1 second.1) :
    (placesFrom k elements).Pairwise fun first second => EndsBefore first.1 second.1 := by
  refine List.pairwise_flatMap.mpr ⟨?_, ?_⟩
  · intro p numbered
    have mem := List.fst_mem_of_mem_zipIdx numbered
    exact List.pairwise_map.mpr ((inOrder p.1 mem).imp .deeper)
  · have numbers : ((elements.zipIdx k).map Prod.snd).Pairwise (· < ·) := by
      rw [List.zipIdx_map_snd]
      exact List.pairwise_lt_range'
    apply (List.pairwise_map.mp numbers).imp
    intro first second less p mem q mem'
    obtain ⟨_, -, rfl⟩ := List.mem_map.mp mem
    obtain ⟨_, -, rfl⟩ := List.mem_map.mp mem'
    exact .earlier less

theorem pairwise_places (element : Element) :
    element.places.Pairwise fun first second => EndsBefore first.1 second.1 := by
  induction element using Element.induction with
  | step element ih =>
    rw [places, within_eq]
    refine List.pairwise_append.mpr ⟨pairwise_placesFrom 0 ih, List.pairwise_singleton .., ?_⟩
    rintro ⟨path, _⟩ mem _ last
    obtain ⟨i, rest, _, rfl, -⟩ := mem_placesFrom.mp mem
    rw [List.mem_singleton.mp last]
    exact .inside

theorem filter_map_under {i j : Nat} (path : List Nat) (places : List Place) :
    (places.map (Place.under j)).filter ((i :: path).isPrefixOf ·.1) =
      if i = j then (places.filter (path.isPrefixOf ·.1)).map (Place.under j) else [] := by
  rw [List.filter_map]
  split
  · next same =>
    subst same
    simp [Function.comp_def, Place.under]
  · next other => simp [Function.comp_def, Place.under, other]

/-- Below a number only what is inside the child of this number is listed. -/
theorem filter_placesFrom {k i : Nat} {elements : List Element} {child : Element}
    (numbered : elements[i]? = some child) (path : List Nat) :
    (placesFrom k elements).filter (((k + i) :: path).isPrefixOf ·.1) =
      (child.places.filter (path.isPrefixOf ·.1)).map (Place.under (k + i)) := by
  induction elements generalizing k i with
  | nil => cases numbered
  | cons element elements ih =>
    rw [placesFrom_cons, List.filter_append, filter_map_under]
    cases i with
    | zero =>
      obtain rfl : element = child := by simpa using numbered
      have others : (placesFrom (k + 1) elements).filter
          (((k + 0) :: path).isPrefixOf ·.1) = [] := by
        rw [List.filter_eq_nil_iff]
        rintro ⟨_, _⟩ mem
        obtain ⟨j, rest, _, rfl, -⟩ := mem_placesFrom.mp mem
        have later : k ≠ k + 1 + j := by omega
        simp [List.isPrefixOf, later]
      rw [others, List.append_nil, if_pos (Nat.add_zero k), Nat.add_zero]
    | succ i =>
      have later : k + (i + 1) ≠ k := by omega
      have next : k + (i + 1) = k + 1 + i := by omega
      rw [if_neg later, List.nil_append, next]
      exact ih (by simpa using numbered)

/-- Below a path what is inside the element there is listed, and the element itself. -/
theorem filter_places {element found : Element} {path : List Nat}
    (there : element.at? path = some found) :
    element.places.filter (path.isPrefixOf ·.1) =
      found.places.map fun place => (path ++ place.1, place.2) := by
  induction path generalizing element with
  | nil =>
    rw [at?, Option.some.injEq] at there
    simp [there, List.isPrefixOf]
  | cons i path ih =>
    rw [at?, Option.bind_eq_some_iff] at there
    obtain ⟨child, numbered, there⟩ := there
    have inside := filter_placesFrom (k := 0) numbered path
    rw [Nat.zero_add] at inside
    rw [places, within_eq, List.filter_append, inside, ih there]
    simp [List.isPrefixOf, Place.under, Function.comp_def]

theorem getElem?_children_edge (endpoints : List Endpoint) (attrs : List Attribute) (i : Nat) :
    (statement (.edge endpoints attrs)).children[i]? =
      endpoints[i]?.map (endpoint attrs (if i = 0 then none else endpoints[i - 1]?)) := by
  rw [children, List.getElem?_map]
  cases i with
  | zero => cases endpoints <;> rfl
  | succ i =>
    cases there : endpoints[i + 1]? with
    | none => simpa using there
    | some e =>
      have bound := (List.getElem?_eq_some_iff.mp there).1
      have before : endpoints[i]? = some endpoints[i] := List.getElem?_eq_getElem _
      simp [List.zip, List.getElem?_zipWith, there, before]

theorem at?_concat (element : Element) (path : List Nat) (i : Nat) :
    element.at? (path ++ [i]) = (element.at? path).bind (·.children[i]?) := by
  induction path generalizing element with
  | nil => cases there : element.children[i]? <;> simp [at?, there]
  | cons j path ih =>
    rw [List.cons_append, at?, at?]
    cases element.children[j]? with
    | none => rfl
    | some child => exact ih child

/-- The endpoint in front of an operator is one of the chain itself. -/
theorem exists_left {element : Element} {i : Nat} {path : List Nat} {attrs : List Attribute}
    {left e : Endpoint} (there : element.at? (i :: path) = some (.endpoint attrs (some left) e)) :
    ∃ j path' left', element.at? (j :: path') = some (.endpoint attrs left' left) := by
  induction path generalizing element i with
  | nil =>
    obtain ⟨child, numbered, same⟩ := Option.bind_eq_some_iff.mp there
    cases same
    match element, numbered with
    | .statement (.edge endpoints _), numbered =>
      rw [getElem?_children_edge, Option.map_eq_some_iff] at numbered
      obtain ⟨e, -, same⟩ := numbered
      cases i with
      | zero => cases same
      | succ i =>
        rw [if_neg (Nat.succ_ne_zero i), Nat.add_sub_cancel] at same
        obtain ⟨rfl, before, -⟩ := endpoint.inj same
        exact ⟨i, [], _, by rw [at?, getElem?_children_edge, before]; rfl⟩
    | .statement (.subgraph _ body), numbered | .endpoint _ _ (.subgraph _ body), numbered =>
      obtain ⟨s, -, same⟩ := List.mem_map.mp (List.mem_of_getElem? numbered)
      cases same
  | cons j path ih =>
    obtain ⟨child, numbered, there⟩ := Option.bind_eq_some_iff.mp there
    obtain ⟨j', path', left', there'⟩ := ih there
    exact ⟨i, j' :: path', left', Option.bind_eq_some_iff.mpr ⟨child, numbered, there'⟩⟩

end Element

namespace Graph

/-- A document as one block. -/
def block (g : Graph) : Element :=
  .statement (.subgraph g.id g.body)

/-- The elements of a document in the order in which they are over. -/
def places (g : Graph) : List Place :=
  g.block.within

variable (g : Graph)

theorem at?_cons (i : Nat) (path : List Nat) : g.at? (i :: path) = g.block.at? (i :: path) := by
  rw [at?, block, Element.at?, Element.children, List.getElem?_map]
  cases g.body[i]? <;> rfl

theorem mem_places_iff (path : List Nat) (element : Element) :
    (path, element) ∈ g.places ↔ g.at? path = some element := by
  cases path with
  | nil =>
    rw [places, Element.within_eq, Element.mem_placesFrom, at?]
    simp
  | cons i path =>
    rw [at?_cons, ← Element.mem_places_iff, Element.places, places]
    simp

theorem lists_places : g.Lists g.places where
  inOrder := (List.pairwise_append.mp g.block.pairwise_places).1
  complete := g.mem_places_iff

theorem filter_places {path : List Nat} {found : Element} (there : g.at? path = some found) :
    g.places.filter (path.isPrefixOf ·.1) =
      found.places.map fun place => (path ++ place.1, place.2) := by
  cases path with
  | nil => cases there
  | cons i path =>
    rw [at?_cons] at there
    rw [← Element.filter_places there, Element.places, List.filter_append, places]
    simp [List.isPrefixOf]

theorem at?_concat {path : List Nat} {element : Element} (there : g.at? path = some element)
    (i : Nat) : g.at? (path ++ [i]) = element.children[i]? := by
  cases path with
  | nil => cases there
  | cons j path =>
    rw [at?_cons] at there
    rw [List.cons_append, at?_cons, ← List.cons_append, Element.at?_concat, there]
    rfl

theorem exists_left {path : List Nat} {attrs : List Attribute} {left e : Endpoint}
    (there : g.at? path = some (.endpoint attrs (some left) e)) :
    ∃ path' left', g.at? path' = some (.endpoint attrs left' left) := by
  cases path with
  | nil => cases there
  | cons i path =>
    rw [at?_cons] at there
    obtain ⟨j, path', left', there'⟩ := Element.exists_left there
    exact ⟨j :: path', left', by rw [at?_cons, there']⟩

end Graph

end DotText
