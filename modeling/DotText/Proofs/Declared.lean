import DotText.Proofs.Declaring
import DotText.Proofs.Runs

set_option autoImplicit false

/- What is left of the declarations of a document when a node is erased from it: those of other
nodes, and of edges between other nodes. -/
namespace DotText

/-- The names of some declarations. -/
def Declaration.names (declarations : List Declaration) : List String :=
  declarations.map Declaration.name

namespace Declaration

@[simp] theorem names_nil : names [] = [] := rfl

@[simp] theorem names_append (ds others : List Declaration) :
    names (ds ++ others) = names ds ++ names others :=
  List.map_append

theorem keys_collect (ds : List Declaration) : (collect ds).keys = (names ds).foldl addName [] := by
  suffices general : ∀ t : Table Attributes,
      (ds.foldl addTo t).keys = (names ds).foldl addName t.keys from general .empty
  induction ds with
  | nil => exact fun _ => rfl
  | cons d ds ih =>
    intro t
    rw [List.foldl_cons, ih, (sets_addTo t d).keys]
    rfl

theorem mem_keys_collect {ds : List Declaration} {name : String} :
    name ∈ (collect ds).keys ↔ name ∈ names ds := by
  suffices general : ∀ ns keys : List String,
      name ∈ ns.foldl addName keys ↔ name ∈ keys ∨ name ∈ ns by
    rw [keys_collect, general]
    simp
  intro ns
  induction ns with
  | nil => simp
  | cons n ns ih =>
    intro keys
    rw [List.foldl_cons, ih, addName]
    split
    · next listed => grind
    · simp [or_assoc]

end Declaration

/-- From each of some nodes to each of others. -/
def Declaration.links (tails heads : List String) : List (String × String) :=
  tails.flatMap fun tail => heads.map (tail, ·)

mutual

/-- The tails and heads of the edges that a statement declares, in order. -/
def Statement.links : Statement → List (String × String)
  | .node .. => []
  | .edge endpoints _ => Endpoint.linksOfChain [] endpoints
  | .attr .. => []
  | .subgraph _ body => Statement.linksOfAll body

def Endpoint.links : Endpoint → List (String × String)
  | .node _ => []
  | .subgraph _ body => Statement.linksOfAll body

def Endpoint.linksOfChain (tails : List String) : List Endpoint → List (String × String)
  | [] => []
  | e :: es => e.links ++ Declaration.links tails e.names ++ Endpoint.linksOfChain e.names es

def Statement.linksOfAll : List Statement → List (String × String)
  | [] => []
  | s :: ss => s.links ++ Statement.linksOfAll ss

end

theorem Declaration.names_edges (kind : Kind) (attrs : List Attribute)
    (tails heads : List String) :
    names (edges kind attrs tails heads) =
      (links tails heads).map fun p => kind.edgeName p.1 p.2 := by
  simp [names, edges, links, List.map_flatMap, Function.comp_def]

mutual

theorem Statement.names_edges (kind : Kind) (s : Statement) :
    Declaration.names (s.edges kind) = s.links.map fun p => kind.edgeName p.1 p.2 := by
  cases s with
  | node | attr => rfl
  | edge endpoints attrs => exact Endpoint.names_edgesOfChain kind attrs [] endpoints
  | subgraph id body => exact Statement.names_edgesOfAll kind body

theorem Endpoint.names_edges (kind : Kind) (e : Endpoint) :
    Declaration.names (e.edges kind) = e.links.map fun p => kind.edgeName p.1 p.2 := by
  cases e with
  | node => rfl
  | subgraph id body => exact Statement.names_edgesOfAll kind body

theorem Endpoint.names_edgesOfChain (kind : Kind) (attrs : List Attribute) (tails : List String)
    (es : List Endpoint) : Declaration.names (Endpoint.edgesOfChain kind attrs tails es) =
      (Endpoint.linksOfChain tails es).map fun p => kind.edgeName p.1 p.2 := by
  cases es with
  | nil => rfl
  | cons e es =>
    rw [Endpoint.edgesOfChain, Endpoint.linksOfChain, Declaration.names_append,
      Declaration.names_append, List.map_append, List.map_append, Endpoint.names_edges kind e,
      Declaration.names_edges, Endpoint.names_edgesOfChain kind attrs e.names es]

theorem Statement.names_edgesOfAll (kind : Kind) (ss : List Statement) :
    Declaration.names (Statement.edgesOfAll kind ss) =
      (Statement.linksOfAll ss).map fun p => kind.edgeName p.1 p.2 := by
  cases ss with
  | nil => rfl
  | cons s ss =>
    rw [Statement.edgesOfAll, Statement.linksOfAll, Declaration.names_append, List.map_append,
      Statement.names_edges kind s, Statement.names_edgesOfAll kind ss]

end

/-- What is dropped is dropped with all its copies. -/
theorem eraseDups_filter (p : String → Bool) (names : List String) :
    (names.filter p).eraseDups = names.eraseDups.filter p := by
  induction size : names.length using Nat.strongRecOn generalizing names with
  | ind n ih =>
    cases names with
    | nil => rfl
    | cons name names =>
      have shorter : (names.filter (!· == name)).length < n := by
        rw [← size, List.length_cons]
        exact Nat.lt_succ_of_le (List.length_filter_le _ _)
      have rest := ih _ shorter _ rfl
      rw [List.filter_filter] at rest
      rw [List.eraseDups_cons, List.filter_cons, List.filter_cons]
      cases kept : p name with
      | true =>
        rw [if_pos rfl, if_pos rfl, List.eraseDups_cons, ← rest, List.filter_filter]
        simp only [Bool.and_comm]
      | false =>
        have other : ∀ a ∈ names, p a = (p a && !a == name) := by
          intro a _
          cases other : p a with
          | false => rfl
          | true =>
            have differs : a ≠ name := by
              rintro rfl
              rw [other] at kept
              cases kept
            simp [differs]
        rw [if_neg (by simp), if_neg (by simp), ← rest, ← List.filter_congr other]

namespace Target

theorem flatten_runs (target : Target) (es : List Endpoint) :
    (target.runs es).flatten = es.filter (!target.erasesEndpoint ·) := by
  induction es with
  | nil => rfl
  | cons e es ih =>
    cases erased : target.erasesEndpoint e with
    | true => rw [target.runs_cons_erased erased, ih, List.filter_cons_of_neg (by simp [erased])]
    | false =>
      rw [List.filter_cons_of_pos (by simp [erased]), ← ih]
      cases es with
      | nil => rw [target.runs_singleton erased]; rfl
      | cons next es =>
        cases cut : target.erasesOp e next with
        | true => rw [target.runs_cons_cut erased cut]; rfl
        | false =>
          obtain ⟨run, others, split⟩ := target.runs_head (target.stays_of_linked cut).2 es
          rw [target.runs_cons_linked erased cut split, split]
          rfl

end Target

theorem Endpoint.nodesOfAll_append (es others : List Endpoint) :
    nodesOfAll (es ++ others) = nodesOfAll es ++ nodesOfAll others := by
  induction es with
  | nil => rfl
  | cons e es ih => rw [List.cons_append, nodesOfAll, nodesOfAll, ih, List.append_assoc]

theorem Target.names_ofRun (attrs : List Attribute) (run : List Endpoint) :
    Declaration.names (ofRun attrs run).nodes = Declaration.names (Endpoint.nodesOfAll run) := by
  unfold ofRun
  split <;> simp [Statement.nodes, Endpoint.nodesOfAll, Endpoint.nodes, Declaration.names]

theorem Target.names_ofRuns (attrs : List Attribute) (runs : List (List Endpoint)) :
    Declaration.names (Statement.nodesOfAll (ofRuns attrs runs)) =
      Declaration.names (Endpoint.nodesOfAll runs.flatten) := by
  induction runs with
  | nil => rfl
  | cons run runs ih =>
    rw [List.flatten_cons, Endpoint.nodesOfAll_append, Declaration.names_append]
    cases runs with
    | nil =>
      simp [ofRuns, Statement.nodesOfAll, names_ofRun, Endpoint.nodesOfAll]
    | cons next runs =>
      rw [ofRuns, Statement.nodesOfAll, Declaration.names_append, names_ofRun, ih]
      simp

/-- The names but for this one. -/
def namesWithout (name : String) (names : List String) : List String :=
  names.filter (· != name)

theorem namesWithout_append (name : String) (names others : List String) :
    namesWithout name (names ++ others) = namesWithout name names ++ namesWithout name others :=
  List.filter_append ..

open Target (node)

/-- Only a mention of the node itself goes. -/
theorem Endpoint.eq_of_erased {name : String} {e : Endpoint}
    (erased : (Target.node name).erasesEndpoint e = true) : ∃ port, e = .node ⟨name, port⟩ := by
  cases e with
  | node ref =>
    have same : name = ref.id := by simpa [Target.erasesEndpoint, Target.erasesNode] using erased
    exact ⟨ref.port, by rw [same]⟩
  | subgraph => cases erased

variable (name : String)

mutual

theorem Statement.names_prune (s : Statement) :
    Declaration.names (Statement.nodesOfAll ((node name).prune s)) =
      namesWithout name (Declaration.names s.nodes) := by
  cases s with
  | node ref attrs =>
    by_cases same : name = ref.id
    · simp [Target.prune, Target.erasesNode, same, Statement.nodesOfAll, Statement.nodes,
        Declaration.names, namesWithout]
    · simp [Target.prune, Target.erasesNode, same, Statement.nodesOfAll, Statement.nodes,
        Declaration.names, namesWithout, Ne.symm same]
  | edge endpoints attrs =>
    rw [Target.prune, Target.names_ofRuns, Target.flatten_runs]
    exact Endpoint.names_pruneEndpoints endpoints
  | attr kind attrs => rfl
  | subgraph id body =>
    have inside := Statement.names_pruneAll body
    simpa [Target.prune, Statement.nodesOfAll, Statement.nodes] using inside

theorem Endpoint.names_pruneEndpoint (e : Endpoint)
    (stays : (node name).erasesEndpoint e = false) :
    Declaration.names ((node name).pruneEndpoint e).nodes =
      namesWithout name (Declaration.names e.nodes) := by
  cases e with
  | node ref =>
    have other : ref.id ≠ name := by
      rintro rfl
      simp [Target.erasesEndpoint, Target.erasesNode] at stays
    simp [Target.pruneEndpoint, Endpoint.nodes, Declaration.names, namesWithout, other]
  | subgraph id body => exact Statement.names_pruneAll body

theorem Endpoint.names_pruneEndpoints (es : List Endpoint) :
    Declaration.names (Endpoint.nodesOfAll
        (((node name).pruneEndpoints es).filter (!(node name).erasesEndpoint ·))) =
      namesWithout name (Declaration.names (Endpoint.nodesOfAll es)) := by
  cases es with
  | nil => rfl
  | cons e es =>
    have others := Endpoint.names_pruneEndpoints es
    rw [Target.pruneEndpoints, Endpoint.nodesOfAll, Declaration.names_append, namesWithout_append,
      ← others]
    cases erased : (node name).erasesEndpoint e with
    | true =>
      obtain ⟨port, rfl⟩ := Endpoint.eq_of_erased erased
      have gone :
          namesWithout name (Declaration.names (Endpoint.node ⟨name, port⟩).nodes) = [] := by
        simp [namesWithout, Endpoint.nodes, Declaration.names]
      rw [List.filter_cons_of_neg (by simp [erased]), gone]
      rfl
    | false =>
      rw [List.filter_cons_of_pos (by simp [erased]), Endpoint.nodesOfAll,
        Declaration.names_append, Endpoint.names_pruneEndpoint e erased]

theorem Statement.names_pruneAll (ss : List Statement) :
    Declaration.names (Statement.nodesOfAll ((node name).pruneAll ss)) =
      namesWithout name (Declaration.names (Statement.nodesOfAll ss)) := by
  cases ss with
  | nil => rfl
  | cons s ss =>
    rw [Target.pruneAll, Statement.nodesOfAll_append, Statement.nodesOfAll,
      Declaration.names_append, Declaration.names_append, namesWithout_append,
      Statement.names_prune s, Statement.names_pruneAll ss]

end

/-- The pairs but for those that this name is in. -/
def linksWithout (name : String) (ps : List (String × String)) : List (String × String) :=
  ps.filter fun p => p.1 != name && p.2 != name

theorem linksWithout_append (ps others : List (String × String)) :
    linksWithout name (ps ++ others) = linksWithout name ps ++ linksWithout name others :=
  List.filter_append ..

theorem linksWithout_links (tails heads : List String) :
    linksWithout name (Declaration.links tails heads) =
      Declaration.links (namesWithout name tails) (namesWithout name heads) := by
  induction tails with
  | nil => rfl
  | cons tail tails ih =>
    have split (ts hs : List String) :
        Declaration.links (tail :: ts) hs = hs.map (tail, ·) ++ Declaration.links ts hs := rfl
    rw [split, linksWithout_append, ih]
    by_cases same : tail = name
    · have gone : linksWithout name (heads.map (tail, ·)) = [] := by simp [linksWithout, same]
      have others : namesWithout name (tail :: tails) = namesWithout name tails := by
        simp [namesWithout, same]
      rw [gone, others]
      rfl
    · have differs : (tail != name) = true := by simpa using same
      have kept : linksWithout name (heads.map (tail, ·)) =
          (namesWithout name heads).map (tail, ·) := by
        simp [linksWithout, namesWithout, List.filter_map, Function.comp_def, differs]
      have others : namesWithout name (tail :: tails) = tail :: namesWithout name tails := by
        simp [namesWithout, same]
      rw [kept, others, split]

theorem Endpoint.names_prune {e : Endpoint} (stays : (Target.node name).erasesEndpoint e = false) :
    ((Target.node name).pruneEndpoint e).names = namesWithout name e.names := by
  have same := Endpoint.names_pruneEndpoint name e stays
  simp only [Declaration.names, namesWithout] at same
  rw [Endpoint.names, Endpoint.names, same, eraseDups_filter, namesWithout]

/-- The pairs that some runs have, of which the first goes on from the nodes `tails`. -/
def linksOfRuns (tails : List String) : List (List Endpoint) → List (String × String)
  | [] => []
  | run :: runs => Endpoint.linksOfChain tails run ++ runs.flatMap (Endpoint.linksOfChain [])

theorem linksOfRuns_nil (runs : List (List Endpoint)) :
    linksOfRuns [] runs = runs.flatMap (Endpoint.linksOfChain []) := by
  cases runs <;> rfl

theorem Target.links_ofRun (attrs : List Attribute) (run : List Endpoint) :
    (ofRun attrs run).links = Endpoint.linksOfChain [] run := by
  unfold ofRun
  split <;> simp [Statement.links, Endpoint.linksOfChain, Endpoint.links, Declaration.links]

theorem Target.links_ofRuns (attrs : List Attribute) (runs : List (List Endpoint)) :
    Statement.linksOfAll (ofRuns attrs runs) = runs.flatMap (Endpoint.linksOfChain []) := by
  induction runs with
  | nil => rfl
  | cons run runs ih =>
    cases runs with
    | nil => simp [ofRuns, Statement.linksOfAll, links_ofRun]
    | cons next runs =>
      rw [ofRuns, Statement.linksOfAll, links_ofRun, ih]
      · rfl
      · exact List.cons_ne_nil next runs

theorem Statement.linksOfAll_append (ss ts : List Statement) :
    linksOfAll (ss ++ ts) = linksOfAll ss ++ linksOfAll ts := by
  induction ss with
  | nil => rfl
  | cons s ss ih => rw [List.cons_append, linksOfAll, ih, linksOfAll, List.append_assoc]

mutual

theorem Statement.links_prune (s : Statement) :
    Statement.linksOfAll ((node name).prune s) = linksWithout name s.links := by
  cases s with
  | node ref attrs =>
    rw [Target.prune]
    split <;> rfl
  | edge endpoints attrs =>
    have none : (if endpoints.head?.any (node name).erasesEndpoint then []
        else namesWithout name []) = [] := by
      split <;> rfl
    rw [Target.prune, Target.links_ofRuns, Statement.links,
      Endpoint.links_pruneEndpoints [] endpoints, none, linksOfRuns_nil]
  | attr kind attrs => rfl
  | subgraph id body =>
    have inside := Statement.links_pruneAll body
    simpa [Target.prune, Statement.linksOfAll, Statement.links] using inside

theorem Endpoint.links_pruneEndpoint (e : Endpoint) :
    ((node name).pruneEndpoint e).links = linksWithout name e.links := by
  cases e with
  | node ref => rfl
  | subgraph id body => exact Statement.links_pruneAll body

/-- The links of a chain that stay are those of its runs. Only a first endpoint that stays goes on
from the nodes in front of it. -/
theorem Endpoint.links_pruneEndpoints (tails : List String) (es : List Endpoint) :
    linksWithout name (Endpoint.linksOfChain tails es) =
      linksOfRuns (if es.head?.any (node name).erasesEndpoint then [] else namesWithout name tails)
        ((node name).runs ((node name).pruneEndpoints es)) := by
  cases es with
  | nil => rfl
  | cons e es =>
    have others := Endpoint.links_pruneEndpoints e.names es
    have inside := Endpoint.links_pruneEndpoint e
    rw [Endpoint.linksOfChain, linksWithout_append, linksWithout_append, others, ← inside,
      linksWithout_links, Target.pruneEndpoints, List.head?_cons, Option.any_some]
    cases erased : (node name).erasesEndpoint e with
    | true =>
      obtain ⟨port, rfl⟩ := Endpoint.eq_of_erased erased
      have gone : namesWithout name (Endpoint.node ⟨name, port⟩).names = [] := by
        have single : [name].eraseDups = [name] := rfl
        simp [namesWithout, Endpoint.names, Endpoint.nodes, single]
      have none (ts : List String) : Declaration.links ts [] = [] := by
        simp [Declaration.links]
      rw [(node name).runs_cons_erased (by simpa using erased), gone, none, ite_self]
      rfl
    | false =>
      rw [← Endpoint.names_prune name erased]
      have stays : (node name).erasesEndpoint ((node name).pruneEndpoint e) = false := by
        simpa using erased
      generalize (node name).pruneEndpoint e = e' at stays
      cases es with
      | nil =>
        rw [Target.pruneEndpoints, (node name).runs_singleton stays]
        simp [linksOfRuns, Endpoint.linksOfChain, Target.runs]
      | cons next es =>
        rw [Target.pruneEndpoints, List.head?_cons, Option.any_some]
        cases gone : (node name).erasesEndpoint next with
        | true =>
          have cut : (node name).erasesOp e' ((node name).pruneEndpoint next) = true := by
            simp [Target.erasesOp, gone]
          rw [(node name).runs_cons_cut stays cut, if_pos rfl, linksOfRuns_nil]
          simp [linksOfRuns, Endpoint.linksOfChain]
        | false =>
          have linked : (node name).erasesOp e' ((node name).pruneEndpoint next) = false := by
            simp [Target.erasesOp, stays, gone, Target.cuts]
          have head : (node name).erasesEndpoint ((node name).pruneEndpoint next) = false := by
            simpa using gone
          obtain ⟨run, others, split⟩ :=
            (node name).runs_head head ((node name).pruneEndpoints es)
          rw [(node name).runs_cons_linked stays linked split, split]
          simp [linksOfRuns, Endpoint.linksOfChain]

theorem Statement.links_pruneAll (ss : List Statement) :
    Statement.linksOfAll ((node name).pruneAll ss) =
      linksWithout name (Statement.linksOfAll ss) := by
  cases ss with
  | nil => rfl
  | cons s ss =>
    rw [Target.pruneAll, Statement.linksOfAll_append, Statement.linksOfAll, linksWithout_append,
      Statement.links_prune s, Statement.links_pruneAll ss]

end

end DotText
