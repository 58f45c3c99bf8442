import Mathlib.Data.List.SplitBy
import DotText.Proofs.Pruning

set_option autoImplicit false

/- The runs that a chain falls apart into, and what a target still finds in a tree once it has been
erased from it: nothing. -/
namespace DotText

namespace Target

/-- A node takes its endpoints out of a chain, and with them the operators next to them. -/
theorem runs_node (name : String) (endpoints : List Endpoint) :
    (node name).runs endpoints =
      (endpoints.splitOnP (node name).erasesEndpoint).filter (!·.isEmpty) := by
  induction endpoints with
  | nil => rfl
  | cons e es ih =>
    rw [List.splitOnP_cons_eq_if_modifyHead]
    cases erased : (node name).erasesEndpoint e with
    | true => rw [runs_cons_erased _ erased, ih]; simp
    | false =>
      cases es with
      | nil => simp [runs_singleton _ erased]
      | cons next es =>
        cases cut : (node name).erasesEndpoint next with
        | true =>
          have op : (node name).erasesOp e next = true := by simp [erasesOp, cut]
          rw [runs_cons_cut _ erased op, ih, List.splitOnP_cons_eq_if_modifyHead]
          simp [cut]
        | false =>
          have op : (node name).erasesOp e next = false := by
            simp [erasesOp, erased, cut, cuts]
          obtain ⟨run, others, split⟩ := (node name).runs_head cut es
          rw [runs_cons_linked _ erased op split]
          obtain ⟨first, behind, rest⟩ := List.exists_cons_of_ne_nil
            (List.splitOnP_ne_nil (node name).erasesEndpoint es)
          rw [split, List.splitOnP_cons_eq_if_modifyHead, cut, rest] at ih
          rw [List.splitOnP_cons_eq_if_modifyHead, cut, rest]
          simp only [Bool.false_eq_true, if_false, List.modifyHead_cons] at ih ⊢
          rw [List.filter_cons_of_pos (by simp), List.cons.injEq] at ih ⊢
          exact ⟨congrArg (e :: ·) ih.1, ih.2⟩

/-- An edge takes its operators out of a chain and leaves all endpoints. -/
theorem runs_edge (tail head : String) (endpoints : List Endpoint) :
    (edge tail head).runs endpoints =
      endpoints.splitBy fun left right => !(edge tail head).cuts left right := by
  have stays : ∀ e, (edge tail head).erasesEndpoint e = false := fun e => by cases e <;> rfl
  induction endpoints with
  | nil => rfl
  | cons e es ih =>
    cases es with
    | nil => exact runs_singleton _ (stays e)
    | cons next es =>
      have op : (edge tail head).erasesOp e next = (edge tail head).cuts e next := by
        simp [erasesOp, stays]
      cases cut : (edge tail head).cuts e next with
      | true =>
        have apart := List.splitBy_append_cons (l := [e]) (a := next)
          (r := fun left right => !(edge tail head).cuts left right) es (by simp [cut])
        rw [runs_cons_cut _ (stays e) (op.trans cut), ih]
        exact apart.symm
      | false =>
        obtain ⟨run, others, split⟩ := (edge tail head).runs_head (stays next) es
        rw [runs_cons_linked _ (stays e) (op.trans cut) split]
        rw [split] at ih
        obtain ⟨whole, some, linked, cuts⟩ := List.splitBy_eq_iff.mp ih.symm
        refine (List.splitBy_eq_iff.mpr ⟨?_, by simpa using some, ?_, ?_⟩).symm
        · exact congrArg (e :: ·) whole
        · intro run' mem
          rcases List.mem_cons.mp mem with rfl | mem
          · exact (linked _ List.mem_cons_self).cons_cons (by simp [cut])
          · exact linked run' (List.mem_cons_of_mem _ mem)
        · cases others with
          | nil => exact .singleton _
          | cons run' others =>
            obtain ⟨⟨_, next', apart⟩, rest⟩ := List.isChain_cons_cons.mp cuts
            exact rest.cons_cons ⟨by simp, next', by simpa using apart⟩

variable (target : Target)

/-- What is in a run is in the chain and stays, and so do the operators between. -/
theorem stays_of_mem_runs {endpoints run : List Endpoint} (mem : run ∈ target.runs endpoints) :
    target.countOps run = 0 ∧ ∀ e ∈ run, e ∈ endpoints ∧ target.erasesEndpoint e = false := by
  induction endpoints generalizing run with
  | nil => cases mem
  | cons e es ih =>
    have behind : ∀ {run}, run ∈ target.runs es →
        target.countOps run = 0 ∧ ∀ e' ∈ run, e' ∈ e :: es ∧ target.erasesEndpoint e' = false :=
      fun inside => ⟨(ih inside).1, fun e' mem =>
        ⟨List.mem_cons_of_mem e ((ih inside).2 e' mem).1, ((ih inside).2 e' mem).2⟩⟩
    cases erased : target.erasesEndpoint e with
    | true =>
      rw [runs_cons_erased _ erased] at mem
      exact behind mem
    | false =>
      have alone : ∀ e' ∈ [e], e' ∈ e :: es ∧ target.erasesEndpoint e' = false := by
        simp [erased]
      cases es with
      | nil =>
        rw [runs_singleton _ erased, List.mem_singleton] at mem
        rw [mem]
        exact ⟨rfl, alone⟩
      | cons next es =>
        cases cut : target.erasesOp e next with
        | true =>
          rw [runs_cons_cut _ erased cut] at mem
          rcases List.mem_cons.mp mem with rfl | mem
          · exact ⟨rfl, alone⟩
          · exact behind mem
        | false =>
          obtain ⟨run', others, split⟩ := target.runs_head (target.stays_of_linked cut).2 es
          rw [split] at behind
          rw [runs_cons_linked _ erased cut split] at mem
          rcases List.mem_cons.mp mem with rfl | mem
          · obtain ⟨ops, inside⟩ := behind List.mem_cons_self
            refine ⟨by rw [countOps, cut, ops]; rfl, fun e' mem => ?_⟩
            rcases List.mem_cons.mp mem with rfl | mem
            · exact alone _ List.mem_cons_self
            · exact inside e' mem
          · exact behind (List.mem_cons_of_mem _ mem)

theorem countInEndpoints_eq_zero {endpoints : List Endpoint}
    (none : ∀ e ∈ endpoints, target.countInEndpoint e = 0) :
    target.countInEndpoints endpoints = 0 := by
  induction endpoints with
  | nil => rfl
  | cons e es ih =>
    rw [countInEndpoints, none e List.mem_cons_self,
      ih fun e' mem => none e' (List.mem_cons_of_mem e mem)]

theorem countIn_ofRun {run : List Endpoint} (ops : target.countOps run = 0)
    (none : ∀ e ∈ run, target.countInEndpoint e = 0) (attrs : List Attribute) :
    target.countIn (ofRun attrs run) = 0 := by
  unfold ofRun
  split
  · exact none _ List.mem_cons_self
  · exact none _ List.mem_cons_self
  · rw [countIn, ops, countInEndpoints_eq_zero _ none]

theorem countInAll_ofRuns {runs : List (List Endpoint)}
    (none : ∀ run ∈ runs, target.countOps run = 0 ∧ ∀ e ∈ run, target.countInEndpoint e = 0)
    (attrs : List Attribute) : target.countInAll (ofRuns attrs runs) = 0 := by
  induction runs with
  | nil => rfl
  | cons run runs ih =>
    obtain ⟨ops, inside⟩ := none run List.mem_cons_self
    cases runs with
    | nil => rw [ofRuns, countInAll, countIn_ofRun _ ops inside]; rfl
    | cons next runs =>
      rw [ofRuns, countInAll, countIn_ofRun _ ops inside,
        ih fun run' mem => none run' (List.mem_cons_of_mem run mem)]
      simp

theorem countInAll_append (ss others : List Statement) :
    target.countInAll (ss ++ others) = target.countInAll ss + target.countInAll others := by
  induction ss with
  | nil => simp [countInAll]
  | cons s ss ih => rw [List.cons_append, countInAll, countInAll, ih, Nat.add_assoc]

mutual

/-- In what is left of a statement there is nothing more to erase. -/
theorem countIn_prune (s : Statement) : target.countInAll (target.prune s) = 0 := by
  cases s with
  | node ref attrs =>
    cases erased : target.erasesNode ref <;> simp [prune, erased, countInAll, countIn]
  | edge endpoints attrs =>
    rw [prune]
    refine countInAll_ofRuns _ (fun run mem => ?_) attrs
    obtain ⟨ops, inside⟩ := target.stays_of_mem_runs mem
    exact ⟨ops, fun e mem => countIn_pruneEndpoints endpoints e (inside e mem).1 (inside e mem).2⟩
  | attr => rfl
  | subgraph id body =>
    simp [prune, countInAll, countIn, countIn_pruneAll body]

theorem countIn_pruneEndpoint (e : Endpoint)
    (stays : target.erasesEndpoint (target.pruneEndpoint e) = false) :
    target.countInEndpoint (target.pruneEndpoint e) = 0 := by
  cases e with
  | node ref =>
    have kept : target.erasesNode ref = false := stays
    simp [pruneEndpoint, countInEndpoint, kept]
  | subgraph id body => exact countIn_pruneAll body

theorem countIn_pruneEndpoints (endpoints : List Endpoint) :
    ∀ e ∈ target.pruneEndpoints endpoints, target.erasesEndpoint e = false →
      target.countInEndpoint e = 0 := by
  cases endpoints with
  | nil => simp [pruneEndpoints]
  | cons first es =>
    intro e mem stays
    rcases List.mem_cons.mp mem with rfl | mem
    · exact countIn_pruneEndpoint first stays
    · exact countIn_pruneEndpoints es e mem stays

theorem countIn_pruneAll (ss : List Statement) : target.countInAll (target.pruneAll ss) = 0 := by
  cases ss with
  | nil => rfl
  | cons s ss => rw [pruneAll, countInAll_append, countIn_prune s, countIn_pruneAll ss]

end

end Target

/-- In what is left of a document there is nothing more to erase. -/
theorem Graph.countErased_prune (g : Graph) (target : Target) :
    (g.prune target).countErased target = 0 :=
  target.countIn_pruneAll g.body

end DotText
