import DotText.Tree

set_option autoImplicit false

/- Two trees are equal when they say the same in the same order, and this is decided by one walk
down both. -/
namespace DotText

mutual

/-- Whether two statements agree in every part. -/
def Statement.same : Statement → Statement → Bool
  | .node r as, .node r' as' => r = r' && as = as'
  | .edge es as, .edge es' as' => Endpoint.sameAll es es' && as = as'
  | .attr t as, .attr t' as' => t = t' && as = as'
  | .subgraph id body, .subgraph id' body' => id = id' && Statement.sameAll body body'
  | _, _ => false
termination_by structural s => s

/-- Whether two ends of an edge agree in every part. -/
def Endpoint.same : Endpoint → Endpoint → Bool
  | .node r, .node r' => r = r'
  | .subgraph id body, .subgraph id' body' => id = id' && Statement.sameAll body body'
  | _, _ => false

def Statement.sameAll : List Statement → List Statement → Bool
  | [], [] => true
  | s :: ss, t :: ts => s.same t && Statement.sameAll ss ts
  | _, _ => false

def Endpoint.sameAll : List Endpoint → List Endpoint → Bool
  | [], [] => true
  | e :: es, f :: fs => e.same f && Endpoint.sameAll es fs
  | _, _ => false

end

mutual

theorem Statement.same_iff : (s t : Statement) → (s.same t = true ↔ s = t)
  | .node .., t => by cases t <;> simp [Statement.same]
  | .edge es _, t => by
    cases t <;> simp [Statement.same]
    rw [Endpoint.sameAll_iff es]
    exact fun _ => Iff.rfl
  | .attr .., t => by cases t <;> simp [Statement.same]
  | .subgraph _ body, t => by
    cases t <;> simp [Statement.same]
    rw [Statement.sameAll_iff body]
    exact fun _ => Iff.rfl

theorem Endpoint.same_iff : (e f : Endpoint) → (e.same f = true ↔ e = f)
  | .node .., f => by cases f <;> simp [Endpoint.same]
  | .subgraph _ body, f => by
    cases f <;> simp [Endpoint.same]
    rw [Statement.sameAll_iff body]
    exact fun _ => Iff.rfl

theorem Statement.sameAll_iff : (ss ts : List Statement) → (Statement.sameAll ss ts = true ↔ ss = ts)
  | [], ts => by cases ts <;> simp [Statement.sameAll]
  | s :: ss, ts => by
    cases ts <;> simp [Statement.sameAll]
    rw [Statement.same_iff s, Statement.sameAll_iff ss]

theorem Endpoint.sameAll_iff : (es fs : List Endpoint) → (Endpoint.sameAll es fs = true ↔ es = fs)
  | [], fs => by cases fs <;> simp [Endpoint.sameAll]
  | e :: es, fs => by
    cases fs <;> simp [Endpoint.sameAll]
    rw [Endpoint.same_iff e, Endpoint.sameAll_iff es]

end

instance : DecidableEq Statement := fun s t => decidable_of_iff _ (s.same_iff t)

instance : DecidableEq Endpoint := fun e f => decidable_of_iff _ (e.same_iff f)

deriving instance DecidableEq for Graph

end DotText
