set_option autoImplicit false

/- Tables from names to values. A name keeps the place it got when it was first set. -/
namespace DotText

/-- Entries in order, no two of one name. -/
structure Table (α : Type) where
  entries : List (String × α)
  distinct : (entries.map Prod.fst).Nodup

namespace Table

variable {α : Type}

def empty : Table α :=
  ⟨[], List.nodup_nil⟩

def keys (t : Table α) : List String :=
  t.entries.map Prod.fst

/-- The value of a name. -/
def get? (t : Table α) (key : String) : Option α :=
  (t.entries.find? fun e => e.1 = key).map Prod.snd

/-- Change the entry of a name where it stands, or make one at the end. -/
def alterEntry (key : String) (f : Option α → α) : List (String × α) → List (String × α)
  | [] => [(key, f none)]
  | (k, a) :: es => if k = key then (k, f (some a)) :: es else (k, a) :: alterEntry key f es

theorem alterEntry_keys (key : String) (f : Option α → α) (es : List (String × α)) :
    (alterEntry key f es).map Prod.fst =
      if key ∈ es.map Prod.fst then es.map Prod.fst else es.map Prod.fst ++ [key] := by
  induction es with
  | nil => rfl
  | cons e es ih =>
    obtain ⟨k, a⟩ := e
    by_cases same : k = key
    · simp [alterEntry, same]
    · simp only [alterEntry, same, ↓reduceIte, List.map_cons, ih, List.mem_cons]
      simp only [Ne.symm same, false_or]
      split <;> simp

/-- Set the value of a name, given the value that it has. -/
def alter (t : Table α) (key : String) (f : Option α → α) : Table α where
  entries := alterEntry key f t.entries
  distinct := by
    rw [alterEntry_keys]
    split
    next => exact t.distinct
    next fresh =>
      refine List.nodup_append.mpr ⟨t.distinct, by simp, fun k there k' new same => fresh ?_⟩
      rwa [← List.mem_singleton.mp new, ← same]

def set (t : Table α) (key : String) (a : α) : Table α :=
  t.alter key fun _ => a

theorem keys_alter (t : Table α) (key : String) (f : Option α → α) :
    (t.alter key f).keys = if key ∈ t.keys then t.keys else t.keys ++ [key] :=
  alterEntry_keys key f t.entries

theorem get?_alter (t : Table α) (key name : String) (f : Option α → α) :
    (t.alter key f).get? name = if name = key then some (f (t.get? key)) else t.get? name := by
  simp only [get?, alter]
  induction t.entries with
  | nil => by_cases h : key = name <;> simp [alterEntry, h, eq_comm]
  | cons e es ih =>
    obtain ⟨k, a⟩ := e
    by_cases same : k = key
    · subst same
      by_cases h : k = name <;> simp [alterEntry, h, Ne.symm]
    · by_cases h : k = name
      · subst h
        simp [alterEntry, same]
      · simp [alterEntry, same, h, ih]

/-- Whether two tables have the same names with the same values, in whatever order. -/
def agrees (same : α → α → Bool) (t u : Table α) : Bool :=
  t.entries.length == u.entries.length &&
    t.entries.all fun (key, a) => (u.get? key).any (same a)

end Table

end DotText
