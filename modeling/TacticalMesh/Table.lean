import Mathlib.Data.Fintype.Card
import Mathlib.Data.List.Nodup
import Mathlib.Logic.Function.Basic

namespace TacticalMesh
set_option autoImplicit true

/-- A hash table, known by what its lookups return. -/
abbrev Table (K V : Type) := K → Option V

namespace Table

def empty : Table K V := fun _ => none

def insert [DecidableEq K] (m : Table K V) (k : K) (v : V) : Table K V :=
  Function.update m k (some v)

/-- What an entry holds stays; only a vacant one is filled. -/
def orInsert [DecidableEq K] (m : Table K V) (k : K) (v : V) : Table K V :=
  m.insert k ((m k).getD v)

def remove [DecidableEq K] (m : Table K V) (k : K) : Table K V :=
  Function.update m k none

def retain (m : Table K V) (p : K → V → Bool) : Table K V := fun k => (m k).filter (p k)

@[simp] theorem empty_apply (k : K) : (empty : Table K V) k = none := rfl

@[simp] theorem insert_self [DecidableEq K] (m : Table K V) (k : K) (v : V) :
    m.insert k v k = some v := Function.update_self ..

theorem insert_of_ne [DecidableEq K] (m : Table K V) (v : V) (h : k' ≠ k) :
    m.insert k v k' = m k' := Function.update_of_ne h ..

theorem insert_apply [DecidableEq K] (m : Table K V) (k : K) (v : V) (k' : K) :
    m.insert k v k' = if k' = k then some v else m k' := Function.update_apply ..

@[simp] theorem orInsert_self [DecidableEq K] (m : Table K V) (k : K) (v : V) :
    m.orInsert k v k = some ((m k).getD v) := insert_self ..

theorem orInsert_of_ne [DecidableEq K] (m : Table K V) (v : V) (h : k' ≠ k) :
    m.orInsert k v k' = m k' := insert_of_ne _ _ h

theorem remove_apply [DecidableEq K] (m : Table K V) (k k' : K) :
    m.remove k k' = if k' = k then none else m k' := Function.update_apply ..

theorem insert_isSome [DecidableEq K] (m : Table K V) (k : K) (v : V) (k' : K) :
    (m.insert k v k').isSome ↔ k' = k ∨ (m k').isSome := by
  rw [insert_apply]
  split <;> simp_all

theorem retain_eq_some {m : Table K V} {p : K → V → Bool} :
    m.retain p k = some v ↔ m k = some v ∧ p k v := by
  simp only [retain, Option.filter_eq_some_iff]

end Table

/-- The order in which an iteration over a table meets the keys. Every order is possible. -/
structure KeyOrder (K : Type) where
  keys : List K
  nodup : keys.Nodup
  complete : ∀ k, k ∈ keys

def Table.entries (m : Table K V) (o : KeyOrder K) : List (K × V) :=
  o.keys.filterMap fun k => (m k).map fun v => (k, v)

theorem Table.mem_entries (m : Table K V) (o : KeyOrder K) (k : K) (v : V) :
    (k, v) ∈ m.entries o ↔ m k = some v := by
  simp only [entries, List.mem_filterMap, Option.map_eq_some_iff, Prod.mk.injEq]
  constructor
  · rintro ⟨k', -, v', hv, rfl, rfl⟩
    exact hv
  · intro hv
    exact ⟨k, o.complete k, v, hv, rfl, rfl⟩

end TacticalMesh
