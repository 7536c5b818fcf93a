import Mathlib.Data.Prod.Lex
import TacticalMesh.AppMessages
import TacticalMesh.KeepGreater
import TacticalMesh.Table

namespace TacticalMesh
set_option autoImplicit true

inductive TargetState where
  | detected
  | assigned
  | engaged
  | aborted
  | destroyed
  deriving DecidableEq, Repr

def TargetState.rank : TargetState → ℕ
  | detected => 0
  | assigned => 1
  | engaged => 2
  | aborted => 3
  | destroyed => 4

theorem TargetState.rank_injective : Function.Injective rank := by
  intro a b h
  cases a <;> cases b <;> first | rfl | cases h

structure Target where
  id : UInt16
  kind : TargetKind
  state : TargetState
  lat : F32
  lon : F32
  updatedAtMs : ℕ
  assignedTo : Option UInt8
  deriving DecidableEq, Repr

structure TargetUpdate where
  target : Target
  deriving DecidableEq, Repr

@[ext]
structure TargetBoard where
  targets : Table UInt16 Target

def Target.shouldReplace (incoming existing : Target) : Bool :=
  if existing.state.rank < incoming.state.rank then true
  else if incoming.state = existing.state then
    decide (existing.updatedAtMs < incoming.updatedAtMs)
  else false

/-- What decides a merge: the state first, then the timestamp. -/
def Target.key (t : Target) : ℕ ×ₗ ℕ := toLex (t.state.rank, t.updatedAtMs)

theorem Target.key_lt (s t : Target) : s.key < t.key ↔
    s.state.rank < t.state.rank ∨ t.state = s.state ∧ s.updatedAtMs < t.updatedAtMs := by
  have hinj : s.state.rank = t.state.rank ↔ t.state = s.state :=
    TargetState.rank_injective.eq_iff.trans eq_comm
  rw [key, key, Prod.Lex.toLex_lt_toLex, hinj]

theorem Target.shouldReplace_iff (incoming existing : Target) :
    incoming.shouldReplace existing ↔ existing.key < incoming.key := by
  rw [key_lt]
  simp only [shouldReplace]
  split
  · simp_all
  · split <;> simp_all

namespace TargetBoard

def new : TargetBoard where
  targets := .empty

def merge (b : TargetBoard) (update : TargetUpdate) : TargetBoard :=
  let incoming := update.target
  match b.targets incoming.id with
  | none => { targets := b.targets.insert incoming.id incoming }
  | some existing =>
    if incoming.shouldReplace existing then
      { targets := b.targets.insert incoming.id incoming }
    else b

def get (b : TargetBoard) (id : UInt16) : Option Target := b.targets id

def mergeAll (updates : List TargetUpdate) : TargetBoard := updates.foldl merge new

/-- A board is one register a target, each keeping the greater key. -/
theorem merge_get (b : TargetBoard) (u : TargetUpdate) (id : UInt16) :
    (b.merge u).get id =
      if u.target.id = id then keepGreater Target.key (b.get id) u.target else b.get id := by
  by_cases hid : u.target.id = id
  · subst hid
    simp only [merge, get, ↓reduceIte]
    cases hb : b.targets u.target.id with
    | none => exact Table.insert_self ..
    | some e =>
      simp only [keepGreater, Target.shouldReplace_iff]
      split
      · exact Table.insert_self ..
      · exact hb
  · have hother : (b.targets.insert u.target.id u.target) id = b.targets id :=
      Table.insert_of_ne _ _ fun h => hid h.symm
    simp only [merge, get, if_neg hid]
    split
    · exact hother
    · split
      · exact hother
      · rfl

def updatesFor (id : UInt16) (updates : List TargetUpdate) : List Target :=
  (updates.filter fun u => u.target.id = id).map fun u => u.target

theorem foldl_merge_get (updates : List TargetUpdate) (b : TargetBoard) (id : UInt16) :
    (updates.foldl merge b).get id =
      (updatesFor id updates).foldl (keepGreater Target.key) (b.get id) := by
  induction updates generalizing b with
  | nil => rfl
  | cons u updates ih =>
    rw [List.foldl_cons, ih, merge_get]
    simp only [updatesFor, List.filter_cons]
    by_cases hid : u.target.id = id
    · simp [hid]
    · simp [hid]

theorem mergeAll_get (updates : List TargetUpdate) (id : UInt16) :
    (mergeAll updates).get id =
      (updatesFor id updates).foldl (keepGreater Target.key) none :=
  foldl_merge_get updates new id

theorem mem_updatesFor (id : UInt16) (updates : List TargetUpdate) (t : Target) :
    t ∈ updatesFor id updates ↔ ⟨t⟩ ∈ updates ∧ t.id = id := by
  simp only [updatesFor, List.mem_map, List.mem_filter, decide_eq_true_eq]
  constructor
  · rintro ⟨u, ⟨hu, hid⟩, rfl⟩
    exact ⟨hu, hid⟩
  · rintro ⟨hu, hid⟩
    exact ⟨⟨t⟩, ⟨hu, hid⟩, rfl⟩

theorem ext_get {b b' : TargetBoard} (h : ∀ id, b.get id = b'.get id) : b = b' :=
  TargetBoard.ext (funext h)

theorem updatesFor_append (id : UInt16) (l l' : List TargetUpdate) :
    updatesFor id (l ++ l') = updatesFor id l ++ updatesFor id l' := by
  simp only [updatesFor, List.filter_append, List.map_append]

/-- Merging gives the same board for every list with the same elements exactly when, target by
target, no two different updates tie at the greatest state and timestamp. -/
theorem mergeAll_eq_iff_untied (updates : List TargetUpdate) :
    (∀ updates', (∀ u, u ∈ updates' ↔ u ∈ updates) → mergeAll updates' = mergeAll updates) ↔
      ∀ id, Untied Target.key (updatesFor id updates) := by
  constructor
  · intro h id
    rw [untied_iff]
    intro l hl
    -- replace the updates for `id` by `l` and leave the others
    let others := updates.filter fun u => ¬ u.target.id = id
    have hmem : ∀ u, u ∈ l.map TargetUpdate.mk ++ others ↔ u ∈ updates := by
      intro u
      simp only [others, List.mem_append, List.mem_map, List.mem_filter, hl, mem_updatesFor]
      constructor
      · rintro (⟨t, ⟨ht, -⟩, rfl⟩ | ⟨hu, -⟩)
        · exact ht
        · exact hu
      · intro hu
        by_cases hid : u.target.id = id
        · exact .inl ⟨u.target, ⟨hu, hid⟩, rfl⟩
        · exact .inr ⟨hu, by simpa using hid⟩
    have hothers : updatesFor id others = [] := by
      simp only [updatesFor, others, List.filter_filter, List.map_eq_nil_iff]
      apply List.filter_eq_nil_iff.2
      simp
    have hself : updatesFor id (l.map TargetUpdate.mk) = l := by
      have hid : ∀ t ∈ l, t.id = id := fun t ht => ((mem_updatesFor id updates t).1 ((hl t).1 ht)).2
      simp only [updatesFor, List.filter_map, List.map_map]
      have hall : l.filter ((fun u => decide (u.target.id = id)) ∘ TargetUpdate.mk) = l := by
        apply List.filter_eq_self.2
        intro t ht
        simp [hid t ht]
      rw [hall]
      exact List.map_id' l
    have hget := congrArg (fun b => b.get id) (h _ hmem)
    simp only [mergeAll_get, updatesFor_append, hothers, hself, List.append_nil] at hget
    exact hget
  · intro h updates' hmem
    apply ext_get
    intro id
    rw [mergeAll_get, mergeAll_get]
    apply (h id).foldl_eq
    intro t
    rw [mem_updatesFor, mem_updatesFor, hmem]

def reassignedBy (issuer : UInt8) : TargetUpdate where
  target :=
    { id := 7
      kind := .vehicle
      state := .assigned
      lat := 0
      lon := 0
      updatedAtMs := 1000
      assignedTo := some issuer }

theorem merge_order_matters :
    (∀ u, u ∈ [reassignedBy 1, reassignedBy 3] ↔ u ∈ [reassignedBy 3, reassignedBy 1]) ∧
      mergeAll [reassignedBy 1, reassignedBy 3] ≠ mergeAll [reassignedBy 3, reassignedBy 1] := by
  constructor
  · intro u
    simp only [List.mem_cons, List.not_mem_nil, or_false]
    exact or_comm
  · intro h
    have hget := congrArg (fun b => (b.get 7).map fun t => t.assignedTo) h
    revert hget
    decide

end TargetBoard
end TacticalMesh
