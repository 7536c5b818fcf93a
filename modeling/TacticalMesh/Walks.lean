import Mathlib.Order.Lattice.Nat
import Mathlib.Order.Bounds.Defs

namespace TacticalMesh
set_option autoImplicit true

/-- A directed graph with at most one edge from one vertex to another, and its cost. -/
abbrev Weights (V : Type) := V → V → Option ℕ

/-- `Walk w s v n d`: some walk of `n` edges from `s` to `v` has total cost `d`. -/
inductive Walk (w : Weights V) (s : V) : V → ℕ → ℕ → Prop where
  | nil : Walk w s s 0 0
  | snoc : Walk w s u n d → w u v = some c → Walk w s v (n + 1) (d + c)

def Reaches (w : Weights V) (s v : V) : Prop := ∃ n d, Walk w s v n d

def walkCosts (w : Weights V) (s v : V) : Set ℕ := {d | ∃ n, Walk w s v n d}

/-- Labels that no edge can improve are below the cost of every walk. -/
theorem Walk.label_le {dist : V → Option ℕ} (hs : dist s = some 0)
    (he : ∀ u d v c, dist u = some d → w u v = some c → ∃ d', dist v = some d' ∧ d' ≤ d + c)
    (h : Walk w s v n d) : ∃ d', dist v = some d' ∧ d' ≤ d := by
  induction h with
  | nil => exact ⟨0, hs, le_rfl⟩
  | snoc _ hc ih =>
    obtain ⟨d₁, h₁, hle₁⟩ := ih
    obtain ⟨d₂, h₂, hle₂⟩ := he _ _ _ _ h₁ hc
    exact ⟨d₂, h₂, by omega⟩

theorem Walk.cons (hc : w a s = some c) (h : Walk w s v n d) : Walk w a v (n + 1) (c + d) := by
  induction h with
  | nil =>
    have hone : Walk w a s 1 (0 + c) := .snoc .nil hc
    rwa [Nat.zero_add] at hone
  | snoc _ he ih =>
    rw [← Nat.add_assoc]
    exact ih.snoc he

theorem Walk.append (h : Walk w s u n d) (h' : Walk w u v n' d') :
    Walk w s v (n + n') (d + d') := by
  induction h' with
  | nil => exact h
  | snoc _ hc ih =>
    rw [← Nat.add_assoc, ← Nat.add_assoc]
    exact ih.snoc hc

theorem Walk.mono (hw : ∀ u v c, w u v = some c → w' u v = some c) (h : Walk w s v n d) :
    Walk w' s v n d := by
  induction h with
  | nil => exact .nil
  | snoc _ he ih => exact ih.snoc (hw _ _ _ he)

theorem Reaches.mono (hw : ∀ u v, (w u v).isSome → (w' u v).isSome) (h : Reaches w s v) :
    Reaches w' s v := by
  obtain ⟨n, d, hwalk⟩ := h
  induction hwalk with
  | nil => exact ⟨0, 0, .nil⟩
  | @snoc u _ _ v _ _ hc ih =>
    obtain ⟨n', d', hwalk'⟩ := ih
    obtain ⟨c', hc'⟩ := Option.isSome_iff_exists.1 (hw u v (by rw [hc]; rfl))
    exact ⟨n' + 1, d' + c', hwalk'.snoc hc'⟩

/-- A walk that comes back to its source can start there. -/
theorem Walk.skip_source [DecidableEq V] {w w' : Weights V} {s v : V}
    (hw : ∀ u v c, v ≠ s → w u v = some c → w' u v = some c) (h : Walk w s v n d) :
    ∃ n' d', Walk w' s v n' d' ∧ d' ≤ d := by
  induction h with
  | nil => exact ⟨0, 0, .nil, le_rfl⟩
  | @snoc u n d v c _ he ih =>
    by_cases hv : v = s
    · rw [hv]
      exact ⟨0, 0, .nil, Nat.zero_le _⟩
    · obtain ⟨n', d', hwalk, hle⟩ := ih
      exact ⟨n' + 1, d' + c, hwalk.snoc (hw u v c hv he), Nat.add_le_add_right hle c⟩

theorem isLeast_of_skip_source [DecidableEq V] {w w' : Weights V} {s v : V}
    (hsub : ∀ u v c, w' u v = some c → w u v = some c)
    (hw : ∀ u v c, v ≠ s → w u v = some c → w' u v = some c)
    (h : IsLeast (walkCosts w' s v) d) : IsLeast (walkCosts w s v) d := by
  obtain ⟨⟨n, hn⟩, hle⟩ := h
  refine ⟨⟨n, hn.mono hsub⟩, ?_⟩
  rintro d' ⟨n', hn'⟩
  obtain ⟨m, e, hm, hed⟩ := hn'.skip_source hw
  exact (hle ⟨m, hm⟩).trans hed

theorem Walk.rank_add_length_le {rank : V → ℕ} (hup : ∀ u v c, w u v = some c → rank u < rank v)
    (h : Walk w s v n d) : rank s + n ≤ rank v := by
  induction h with
  | nil => exact le_rfl
  | snoc _ hc ih => exact Nat.succ_le_of_lt (ih.trans_lt (hup _ _ _ hc))

theorem Walk.eq_source (hs : ∀ v, w s v = none) (h : Walk w s v n d) : v = s := by
  induction h with
  | nil => rfl
  | snoc _ hc ih =>
    subst ih
    rw [hs] at hc
    cases hc

end TacticalMesh
