import TacticalMesh.LazyDijkstra

namespace TacticalMesh
set_option autoImplicit true

namespace Search
variable {V : Type} [DecidableEq V] [Fintype V] {cap : ℕ} {le : ℕ × V → ℕ × V → Prop}
  [DecidableRel le] {edges : V → List (V × ℕ)} {w : Weights V} {s : V} {M : ℕ}

/-- The predecessors reach every labelled vertex from the source, and no label is below what the
edge from its predecessor makes of the label there. -/
structure Parents (w : Weights V) (s : V) (st : Search V) : Prop where
  parent : ∀ v, (st.dist v).isSome → v = s ∨ (st.prev v).isSome
  edge : ∀ v u, st.prev v = some u → ∃ dv du c, st.dist v = some dv ∧ st.dist u = some du ∧
    w u v = some c ∧ du + c ≤ dv

omit [Fintype V] in
theorem start_parents (w : Weights V) (s : V) : Parents w s (start s) where
  parent v hv := by
    rw [start, Table.insert_isSome] at hv
    rcases hv with hv | hv
    · exact .inl hv
    · cases hv
  edge v u hu := by cases hu

omit [Fintype V] in
theorem Parents.improve {heap : List (ℕ × V)} (h : Parents w s st) (hu : st.dist u = some d)
    (hw : w u v = some c) (hne : u ≠ v) (hlow : ∀ d', st.dist v = some d' → d + c < d') :
    Parents w s ⟨st.dist.insert v (d + c), st.prev.insert v u, heap⟩ := by
  constructor
  case parent =>
    intro x hx
    rw [Table.insert_isSome] at hx ⊢
    rcases hx with rfl | hx
    · exact .inr (.inl rfl)
    · exact (h.parent x hx).imp_right .inr
  case edge =>
    intro x y hy
    simp only [Table.insert_apply] at hy
    split at hy
    next he =>
      cases hy
      subst he
      exact ⟨_, d, c, Table.insert_self .., (Table.insert_of_ne _ _ hne).trans hu, hw, le_rfl⟩
    next he =>
      obtain ⟨dx, dy, c', hdx, hdy, hc', hle⟩ := h.edge x y hy
      obtain ⟨dy', hdy', hle'⟩ := label_le_insert hlow hdy
      refine ⟨dx, dy', c', (Table.insert_of_ne _ _ he).trans hdx, hdy', hc', ?_⟩
      omega

theorem keeps_parents (hcap : Fintype.card V * M < cap) :
    Keeps cap le w s M (Parents w s) fun _ _ => Parents w s where
  stale _ _ _ _ h _ _ := ⟨h.parent, h.edge⟩
  fresh _ _ _ _ h _ := ⟨h.parent, h.edge⟩
  relax E st d u v c h hs _ hu hw hM := by
    rcases hs.relax_cases le hu hM hcap with ⟨hne, hlow, heq⟩ | ⟨-, heq⟩
    · rw [heq]
      exact h.improve hu hw hne hlow
    · rw [heq]
      exact h
  done _ _ _ h := h

theorem Parents.run (h : Parents w s st) (hs : Sound w s M (fun _ _ => False) st)
    (hedges : ∀ u v c, (v, c) ∈ edges u ↔ w u v = some c)
    (hM : ∀ u v c, w u v = some c → c ≤ M) (hcap : Fintype.card V * M < cap) (n : ℕ) :
    Parents w s (st.run cap le edges n) :=
  (keeps_parents hcap).run h hs hedges hM hcap n

omit [DecidableEq V] in
/-- When the search has ended, every edge of the tree is tight. -/
theorem Parents.tight (h : Parents w s st) (hs : Sound w s M (fun _ _ => False) st)
    (hnil : st.heap = []) (hprev : st.prev v = some u) :
    ∃ du c, st.dist u = some du ∧ w u v = some c ∧ st.dist v = some (du + c) := by
  obtain ⟨dv, du, c, hv, hu, hc, hle⟩ := h.edge v u hprev
  refine ⟨du, c, hu, hc, ?_⟩
  rcases hs.relaxed u du hu with hq | hr
  · rw [hnil] at hq
    cases hq
  · obtain ⟨d', hd', hle'⟩ := (hr v c hc).resolve_left id
    rw [hv] at hd'
    cases hd'
    rw [hv, Nat.le_antisymm hle' hle]

end Search
end TacticalMesh
