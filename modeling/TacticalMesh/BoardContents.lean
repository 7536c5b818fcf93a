import TacticalMesh.TargetBoard

namespace TacticalMesh
set_option autoImplicit true

namespace TargetBoard

variable {id : UInt16}

theorem updatesFor_eq_nil (id : UInt16) (updates : List TargetUpdate) :
    updatesFor id updates = [] ↔ ∀ u ∈ updates, u.target.id ≠ id := by
  simp only [updatesFor, List.map_eq_nil_iff, List.filter_eq_nil_iff, decide_eq_true_eq,
    ne_eq]

theorem mergeAll_get_isSome (updates : List TargetUpdate) (id : UInt16) :
    ((mergeAll updates).get id).isSome ↔ ∃ u ∈ updates, u.target.id = id := by
  rw [mergeAll_get, foldl_keepGreater_isSome, ne_eq, updatesFor_eq_nil]
  push Not
  exact Iff.rfl

theorem mergeAll_get_eq_some (updates : List TargetUpdate) (id : UInt16) (t : Target) :
    (mergeAll updates).get id = some t ↔ FirstGreatest Target.key (updatesFor id updates) t := by
  rw [mergeAll_get, foldl_keepGreater_eq_some]

theorem merge_get_le (b : TargetBoard) (u : TargetUpdate) (h : b.get id = some t) :
    ∃ t', (b.merge u).get id = some t' ∧ t.key ≤ t'.key := by
  rw [merge_get]
  split
  · rcases keepGreater_cases Target.key (b.get id) u.target with ⟨hnew, hlt⟩ | ⟨hold, -⟩
    · rw [hnew]
      exact ⟨u.target, rfl, (hlt t h).le⟩
    · rw [hold]
      exact ⟨t, h, le_rfl⟩
  · exact ⟨t, h, le_rfl⟩

theorem foldl_merge_get_le (updates : List TargetUpdate) (b : TargetBoard)
    (h : b.get id = some t) :
    ∃ t', (updates.foldl merge b).get id = some t' ∧ t.key ≤ t'.key := by
  induction updates generalizing b t with
  | nil => exact ⟨t, h, le_rfl⟩
  | cons u updates ih =>
    obtain ⟨t', ht', hle⟩ := merge_get_le b u h
    obtain ⟨t'', ht'', hle'⟩ := ih (b.merge u) ht'
    exact ⟨t'', ht'', hle.trans hle'⟩

theorem merge_of_le {b : TargetBoard} {u : TargetUpdate} (h : b.get u.target.id = some t)
    (hle : u.target.key ≤ t.key) : b.merge u = b := by
  apply ext_get
  intro id
  rw [merge_get]
  split
  · rename_i hid
    rw [← hid, h, keepGreater, if_neg (not_lt_of_ge hle)]
  · rfl

theorem mergeAll_merge_mem {updates : List TargetUpdate} (hu : u ∈ updates) :
    (mergeAll updates).merge u = mergeAll updates := by
  have hsome := (mergeAll_get_isSome updates u.target.id).2 ⟨u, hu, rfl⟩
  obtain ⟨t, ht⟩ := Option.isSome_iff_exists.1 hsome
  apply merge_of_le ht
  apply ((mergeAll_get_eq_some updates _ t).1 ht).le
  exact (mem_updatesFor _ updates u.target).2 ⟨hu, rfl⟩

theorem merge_get_of_ne (b : TargetBoard) {u : TargetUpdate} (h : u.target.id ≠ id) :
    (b.merge u).get id = b.get id := by
  rw [merge_get, if_neg h]

/-- What a board holds after any sequence of updates, and what the run keeps on the way. -/
theorem mergeAll_holds (updates : List TargetUpdate) :
    (∀ id, ((mergeAll updates).get id).isSome ↔ ∃ u ∈ updates, u.target.id = id) ∧
      (∀ id t, (mergeAll updates).get id = some t ↔
        FirstGreatest Target.key (updatesFor id updates) t) ∧
      (∀ pre post, updates = pre ++ post → ∀ id t, (mergeAll pre).get id = some t →
        ∃ t', (mergeAll updates).get id = some t' ∧ t.key ≤ t'.key) ∧
      (∀ u ∈ updates, (mergeAll updates).merge u = mergeAll updates) ∧
      ∀ u id, u.target.id ≠ id →
        ((mergeAll updates).merge u).get id = (mergeAll updates).get id := by
  refine ⟨mergeAll_get_isSome updates, mergeAll_get_eq_some updates, ?_, ?_, ?_⟩
  · rintro pre post rfl id t ht
    rw [mergeAll, List.foldl_append]
    exact foldl_merge_get_le post (mergeAll pre) ht
  · intro u hu
    exact mergeAll_merge_mem hu
  · intro u id hid
    exact merge_get_of_ne (mergeAll updates) hid

end TargetBoard
end TacticalMesh
