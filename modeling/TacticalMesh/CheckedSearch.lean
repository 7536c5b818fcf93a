import TacticalMesh.LazyDijkstra

namespace TacticalMesh
set_option autoImplicit true

namespace Search
variable {V : Type} [DecidableEq V] {cap : ℕ} {le : ℕ × V → ℕ × V → Prop} [DecidableRel le]
  {edges : V → Option (List (V × ℕ))} {edges' : V → List (V × ℕ)} {w : Weights V} {s : V} {M : ℕ}
  {st st' : Search V}

/-- A round in which computing the edges of the popped vertex can fail. -/
def visitChecked (cap : ℕ) (le : ℕ × V → ℕ × V → Prop) [DecidableRel le]
    (edges : V → Option (List (V × ℕ))) (st : Search V) : Option (Search V) :=
  match st.heap with
  | [] => some st
  | (d, u) :: rest =>
    let st := { st with heap := rest }
    if (st.dist u).getD cap < d then some st
    else (edges u).map fun es => es.foldl (relax cap le u d) st

def runChecked (cap : ℕ) (le : ℕ × V → ℕ × V → Prop) [DecidableRel le]
    (edges : V → Option (List (V × ℕ))) : ℕ → Search V → Option (Search V)
  | 0, st => some st
  | n + 1, st =>
    match st.heap with
    | [] => some st
    | _ :: _ => (visitChecked cap le edges st).bind (runChecked cap le edges n)

theorem visitChecked_eq (hsome : ∀ u es, edges u = some es → es = edges' u)
    (h : st.visitChecked cap le edges = some st') : st' = st.visit cap le edges' := by
  obtain ⟨dist, prev, heap⟩ := st
  cases heap with
  | nil =>
    cases h
    rfl
  | cons e rest =>
    simp only [visitChecked] at h
    simp only [visit]
    split at h
    next hstale =>
      cases h
      rw [if_pos hstale]
    next hfresh =>
      obtain ⟨es, hes, rfl⟩ := Option.map_eq_some_iff.1 h
      rw [if_neg hfresh, hsome _ es hes]

theorem runChecked_eq (hsome : ∀ u es, edges u = some es → es = edges' u) {n : ℕ}
    (h : st.runChecked cap le edges n = some st') : st' = st.run cap le edges' n := by
  induction n generalizing st with
  | zero =>
    cases h
    rfl
  | succ n ih =>
    obtain ⟨dist, prev, heap⟩ := st
    cases heap with
    | nil =>
      cases h
      rfl
    | cons e rest =>
      obtain ⟨st₁, h₁, h⟩ := Option.bind_eq_some_iff.1 h
      obtain rfl := visitChecked_eq hsome h₁
      exact ih h

/-- The edges of every labelled vertex have been computed, or still will be. -/
def Explored (edges : V → Option (List (V × ℕ))) (st : Search V) : Prop :=
  ∀ u d, st.dist u = some d → (d, u) ∈ st.heap ∨ (edges u).isSome

theorem start_explored (edges : V → Option (List (V × ℕ))) (s : V) :
    Explored edges (start s) := by
  intro u d hu
  simp only [start, Table.insert_apply, Table.empty_apply] at hu
  split at hu
  next he =>
    cases hu
    rw [he]
    exact .inl (.head _)
  next => cases hu

theorem Explored.relax (h : Explored edges st) (u : V) (d : ℕ) (e : V × ℕ) :
    Explored edges (st.relax cap le u d e) := by
  simp only [Search.relax]
  split
  next =>
    intro x dx hx
    simp only [List.mem_orderedInsert]
    rcases label_insert_cases hx with he | hx
    · exact .inl (.inl he)
    · exact (h x dx hx).imp_left .inr
  next => exact h

theorem Explored.relaxAll (h : Explored edges st) (u : V) (d : ℕ) (es : List (V × ℕ)) :
    Explored edges (es.foldl (Search.relax cap le u d) st) := by
  induction es generalizing st with
  | nil => exact h
  | cons e es ih => exact ih (h.relax u d e)

theorem Explored.visitChecked (h : Explored edges st)
    (hvisit : st.visitChecked cap le edges = some st') : Explored edges st' := by
  obtain ⟨dist, prev, heap⟩ := st
  cases heap with
  | nil =>
    cases hvisit
    exact h
  | cons e rest =>
    obtain ⟨d, u⟩ := e
    simp only [Search.visitChecked] at hvisit
    split at hvisit
    next hstale =>
      cases hvisit
      intro x dx hx
      exact (h x dx hx).imp_left (mem_rest_of_stale rfl hstale hx)
    next =>
      obtain ⟨es, hes, rfl⟩ := Option.map_eq_some_iff.1 hvisit
      apply Explored.relaxAll
      intro x dx hx
      rcases h x dx hx with hq | hsome
      · rcases List.mem_cons.1 hq with he | hq
        · cases he
          rw [hes]
          exact .inr rfl
        · exact .inl hq
      · exact .inr hsome

theorem Explored.runChecked {n : ℕ} (h : Explored edges st)
    (hrun : st.runChecked cap le edges n = some st') : Explored edges st' := by
  induction n generalizing st with
  | zero =>
    cases hrun
    exact h
  | succ n ih =>
    simp only [Search.runChecked] at hrun
    split at hrun
    next =>
      cases hrun
      exact h
    next =>
      obtain ⟨st₁, h₁, hrun⟩ := Option.bind_eq_some_iff.1 hrun
      exact ih (h.visitChecked h₁) hrun

variable [Fintype V]

theorem Sound.runChecked_isSome {n : ℕ} (hs : Sound w s M (fun _ _ => False) st)
    (hsome : ∀ u es, edges u = some es → es = edges' u)
    (hedges : ∀ u v c, (v, c) ∈ edges' u ↔ w u v = some c)
    (hM : ∀ u v c, w u v = some c → c ≤ M) (hcap : Fintype.card V * M < cap)
    (hreach : ∀ u, Reaches w s u → (edges u).isSome) :
    (st.runChecked cap le edges n).isSome := by
  induction n generalizing st with
  | zero => rfl
  | succ n ih =>
    simp only [runChecked]
    split
    next => rfl
    next e rest hheap =>
      obtain ⟨d', hd', -⟩ := hs.queued e.1 e.2 (hheap ▸ .head _)
      obtain ⟨m, hwalk⟩ := hs.walk e.2 d' hd'
      obtain ⟨es, hes⟩ := Option.isSome_iff_exists.1 (hreach e.2 ⟨m, d', hwalk⟩)
      have hvisit : ∃ st₁, st.visitChecked cap le edges = some st₁ := by
        simp only [visitChecked, hheap, hes, Option.map_some]
        split
        · exact ⟨_, rfl⟩
        · exact ⟨_, rfl⟩
      obtain ⟨st₁, hst₁⟩ := hvisit
      rw [hst₁, Option.bind_some]
      apply ih
      rw [visitChecked_eq hsome hst₁]
      exact hs.visit hedges hM hcap

/-- The search fails exactly if the edges of some vertex that can be reached cannot be computed. -/
theorem runChecked_start_isSome {n : ℕ} (hsome : ∀ u es, edges u = some es → es = edges' u)
    (hedges : ∀ u v c, (v, c) ∈ edges' u ↔ w u v = some c)
    (hM : ∀ u v c, w u v = some c → c ≤ M) (hcap : Fintype.card V * M < cap)
    (hn : (start s).potential cap ≤ n) :
    ((start s).runChecked cap le edges n).isSome ↔ ∀ u, Reaches w s u → (edges u).isSome := by
  have hstart := start_sound w s M fun _ _ => False
  constructor
  · intro h u hu
    obtain ⟨st', hrun⟩ := Option.isSome_iff_exists.1 h
    have hnil : st'.heap = [] := by
      rw [runChecked_eq hsome hrun]
      exact run_heap_nil n _ hn
    have hsound : Sound w s M (fun _ _ => False) st' := by
      rw [runChecked_eq hsome hrun]
      exact hstart.run hedges hM hcap n
    obtain ⟨d, hd⟩ := Option.isSome_iff_exists.1 (((hsound.isLeast hnil).2 u).2 hu)
    rcases (start_explored edges s).runChecked hrun u d hd with hq | hsome
    · rw [hnil] at hq
      cases hq
    · exact hsome
  · exact hstart.runChecked_isSome hsome hedges hM hcap

end Search
end TacticalMesh
