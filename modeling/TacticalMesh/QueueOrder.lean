import TacticalMesh.LazyDijkstra

namespace TacticalMesh
set_option autoImplicit true

/-- An order in which a queue pops its entries: by cost, and by vertex where the costs are equal. -/
structure CostOrder (le : ℕ × V → ℕ × V → Prop) : Prop where
  total : ∀ a b, le a b ∨ le b a
  trans : ∀ a b c, le a b → le b c → le a c
  antisymm : ∀ a b, le a b → le b a → a = b
  fst_le : ∀ a b, le a b → a.1 ≤ b.1
  of_lt : ∀ a b, a.1 < b.1 → le a b

theorem CostOrder.refl {le : ℕ × V → ℕ × V → Prop} (h : CostOrder le) (a : ℕ × V) : le a a :=
  (h.total a a).elim id id

/-- The last vertex that a cheapest walk to `v` goes through, and where there are several the one
that a queue pops first. -/
structure Preferred (le : ℕ × V → ℕ × V → Prop) (w : Weights V) (s v u : V) (du c : ℕ) : Prop where
  least : IsLeast (walkCosts w s u) du
  edge : w u v = some c
  tight : IsLeast (walkCosts w s v) (du + c)
  first : ∀ x dx c', IsLeast (walkCosts w s x) dx → w x v = some c' → dx + c' = du + c →
    le (du, u) (dx, x)

theorem Preferred.unique {le : ℕ × V → ℕ × V → Prop} (hle : CostOrder le)
    (h : Preferred le w s v u du c) (h' : Preferred le w s v u' du' c') : u = u' := by
  have hsum := h.tight.unique h'.tight
  have heq := hle.antisymm _ _ (h.first u' du' c' h'.least h'.edge hsum.symm)
    (h'.first u du c h.least h.edge hsum)
  exact congrArg Prod.snd heq

theorem isLeast_source (w : Weights V) (s : V) : IsLeast (walkCosts w s s) 0 :=
  ⟨⟨0, .nil⟩, fun _ _ => Nat.zero_le _⟩

/-- The walk to a vertex on which every vertex is entered by its preferred edge: `first` is the one
after the source, and `n` the number of edges. -/
inductive PreferredPath (le : ℕ × V → ℕ × V → Prop) (w : Weights V) (s first : V) :
    V → ℕ → Prop where
  | single : Preferred le w s first s du c → PreferredPath le w s first first 1
  | snoc : PreferredPath le w s first u n → u ≠ s → Preferred le w s v u du c →
    PreferredPath le w s first v (n + 1)

theorem PreferredPath.walk (h : PreferredPath le w s first v n) : ∃ m d c, n = m + 1 ∧
    w s first = some c ∧ Walk w first v m d ∧ IsLeast (walkCosts w s v) (c + d) := by
  induction h with
  | @single du c hp =>
    have hzero : du = 0 := hp.least.unique (isLeast_source w s)
    have htight := hp.tight
    rw [hzero, Nat.zero_add] at htight
    exact ⟨0, 0, c, rfl, hp.edge, .nil, htight⟩
  | @snoc u n v du c _ _ hp ih =>
    obtain ⟨m, d, c₁, rfl, hfirst, hwalk, hleast⟩ := ih
    have hdu : du = c₁ + d := hp.least.unique hleast
    have htight := hp.tight
    rw [hdu, Nat.add_assoc] at htight
    exact ⟨m + 1, d + c, c₁, rfl, hfirst, hwalk.snoc hp.edge, htight⟩

namespace Search
variable {V : Type} [DecidableEq V] {le : ℕ × V → ℕ × V → Prop} [DecidableRel le]
  {w : Weights V} {s u v : V} {M cap d c : ℕ} {E : V → V → Prop} {st : Search V} {k : ℕ × V}

/-- What the order of the queue adds to the loop, `k` being the last entry that was not stale: the
labels of popped vertices are final, and of the edges that give a label the first one popped
counts. -/
structure Greedy (le : ℕ × V → ℕ × V → Prop) (w : Weights V) (k : ℕ × V) (st : Search V) :
    Prop where
  sorted : st.heap.Pairwise le
  above : ∀ e ∈ st.heap, le k e
  settled : ∀ u d, st.dist u = some d → (d, u) ∈ st.heap ∨ le (d, u) k
  first : ∀ v u, st.prev v = some u → ∃ du c, st.dist u = some du ∧ w u v = some c ∧
    st.dist v = some (du + c) ∧ le (du, u) k ∧
    ∀ x dx c', st.dist x = some dx → w x v = some c' → dx + c' = du + c → le (du, u) (dx, x)

omit [DecidableRel le] in
theorem start_greedy (hle : CostOrder le) (w : Weights V) (s : V) :
    Greedy le w (0, s) (start s) := by
  constructor
  case sorted => exact List.pairwise_singleton ..
  case above =>
    intro e he
    rw [List.mem_singleton.1 he]
    exact hle.refl _
  case settled =>
    intro u d hu
    simp only [start, Table.insert_apply] at hu
    split at hu
    next he =>
      cases hu
      rw [he]
      exact .inr (hle.refl _)
    next => cases hu
  case first =>
    intro v u hv
    cases hv

omit [DecidableEq V] [DecidableRel le] in
theorem Greedy.pop_stale (h : Greedy le w k st) (hheap : st.heap = (d, u) :: rest)
    (hstale : (st.dist u).getD cap < d) : Greedy le w k { st with heap := rest } := by
  have hsorted := h.sorted
  have habove := h.above
  rw [hheap] at hsorted habove
  refine ⟨hsorted.of_cons, fun e he => habove e (.tail _ he), ?_, h.first⟩
  intro x dx hx
  exact (h.settled x dx hx).imp_left (mem_rest_of_stale hheap hstale hx)

omit [DecidableEq V] [DecidableRel le] in
theorem Greedy.pop_fresh (hle : CostOrder le) (h : Greedy le w k st)
    (hheap : st.heap = (d, u) :: rest) : Greedy le w (d, u) { st with heap := rest } := by
  have hsorted := h.sorted
  have hk : le k (d, u) := h.above _ (hheap ▸ .head _)
  rw [hheap] at hsorted
  constructor
  case sorted => exact hsorted.of_cons
  case above => exact fun e he => List.rel_of_pairwise_cons hsorted he
  case settled =>
    intro x dx hx
    rcases h.settled x dx hx with hq | hold
    · rw [hheap] at hq
      rcases List.mem_cons.1 hq with he | hq
      · exact .inr (he ▸ hle.refl _)
      · exact .inl hq
    · exact .inr (hle.trans _ _ _ hold hk)
  case first =>
    intro x y hy
    obtain ⟨dy, c, hdy, hc, hdx, hold, hfirst⟩ := h.first x y hy
    exact ⟨dy, c, hdy, hc, hdx, hle.trans _ _ _ hold hk, hfirst⟩

variable [Fintype V]

omit [DecidableEq V] in
/-- Of the vertices whose edge gives a label that is new, the popped one comes first. -/
theorem Greedy.le_of_lower (hle : CostOrder le) (h : Greedy le w (d, u) st) (hs : Sound w s M E st)
    (hE : ∀ x y, E x y → x = u) (hu : st.dist u = some d)
    (hlow : ∀ d', st.dist v = some d' → d + c < d') (hx : st.dist x = some dx)
    (hc' : w x v = some c') (hsum : dx + c' = d + c) : le (d, u) (dx, x) := by
  rcases hs.relaxed x dx hx with hq | hr
  · exact h.above _ hq
  · rcases hr v c' hc' with hex | ⟨d', hd', hle'⟩
    · cases hE x v hex
      cases hu.symm.trans hx
      exact hle.refl _
    · have := hlow d' hd'
      omega

theorem Greedy.improve (hle : CostOrder le) (h : Greedy le w (d, u) st) (hs : Sound w s M E st)
    (hE : ∀ x y, E x y → x = u) (hpos : ∀ x y c, w x y = some c → 0 < c)
    (hu : st.dist u = some d) (hw : w u v = some c) (hne : u ≠ v)
    (hlow : ∀ d', st.dist v = some d' → d + c < d') :
    Greedy le w (d, u)
      { dist := st.dist.insert v (d + c)
        prev := st.prev.insert v u
        heap := st.heap.orderedInsert le (d + c, v) } := by
  have hc := hpos u v c hw
  have hnew : le (d, u) (d + c, v) := hle.of_lt _ _ (by omega)
  constructor
  case sorted =>
    have htotal : Std.Total le := ⟨hle.total⟩
    have htrans : IsTrans (ℕ × V) le := ⟨hle.trans⟩
    exact h.sorted.orderedInsert _ _
  case above =>
    intro e he
    rcases (List.mem_orderedInsert le).1 he with rfl | he
    · exact hnew
    · exact h.above e he
  case settled =>
    intro x dx hx
    simp only [List.mem_orderedInsert]
    rcases label_insert_cases hx with he | hx
    · exact .inl (.inl he)
    · exact (h.settled x dx hx).imp_left .inr
  case first =>
    intro y x hy
    simp only [Table.insert_apply] at hy
    split at hy
    next he =>
      cases hy
      subst he
      refine ⟨d, c, (Table.insert_of_ne _ _ hne).trans hu, hw, Table.insert_self .., hle.refl _, ?_⟩
      intro x dx c' hx hc' hsum
      have hc₀ := hpos x y c' hc'
      simp only [Table.insert_apply] at hx
      split at hx
      next =>
        cases hx
        omega
      next => exact h.le_of_lower hle hs hE hu hlow hx hc' hsum
    next he =>
      obtain ⟨dx, c₁, hdx, hc₁, hdy, hold, hfirst⟩ := h.first y x hy
      have hxv : x ≠ v := by
        rintro rfl
        have hlt := hlow dx hdx
        have hfst := hle.fst_le _ _ hold
        simp only at hfst
        omega
      refine ⟨dx, c₁, (Table.insert_of_ne _ _ hxv).trans hdx, hc₁,
        (Table.insert_of_ne _ _ he).trans hdy, hold, ?_⟩
      intro z dz c' hz hc' hsum
      simp only [Table.insert_apply] at hz
      split at hz
      next hzv =>
        cases hz
        rw [hzv]
        exact hle.trans _ _ _ hold hnew
      next => exact hfirst z dz c' hz hc' hsum

theorem keeps_greedy (hle : CostOrder le) (hpos : ∀ u v c, w u v = some c → 0 < c)
    (hcap : Fintype.card V * M < cap) :
    Keeps cap le w s M (fun st => ∃ k, Greedy le w k st) fun d u => Greedy le w (d, u) where
  stale st d u rest h hheap hstale := by
    obtain ⟨k, h⟩ := h
    exact ⟨k, h.pop_stale hheap hstale⟩
  fresh st d u rest h hheap := by
    obtain ⟨k, h⟩ := h
    exact h.pop_fresh hle hheap
  relax E st d u v c h hs hE hu hw hM := by
    rcases hs.relax_cases le hu hM hcap with ⟨hne, hlow, heq⟩ | ⟨-, heq⟩
    · rw [heq]
      exact h.improve hle hs hE hpos hu hw hne hlow
    · rw [heq]
      exact h
  done st d u h := ⟨(d, u), h⟩

variable {edges : V → List (V × ℕ)}

theorem Greedy.run (hle : CostOrder le) (h : Greedy le w k st)
    (hs : Sound w s M (fun _ _ => False) st)
    (hedges : ∀ u v c, (v, c) ∈ edges u ↔ w u v = some c)
    (hpos : ∀ u v c, w u v = some c → 0 < c) (hM : ∀ u v c, w u v = some c → c ≤ M)
    (hcap : Fintype.card V * M < cap) (n : ℕ) : ∃ k', Greedy le w k' (st.run cap le edges n) := by
  exact (keeps_greedy hle hpos hcap).run ⟨k, h⟩ hs hedges hM hcap n

omit [DecidableEq V] [DecidableRel le] in
/-- When the search has ended, every predecessor is the preferred one. -/
theorem Greedy.preferred (h : Greedy le w k st) (hs : Sound w s M (fun _ _ => False) st)
    (hnil : st.heap = []) (hprev : st.prev v = some u) : ∃ du c, Preferred le w s v u du c := by
  obtain ⟨hleast, hreach⟩ := hs.isLeast hnil
  obtain ⟨du, c, hdu, hc, hdv, -, hfirst⟩ := h.first v u hprev
  refine ⟨du, c, hleast u du hdu, hc, hleast v _ hdv, ?_⟩
  intro x dx c' hx hc' hsum
  obtain ⟨n, hwalk⟩ := hx.1
  obtain ⟨dx', hdx'⟩ := Option.isSome_iff_exists.1 ((hreach x).2 ⟨n, dx, hwalk⟩)
  cases (hleast x dx' hdx').unique hx
  exact hfirst x _ c' hdx' hc' hsum

end Search
end TacticalMesh
