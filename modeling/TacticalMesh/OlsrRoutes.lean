import TacticalMesh.OlsrState

namespace TacticalMesh
set_option autoImplicit true

namespace OlsrState

/-- The link-state graph: measured edges out of the local node, advertised ones elsewhere. -/
def weights (s : OlsrState) : Weights UInt8 := fun u v =>
  if u = s.localId then (s.neighbors v).map fun e => linkCost e.linkQuality
  else (s.topology u).bind fun m => (m v).map linkCost

theorem mem_edges (s : OlsrState) (order : IterOrder) (u v : UInt8) (c : ℕ) :
    (v, c) ∈ s.edges order u ↔ s.weights u v = some c := by
  simp only [edges, weights]
  split
  · simp only [List.mem_map, Prod.exists, Table.mem_entries, Prod.mk.injEq,
      Option.map_eq_some_iff]
    constructor
    · rintro ⟨v, e, he, rfl, rfl⟩
      exact ⟨e, he, rfl⟩
    · rintro ⟨e, he, rfl⟩
      exact ⟨v, e, he, rfl, rfl⟩
  · cases s.topology u with
    | none => simp
    | some m =>
      simp only [List.mem_map, Prod.exists, Table.mem_entries, Prod.mk.injEq,
        Option.bind_some, Option.map_eq_some_iff]
      constructor
      · rintro ⟨v, q, hq, rfl, rfl⟩
        exact ⟨q, hq, rfl⟩
      · rintro ⟨q, hq, rfl⟩
        exact ⟨v, q, hq, rfl, rfl⟩

theorem weights_le (s : OlsrState) (u v : UInt8) (c : ℕ) (h : s.weights u v = some c) :
    c ≤ 2844 := by
  simp only [weights] at h
  split at h
  · obtain ⟨e, -, rfl⟩ := Option.map_eq_some_iff.1 h
    exact linkCost_le _
  · obtain ⟨m, -, hm⟩ := Option.bind_eq_some_iff.1 h
    obtain ⟨q, -, rfl⟩ := Option.map_eq_some_iff.1 hm
    exact linkCost_le _

theorem start_rounds (s : UInt8) : (Search.start s).potential u32Max ≤ searchRounds := by
  have h : (Search.start s).potential u32Max ≤ 1 + Fintype.card UInt8 * u32Max :=
    Search.start_potential s
  rwa [card_uint8] at h

/-- The main loop of `recompute_routes` ends: its queue is empty after `searchRounds` rounds. -/
theorem search_heap_nil (s : OlsrState) (order : IterOrder) (h : searchRounds ≤ rounds) :
    (s.search order rounds).heap = [] :=
  Search.run_heap_nil _ _ ((start_rounds _).trans h)

theorem search_eq (s : OlsrState) (order : IterOrder) (h : searchRounds ≤ rounds) :
    s.search order rounds = s.search order searchRounds :=
  Search.run_eq_of_potential_le _ (start_rounds _) h

theorem search_of_heap_nil {s : OlsrState} {order : IterOrder}
    (h : (s.search order rounds).heap = []) (hle : rounds ≤ searchRounds) :
    s.search order searchRounds = s.search order rounds := by
  obtain ⟨more, hmore⟩ := Nat.exists_eq_add_of_le hle
  rw [hmore, search, Search.run_add]
  exact Search.run_of_heap_nil _ h _

theorem search_isLeast (s : OlsrState) (order : IterOrder) :
    (∀ v d, (s.search order searchRounds).dist v = some d →
        IsLeast (walkCosts s.weights s.localId v) d) ∧
      ∀ v, ((s.search order searchRounds).dist v).isSome ↔ Reaches s.weights s.localId v := by
  have hcap : Fintype.card UInt8 * 2844 < u32Max := by
    rw [card_uint8]
    decide
  have hs : Search.Sound s.weights s.localId 2844 (fun _ _ => False)
      (s.search order searchRounds) :=
    (Search.start_sound _ _ _ _).run (s.mem_edges order) s.weights_le hcap _
  exact hs.isLeast (s.search_heap_nil order le_rfl)

/-- The routing table is the table of least-cost walks of the current link-state graph. -/
structure RoutesExact (s : OlsrState) : Prop where
  domain : ∀ d, (s.routes d).isSome ↔ d ≠ s.localId ∧ Reaches s.weights s.localId d
  cost : ∀ d r, s.routes d = some r → IsLeast (walkCosts s.weights s.localId d) r.cost

theorem recomputeRoutes_exact (s : OlsrState) (order : IterOrder) :
    (s.recomputeRoutes order).RoutesExact := by
  obtain ⟨hleast, hreach⟩ := s.search_isLeast order
  constructor
  case domain =>
    intro d
    have hd := hreach d
    simp only [recomputeRoutes]
    split
    · simp_all
    · rename_i hne
      rw [Option.isSome_map]
      exact hd.trans ⟨fun h => ⟨hne, h⟩, fun h => h.2⟩
  case cost =>
    intro d r hr
    simp only [recomputeRoutes] at hr
    split at hr
    · cases hr
    · obtain ⟨c, hc, rfl⟩ := Option.map_eq_some_iff.1 hr
      exact hleast d c hc

theorem clear_exact (s : OlsrState) (h : ∀ v, s.neighbors v = none) :
    RoutesExact { s with routes := .empty } := by
  have hw : ∀ v, s.weights s.localId v = none := by
    intro v
    simp only [weights, h, Option.map_none, ↓reduceIte]
  constructor
  case domain =>
    intro d
    simp only [Table.empty_apply, Option.isSome_none, Bool.false_eq_true, ne_eq, false_iff,
      not_and]
    rintro hne ⟨n, c, hwalk⟩
    exact hne (hwalk.eq_source hw)
  case cost =>
    intro d r hr
    cases hr

theorem processHello_exact (s : OlsrState) (h : s.RoutesExact) (hello : Hello)
    (fromLink : UInt8) (rssiDbm : Int8) (now : ℕ) (order : IterOrder) :
    (s.processHello hello fromLink rssiDbm now order).RoutesExact := by
  simp only [processHello]
  split
  · exact h
  · exact recomputeRoutes_exact _ _

theorem processTc_exact (s : OlsrState) (h : s.RoutesExact) (tc : Tc) (fromLink : UInt8)
    (order : IterOrder) : (s.processTc tc fromLink order).1.RoutesExact := by
  simp only [processTc]
  split
  · exact h
  · split
    · exact h
    · exact recomputeRoutes_exact _ _

theorem agingTick_exact (s : OlsrState) (h : s.RoutesExact) (now : ℕ)
    (staleOrder : KeyOrder UInt8) (order : IterOrder) :
    (s.agingTick now staleOrder order).RoutesExact := by
  simp only [agingTick]
  split
  · rename_i hnil
    rw [List.isEmpty_iff] at hnil
    rw [hnil]
    exact h
  · split
    · rename_i hempty
      apply clear_exact
      intro v
      rw [List.isEmpty_iff] at hempty
      by_contra hv
      obtain ⟨e, he⟩ := Option.ne_none_iff_exists'.1 hv
      have hmem := (Table.mem_entries _ staleOrder v e).2 he
      simp [hempty] at hmem
    · exact recomputeRoutes_exact _ _

end OlsrState

inductive OlsrEvent where
  | hello (hello : Hello) (fromLink : UInt8) (rssiDbm : Int8) (now : ℕ) (order : IterOrder)
  | tc (tc : Tc) (fromLink : UInt8) (order : IterOrder)
  | aging (now : ℕ) (staleOrder : KeyOrder UInt8) (order : IterOrder)

namespace OlsrState

def handle (s : OlsrState) : OlsrEvent → OlsrState
  | .hello hello fromLink rssiDbm now order => s.processHello hello fromLink rssiDbm now order
  | .tc tc fromLink order => (s.processTc tc fromLink order).1
  | .aging now staleOrder order => s.agingTick now staleOrder order

def run (s : OlsrState) (events : List OlsrEvent) : OlsrState := events.foldl handle s

theorem handle_exact (s : OlsrState) (h : s.RoutesExact) (e : OlsrEvent) :
    (s.handle e).RoutesExact := by
  cases e with
  | hello hello fromLink rssiDbm now order =>
    exact processHello_exact s h hello fromLink rssiDbm now order
  | tc tc fromLink order => exact processTc_exact s h tc fromLink order
  | aging now staleOrder order => exact agingTick_exact s h now staleOrder order

theorem run_exact (s : OlsrState) (h : s.RoutesExact) (events : List OlsrEvent) :
    (s.run events).RoutesExact := by
  induction events generalizing s with
  | nil => exact h
  | cons e events ih => exact ih _ (handle_exact s h e)

theorem foldl_forget_localId (stale : List UInt8) (s : OlsrState) :
    (stale.foldl forget s).localId = s.localId := by
  induction stale generalizing s with
  | nil => rfl
  | cons id stale ih => exact ih _

theorem handle_localId (s : OlsrState) (e : OlsrEvent) : (s.handle e).localId = s.localId := by
  cases e with
  | hello hello fromLink rssiDbm now order =>
    simp only [handle, processHello]
    split <;> rfl
  | tc tc fromLink order =>
    simp only [handle, processTc]
    split
    · rfl
    · split <;> rfl
  | aging now staleOrder order =>
    simp only [handle, agingTick]
    split
    · exact foldl_forget_localId _ s
    · split <;> exact foldl_forget_localId _ s

theorem run_localId (s : OlsrState) (events : List OlsrEvent) :
    (s.run events).localId = s.localId := by
  induction events generalizing s with
  | nil => rfl
  | cons e events ih => exact (ih _).trans (handle_localId s e)

theorem new_exact (localId : UInt8) : (new localId).RoutesExact :=
  clear_exact (new localId) fun _ => rfl

/-- In every reachable state the routes are the least-cost walks of the current tables, and
recomputing them ends: from `searchRounds` on the loop has stopped with an empty queue. -/
theorem reachable_routes_exact (localId : UInt8) (events : List OlsrEvent) :
    ((new localId).run events).localId = localId ∧ ((new localId).run events).RoutesExact ∧
      ∀ order rounds, searchRounds ≤ rounds →
        (((new localId).run events).search order rounds).heap = [] ∧
          ((new localId).run events).search order rounds =
            ((new localId).run events).search order searchRounds := by
  refine ⟨run_localId _ events, run_exact _ (new_exact localId) events, ?_⟩
  intro order rounds h
  exact ⟨search_heap_nil _ order h, search_eq _ order h⟩

end OlsrState
end TacticalMesh
