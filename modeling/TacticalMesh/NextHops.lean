import TacticalMesh.HopByHop
import TacticalMesh.QueueOrder

namespace TacticalMesh
set_option autoImplicit true

/-- The next hop is a neighbor, and a least-cost walk that starts with it has `hopCount` edges. -/
def RouteEntry.Usable (r : RouteEntry) (s : OlsrState) (dest : UInt8) : Prop :=
  (s.neighbors r.nextHop).isSome ∧ ∃ n d c, s.weights s.localId r.nextHop = some c ∧
    Walk s.weights r.nextHop dest n d ∧ IsLeast (walkCosts s.weights s.localId dest) (c + d) ∧
    r.hopCount = n + 1

namespace OlsrState
variable {s : OlsrState} {order : IterOrder} {v first dest : UInt8} {n : ℕ}

theorem heapLe_costOrder : CostOrder heapLe where
  total := by
    rintro ⟨d, u⟩ ⟨d', u'⟩
    simp only [heapLe]
    rcases lt_trichotomy d d' with hlt | rfl | hlt
    · exact .inl (.inl hlt)
    · exact (UInt8.le_total u u').imp (fun h => .inr ⟨rfl, h⟩) fun h => .inr ⟨rfl, h⟩
    · exact .inr (.inl hlt)
  trans := by
    rintro ⟨d, u⟩ ⟨d', u'⟩ ⟨d'', u''⟩ (h | ⟨h, hu⟩) (h' | ⟨h', hu'⟩)
    · exact .inl (h.trans h')
    · exact .inl (h.trans_eq h')
    · exact .inl (h.trans_lt h')
    · exact .inr ⟨h.trans h', UInt8.le_trans hu hu'⟩
  antisymm := by
    rintro ⟨d, u⟩ ⟨d', u'⟩ (h | ⟨rfl, hu⟩) (h' | ⟨h', hu'⟩)
    · exact absurd h (lt_asymm h')
    · exact absurd h (h' ▸ lt_irrefl _)
    · exact absurd h' (lt_irrefl _)
    · exact Prod.ext rfl (UInt8.le_antisymm hu hu')
  fst_le := by
    rintro a b (h | ⟨h, -⟩)
    · exact h.le
    · exact h.le
  of_lt _ _ h := .inl h

theorem weights_pos (s : OlsrState) (u v : UInt8) (c : ℕ) (h : s.weights u v = some c) :
    0 < c := by
  simp only [weights] at h
  split at h
  · obtain ⟨e, -, rfl⟩ := Option.map_eq_some_iff.1 h
    exact linkCost_pos _
  · obtain ⟨m, -, hm⟩ := Option.bind_eq_some_iff.1 h
    obtain ⟨q, -, rfl⟩ := Option.map_eq_some_iff.1 hm
    exact linkCost_pos _

abbrev Prefers (s : OlsrState) : UInt8 → UInt8 → ℕ → ℕ → Prop :=
  Preferred heapLe s.weights s.localId

/-- The least-cost path that the order of the queue prefers among equally cheap ones. -/
abbrev Path (s : OlsrState) : UInt8 → UInt8 → ℕ → Prop :=
  PreferredPath heapLe s.weights s.localId

theorem Prefers.ne_source (h : s.Prefers v u du c) : v ≠ s.localId := by
  rintro rfl
  have hzero := h.tight.unique (isLeast_source s.weights s.localId)
  have hpos := s.weights_pos _ _ _ h.edge
  omega

theorem search_prev (s : OlsrState) (order : IterOrder) :
    (s.search order searchRounds).prev v = some u ↔ ∃ du c, s.Prefers v u du c := by
  obtain ⟨hsound, hparents⟩ := s.search_sound order
  have hcap : Fintype.card UInt8 * 2844 < u32Max := by
    rw [card_uint8]
    decide
  have hstart := Search.start_sound s.weights s.localId 2844 fun _ _ => False
  have hnil := s.search_heap_nil order le_rfl
  have hgreedy : ∃ k, Search.Greedy heapLe s.weights k (s.search order searchRounds) :=
    (Search.start_greedy heapLe_costOrder _ _).run heapLe_costOrder hstart (s.mem_edges order)
      s.weights_pos s.weights_le hcap _
  obtain ⟨k, hgreedy⟩ := hgreedy
  constructor
  · exact hgreedy.preferred hsound hnil
  · rintro ⟨du, c, hp⟩
    obtain ⟨-, hreach⟩ := hsound.isLeast hnil
    obtain ⟨n, hwalk⟩ := hp.tight.1
    have hprev := (hparents.parent v ((hreach v).2 ⟨n, _, hwalk⟩)).resolve_left hp.ne_source
    obtain ⟨u', hu'⟩ := Option.isSome_iff_exists.1 hprev
    obtain ⟨du', c', hp'⟩ := hgreedy.preferred hsound hnil hu'
    rw [hu', hp'.unique heapLe_costOrder hp]

theorem exists_path (s : OlsrState) (hne : v ≠ s.localId)
    (hleast : IsLeast (walkCosts s.weights s.localId v) d) : ∃ first n, s.Path first v n := by
  obtain ⟨hsound, hparents⟩ := s.search_sound fun _ => byteOrder
  have hnil := s.search_heap_nil (fun _ => byteOrder) le_rfl
  obtain ⟨-, hreach⟩ := hsound.isLeast hnil
  induction d using Nat.strong_induction_on generalizing v with
  | _ d ih =>
    obtain ⟨n, hwalk⟩ := hleast.1
    have hprev := (hparents.parent v ((hreach v).2 ⟨n, d, hwalk⟩)).resolve_left hne
    obtain ⟨u, hu⟩ := Option.isSome_iff_exists.1 hprev
    obtain ⟨du, c, hp⟩ := (s.search_prev _).1 hu
    by_cases hu : u = s.localId
    · subst hu
      exact ⟨v, 1, .single hp⟩
    · have hd := hleast.unique hp.tight
      have hpos := s.weights_pos _ _ _ hp.edge
      obtain ⟨first, n, hpath⟩ := ih du (by omega) hu hp.least
      exact ⟨first, n + 1, .snoc hpath hu hp⟩

theorem traceBack_path (s : OlsrState) (order : IterOrder) (h : s.Path first v n) (left hops : ℕ) :
    let prev := (s.search order searchRounds).prev
    (n ≤ left → traceBack prev s.localId left v hops = (first, hops + n)) ∧
      (left < n → ∃ v', s.Path first v' (n - left) ∧
        traceBack prev s.localId left v hops = (v', hops + left)) := by
  induction left generalizing v n hops with
  | zero =>
    refine ⟨?_, fun _ => ⟨v, h, rfl⟩⟩
    intro hn
    cases h <;> cases hn
  | succ left ih =>
    cases h with
    | single hp =>
      have hprev := (s.search_prev order).2 ⟨_, _, hp⟩
      refine ⟨fun _ => ?_, fun hlt => by omega⟩
      rw [traceBack, hprev]
      exact if_pos rfl
    | @snoc u n _ _ _ hpath hu hp =>
      have hprev := (s.search_prev order).2 ⟨_, _, hp⟩
      have hstep : traceBack (s.search order searchRounds).prev s.localId (left + 1) v hops =
          traceBack (s.search order searchRounds).prev s.localId left u (hops + 1) := by
        rw [traceBack, hprev]
        exact if_neg hu
      obtain ⟨hshort, hlong⟩ := ih hpath (hops + 1)
      simp only [hstep]
      constructor
      · intro hn
        rw [hshort (by omega)]
        congr 1
        omega
      · intro hlt
        obtain ⟨v', hv', htrace⟩ := hlong (by omega)
        refine ⟨v', ?_, ?_⟩
        · rwa [Nat.add_sub_add_right]
        · rw [htrace]
          congr 1
          omega

/-- What is stored for a destination, in terms of its preferred path. -/
theorem routes_path (s : OlsrState) (order : IterOrder)
    (hr : (s.recomputeRoutes order).routes dest = some r) :
    ∃ first n, s.Path first dest n ∧
      (n ≤ Olsr.maxHops → r.nextHop = first ∧ r.hopCount = n) ∧
      (Olsr.maxHops < n → s.Path first r.nextHop (n - Olsr.maxHops) ∧
        r.hopCount = Olsr.maxHops) := by
  have hleast := (s.recomputeRoutes_exact order).cost dest r hr
  simp only [recomputeRoutes] at hr
  split at hr
  next => cases hr
  next hne =>
    obtain ⟨first, n, hpath⟩ := s.exists_path hne hleast
    obtain ⟨cost, -, rfl⟩ := Option.map_eq_some_iff.1 hr
    obtain ⟨hshort, hlong⟩ := s.traceBack_path order hpath Olsr.maxHops 0
    refine ⟨first, n, hpath, ?_, ?_⟩
    · intro hn
      simp only [hshort hn, Nat.zero_add, and_self]
    · intro hn
      obtain ⟨v', hv', htrace⟩ := hlong hn
      simp only [htrace, Nat.zero_add, and_true]
      exact hv'

theorem routes_isSome (s : OlsrState) (order : IterOrder) (h : s.Path first dest n) :
    ∃ r, (s.recomputeRoutes order).routes dest = some r := by
  apply Option.isSome_iff_exists.1
  apply ((s.recomputeRoutes_exact order).domain dest).2
  have hne : dest ≠ s.localId := by
    cases h with
    | single hp => exact Prefers.ne_source hp
    | snoc _ _ hp => exact Prefers.ne_source hp
  obtain ⟨m, d, c, -, -, -, ⟨n', hwalk⟩, -⟩ := h.walk
  exact ⟨hne, n', _, hwalk⟩

theorem path_unique (h : s.Path first v n) (h' : s.Path first' v n') :
    first = first' ∧ n = n' := by
  induction h generalizing first' n' with
  | single hp =>
    cases h' with
    | single => exact ⟨rfl, rfl⟩
    | snoc _ hu hp' => exact absurd (hp.unique heapLe_costOrder hp').symm hu
  | snoc _ hu hp ih =>
    cases h' with
    | single hp' => exact absurd (hp.unique heapLe_costOrder hp') hu
    | snoc hpath' _ hp' =>
      cases hp.unique heapLe_costOrder hp'
      obtain ⟨hfirst, hn⟩ := ih hpath'
      exact ⟨hfirst, by rw [hn]⟩

theorem isSome_neighbors_of_weights (h : s.weights s.localId v = some c) :
    (s.neighbors v).isSome := by
  rw [weights, if_pos rfl] at h
  obtain ⟨e, he, -⟩ := Option.map_eq_some_iff.1 h
  rw [he]
  rfl

theorem Path.eq_one_of_direct (h : s.Path first v n) (hc : s.weights s.localId v = some c)
    (hleast : IsLeast (walkCosts s.weights s.localId v) c) : n = 1 := by
  cases h with
  | single => rfl
  | @snoc u n _ du c' hpath hu hp =>
    have hsum := hp.tight.unique hleast
    have hfirst := hp.first _ 0 c (isLeast_source _ _) hc (by omega)
    have hdu : du ≤ 0 := heapLe_costOrder.fst_le _ _ hfirst
    -- only the local node itself costs nothing
    obtain ⟨m, d, c₁, -, hc₁, -, hleast'⟩ := hpath.walk
    have hpos := s.weights_pos _ _ _ hc₁
    have hzero := hp.least.unique hleast'
    omega

theorem isLeast_direct (hc : s.weights s.localId v = some c) (hwalk : Walk s.weights v dest n d)
    (hleast : IsLeast (walkCosts s.weights s.localId dest) (c + d)) :
    IsLeast (walkCosts s.weights s.localId v) c := by
  refine ⟨⟨1, by simpa using Walk.nil.cons hc⟩, ?_⟩
  rintro d' ⟨n', hn'⟩
  have hle := hleast.2 ⟨_, hn'.append hwalk⟩
  omega

theorem Path.eq_first (h : s.Path first v 1) : v = first := by
  cases h with
  | single => rfl
  | snoc hpath => cases hpath

/-- There is a least-cost walk of eight edges that starts with the same neighbor. -/
def EightHopDetour (s : OlsrState) (first dest : UInt8) : Prop :=
  ∃ c d, s.weights s.localId first = some c ∧ Walk s.weights first dest 7 d ∧
    IsLeast (walkCosts s.weights s.localId dest) (c + d)

/-- Every next hop is usable exactly if no preferred path has more than eight edges, or nine where
another least-cost walk through the same neighbor has eight. -/
theorem nextHops_usable_iff (s : OlsrState) (order : IterOrder) :
    (∀ dest r, (s.recomputeRoutes order).routes dest = some r → r.Usable s dest) ↔
      ∀ first dest n, s.Path first dest n →
        n ≤ Olsr.maxHops ∨ n = Olsr.maxHops + 1 ∧ s.EightHopDetour first dest := by
  constructor
  · intro h first dest n hpath
    obtain ⟨r, hr⟩ := s.routes_isSome order hpath
    obtain ⟨first', n', hpath', -, hlong⟩ := s.routes_path order hr
    obtain ⟨rfl, rfl⟩ := path_unique hpath hpath'
    by_cases hn : n ≤ Olsr.maxHops
    · exact .inl hn
    · obtain ⟨hnext, hcount⟩ := hlong (not_le.1 hn)
      obtain ⟨-, m, d, c, hc, hwalk, hleast, hm⟩ := h dest r hr
      have hseven : m = 7 := by
        rw [hcount] at hm
        exact (Nat.succ.inj hm).symm
      -- the direct edge to the next hop is cheapest, so nothing precedes it on the path
      have hone : n - Olsr.maxHops = 1 := hnext.eq_one_of_direct hc (isLeast_direct hc hwalk hleast)
      rw [hone] at hnext
      rw [Path.eq_first hnext, hseven] at hwalk
      rw [Path.eq_first hnext] at hc
      exact .inr ⟨by omega, c, d, hc, hwalk, hleast⟩
  · intro h dest r hr
    obtain ⟨first, n, hpath, hshort, hlong⟩ := s.routes_path order hr
    rcases h first dest n hpath with hn | ⟨rfl, c, d, hc, hwalk, hleast⟩
    · obtain ⟨hnext, hcount⟩ := hshort hn
      obtain ⟨m, d, c, rfl, hc, hwalk, hleast⟩ := hpath.walk
      rw [← hnext] at hc hwalk
      exact ⟨isSome_neighbors_of_weights hc, m, d, c, hc, hwalk, hleast, hcount⟩
    · obtain ⟨hnext, hcount⟩ := hlong (Nat.lt_succ_self _)
      rw [Nat.add_sub_cancel_left] at hnext
      rw [← Path.eq_first hnext] at hc hwalk
      exact ⟨isSome_neighbors_of_weights hc, 7, d, c, hc, hwalk, hleast, hcount⟩

/-- Eleven nodes in a row, as the first of them sees it. -/
def longChain : OlsrState where
  localId := 0
  neighbors v := if v = 1 then some ⟨1, ⟨-30, 0, 0⟩, 0, []⟩ else none
  twoHop := .empty
  topology u := if 0 < u ∧ u < 10 then
    some fun v => if v = u + 1 then some ⟨-30, 0, 0⟩ else none else none
  routes := .empty
  lastTcSeq := .empty

theorem longChain_search : longChain.search (fun _ => byteOrder) searchRounds =
    longChain.search (fun _ => byteOrder) 11 :=
  search_of_heap_nil (by decide +kernel) (by decide)

/-- The route to the last node names a next hop that is no neighbor. -/
theorem longChain_unusable : longChain.neighbors longChain.localId = none ∧
    ∃ r, (longChain.recomputeRoutes fun _ => byteOrder).routes 10 = some r ∧
      r.nextHop = 2 ∧ r.hopCount = 8 ∧ (longChain.neighbors r.nextHop).isNone ∧
      ¬ r.Usable longChain 10 := by
  have hroute : (longChain.recomputeRoutes fun _ => byteOrder).routes 10 =
      some ⟨10, 2, 1000, 8⟩ := by
    simp only [recomputeRoutes, longChain_search]
    decide +kernel
  refine ⟨by decide, _, hroute, rfl, rfl, by decide, ?_⟩
  rintro ⟨hsome, -⟩
  cases hsome

end OlsrState
end TacticalMesh
