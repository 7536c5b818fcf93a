import TacticalMesh.OlsrRoutes
import TacticalMesh.Runs
import TacticalMesh.ShortestPathTree

namespace TacticalMesh
set_option autoImplicit true

namespace OlsrState

theorem search_sound (s : OlsrState) (order : IterOrder) :
    Search.Sound s.weights s.localId 2844 (fun _ _ => False) (s.search order searchRounds) ∧
      Search.Parents s.weights s.localId (s.search order searchRounds) := by
  have hcap : Fintype.card UInt8 * 2844 < u32Max := by
    rw [card_uint8]
    decide
  have hstart := Search.start_sound s.weights s.localId 2844 fun _ _ => False
  exact ⟨hstart.run (s.mem_edges order) s.weights_le hcap _,
    (Search.start_parents _ _).run hstart (s.mem_edges order) s.weights_le hcap _⟩

/-- Following the predecessors gives the tail of a cheapest walk: all of it but its first edge, or
as much as the steps allow. -/
theorem traceBack_walk (s : OlsrState) (order : IterOrder) (left : ℕ)
    (hv : (s.search order searchRounds).dist v = some d) (hne : v ≠ s.localId) (hops : ℕ) :
    let r := traceBack (s.search order searchRounds).prev s.localId left v hops
    ∃ n d' c, Walk s.weights r.1 v n d' ∧ c + d' = d ∧
      (r.2 = hops + n + 1 ∧ s.weights s.localId r.1 = some c ∨ r.2 = hops + left ∧ n = left) := by
  obtain ⟨hsound, hparents⟩ := s.search_sound order
  have hnil := s.search_heap_nil order le_rfl
  induction left generalizing v d hops with
  | zero => exact ⟨0, 0, d, .nil, Nat.add_zero d, .inr ⟨rfl, rfl⟩⟩
  | succ left ih =>
    have hprev := (hparents.parent v (by rw [hv]; rfl)).resolve_left hne
    obtain ⟨p, hp⟩ := Option.isSome_iff_exists.1 hprev
    obtain ⟨dp, c, hdp, hc, hvc⟩ := hparents.tight hsound hnil hp
    rw [hv] at hvc
    cases hvc
    simp only [traceBack, hp]
    split
    next hlocal =>
      subst hlocal
      rw [hsound.source] at hdp
      cases hdp
      exact ⟨0, 0, c, .nil, by omega, .inl ⟨rfl, hc⟩⟩
    next hlocal =>
      obtain ⟨n, d', c', hwalk, hcost, hends⟩ := ih hdp hlocal (hops + 1)
      refine ⟨n + 1, d' + c, c', hwalk.snoc hc, by omega, ?_⟩
      rcases hends with ⟨hr, hfirst⟩ | ⟨hr, hn⟩
      · exact .inl ⟨by omega, hfirst⟩
      · exact .inr ⟨by omega, by omega⟩

theorem recomputeRoutes_next (s : OlsrState) (order : IterOrder)
    (hr : (s.recomputeRoutes order).routeTo dst = some r) (hhops : r.hopCount < Olsr.maxHops) :
    ∃ n d c, s.weights s.localId r.nextHop = some c ∧ Walk s.weights r.nextHop dst n d ∧
      c + d = r.cost := by
  simp only [routeTo, recomputeRoutes] at hr
  split at hr
  · cases hr
  · rename_i hne
    obtain ⟨cost, hcost, rfl⟩ := Option.map_eq_some_iff.1 hr
    obtain ⟨n, d, c, hwalk, hsum, hends⟩ := s.traceBack_walk order Olsr.maxHops hcost hne 0
    rcases hends with ⟨-, hfirst⟩ | ⟨hcut, -⟩
    · exact ⟨n, d, c, hfirst, hwalk, hsum⟩
    · simp only [hcut] at hhops
      omega

theorem recomputeRoutes_hopCount (s : OlsrState) (order : IterOrder)
    (hr : (s.recomputeRoutes order).routeTo dst = some r) :
    ∃ y n d, Walk s.weights y dst n d ∧ r.hopCount ≤ n + 1 := by
  simp only [routeTo, recomputeRoutes] at hr
  split at hr
  · cases hr
  · rename_i hne
    obtain ⟨cost, hcost, rfl⟩ := Option.map_eq_some_iff.1 hr
    obtain ⟨n, d, c, hwalk, -, hends⟩ := s.traceBack_walk order Olsr.maxHops hcost hne 0
    refine ⟨_, n, d, hwalk, ?_⟩
    rcases hends with ⟨hcount, -⟩ | ⟨hcount, hn⟩
    · simp only [hcount]
      omega
    · simp only [hcount]
      omega

end OlsrState

abbrev LinkGraph := UInt8 → UInt8 → Option LinkQuality

def LinkGraph.costs (g : LinkGraph) : Weights UInt8 := fun u v => (g u v).map linkCost

/-- The tables of node `x` hold all links of the graph but those of other nodes to `x` itself. -/
structure Views (g : LinkGraph) (x : UInt8) (s : OlsrState) : Prop where
  localId : s.localId = x
  neighbors : ∀ v, (s.neighbors v).map NeighborEntry.linkQuality = g x v
  topology : ∀ y, y ≠ x → ∀ v,
    ((s.topology y).bind fun m => m v) = if v = x then none else g y v

namespace Views

theorem weights_eq (h : Views g x s) (u v : UInt8) :
    s.weights u v = if u ≠ x ∧ v = x then none else g.costs u v := by
  rw [OlsrState.weights, h.localId, LinkGraph.costs]
  by_cases hu : u = x
  · rw [if_pos hu, if_neg fun hne => hne.1 hu, hu, ← h.neighbors, Option.map_map]
    rfl
  · have hbind : ((s.topology u).bind fun m => (m v).map linkCost) =
        ((s.topology u).bind fun m => m v).map linkCost := by
      rw [Option.map_bind]
      rfl
    rw [if_neg hu, hbind, h.topology u hu]
    by_cases hv : v = x
    · rw [if_pos hv, if_pos ⟨hu, hv⟩, Option.map_none]
    · rw [if_neg hv, if_neg fun hne => hv hne.2]

theorem weights_sub (h : Views g x s) (huv : s.weights u v = some c) :
    g.costs u v = some c := by
  rw [h.weights_eq] at huv
  split at huv
  next => cases huv
  next => exact huv

theorem weights_of_ne (h : Views g x s) (hv : v ≠ x) (huv : g.costs u v = some c) :
    s.weights u v = some c := by
  rw [h.weights_eq, if_neg fun hne => hv hne.2]
  exact huv

theorem isLeast (h : Views g x s) (hr : (s.recomputeRoutes order).routeTo dst = some r) :
    IsLeast (walkCosts g.costs x dst) r.cost := by
  have hleast := (s.recomputeRoutes_exact order).cost dst r hr
  have hlocal : (s.recomputeRoutes order).localId = x := h.localId
  have hweights : (s.recomputeRoutes order).weights = s.weights := rfl
  rw [hlocal, hweights] at hleast
  exact isLeast_of_skip_source (fun _ _ _ => h.weights_sub)
    (fun _ _ _ => h.weights_of_ne) hleast

theorem isSome_of_walk (h : Views g x s) (order : IterOrder) (hne : dst ≠ x)
    (hwalk : Walk g.costs x dst n d) :
    ((s.recomputeRoutes order).routeTo dst).isSome := by
  apply ((s.recomputeRoutes_exact order).domain dst).2
  have hlocal : (s.recomputeRoutes order).localId = x := h.localId
  have hweights : (s.recomputeRoutes order).weights = s.weights := rfl
  rw [hlocal, hweights]
  obtain ⟨n', d', hwalk', -⟩ := hwalk.skip_source fun _ _ _ => h.weights_of_ne
  exact ⟨hne, n', d', hwalk'⟩

theorem next (h : Views g x s) (hr : (s.recomputeRoutes order).routeTo dst = some r)
    (hhops : r.hopCount < Olsr.maxHops) :
    ∃ q n d, g x r.nextHop = some q ∧ Walk g.costs r.nextHop dst n d ∧
      linkCost q + d = r.cost := by
  obtain ⟨n, d, c, hfirst, hwalk, hsum⟩ := s.recomputeRoutes_next order hr hhops
  rw [h.localId] at hfirst
  obtain ⟨q, hq, rfl⟩ := Option.map_eq_some_iff.1 (h.weights_sub hfirst)
  exact ⟨q, n, d, hq, hwalk.mono fun _ _ _ => h.weights_sub, hsum⟩

end Views

/-- Where node `x` passes on what is meant for `dst`. -/
def nextNode (node : UInt8 → OlsrState) (dst x : UInt8) : UInt8 :=
  match (node x).routeTo dst with
  | some r => r.nextHop
  | none => x

def storedCost (node : UInt8 → OlsrState) (dst x : UInt8) : ℕ :=
  if x = dst then 0
  else match (node x).routeTo dst with
    | some r => r.cost
    | none => 0

section Forwarding
variable {g : LinkGraph} {node : UInt8 → OlsrState} {dst : UInt8}

/-- Every node has recomputed its routes with all links of the graph in its tables. -/
def Converged (g : LinkGraph) (node : UInt8 → OlsrState) : Prop :=
  ∀ x, ∃ s order, Views g x s ∧ node x = s.recomputeRoutes order

theorem storedCost_of_ne (hne : x ≠ dst) (hr : (node x).routeTo dst = some r) :
    storedCost node dst x = r.cost := by
  rw [storedCost, if_neg hne, hr]

theorem Converged.hop (h : Converged g node) (hr : (node x).routeTo dst = some r)
    (hhops : r.hopCount < Olsr.maxHops) :
    ∃ q, g x r.nextHop = some q ∧ r.cost = linkCost q + storedCost node dst r.nextHop ∧
      (r.nextHop ≠ dst → ((node r.nextHop).routeTo dst).isSome) := by
  obtain ⟨s, order, hviews, hnode⟩ := h x
  rw [hnode] at hr
  obtain ⟨q, n, d, hq, hwalk, hsum⟩ := hviews.next hr hhops
  obtain ⟨-, hle⟩ := hviews.isLeast hr
  have hcost : g.costs x r.nextHop = some (linkCost q) := by rw [LinkGraph.costs, hq]; rfl
  refine ⟨q, hq, ?_⟩
  by_cases hdst : r.nextHop = dst
  · refine ⟨?_, fun hne => absurd hdst hne⟩
    have hdirect : r.cost ≤ linkCost q := by
      apply hle
      rw [← hdst]
      exact ⟨1, by simpa using Walk.nil.cons hcost⟩
    rw [storedCost, if_pos hdst]
    omega
  · obtain ⟨s', order', hviews', hnode'⟩ := h r.nextHop
    have hsome := hviews'.isSome_of_walk order' (Ne.symm hdst) hwalk
    obtain ⟨r', hr'⟩ := Option.isSome_iff_exists.1 hsome
    have hstored : storedCost node dst r.nextHop = r'.cost :=
      storedCost_of_ne hdst (hnode' ▸ hr')
    obtain ⟨⟨m, hm⟩, hle'⟩ := hviews'.isLeast hr'
    have hlower : r.cost ≤ linkCost q + r'.cost := hle ⟨m + 1, hm.cons hcost⟩
    have hupper : r'.cost ≤ d := hle' ⟨n, hwalk⟩
    refine ⟨?_, fun _ => hnode' ▸ hsome⟩
    rw [hstored]
    omega

/-- Hop by hop a message reaches its destination without a loop, and at each hop the stored cost
drops by exactly the cost of the link that it takes. -/
theorem forwarding_reaches (g : LinkGraph) (node : UInt8 → OlsrState) (dst : UInt8)
    (hconv : Converged g node)
    (hhops : ∀ x r, (node x).routeTo dst = some r → r.hopCount < Olsr.maxHops)
    (x : UInt8) (hx : ((node x).routeTo dst).isSome) :
    ∃ n, (nextNode node dst)^[n] x = dst ∧
      (∀ i ≤ n, ∀ j ≤ n, (nextNode node dst)^[i] x = (nextNode node dst)^[j] x → i = j) ∧
      ∀ i < n, ∃ r q, (node ((nextNode node dst)^[i] x)).routeTo dst = some r ∧
        (nextNode node dst)^[i + 1] x = r.nextHop ∧
        g ((nextNode node dst)^[i] x) r.nextHop = some q ∧
        r.cost = linkCost q + storedCost node dst r.nextHop := by
  have hnext : ∀ x r, (node x).routeTo dst = some r → nextNode node dst x = r.nextHop := by
    intro x r hr
    rw [nextNode, hr]
  have hstep : ∀ x, (x ≠ dst → ((node x).routeTo dst).isSome) → x ≠ dst →
      (nextNode node dst x ≠ dst → ((node (nextNode node dst x)).routeTo dst).isSome) ∧
        storedCost node dst (nextNode node dst x) < storedCost node dst x := by
    intro x hroute hne
    obtain ⟨r, hr⟩ := Option.isSome_iff_exists.1 (hroute hne)
    obtain ⟨q, -, hcost, hsome⟩ := hconv.hop hr (hhops x r hr)
    have hpos := linkCost_pos q
    rw [hnext x r hr, storedCost_of_ne hne hr]
    exact ⟨hsome, by omega⟩
  obtain ⟨n, hn, hbefore⟩ := exists_iterate_eq hstep fun _ => hx
  refine ⟨n, hn, ?_, ?_⟩
  · intro i hi j hj
    have hdescent : ∀ k < n, storedCost node dst ((nextNode node dst)^[k + 1] x) <
        storedCost node dst ((nextNode node dst)^[k] x) := by
      intro k hk
      rw [Function.iterate_succ_apply']
      exact (hstep _ (hbefore k hk).1 (hbefore k hk).2).2
    exact iterate_injective_of_descent hdescent hi hj
  · intro i hi
    obtain ⟨hroute, hne⟩ := hbefore i hi
    obtain ⟨r, hr⟩ := Option.isSome_iff_exists.1 (hroute hne)
    obtain ⟨q, hq, hcost, -⟩ := hconv.hop hr (hhops _ r hr)
    refine ⟨r, q, hr, ?_, hq, hcost⟩
    rw [Function.iterate_succ_apply', hnext _ r hr]

end Forwarding

def LinkGraph.tables (g : LinkGraph) (x : UInt8) : OlsrState where
  localId := x
  neighbors v := (g x v).map fun q => ⟨v, q, 0, []⟩
  twoHop := .empty
  topology y := some fun v => if v = x then none else g y v
  routes := .empty
  lastTcSeq := .empty

theorem LinkGraph.tables_views (g : LinkGraph) (x : UInt8) : Views g x (g.tables x) where
  localId := rfl
  neighbors v := by
    rw [tables, Option.map_map]
    exact Option.map_id'
  topology _ _ _ := rfl

def twoLinks : LinkGraph := fun u v =>
  if u = 1 ∧ v = 2 ∨ u = 2 ∧ v = 3 then some ⟨-40, 0, 4⟩ else none

def twoLinksNode (x : UInt8) : OlsrState := (twoLinks.tables x).recomputeRoutes fun _ => byteOrder

theorem twoLinks_converged : Converged twoLinks twoLinksNode := fun x =>
  ⟨_, _, twoLinks.tables_views x, rfl⟩

theorem twoLinks_ends (h : twoLinks u v = some q) : u = 1 ∧ v = 2 ∨ u = 2 ∧ v = 3 := by
  by_contra hne
  rw [twoLinks, if_neg hne] at h
  cases h

theorem twoLinks_hops (hr : (twoLinksNode x).routeTo dst = some r) :
    r.hopCount < Olsr.maxHops := by
  obtain ⟨y, n, d, hwalk, hcount⟩ := (twoLinks.tables x).recomputeRoutes_hopCount _ hr
  have hup (u v : UInt8) (c : ℕ) (hc : (twoLinks.tables x).weights u v = some c) :
      min u.toNat 3 < min v.toNat 3 := by
    obtain ⟨q, hq, -⟩ := Option.map_eq_some_iff.1 ((twoLinks.tables_views x).weights_sub hc)
    rcases twoLinks_ends hq with ⟨rfl, rfl⟩ | ⟨rfl, rfl⟩ <;> decide
  have hn := hwalk.rank_add_length_le hup
  have hmax : Olsr.maxHops = 8 := rfl
  omega

/-- From node 1 to node 3 a message passes node 2. -/
theorem twoLinks_forwarding :
    nextNode twoLinksNode 3 1 = 2 ∧
    ∃ n, (nextNode twoLinksNode 3)^[n] 1 = 3 ∧
      (∀ i ≤ n, ∀ j ≤ n, (nextNode twoLinksNode 3)^[i] 1 = (nextNode twoLinksNode 3)^[j] 1 →
        i = j) ∧
      ∀ i < n, ∃ r q, (twoLinksNode ((nextNode twoLinksNode 3)^[i] 1)).routeTo 3 = some r ∧
        (nextNode twoLinksNode 3)^[i + 1] 1 = r.nextHop ∧
        twoLinks ((nextNode twoLinksNode 3)^[i] 1) r.nextHop = some q ∧
        r.cost = linkCost q + storedCost twoLinksNode 3 r.nextHop := by
  have hfirst : Walk twoLinks.costs 1 2 1 (0 + linkCost ⟨-40, 0, 4⟩) := .snoc .nil rfl
  have hlast : twoLinks.costs 2 3 = some (linkCost ⟨-40, 0, 4⟩) := rfl
  obtain ⟨n, hn, honce, hpath⟩ := forwarding_reaches twoLinks twoLinksNode 3 twoLinks_converged
    (fun _ _ => twoLinks_hops) 1
    ((twoLinks.tables_views 1).isSome_of_walk _ (by decide) (hfirst.snoc hlast))
  refine ⟨?_, n, hn, honce, hpath⟩
  have hpos : 0 < n := by
    rw [Nat.pos_iff_ne_zero]
    rintro rfl
    exact absurd hn (by decide)
  obtain ⟨r, q, -, hhop, hlink, -⟩ := hpath 0 hpos
  rcases twoLinks_ends hlink with ⟨-, hnext⟩ | ⟨hsource, -⟩
  · exact hhop.trans hnext
  · exact absurd hsource (by decide)

end TacticalMesh
