import TacticalMesh.CheckedSearch
import TacticalMesh.OlsrRoutes

namespace TacticalMesh
set_option autoImplicit true

/-- `link_cost` with the overflow checks of the dev profile: the negation of an 8-bit -128 fails,
and nothing else can. -/
def linkCostChecked (q : LinkQuality) : Option ℕ :=
  if q.rssiDbm = -128 then none else some (linkCost q)

structure LinkQuality.NoBetter (q' q : LinkQuality) : Prop where
  rssiDbm : q'.rssiDbm ≤ q.rssiDbm
  lossRateX100 : q.lossRateX100 ≤ q'.lossRateX100
  mcs : q'.mcs ≤ q.mcs

theorem linkCost_eq (q : LinkQuality) : linkCost q =
    (50 + 10 * (5 - q.mcs.toNat)) + q.lossRateX100.toNat * 10 +
      (max ((-q.rssiDbm).toInt - 30) 0).toNat * 2 := by
  simp only [linkCost]
  congr 2
  generalize q.mcs = m
  split
  case h_6 h₀ h₁ h₂ h₃ h₄ =>
    have hne : ∀ k : UInt8, (m = k → False) → m.toNat ≠ k.toNat :=
      fun k hk heq => hk (UInt8.toNat_inj.1 heq)
    have h₀ := hne 0 h₀
    have h₁ := hne 1 h₁
    have h₂ := hne 2 h₂
    have h₃ := hne 3 h₃
    have h₄ := hne 4 h₄
    simp only [UInt8.reduceToNat] at h₀ h₁ h₂ h₃ h₄
    omega
  all_goals rfl

theorem toInt_neg_rssi {r : Int8} (h : r ≠ -128) : (-r).toInt = -r.toInt := by
  have hlow := r.le_toInt
  have hhigh := r.toInt_lt
  have hne : r.toInt ≠ -128 := fun heq => h (Int8.toInt_inj.1 heq)
  rw [Int8.toInt_neg]
  apply Int.bmod_eq_of_le <;> omega

theorem LinkQuality.NoBetter.rssi_ne {q q' : LinkQuality} (h : q'.NoBetter q)
    (hr : q'.rssiDbm ≠ -128) : q.rssiDbm ≠ -128 := by
  intro heq
  apply hr
  have hrssi := Int8.le_iff_toInt_le.1 h.rssiDbm
  rw [heq] at hrssi
  exact Int8.toInt_inj.1 (le_antisymm hrssi q'.rssiDbm.le_toInt)

/-- Off the one value whose negation overflows, a link that is no better costs no less. -/
theorem linkCost_mono {q q' : LinkQuality} (h : q'.NoBetter q) (hr : q'.rssiDbm ≠ -128) :
    linkCost q ≤ linkCost q' := by
  have hrssi := Int8.le_iff_toInt_le.1 h.rssiDbm
  have hloss := UInt8.le_iff_toNat_le.1 h.lossRateX100
  have hmcs := UInt8.le_iff_toNat_le.1 h.mcs
  rw [linkCost_eq, linkCost_eq, toInt_neg_rssi hr, toInt_neg_rssi (h.rssi_ne hr)]
  omega

section
variable {α β γ δ : Type} {r : α → β → Prop} {a : Option α} {b : Option β}

theorem rel_map {r' : γ → δ → Prop} {f : α → γ} {g : β → δ} (h : Option.Rel r a b)
    (hr : ∀ x y, r x y → r' (f x) (g y)) : Option.Rel r' (a.map f) (b.map g) := by
  cases h with
  | none => exact .none
  | some hxy => exact .some (hr _ _ hxy)

theorem rel_isSome (h : Option.Rel r a b) : a.isSome = b.isSome := by
  cases h <;> rfl

theorem rel_some (h : Option.Rel r a b) (hb : b = some y) : ∃ x, a = some x ∧ r x y := by
  cases h with
  | none => cases hb
  | @some x y' hxy =>
    cases hb
    exact ⟨x, rfl, hxy⟩

theorem rel_of_isSome (hsome : a.isSome = b.isSome)
    (h : ∀ x y, a = some x → b = some y → r x y) : Option.Rel r a b := by
  cases a with
  | none =>
    cases b with
    | none => exact .none
    | some y => cases hsome
  | some x =>
    cases b with
    | none => cases hsome
    | some y => exact .some (h x y rfl rfl)

end

theorem Walk.le_of_worse {w w' : Weights V}
    (hw : ∀ u v c', Reaches w' s u → w' u v = some c' → ∃ c, w u v = some c ∧ c ≤ c')
    (h : Walk w' s v n d') : ∃ d, Walk w s v n d ∧ d ≤ d' := by
  induction h with
  | nil => exact ⟨0, .nil, le_rfl⟩
  | @snoc u n d' v c' hwalk hc ih =>
    obtain ⟨d, hd, hle⟩ := ih
    obtain ⟨c, hc, hle'⟩ := hw u v c' ⟨n, d', hwalk⟩ hc
    exact ⟨d + c, hd.snoc hc, Nat.add_le_add hle hle'⟩

namespace OlsrState
variable {s s' t : OlsrState} {order order' : IterOrder} {u v : UInt8}

def link (s : OlsrState) (u v : UInt8) : Option LinkQuality :=
  if u = s.localId then (s.neighbors v).map fun e => e.linkQuality
  else (s.topology u).bind fun m => m v

theorem weights_eq_link (s : OlsrState) (u v : UInt8) :
    s.weights u v = (s.link u v).map linkCost := by
  rw [weights, link]
  split
  · rw [Option.map_map]
    rfl
  · rw [Option.map_bind]
    rfl

def edgesChecked (s : OlsrState) (order : IterOrder) (u : UInt8) : Option (List (UInt8 × ℕ)) :=
  if u = s.localId then
    (s.neighbors.entries (order u)).mapM fun e =>
      (linkCostChecked e.2.linkQuality).map fun cost => (e.1, cost)
  else
    match s.topology u with
    | some m =>
      (m.entries (order u)).mapM fun e => (linkCostChecked e.2).map fun cost => (e.1, cost)
    | none => some []

def searchChecked (s : OlsrState) (order : IterOrder) (rounds : ℕ) : Option (Search UInt8) :=
  (Search.start s.localId).runChecked u32Max heapLe (s.edgesChecked order) rounds

/-- `recompute_routes` in the dev profile, nothing where an arithmetic overflow ends it. -/
def recomputeRoutesChecked (s : OlsrState) (order : IterOrder) : Option OlsrState :=
  (s.searchChecked order searchRounds).map fun found =>
    let newRoutes : Table UInt8 RouteEntry := fun dest =>
      if dest = s.localId then none
      else (found.dist dest).map fun cost =>
        let walk := traceBack found.prev s.localId Olsr.maxHops dest 0
        { destination := dest, nextHop := walk.1, cost := cost, hopCount := walk.2 }
    { s with routes := newRoutes }

theorem mapM_linkCostChecked {α : Type} (l : List (UInt8 × α)) (quality : α → LinkQuality) :
    (∀ e ∈ l, (quality e.2).rssiDbm ≠ -128) ∧
        (l.mapM fun e => (linkCostChecked (quality e.2)).map fun cost => (e.1, cost)) =
          some (l.map fun e => (e.1, linkCost (quality e.2))) ∨
      (∃ e ∈ l, (quality e.2).rssiDbm = -128) ∧
        (l.mapM fun e => (linkCostChecked (quality e.2)).map fun cost => (e.1, cost)) = none := by
  induction l with
  | nil =>
    refine .inl ⟨fun e he => ?_, rfl⟩
    cases he
  | cons e l ih =>
    rw [List.mapM_cons, linkCostChecked]
    by_cases he : (quality e.2).rssiDbm = -128
    · refine .inr ⟨⟨e, .head _, he⟩, ?_⟩
      rw [if_pos he]
      rfl
    · rw [if_neg he]
      rcases ih with ⟨hall, hl⟩ | ⟨⟨e', hmem, he'⟩, hl⟩
      · refine .inl ⟨List.forall_mem_cons.2 ⟨he, hall⟩, ?_⟩
        rw [hl]
        rfl
      · refine .inr ⟨⟨e', .tail _ hmem, he'⟩, ?_⟩
        rw [hl]
        rfl

def SafeLinks (s : OlsrState) (u : UInt8) : Prop :=
  ∀ v q, s.link u v = some q → q.rssiDbm ≠ -128

theorem edgesChecked_cases (s : OlsrState) (order : IterOrder) (u : UInt8) :
    s.SafeLinks u ∧ s.edgesChecked order u = some (s.edges order u) ∨
      ¬ s.SafeLinks u ∧ s.edgesChecked order u = none := by
  simp only [SafeLinks, link, edgesChecked, edges]
  by_cases hlocal : u = s.localId
  · simp only [if_pos hlocal, Option.map_eq_some_iff]
    rcases mapM_linkCostChecked (s.neighbors.entries (order u)) NeighborEntry.linkQuality with
      ⟨hall, hl⟩ | ⟨⟨⟨v, e⟩, hmem, he⟩, hl⟩
    · refine .inl ⟨?_, hl⟩
      rintro v q ⟨e, he, rfl⟩
      exact hall (v, e) ((Table.mem_entries ..).2 he)
    · exact .inr ⟨fun h => h v _ ⟨e, (Table.mem_entries ..).1 hmem, rfl⟩ he, hl⟩
  · simp only [if_neg hlocal, Option.bind_eq_some_iff]
    cases s.topology u with
    | none =>
      refine .inl ⟨?_, rfl⟩
      rintro v q ⟨m, hm, -⟩
      cases hm
    | some m =>
      rcases mapM_linkCostChecked (m.entries (order u)) id with
        ⟨hall, hl⟩ | ⟨⟨⟨v, q⟩, hmem, hq⟩, hl⟩
      · refine .inl ⟨?_, hl⟩
        rintro v q ⟨m', hm', hq⟩
        cases hm'
        exact hall (v, q) ((Table.mem_entries ..).2 hq)
      · exact .inr ⟨fun h => h v q ⟨m, rfl, (Table.mem_entries ..).1 hmem⟩ hq, hl⟩

theorem edgesChecked_eq (h : s.edgesChecked order u = some es) : es = s.edges order u := by
  rcases s.edgesChecked_cases order u with ⟨-, hsome⟩ | ⟨-, hnone⟩
  · exact Option.some.inj (h.symm.trans hsome)
  · cases h.symm.trans hnone

theorem edgesChecked_isSome (s : OlsrState) (order : IterOrder) (u : UInt8) :
    (s.edgesChecked order u).isSome ↔ s.SafeLinks u := by
  rcases s.edgesChecked_cases order u with ⟨hsafe, hsome⟩ | ⟨hover, hnone⟩
  · simp [hsome, hsafe]
  · simp [hnone, hover]

/-- No node that can be reached has a link whose cost overflows. -/
def Safe (s : OlsrState) : Prop := ∀ u, Reaches s.weights s.localId u → s.SafeLinks u

theorem searchChecked_isSome (s : OlsrState) (order : IterOrder) :
    (s.searchChecked order searchRounds).isSome ↔ s.Safe := by
  have hcap : Fintype.card UInt8 * 2844 < u32Max := by
    rw [card_uint8]
    decide
  have heq : ∀ u es, s.edgesChecked order u = some es → es = s.edges order u :=
    fun _ _ => edgesChecked_eq
  have hrun : (s.searchChecked order searchRounds).isSome ↔
      ∀ u, Reaches s.weights s.localId u → (s.edgesChecked order u).isSome :=
    Search.runChecked_start_isSome heq (s.mem_edges order) s.weights_le hcap
      (start_rounds s.localId)
  rw [hrun]
  simp only [edgesChecked_isSome]
  rfl

theorem recomputeRoutesChecked_eq (h : s.recomputeRoutesChecked order = some t) :
    t = s.recomputeRoutes order := by
  obtain ⟨found, hfound, rfl⟩ := Option.map_eq_some_iff.1 h
  rw [Search.runChecked_eq (fun u es => edgesChecked_eq) hfound]
  rfl

theorem recomputeRoutesChecked_isSome (s : OlsrState) (order : IterOrder) :
    (s.recomputeRoutesChecked order).isSome ↔ s.Safe := by
  rw [recomputeRoutesChecked, Option.isSome_map, searchChecked_isSome]

/-- The same edges, each of them no better in the second state. -/
structure WorseLinks (s s' : OlsrState) : Prop where
  localId : s'.localId = s.localId
  neighbors : ∀ v, Option.Rel (fun e e' => e'.linkQuality.NoBetter e.linkQuality)
    (s.neighbors v) (s'.neighbors v)
  topology : ∀ u v, Option.Rel (fun q q' => LinkQuality.NoBetter q' q)
    ((s.topology u).bind fun m => m v) ((s'.topology u).bind fun m => m v)

namespace WorseLinks

theorem link (h : WorseLinks s s') (u v : UInt8) :
    Option.Rel (fun q q' => LinkQuality.NoBetter q' q) (s.link u v) (s'.link u v) := by
  rw [OlsrState.link, OlsrState.link, h.localId]
  split
  · exact rel_map (h.neighbors v) fun _ _ hq => hq
  · exact h.topology u v

theorem isSome_weights (h : WorseLinks s s') (u v : UInt8) :
    (s.weights u v).isSome = (s'.weights u v).isSome := by
  rw [weights_eq_link, weights_eq_link, Option.isSome_map, Option.isSome_map,
    rel_isSome (h.link u v)]

theorem reaches_iff (h : WorseLinks s s') (v : UInt8) :
    Reaches s'.weights s'.localId v ↔ Reaches s.weights s.localId v := by
  rw [h.localId]
  constructor
  · exact fun hv => hv.mono fun u v huv => by rwa [h.isSome_weights]
  · exact fun hv => hv.mono fun u v huv => by rwa [← h.isSome_weights]

theorem safe (h : WorseLinks s s') (hsafe : s'.Safe) : s.Safe := by
  intro u hu v q hq
  have hsome := rel_isSome (h.link u v)
  rw [hq] at hsome
  obtain ⟨q', hq'⟩ := Option.isSome_iff_exists.1 hsome.symm
  obtain ⟨q₀, hq₀, hworse⟩ := rel_some (h.link u v) hq'
  cases hq.symm.trans hq₀
  exact hworse.rssi_ne (hsafe u ((h.reaches_iff u).2 hu) v q' hq')

theorem edge_le (h : WorseLinks s s') (hsafe : s'.Safe) (hu : Reaches s'.weights s'.localId u)
    (hc : s'.weights u v = some c') : ∃ c, s.weights u v = some c ∧ c ≤ c' := by
  rw [weights_eq_link] at hc
  obtain ⟨q', hq', rfl⟩ := Option.map_eq_some_iff.1 hc
  obtain ⟨q, hq, hworse⟩ := rel_some (h.link u v) hq'
  refine ⟨linkCost q, ?_, linkCost_mono hworse (hsafe u hu v q' hq')⟩
  rw [weights_eq_link, hq]
  rfl

theorem routes_le (h : WorseLinks s s') (hsafe : s'.Safe) (order order' : IterOrder)
    (dest : UInt8) : Option.Rel (fun r r' => r.cost ≤ r'.cost)
      ((s.recomputeRoutes order).routes dest) ((s'.recomputeRoutes order').routes dest) := by
  have hexact := s.recomputeRoutes_exact order
  have hexact' := s'.recomputeRoutes_exact order'
  have hlocal : (s'.recomputeRoutes order').localId = (s.recomputeRoutes order).localId :=
    h.localId
  apply rel_of_isSome
  · apply Bool.eq_iff_iff.2
    rw [hexact.domain dest, hexact'.domain dest, hlocal]
    apply and_congr_right
    intro _
    have hreach := h.reaches_iff dest
    rw [h.localId] at hreach
    exact hreach.symm
  · intro r r' hr hr'
    obtain ⟨⟨n, hwalk⟩, -⟩ := hexact'.cost dest r' hr'
    rw [hlocal] at hwalk
    have hwalk : Walk s'.weights s.localId dest n r'.cost := hwalk
    have hedge : ∀ u v c', Reaches s'.weights s.localId u → s'.weights u v = some c' →
        ∃ c, s.weights u v = some c ∧ c ≤ c' := by
      intro u v c' hu
      rw [← h.localId] at hu
      exact h.edge_le hsafe hu
    obtain ⟨d, hd, hle⟩ := hwalk.le_of_worse hedge
    exact ((hexact.cost dest r hr).2 ⟨n, hd⟩).trans hle

end WorseLinks

/-- Both tables are computed without an overflow, and no destination is cheaper in the second one,
exactly if no link out of a node that can be reached is as bad as -128 dBm. -/
theorem worse_links_iff (s s' : OlsrState) (order order' : IterOrder) (h : WorseLinks s s') :
    (∃ t t', s.recomputeRoutesChecked order = some t ∧
      s'.recomputeRoutesChecked order' = some t' ∧
      ∀ dest, Option.Rel (fun r r' => r.cost ≤ r'.cost) (t.routes dest) (t'.routes dest)) ↔
      ∀ u v q, Reaches s'.weights s'.localId u → s'.link u v = some q → q.rssiDbm ≠ -128 := by
  have hsafe : (∀ u v q, Reaches s'.weights s'.localId u → s'.link u v = some q →
      q.rssiDbm ≠ -128) ↔ s'.Safe :=
    ⟨fun hs u hu v q => hs u v q hu, fun hs u v q hu => hs u hu v q⟩
  rw [hsafe]
  constructor
  · rintro ⟨t, t', -, ht', -⟩
    rw [← recomputeRoutesChecked_isSome s' order', ht']
    rfl
  · intro hs
    obtain ⟨t, ht⟩ := Option.isSome_iff_exists.1
      ((s.recomputeRoutesChecked_isSome order).2 (h.safe hs))
    obtain ⟨t', ht'⟩ := Option.isSome_iff_exists.1 ((s'.recomputeRoutesChecked_isSome order').2 hs)
    refine ⟨t, t', ht, ht', ?_⟩
    rw [recomputeRoutesChecked_eq ht, recomputeRoutesChecked_eq ht']
    exact h.routes_le hs order order'

def oneLink (rssiDbm : Int8) : OlsrState where
  localId := 1
  neighbors v := if v = 2 then some ⟨2, ⟨rssiDbm, 0, 0⟩, 0, []⟩ else none
  twoHop := .empty
  topology := .empty
  routes := .empty
  lastTcSeq := .empty

theorem link_oneLink (r : Int8) (u v : UInt8) :
    (oneLink r).link u v = if u = 1 ∧ v = 2 then some ⟨r, 0, 0⟩ else none := by
  by_cases hu : u = 1 <;> by_cases hv : v = 2 <;> simp [link, oneLink, hu, hv]

theorem worseLinks_oneLink (h : r' ≤ r) : WorseLinks (oneLink r) (oneLink r') where
  localId := rfl
  neighbors v := by
    simp only [oneLink]
    split
    · exact .some ⟨h, UInt8.le_refl _, UInt8.le_refl _⟩
    · exact .none
  topology u v := .none

theorem oneLink_worse : ∃ t t',
    (oneLink (-50)).recomputeRoutesChecked (fun _ => byteOrder) = some t ∧
    (oneLink (-60)).recomputeRoutesChecked (fun _ => byteOrder) = some t' ∧
    ∀ dest, Option.Rel (fun r r' => r.cost ≤ r'.cost) (t.routes dest) (t'.routes dest) := by
  apply (worse_links_iff _ _ _ _ (worseLinks_oneLink (by decide))).2
  intro u v q _ hq
  rw [link_oneLink] at hq
  split at hq
  · cases hq
    decide
  · cases hq

/-- At -128 dBm the dev profile panics, and to the release profile the link looks perfect. -/
theorem oneLink_overflows : WorseLinks (oneLink (-127)) (oneLink (-128)) ∧
    (oneLink (-128)).recomputeRoutesChecked (fun _ => byteOrder) = none ∧
    ((oneLink (-127)).recomputeRoutes fun _ => byteOrder).routes 2 = some ⟨2, 2, 294, 1⟩ ∧
    ((oneLink (-128)).recomputeRoutes fun _ => byteOrder).routes 2 = some ⟨2, 2, 100, 1⟩ := by
  have hsearch : ∀ r : Int8, ((oneLink r).search (fun _ => byteOrder) 2).heap = [] →
      (oneLink r).search (fun _ => byteOrder) searchRounds =
        (oneLink r).search (fun _ => byteOrder) 2 :=
    fun r h => search_of_heap_nil h (by decide)
  refine ⟨worseLinks_oneLink (by decide), ?_, ?_, ?_⟩
  · apply Option.not_isSome_iff_eq_none.1
    rw [recomputeRoutesChecked_isSome]
    intro hsafe
    exact hsafe 1 ⟨0, 0, .nil⟩ 2 ⟨-128, 0, 0⟩ rfl rfl
  · simp only [recomputeRoutes, hsearch (-127) (by decide +kernel)]
    decide +kernel
  · simp only [recomputeRoutes, hsearch (-128) (by decide +kernel)]
    decide +kernel

end OlsrState
end TacticalMesh
