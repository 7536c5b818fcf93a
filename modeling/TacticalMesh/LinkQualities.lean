import TacticalMesh.NeighborTables
import TacticalMesh.NextHops
import TacticalMesh.Payloads
import TacticalMesh.TcDedup

namespace TacticalMesh
set_option autoImplicit true

theorem Walk.cost_eq {w : Weights V} (hw : ∀ u v c, w u v = some c → c = k)
    (h : Walk w s v n d) : d = k * n := by
  induction h with
  | nil => rfl
  | snoc _ hc ih => rw [ih, hw _ _ _ hc, Nat.mul_succ]

def walkLengths (w : Weights V) (s v : V) : Set ℕ := {n | ∃ d, Walk w s v n d}

theorem isLeast_length {w : Weights V} (hw : ∀ u v c, w u v = some c → c = k) (hk : 0 < k)
    (hwalk : Walk w s v n d) (hleast : IsLeast (walkCosts w s v) d) :
    IsLeast (walkLengths w s v) n := by
  refine ⟨⟨d, hwalk⟩, ?_⟩
  rintro n' ⟨d', hwalk'⟩
  have hle := hleast.2 ⟨n', hwalk'⟩
  rw [hwalk.cost_eq hw, hwalk'.cost_eq hw] at hle
  exact Nat.le_of_mul_le_mul_left hle hk

/-- Measuring this signal, a node makes of qualities with the property such qualities again. -/
structure Remeasured (P : LinkQuality → Prop) (rssiDbm : Int8) : Prop where
  listed : ∀ q, P q → P ⟨rssiDbm, 0, q.mcs⟩
  unlisted : P ⟨rssiDbm, 0, 0⟩

namespace OlsrState
variable {P : LinkQuality → Prop} {s : OlsrState}

structure Measured (P : LinkQuality → Prop) (s : OlsrState) : Prop where
  neighbors : ∀ v e, s.neighbors v = some e → P e.linkQuality
  topology : ∀ u m v q, s.topology u = some m → m v = some q → P q

theorem advertised_mem {localId : UInt8} (h : advertised localId tc v = some q) :
    (v, q) ∈ tc.advertisedNeighbors := by
  have hfold : ∀ (l : List (UInt8 × LinkQuality)) (m : Table UInt8 LinkQuality),
      l.foldl (fun m e => if e.1 ≠ localId then m.insert e.1 e.2 else m) m v = some q →
        (v, q) ∈ l ∨ m v = some q := by
    intro l
    induction l with
    | nil => exact fun m h => .inr h
    | cons e l ih =>
      intro m h
      rcases ih _ h with hmem | hm
      · exact .inl (List.mem_cons_of_mem _ hmem)
      · simp only at hm
        split at hm
        next =>
          rw [Table.insert_apply] at hm
          split at hm
          next hv =>
            cases hm
            rw [hv]
            exact .inl List.mem_cons_self
          next => exact .inr hm
        next => exact .inr hm
  rcases hfold _ _ h with hmem | hnone
  · exact hmem
  · cases hnone

theorem Measured.processHello (h : s.Measured P) (hP : Remeasured P rssiDbm)
    (hhello : ∀ e ∈ hello.neighbors, P e.2) (fromLink : UInt8) :
    (s.processHello hello fromLink rssiDbm now order).Measured P := by
  simp only [OlsrState.processHello]
  split
  next => exact h
  next =>
    constructor
    case neighbors =>
      intro v e he
      simp only [recomputeRoutes, Table.insert_apply] at he
      split at he
      next =>
        cases he
        simp only
        split
        next e hfind => exact hP.listed _ (hhello e (List.mem_of_find?_eq_some hfind))
        next => exact hP.unlisted
      next => exact h.neighbors v e he
    case topology => exact h.topology

theorem Measured.processTc (h : s.Measured P) (htc : ∀ e ∈ tc.advertisedNeighbors, P e.2) :
    (s.processTc tc fromLink order).1.Measured P := by
  by_cases hnew : s.shouldForwardTc tc
  · rw [processTc_of_new hnew]
    constructor
    case neighbors => exact h.neighbors
    case topology =>
      intro u m v q hm hq
      simp only [recomputeRoutes, Table.insert_apply] at hm
      split at hm
      next =>
        cases hm
        exact htc _ (advertised_mem hq)
      next => exact h.topology u m v q hm hq
  · rw [processTc_of_old hnew]
    exact h

theorem Measured.agingTick (h : s.Measured P) :
    (s.agingTick now staleOrder order).Measured P := by
  have hforget : ∀ (ids : List UInt8) (s : OlsrState), s.Measured P →
      (ids.foldl forget s).Measured P := by
    intro ids
    induction ids with
    | nil => exact fun s h => h
    | cons id ids ih =>
      intro s h
      apply ih
      constructor
      case neighbors =>
        intro v e he
        simp only [forget, Table.remove_apply] at he
        split at he
        next => cases he
        next => exact h.neighbors v e he
      case topology =>
        intro u m v q hm hq
        simp only [forget, Table.remove_apply] at hm
        split at hm
        next => cases hm
        next => exact h.topology u m v q hm hq
  have haged := hforget (s.stale now staleOrder) s h
  rw [OlsrState.agingTick]
  split
  next => exact haged
  next =>
    split
    next => exact ⟨haged.neighbors, haged.topology⟩
    next => exact ⟨haged.neighbors, haged.topology⟩

theorem Measured.weights (h : s.Measured P) (hw : s.weights u v = some c) :
    ∃ q, P q ∧ c = linkCost q := by
  rw [OlsrState.weights] at hw
  split at hw
  next =>
    obtain ⟨e, he, rfl⟩ := Option.map_eq_some_iff.1 hw
    exact ⟨_, h.neighbors v e he, rfl⟩
  next =>
    obtain ⟨m, hm, hv⟩ := Option.bind_eq_some_iff.1 hw
    obtain ⟨q, hq, rfl⟩ := Option.map_eq_some_iff.1 hv
    exact ⟨q, h.topology u m v q hm hq, rfl⟩

/-- The hop count of a route is the length of the preferred path, up to the cap. -/
def HopsCounted (s : OlsrState) : Prop :=
  ∀ dest r, s.routes dest = some r →
    ∃ first n, s.Path first dest n ∧ r.hopCount = min n Olsr.maxHops

theorem recomputeRoutes_hopsCounted (s : OlsrState) (order : IterOrder) :
    (s.recomputeRoutes order).HopsCounted := by
  intro dest r hr
  obtain ⟨first, n, hpath, hshort, hlong⟩ := s.routes_path order hr
  refine ⟨first, n, hpath, ?_⟩
  rcases Nat.lt_or_ge Olsr.maxHops n with hn | hn
  · rw [(hlong hn).2, min_eq_right hn.le]
  · rw [(hshort hn).2, min_eq_left hn]

/-- The routes are those that `recompute_routes` finds in the current tables, in some order. -/
def Recomputed (s : OlsrState) : Prop := ∃ order, s.recomputeRoutes order = s

theorem clear_recomputed (s : OlsrState) (h : ∀ v, s.neighbors v = none) :
    Recomputed { s with routes := .empty } := by
  refine ⟨fun _ => byteOrder, ?_⟩
  have hclear := clear_exact s h
  have hexact := recomputeRoutes_exact { s with routes := .empty } fun _ => byteOrder
  have hroutes : (recomputeRoutes { s with routes := .empty } fun _ => byteOrder).routes =
      .empty := by
    funext d
    have hd := (hexact.domain d).trans (hclear.domain d).symm
    exact Option.not_isSome_iff_eq_none.1 fun hsome => absurd (hd.1 hsome) nofun
  exact congrArg (fun routes : Table UInt8 RouteEntry => { s with routes := routes }) hroutes

theorem Recomputed.handle (h : s.Recomputed) (e : OlsrEvent) : (s.handle e).Recomputed := by
  cases e with
  | hello hello fromLink rssiDbm now order =>
    simp only [OlsrState.handle, OlsrState.processHello]
    split
    next => exact h
    next => exact ⟨order, rfl⟩
  | tc tc fromLink order =>
    by_cases hnew : s.shouldForwardTc tc
    · rw [OlsrState.handle, processTc_of_new hnew]
      exact ⟨order, rfl⟩
    · rw [OlsrState.handle, processTc_of_old hnew]
      exact h
  | aging now staleOrder order =>
    simp only [OlsrState.handle, OlsrState.agingTick]
    split
    next hnil =>
      rw [List.isEmpty_iff] at hnil
      rw [hnil]
      exact h
    next =>
      split
      next hempty =>
        refine clear_recomputed _ fun v => ?_
        rw [List.isEmpty_iff] at hempty
        by_contra hv
        obtain ⟨e, he⟩ := Option.ne_none_iff_exists'.1 hv
        have hmem := (Table.mem_entries _ staleOrder v e).2 he
        rw [hempty] at hmem
        cases hmem
      next => exact ⟨order, rfl⟩

theorem reached_recomputed (h : Reached x s) : s.Recomputed := by
  obtain ⟨events, rfl⟩ := h
  induction events using List.reverseRecOn with
  | nil => exact clear_recomputed (new x) fun _ => rfl
  | append_singleton events e ih =>
    rw [run, List.foldl_append]
    exact ih.handle e

theorem reached_exact (h : Reached x s) : s.RoutesExact := by
  obtain ⟨order, hs⟩ := reached_recomputed h
  exact hs ▸ recomputeRoutes_exact s order

theorem reached_hopsCounted (h : Reached x s) : s.HopsCounted := by
  obtain ⟨order, hs⟩ := reached_recomputed h
  exact hs ▸ recomputeRoutes_hopsCounted s order

end OlsrState
structure Sending.Measured (P : LinkQuality → Prop) (codec : Codec) (t : Sending) : Prop where
  hello : ∀ h, t.msg.kind = .olsrHello → codec.decodeOlsr t.msg.payload = some (.hello h) →
    ∀ e ∈ h.neighbors, P e.2
  tc : ∀ tc, t.msg.kind = .olsrTc → codec.decodeOlsr t.msg.payload = some (.tc tc) →
    ∀ e ∈ tc.advertisedNeighbors, P e.2

namespace Sending
variable {P : LinkQuality → Prop} {codec : Codec} {t u : Sending}

theorem Measured.congr (h : t.Measured P codec) (hmsg : u.msg = t.msg) : u.Measured P codec :=
  ⟨fun hello hkind hdec => h.hello hello (hmsg ▸ hkind) (hmsg ▸ hdec),
    fun tc hkind hdec => h.tc tc (hmsg ▸ hkind) (hmsg ▸ hdec)⟩

theorem measured_of_data (h : t.msg.kind = .data) : t.Measured P codec :=
  ⟨fun _ hkind => absurd (h.symm.trans hkind) nofun,
    fun _ hkind => absurd (h.symm.trans hkind) nofun⟩

theorem measured_hello (h : Hello) (hP : ∀ e ∈ h.neighbors, P e.2) (x : UInt8) (draw : Draw) :
    (Sending.own x .olsrHello (codec.encodeOlsr (.hello h)) .high draw).Measured P codec where
  hello h' _ hdec := by
    cases (codec.decode_encodeOlsr (.hello h)).symm.trans hdec
    exact hP
  tc _ hkind := by cases hkind

theorem measured_tc (tc : Tc) (hP : ∀ e ∈ tc.advertisedNeighbors, P e.2) (x : UInt8)
    (draw : Draw) :
    (Sending.own x .olsrTc (codec.encodeOlsr (.tc tc)) .high draw).Measured P codec where
  hello _ hkind := by cases hkind
  tc tc' _ hdec := by
    cases (codec.decode_encodeOlsr (.tc tc)).symm.trans hdec
    exact hP

theorem measured_carries (P : LinkQuality → Prop) (codec : Codec)
    (radio : UInt8 → List UInt8) :
    Conveys codec radio (Measured P codec) (Measured P codec) fun _ => True where
  relay _ _ ht _ _ _ _ _ hu := ht.congr (next_src hu).2
  msg _ _ _ _ _ := trivial
  forward _ _ ht _ _ hkind _ :=
    ⟨fun _ hk => absurd hk nofun, fun tc _ hdec => ht.tc tc hkind hdec⟩

end Sending

namespace Net
variable {crypto : Crypto} {codec : Codec} {fleet : Fleet crypto} {radio : UInt8 → List UInt8}
variable {P : LinkQuality → Prop} {net net' : Net crypto}

/-- Every quality in a table, in a queue or on air has the property. -/
structure Measured (codec : Codec) (fleet : Fleet crypto) (radio : UInt8 → List UInt8)
    (P : LinkQuality → Prop) (net : Net crypto) : Prop where
  held : net.Holds fleet radio (Sending.Measured P codec) (Sending.Measured P codec)
    fun _ => True
  tables : ∀ x, (net.nodes x).olsr.Measured P

theorem Measured.entries (h : net.Measured codec fleet radio P) (x : UInt8)
    (order : KeyOrder UInt8) :
    ∀ e ∈ ((net.nodes x).olsr.neighbors.entries order).map fun e => (e.1, e.2.linkQuality),
      P e.2 := by
  intro e he
  obtain ⟨⟨v, entry⟩, hentry, rfl⟩ := List.mem_map.1 he
  exact (h.tables x).neighbors v entry ((Table.mem_entries ..).1 hentry)

theorem Measured.step (h : net.Measured codec fleet radio P)
    (hP : ∀ i env, e = .deliver i env → Remeasured P env.rssiDbm)
    (hstep : net.step codec radio e = some net') : net'.Measured codec fleet radio P where
  held := by
    refine h.held.step_sending (Sending.measured_carries P codec radio) hstep ?_ ?_ ?_
      (fun _ _ _ hs _ _ _ => hs) fun _ _ _ => Sending.measured_of_data rfl
    · exact fun n now order draw _ => Sending.measured_hello _ (h.entries n order) n draw
    · exact fun n now order draw _ _ _ _ => Sending.measured_tc _ (h.entries n order) n draw
    · exact fun s m prio draw _ _ hs => Sending.measured_of_data (by rw [hs])
  tables x := by
    rcases h.held.step_olsr hstep x with hsame | ⟨ev, hprompts, hev⟩
    · rw [hsame]
      exact h.tables x
    · rw [hev]
      cases e with
      | agingTick n now staleOrder order =>
        obtain ⟨-, rfl⟩ := hprompts
        exact (h.tables x).agingTick
      | deliver i env =>
        obtain ⟨t, ht, -, -, hcarried⟩ := hprompts
        cases ev with
        | hello hello link rssiDbm now order =>
          obtain ⟨hkind, hdec, rfl⟩ := hcarried
          exact (h.tables x).processHello (hP i env rfl) (ht.hello hello hkind hdec) link
        | tc tc link order =>
          obtain ⟨hkind, hdec⟩ := hcarried
          exact (h.tables x).processTc (ht.tc tc hkind hdec)
        | aging => exact hcarried.elim
      | helloTick | tcTick | outbound | transmit | runTask => exact hprompts.elim

theorem run_measured {events : List Event}
    (hP : ∀ i env, Event.deliver i env ∈ events → Remeasured P env.rssiDbm)
    (hrun : events.foldlM (step codec radio) (start fleet channel recorded) = some net) :
    net.Measured codec fleet radio P := by
  induction events using List.reverseRecOn generalizing net with
  | nil =>
    cases hrun
    exact ⟨start_holds fleet channel recorded, fun x => ⟨nofun, nofun⟩⟩
  | append_singleton events e ih =>
    obtain ⟨before, hbefore, hstep⟩ := foldlM_concat.1 hrun
    refine (ih (fun i env he => ?_) hbefore).step (fun i env he => ?_) hstep
    · exact hP i env (List.mem_append_left _ he)
    · exact hP i env (List.mem_append_right _ (List.mem_singleton.2 he.symm))

def udpRssiDbm : Int8 := -60

/-- Node 1 hears node 2, and node 2 hears node 3. -/
def chain (n : UInt8) : List UInt8 := if n = 3 then [2] else if n = 2 then [1] else []

def chainRun (rssiDbm : Int8) : List Event :=
  let env : RxEnv := { RxEnv.atMs 0 with rssiDbm := rssiDbm }
  [.helloTick 3 0 byteOrder (.atMs 0), .deliver 0 env, .helloTick 2 0 byteOrder (.atMs 1),
    .deliver 0 env, .tcTick 2 0 byteOrder (.atMs 2), .deliver 0 env]

theorem chain_weights : ∃ net : Net Crypto.toy,
    (chainRun udpRssiDbm).foldlM (step Codec.bincode chain) (start Crypto.toyFleet 0 0) =
      some net ∧
      (net.nodes 1).olsr.weights 1 2 = some 160 ∧ (net.nodes 1).olsr.weights 2 3 = some 160 ∧
      (net.nodes 1).olsr.weights 1 3 = none := by
  have hends : ∃ net ∈ (chainRun udpRssiDbm).foldlM (step Codec.bincode chain)
      (start Crypto.toyFleet 0 0),
      (net.nodes 1).olsr.weights 1 2 = some 160 ∧ (net.nodes 1).olsr.weights 2 3 = some 160 ∧
        (net.nodes 1).olsr.weights 1 3 = none := by
    decide +kernel
  exact hends

/-- Over UDP a route is one with the fewest links: it costs 160 for each of them, and they are
counted up to the cap. -/
theorem udp_routes_shortest (fleet : Fleet crypto) (channel recorded : UInt8)
    {events : List Event}
    (hrun : events.foldlM (step codec radio) (start fleet channel recorded) = some net)
    (hudp : ∀ i env, Event.deliver i env ∈ events → env.rssiDbm = udpRssiDbm)
    (hroute : (net.nodes x).olsr.routes dest = some r) :
    ∃ n, IsLeast (walkLengths (net.nodes x).olsr.weights x dest) n ∧ r.cost = 160 * n ∧
      r.hopCount = min n Olsr.maxHops := by
  have hmeasured : net.Measured codec fleet radio fun q => q = ⟨udpRssiDbm, 0, 0⟩ := by
    refine run_measured (fun i env he => ?_) hrun
    rw [hudp i env he]
    exact ⟨fun q hq => by rw [hq], rfl⟩
  have hw (u v : UInt8) (c : ℕ) (h : (net.nodes x).olsr.weights u v = some c) : c = 160 := by
    obtain ⟨q, rfl, rfl⟩ := (hmeasured.tables x).weights h
    decide
  have hreached := (hmeasured.held.nodes x).olsr
  obtain ⟨first, n, hpath, hhops⟩ := OlsrState.reached_hopsCounted hreached dest r hroute
  have hlocal := hreached.localId_eq
  obtain ⟨m, d, c, rfl, hc, hwalk, hleast⟩ := hpath.walk
  have hcost := ((OlsrState.reached_exact hreached).cost dest r hroute).unique hleast
  rw [hlocal] at hleast hc
  have hall := hwalk.cons hc
  refine ⟨m + 1, isLeast_length hw (by decide) hall hleast, ?_, hhops⟩
  rw [hcost]
  exact hall.cost_eq hw

theorem chain_route : ∃ (net : Net Crypto.toy) (r : RouteEntry),
    (chainRun udpRssiDbm).foldlM (step Codec.bincode chain) (start Crypto.toyFleet 0 0) =
      some net ∧
      (net.nodes 1).olsr.routes 3 = some r ∧
      IsLeast (walkLengths (net.nodes 1).olsr.weights 1 3) 2 ∧ r.cost = 160 * 2 ∧
      r.hopCount = min 2 Olsr.maxHops := by
  obtain ⟨net, hrun, hfirst, hsecond, hdirect⟩ := chain_weights
  have hudp : ∀ i env, Event.deliver i env ∈ chainRun udpRssiDbm → env.rssiDbm = udpRssiDbm := by
    intro i env he
    simp only [chainRun, List.mem_cons, List.not_mem_nil, or_false, reduceCtorEq, false_or,
      Event.deliver.injEq, or_self] at he
    rw [he.2]
  have hheld : (net.nodes 1).olsr.Reached 1 := by
    have hmeasured : net.Measured Codec.bincode Crypto.toyFleet chain fun _ => True :=
      run_measured (fun _ _ _ => ⟨fun _ _ => trivial, trivial⟩) hrun
    exact (hmeasured.held.nodes 1).olsr
  have hlocal := hheld.localId_eq
  have hwalk : Walk (net.nodes 1).olsr.weights 1 3 2 (0 + 160 + 160) :=
    .snoc (.snoc .nil hfirst) hsecond
  obtain ⟨r, hr⟩ : ∃ r, (net.nodes 1).olsr.routes 3 = some r := by
    apply Option.isSome_iff_exists.1
    apply ((OlsrState.reached_exact hheld).domain 3).2
    rw [hlocal]
    exact ⟨by decide, 2, _, hwalk⟩
  obtain ⟨n, hleast, hcost, hhops⟩ := udp_routes_shortest Crypto.toyFleet 0 0 hrun hudp hr
  obtain rfl : n = 2 := by
    have hle : n ≤ 2 := hleast.2 ⟨_, hwalk⟩
    obtain ⟨d, hshort⟩ := hleast.1
    by_contra hne
    cases hshort with
    | snoc hshort hlast =>
      cases hshort with
      | nil =>
        rw [hdirect] at hlast
        cases hlast
      | snoc => omega
  exact ⟨net, r, hrun, hr, hleast, hcost, hhops⟩

end Net
end TacticalMesh
