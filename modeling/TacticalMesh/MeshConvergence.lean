import TacticalMesh.HopByHop
import TacticalMesh.Payloads
import TacticalMesh.TopologyRows

namespace TacticalMesh
set_option autoImplicit true

def Net.links {crypto : Crypto} (net : Net crypto) : LinkGraph := fun u => (net.nodes u).olsr.links

/-- The step removes node `o` from the tables of a node that has not heard it for too long. -/
def Net.expires {crypto : Crypto} (net : Net crypto) (o : UInt8) : Event → Bool
  | .agingTick n now _ _ =>
    ((net.nodes n).olsr.neighbors o).any fun e => neighborTimeoutMs < now - e.lastHelloMs
  | _ => false

/-- A stand-in for the primitives that is weaker still, for longer runs. -/
def Crypto.plain : Crypto where
  SigningKey := UInt8
  VerifyingKey := UInt8
  verifyingKey k := k
  sign k _ := Vector.replicate 64 k
  verify k _ sig := sig[0] == k
  applyKeystream _ _ data := data
  blake3 _ := Vector.replicate 32 0
  verify_sign k msg := by simp
  applyKeystream_twice key nonce data := rfl

def Crypto.plainFleet : Fleet .plain := ⟨fun nodeId => nodeId, Vector.replicate 32 7⟩

namespace Announcing
variable {crypto : Crypto} {codec : Codec} {fleet : Fleet crypto} {radio : UInt8 → List UInt8}
variable {s s' : Announcing crypto} {o : UInt8}

/-- Steps that lose none of the messages of node `o`, and let no node forget it. -/
structure Lasting (codec : Codec) (fleet : Fleet crypto) (o : UInt8) (s : Announcing crypto)
    (e : Event) : Prop where
  timely : Net.Timely codec fleet o s.net e
  kept : s.net.expires o e = false

instance (codec : Codec) (fleet : Fleet crypto) (o : UInt8) (s : Announcing crypto) (e : Event) :
    Decidable (Lasting codec fleet o s e) :=
  decidable_of_iff (_ ∧ _) ⟨fun h => ⟨h.1, h.2⟩, fun h => ⟨h.1, h.2⟩⟩

/-- The messages of node `o` are numbered from one on, and whoever remembers one of them has the
row that it says. -/
structure Tracked (codec : Codec) (fleet : Fleet crypto) (radio : UInt8 → List UInt8) (o : UInt8)
    (s : Announcing crypto) : Prop where
  spreads : s.net.Spreads codec fleet radio o
  numbered : (s.announced o).map (fun tc => tc.seq.toNat) =
    List.range' 1 (s.net.latest o).toNat
  rows : ∀ x, ((s.net.nodes x).olsr.lastTcSeq o).isSome →
    ((s.net.nodes x).olsr.topology o).isSome

theorem start_tracked (codec : Codec) (fleet : Fleet crypto) (radio : UInt8 → List UInt8)
    (channel recorded o : UInt8) : (start fleet channel recorded).Tracked codec fleet radio o where
  spreads := Net.start_spreads codec fleet channel recorded
  numbered := rfl
  rows _ h := by cases h

theorem Tracked.step_numbered (h : s.Tracked codec fleet radio o)
    (hl : Lasting codec fleet o s e) (hstep : s.step codec radio e = some s') :
    (s'.announced o).map (fun tc => tc.seq.toNat) = List.range' 1 (s'.net.latest o).toNat := by
  obtain ⟨hnet, htcs⟩ := step_eq_some.1 hstep
  rcases Net.step_latest hnet o with ⟨hother, hlatest⟩ | ⟨now, order, draw, rfl, hlatest⟩
  · have hnone : (s.net.made e).toList.filter (fun tc => tc.sender = o) = [] := by
      cases e with
      | tcTick n now order draw =>
        have hn : (s.net.nodes n).olsr.localId ≠ o := by
          rw [(h.spreads.held.nodes n).olsr.localId_eq]
          exact fun hn => hother (congrArg some hn)
        simpa [Net.made, Node.tc] using hn
      | helloTick | agingTick | outbound | transmit | deliver | runTask => rfl
    rw [announced, htcs, List.filter_append, hnone, List.append_nil, hlatest]
    exact h.numbered
  · have hn : (s.net.nodes o).olsr.localId = o := (h.spreads.held.nodes o).olsr.localId_eq
    have hnext : (s'.net.latest o).toNat = (s.net.latest o).toNat + 1 := by
      have hlt := hl.timely.unwrapped rfl
      have hone : (1 : UInt16).toNat = 1 := rfl
      rw [hlatest, UInt16.toNat_add, hone, Nat.mod_eq_of_lt hlt]
    have hmade : s'.announced o =
        s.announced o ++ (s.net.made (.tcTick o now order draw)).toList := by
      rw [announced, htcs, List.filter_append]
      congr 1
      simpa [Net.made, Node.tc] using hn
    have hseq : (Node.tc { s.net.nodes o with tcSeq := (s.net.nodes o).tcSeq + 1 } now
        order).seq = s'.net.latest o := hlatest.symm
    rw [hmade, List.map_append, h.numbered, Net.made, Option.toList_some, List.map_singleton, hseq,
      hnext, List.range'_1_concat, Nat.add_comm 1]

theorem Tracked.step_rows (h : s.Tracked codec fleet radio o)
    (hl : Lasting codec fleet o s e) (hstep : s.step codec radio e = some s') (x : UInt8)
    (hknown : ((s'.net.nodes x).olsr.lastTcSeq o).isSome) :
    ((s'.net.nodes x).olsr.topology o).isSome := by
  obtain ⟨hnet, -⟩ := step_eq_some.1 hstep
  rcases h.spreads.held.step_olsr hnet x with hsame | ⟨ev, hprompts, hev⟩
  · rw [hsame] at hknown ⊢
    exact h.rows x hknown
  · rw [hev] at hknown ⊢
    rcases (s.net.nodes x).olsr.handle_topology ev o with
      ⟨hlast, hrow | ⟨-, now, staleOrder, order, rfl, htimed⟩⟩ | ⟨tc, -, -, -, -, -, hrow⟩
    · rw [hlast] at hknown
      rw [hrow]
      exact h.rows x hknown
    · cases e with
      | agingTick n now' staleOrder' order' =>
        obtain ⟨rfl, htick⟩ := hprompts
        cases htick
        obtain ⟨entry, hentry, hlong⟩ := htimed
        have hkept := hl.kept
        rw [Net.expires, hentry, Option.any_some, decide_eq_false_iff_not] at hkept
        exact absurd hlong hkept
      | deliver i env =>
        obtain ⟨t, -, -, -, hcarried⟩ := hprompts
        exact hcarried.elim
      | helloTick | tcTick | outbound | transmit | runTask => exact hprompts.elim
    · rw [hrow]
      rfl

theorem Tracked.step (h : s.Tracked codec fleet radio o) (hl : Lasting codec fleet o s e)
    (hstep : s.step codec radio e = some s') : s'.Tracked codec fleet radio o where
  spreads := h.spreads.step hl.timely (step_eq_some.1 hstep).1
  numbered := h.step_numbered hl hstep
  rows := h.step_rows hl hstep

theorem run_tracked {events : List Event}
    (hlasting : Along (step codec radio) (Lasting codec fleet o) (start fleet channel recorded)
      events)
    (hrun : events.foldlM (step codec radio) (start fleet channel recorded) = some s) :
    s.Tracked codec fleet radio o :=
  hlasting.invariant hrun (start_tracked codec fleet radio channel recorded o)
    fun _ _ _ h hl hstep => h.step hl hstep

/-- The mesh of the nodes `S` has come to rest: no frame is queued or on air, the last message of
each of its nodes lists what that node still measures, nobody else says or hears anything, and all
its nodes are linked to each other. -/
structure Rests (radio : UInt8 → List UInt8) (S : Set UInt8) (s : Announcing crypto) : Prop where
  air : s.net.air = []
  queues : ∀ x p, (s.net.nodes x).scheduler.inner p = []
  current : ∀ o ∈ S, ∃ tc, (s.announced o).getLast? = some tc ∧
    tc.Lists (s.net.nodes o).olsr.links
  outside : ∀ o ∉ S, s.announced o = [] ∧ ∀ v, (s.net.nodes o).olsr.neighbors v = none
  linked : ∀ o ∈ S, ∀ y ∈ S, Net.Linked radio o y

theorem Tracked.last_of_latest (h : s.Tracked codec fleet radio o)
    (hlast : (s.announced o).getLast? = some last) (htc : tc ∈ s.announced o)
    (hseq : tc.seq = s.net.latest o) : tc = last := by
  have hnodup : ((s.announced o).map fun tc => tc.seq.toNat).Nodup :=
    h.numbered ▸ List.nodup_range'
  have hnumber : last.seq.toNat = (s.net.latest o).toNat := by
    have hends := congrArg List.getLast? h.numbered
    rw [List.getLast?_map, hlast, List.getLast?_range'] at hends
    split at hends
    next => cases hends
    next => simpa using hends
  refine List.inj_on_of_nodup_map hnodup htc (List.mem_of_getLast? hlast) ?_
  rw [hseq, hnumber]

theorem Rests.views {S : Set UInt8} (h : s.Rests radio S) (hhonest : s.Honest codec fleet radio)
    (htracked : ∀ o ∈ S, s.Tracked codec fleet radio o) (hx : x ∈ S) :
    Views s.net.links x (s.net.nodes x).olsr where
  localId := (hhonest.held.nodes x).olsr.localId_eq
  neighbors _ := rfl
  topology y hne v := by
    have hlocal : (s.net.nodes x).olsr.localId = x := (hhonest.held.nodes x).olsr.localId_eq
    by_cases hy : y ∈ S
    · obtain ⟨last, hlast, hlists⟩ := h.current y hy
      have hty := htracked y hy
      have hticked : s.net.latest y ≠ 0 := by
        intro hzero
        have hnone := hty.numbered
        rw [hzero, UInt16.toNat_zero, List.range'_zero, List.map_eq_nil_iff] at hnone
        rw [hnone] at hlast
        cases hlast
      have hknown := hty.spreads.known h.air h.queues hticked (h.linked y hy x hx) hne.symm
      obtain ⟨row, hrow⟩ := Option.isSome_iff_exists.1 (hty.rows x (by rw [hknown]; rfl))
      obtain ⟨tc, htc, hsender, hseq, rfl⟩ := hhonest.rows x y row hrow
      rw [hknown, Option.some.injEq] at hseq
      have hmem : tc ∈ s.announced y := List.mem_filter.2 ⟨htc, by simpa using hsender⟩
      rw [hty.last_of_latest hlast hmem hseq.symm] at hrow
      rw [hrow, Option.bind_some, hlocal, OlsrState.advertised_lists hlists]
      rfl
    · obtain ⟨hsilent, hnobody⟩ := h.outside y hy
      have hlinks : s.net.links y v = none := by
        rw [Net.links, OlsrState.links, hnobody]
        rfl
      have hrow : (s.net.nodes x).olsr.topology y = none := by
        cases hrow : (s.net.nodes x).olsr.topology y with
        | none => rfl
        | some row =>
          obtain ⟨tc, htc, hsender, -⟩ := hhonest.rows x y row hrow
          have hmem : tc ∈ s.announced y := List.mem_filter.2 ⟨htc, by simpa using hsender⟩
          rw [hsilent] at hmem
          cases hmem
      rw [hrow, hlinks, ite_self]
      rfl

/-- When the mesh has come to rest, every node of it has the whole graph of links in its tables, a
route to each node that the links lead to, and each route costs the least. -/
theorem mesh_routes_exact (fleet : Fleet crypto) (channel recorded : UInt8) {events : List Event}
    {S : Set UInt8}
    (hrun : events.foldlM (step codec radio) (start fleet channel recorded) = some s)
    (hlasting : ∀ o ∈ S, Along (step codec radio) (Lasting codec fleet o)
      (start fleet channel recorded) events)
    (hrests : s.Rests radio S) (hx : x ∈ S) :
    Views s.net.links x (s.net.nodes x).olsr ∧
      ∀ dst, (((s.net.nodes x).olsr.routeTo dst).isSome ↔
          dst ≠ x ∧ Reaches s.net.links.costs x dst) ∧
        ∀ r, (s.net.nodes x).olsr.routeTo dst = some r →
          IsLeast (walkCosts s.net.links.costs x dst) r.cost := by
  have hhonest := run_honest hrun
  have hviews := hrests.views hhonest (fun o ho => run_tracked (hlasting o ho) hrun) hx
  obtain ⟨order, hroutes⟩ := OlsrState.reached_recomputed (hhonest.held.nodes x).olsr
  refine ⟨hviews, fun dst => ⟨⟨fun hsome => ?_, fun ⟨hne, n, d, hwalk⟩ => ?_⟩, fun r hr => ?_⟩⟩
  · have hexact := OlsrState.reached_exact (hhonest.held.nodes x).olsr
    obtain ⟨hne, n, d, hwalk⟩ := (hexact.domain dst).1 hsome
    rw [hviews.localId] at hne hwalk
    exact ⟨hne, n, d, hwalk.mono fun _ _ _ => hviews.weights_sub⟩
  · rw [← hroutes]
    exact hviews.isSome_of_walk order hne hwalk
  · rw [← hroutes] at hr
    exact hviews.isLeast hr

/-- Nodes 1 and 2 hear each other, and node 2 hears node 3, which hears nobody. -/
def between (n : UInt8) : List UInt8 :=
  if n = 1 then [2] else if n = 2 then [1] else if n = 3 then [2] else []

def hearing (now : ℕ) (rssiDbm : Int8) : Event :=
  .deliver 0 { RxEnv.atMs now with rssiDbm := rssiDbm, tcDraw := .atMs (now + 1) }

/-- Nodes 3 and 2 say hello, and then nodes 2 and 1 announce what they have heard. All copies are
sent on and heard, too. Node 1 hears the hello of node 3 only badly, from node 2. -/
def betweenRun : List Event :=
  [.helloTick 3 0 byteOrder (.atMs 0), hearing 10 (-30), .transmit 2, hearing 20 (-100),
    .transmit 1, hearing 30 (-30),
    .helloTick 2 40 byteOrder (.atMs 40), hearing 50 (-30), .transmit 1, hearing 60 (-30),
    .transmit 2, hearing 70 (-30),
    .tcTick 2 80 byteOrder (.atMs 80), hearing 90 (-30), .transmit 1, hearing 100 (-30),
    .transmit 1, hearing 110 (-30), .transmit 2, hearing 120 (-30), .transmit 2, hearing 130 (-30),
    .transmit 1, hearing 140 (-30),
    .tcTick 1 150 byteOrder (.atMs 150), hearing 160 (-30), .transmit 2, hearing 170 (-30),
    .transmit 2, hearing 180 (-30), .transmit 1, hearing 190 (-30), .transmit 1, hearing 200 (-30),
    .transmit 2, hearing 210 (-30)]

def betweenLinks : LinkGraph := fun u v =>
  if u = 1 ∧ v = 2 ∨ u = 2 ∧ v = 3 then some ⟨-30, 0, 0⟩
  else if u = 1 ∧ v = 3 then some ⟨-100, 0, 0⟩
  else none

theorem between_rests : ∃ s : Announcing Crypto.plain,
    betweenRun.foldlM (step Codec.bincode between) (start Crypto.plainFleet 0 0) = some s ∧
      s.Rests between {1, 2} ∧ s.net.links = betweenLinks := by
  have hends : ∃ s ∈ betweenRun.foldlM (step Codec.bincode between) (start Crypto.plainFleet 0 0),
      s.net.air = [] ∧ (∀ x : UInt8, ∀ p ∈ Queues.order, (s.net.nodes x).scheduler.inner p = []) ∧
        (s.tcs.map fun tc => (tc.sender, tc.advertisedNeighbors)) =
          [2, 1].map (fun o => (o, ((s.net.nodes o).olsr.neighbors.entries byteOrder).map
            fun e => (e.1, e.2.linkQuality))) ∧
        (∀ v, (s.net.nodes 1).olsr.links v = betweenLinks 1 v) ∧
        ∀ v, (s.net.nodes 2).olsr.links v = betweenLinks 2 v := by
    decide +kernel
  obtain ⟨s, hrun, hair, hqueues, htcs, hone, htwo⟩ := hends
  have hnobody (o : UInt8) (ho : o ∉ ({1, 2} : Set UInt8)) (v : UInt8) :
      (s.net.nodes o).olsr.neighbors v = none := by
    refine Net.unheard (fun n hn => ho ?_) ⟨betweenRun, run_net hrun⟩ v
    rw [between] at hn
    split_ifs at hn <;> simp_all
  obtain ⟨tc₂, tcs, hsplit, htwo', hrest⟩ := List.map_eq_cons_iff.1 htcs
  obtain ⟨tc₁, tcs, rfl, hone', hnil⟩ := List.map_eq_cons_iff.1 hrest
  obtain ⟨hsender₂, hlists₂⟩ := Prod.mk.inj htwo'
  obtain ⟨hsender₁, hlists₁⟩ := Prod.mk.inj hone'
  have hannounced (o : UInt8) : s.announced o = [tc₂, tc₁].filter fun tc => tc.sender = o := by
    rw [announced, hsplit, List.map_eq_nil_iff.1 hnil]
  refine ⟨s, hrun, ⟨hair, fun x p => hqueues x p (by cases p <;> decide), ?_, ?_, ?_⟩, ?_⟩
  · rintro o (rfl | rfl)
    · refine ⟨tc₁, by rw [hannounced]; simp [hsender₁, hsender₂], fun v q => ?_⟩
      rw [hlists₁]
      exact OlsrState.mem_links ..
    · refine ⟨tc₂, by rw [hannounced]; simp [hsender₁, hsender₂], fun v q => ?_⟩
      rw [hlists₂]
      exact OlsrState.mem_links ..
  · intro o ho
    refine ⟨?_, hnobody o ho⟩
    have hne : o ≠ 1 ∧ o ≠ 2 := by simpa using ho
    rw [hannounced]
    simp [hsender₁, hsender₂, hne.1.symm, hne.2.symm]
  · have hthere : Net.Linked between 1 2 := .single (by decide)
    have hback : Net.Linked between 2 1 := .single (by decide)
    rintro o (rfl | rfl) y (rfl | rfl)
    · exact .refl
    · exact hthere
    · exact hback
    · exact .refl
  · funext u v
    by_cases hu : u ∈ ({1, 2} : Set UInt8)
    · rcases hu with rfl | rfl
      · exact hone v
      · exact htwo v
    · have hne : u ≠ 1 ∧ u ≠ 2 := by simpa using hu
      rw [Net.links, OlsrState.links, hnobody u hu]
      simp [betweenLinks, hne]

theorem between_lasting (o : UInt8) (ho : o ∈ ({1, 2} : Set UInt8)) :
    Along (step Codec.bincode between) (Lasting Codec.bincode Crypto.plainFleet o)
      (start Crypto.plainFleet 0 0) betweenRun := by
  have hboth : Along (step Codec.bincode between)
      (fun s e => Lasting Codec.bincode Crypto.plainFleet 1 s e ∧
        Lasting Codec.bincode Crypto.plainFleet 2 s e)
      (start Crypto.plainFleet 0 0) betweenRun := by decide +kernel
  rcases ho with rfl | rfl
  · exact hboth.mono fun _ _ h => h.1
  · exact hboth.mono fun _ _ h => h.2

theorem betweenLinks_costs (h : betweenLinks.costs u v = some c) :
    u.toNat < v.toNat ∧ v.toNat ≤ 3 ∧ 100 * v.toNat ≤ 100 * u.toNat + c := by
  obtain ⟨q, hq, rfl⟩ := Option.map_eq_some_iff.1 h
  rw [betweenLinks] at hq
  split at hq
  next hlink =>
    cases hq
    rcases hlink with ⟨rfl, rfl⟩ | ⟨rfl, rfl⟩ <;> decide
  next =>
    split at hq
    next hlink =>
      cases hq
      obtain ⟨rfl, rfl⟩ := hlink
      decide
    next => cases hq

theorem betweenLinks_isLeast : IsLeast (walkCosts betweenLinks.costs 1 3) 200 := by
  have hfirst : betweenLinks.costs 1 2 = some 100 := by decide
  have hlast : betweenLinks.costs 2 3 = some 100 := by decide
  refine ⟨⟨2, .snoc (.snoc .nil hfirst) hlast⟩, ?_⟩
  rintro d ⟨n, hwalk⟩
  have hclimb : ∀ {v n d}, Walk betweenLinks.costs 1 v n d → 100 * v.toNat ≤ 100 + d := by
    intro v n d hwalk
    induction hwalk with
    | nil => decide
    | snoc _ hc ih =>
      have hlast := (betweenLinks_costs hc).2.2
      omega
  have hcost := hclimb hwalk
  have hthree : (3 : UInt8).toNat = 3 := rfl
  omega

theorem between_route : ∃ (s : Announcing Crypto.plain) (r : RouteEntry),
    betweenRun.foldlM (step Codec.bincode between) (start Crypto.plainFleet 0 0) = some s ∧
      Views s.net.links 1 (s.net.nodes 1).olsr ∧ (s.net.nodes 1).olsr.routeTo 3 = some r ∧
      IsLeast (walkCosts s.net.links.costs 1 3) r.cost ∧ r.cost = 200 := by
  obtain ⟨s, hrun, hrests, hlinks⟩ := between_rests
  obtain ⟨hviews, hroutes⟩ := mesh_routes_exact Crypto.plainFleet 0 0 hrun between_lasting hrests
    (.inl rfl : (1 : UInt8) ∈ ({1, 2} : Set UInt8))
  obtain ⟨⟨n, hwalk⟩, hle⟩ := betweenLinks_isLeast
  obtain ⟨hsome, hleast⟩ := hroutes 3
  rw [hlinks] at hsome
  obtain ⟨r, hr⟩ := Option.isSome_iff_exists.1 (hsome.2 ⟨by decide, n, _, hwalk⟩)
  refine ⟨s, r, hrun, hviews, hr, hleast r hr, ?_⟩
  have hcost := hleast r hr
  rw [hlinks] at hcost
  exact hcost.unique betweenLinks_isLeast

/-- The nodes of the mesh as they are, and all others with the whole graph in their tables. -/
noncomputable def completed (s : Announcing crypto) (S : Set UInt8) (x : UInt8) : OlsrState :=
  open Classical in
  if x ∈ S then (s.net.nodes x).olsr
  else (s.net.links.tables x).recomputeRoutes fun _ => byteOrder

theorem Rests.inside {S : Set UInt8} (h : s.Rests radio S)
    (hroute : ((s.completed S x).routeTo dst).isSome) : x ∈ S := by
  by_contra hx
  rw [completed, if_neg hx] at hroute
  have hexact := OlsrState.recomputeRoutes_exact (s.net.links.tables x) fun _ => byteOrder
  obtain ⟨hne, n, d, hwalk⟩ := (hexact.domain dst).1 hroute
  refine hne (hwalk.eq_source fun v => ?_)
  have hnone : s.net.links x v = none := by
    rw [Net.links, OlsrState.links, (h.outside x hx).2]
    rfl
  have hviews := s.net.links.tables_views x
  change (s.net.links.tables x).weights x v = none
  rw [hviews.weights_eq, if_neg fun hne => hne.1 rfl, LinkGraph.costs, hnone]
  rfl

end Announcing
end TacticalMesh
