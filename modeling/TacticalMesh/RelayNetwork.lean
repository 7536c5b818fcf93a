import TacticalMesh.Forwarding
import TacticalMesh.Runs

namespace TacticalMesh
set_option autoImplicit true

/-- Who hears whom, and the routing table of every node. -/
structure RelayMesh where
  radio : UInt8 → List UInt8
  routeTo : UInt8 → UInt8 → Option RouteEntry

/-- A frame that is queued or on air, the nodes that can still hear it, and how often the
message that is being followed had been relayed when it was sent. -/
structure Flight where
  sender : UInt8
  raw : Bytes
  relays : Option ℕ
  pending : List UInt8

structure RelayNet where
  caches : UInt8 → NonceCache
  flights : List Flight

inductive RelayEvent where
  | hear (i : ℕ) (receiver : UInt8) (now : ℕ) (draw : Draw)
  | other (sender : UInt8) (raw : Bytes)

namespace RelayMesh
variable {crypto : Crypto} (mesh : RelayMesh) (fleet : Fleet crypto)

/-- One frame taken from the queue by the `rx_loop` of node `n`, up to its routing decision. -/
def receive (n : UInt8) (cache : NonceCache) (raw : Bytes) (now : ℕ) (draw : Draw) :
    NonceCache × Option Bytes :=
  if ownFrame n raw then (cache, none)
  else
    let (cache, parsed) := crypto.parseAndVerifyFrame raw fleet.pubkeys cache now fleet.sessionKey
    match parsed with
    | .error _ => (cache, none)
    | .ok parsed =>
      (cache, (crypto.relay (fleet.identity n) (mesh.routeTo n) parsed draw).map Prod.fst)

/-- Node `r` has heard flight `i`: its cache has changed, and it may have relayed the frame. -/
def heard (net : RelayNet) (i : ℕ) (f : Flight) (r : UInt8) (got : NonceCache × Option Bytes) :
    RelayNet where
  caches := Function.update net.caches r got.1
  flights := net.flights.set i { f with pending := f.pending.erase r } ++
    got.2.toList.map fun raw =>
      { sender := r, raw := raw, relays := f.relays.map (· + 1), pending := mesh.radio r }

def step (net : RelayNet) : RelayEvent → Option RelayNet
  | .hear i r now draw =>
    match net.flights[i]? with
    | none => none
    | some f =>
      if r ∈ f.pending then
        some (mesh.heard net i f r (mesh.receive fleet r (net.caches r) f.raw now draw))
      else none
  | .other s raw =>
    some { net with flights := net.flights ++ [⟨s, raw, none, mesh.radio s⟩] }

def start (origin : UInt8) (raw : Bytes) : RelayNet where
  caches _ := .new
  flights := [⟨origin, raw, some 0, mesh.radio origin⟩]

/-- Node `r` can come to relay the message as the `k`th in a row. -/
inductive Relayed (origin dst : UInt8) : ℕ → UInt8 → Prop
  | sent : Relayed origin dst 0 origin
  | relay : Relayed origin dst k t → r ∈ mesh.radio t → r ≠ t → r ≠ dst →
      (mesh.routeTo r dst).isSome → Relayed origin dst (k + 1) r

theorem Relayed.le (h : mesh.Relayed origin dst k t) (hj : j ≤ k) :
    ∃ r, mesh.Relayed origin dst j r := by
  induction h with
  | sent =>
    rw [Nat.le_zero.1 hj]
    exact ⟨_, .sent⟩
  | @relay k t r ht hr hne hdst hroute ih =>
    rcases Nat.le_succ_iff.1 hj with hj | rfl
    · exact ih hj
    · exact ⟨r, ht.relay hr hne hdst hroute⟩

theorem receive_frame (t : Sending) :
    mesh.receive fleet r cache (fleet.frame t) now draw =
      if t.src ≠ r ∧ cache.accepts (t.check now) then
        ((cache.check (t.check now)).1, (t.next r (mesh.routeTo r) draw).map fleet.frame)
      else (cache, none) := by
  rw [receive]
  by_cases hsrc : t.src = r
  · have hnot : ¬ (t.src ≠ r ∧ cache.accepts (t.check now)) := fun h => h.1 hsrc
    rw [if_neg hnot]
    exact if_pos ((ownFrame_frame fleet t).2 hsrc)
  · simp only [if_neg fun h => hsrc ((ownFrame_frame fleet t).1 h)]
    by_cases hacc : cache.accepts (t.check now)
    · rw [if_pos ⟨hsrc, hacc⟩, fleet.parse_of_accepts hacc]
      simp only [relay_parsed, Option.map_map]
      rfl
    · have hnot : ¬ (t.src ≠ r ∧ cache.accepts (t.check now)) := fun h => hacc h.2
      obtain ⟨e, he⟩ := fleet.parse_of_rejected hacc
      rw [if_neg hnot, he]

theorem receive_unicast {t : Sending} (hdst : t.dst ≠ broadcast) :
    (mesh.receive fleet r cache (fleet.frame t) now draw).2 = some raw ↔
      (t.src ≠ r ∧ cache.accepts (t.check now)) ∧ t.dst ≠ r ∧ ∃ e, mesh.routeTo r t.dst = some e ∧
        fleet.frame { t with src := r, lastHop := e.nextHop, hopsTaken := 0, draw := draw } =
          raw := by
  rw [receive_frame]
  split
  next hcond =>
    rw [and_iff_right hcond, Option.map_eq_some_iff]
    simp only [next_unicast hdst]
    constructor
    · rintro ⟨u, ⟨hne, e, he, rfl⟩, hraw⟩
      exact ⟨hne, e, he, hraw⟩
    · rintro ⟨hne, e, he, hraw⟩
      exact ⟨_, ⟨hne, e, he, rfl⟩, hraw⟩
  next hcond => exact ⟨nofun, fun h => absurd h.1 hcond⟩

structure Flight.Follows (origin dst : UInt8) (f : Flight) : Prop where
  carried : ∀ k, f.relays = some k → ∃ t : Sending, f.raw = fleet.frame t ∧ t.src = f.sender ∧
    t.dst = dst
  relayed : ∀ k, f.relays = some k → mesh.Relayed origin dst k f.sender
  heard : ∀ r ∈ f.pending, r ∈ mesh.radio f.sender

theorem step_hear (hf : net.flights[i]? = some f) (hr : r ∈ f.pending) :
    mesh.step fleet net (.hear i r now draw) =
      some (mesh.heard net i f r (mesh.receive fleet r (net.caches r) f.raw now draw)) := by
  simp only [step, hf]
  exact if_pos hr

theorem heard_caches (n : UInt8) :
    (mesh.heard net i f r got).caches n = if n = r then got.1 else net.caches n :=
  Function.update_apply ..

theorem step_hear_inv (h : mesh.step fleet net (.hear i r now draw) = some net') :
    ∃ f, net.flights[i]? = some f ∧ r ∈ f.pending := by
  rw [step] at h
  split at h
  next => cases h
  next f hf =>
    split at h
    next hr => exact ⟨f, hf, hr⟩
    next => cases h

variable {mesh} {fleet}

theorem Flight.Follows.relay {f : Flight} (hdst : dst ≠ broadcast)
    (hf : Flight.Follows mesh fleet origin dst f) (hr : r ∈ f.pending)
    (hraw : (mesh.receive fleet r cache f.raw now draw).2 = some raw) :
    Flight.Follows mesh fleet origin dst ⟨r, raw, f.relays.map (· + 1), mesh.radio r⟩ := by
  have hboth : ∀ k, f.relays.map (· + 1) = some k →
      (∃ t : Sending, raw = fleet.frame t ∧ t.src = r ∧ t.dst = dst) ∧
        mesh.Relayed origin dst k r := by
    intro k hk
    obtain ⟨j, hj, rfl⟩ := Option.map_eq_some_iff.1 hk
    obtain ⟨t, ht, hsrc, htdst⟩ := hf.carried j hj
    rw [ht, receive_unicast mesh fleet (htdst ▸ hdst)] at hraw
    obtain ⟨⟨hother, -⟩, hne, e, he, rfl⟩ := hraw
    rw [htdst] at hne he
    have hsender : r ≠ f.sender := fun h => hother (hsrc.trans h.symm)
    exact ⟨⟨_, rfl, rfl, htdst⟩, (hf.relayed j hj).relay (hf.heard r hr) hsender hne.symm
      (Option.isSome_of_eq_some he)⟩
  exact ⟨fun k hk => (hboth k hk).1, fun k hk => (hboth k hk).2, fun n hn => hn⟩

theorem step_follows (hdst : dst ≠ broadcast)
    (hinv : ∀ f ∈ net.flights, Flight.Follows mesh fleet origin dst f)
    (hstep : mesh.step fleet net e = some net') :
    ∀ f ∈ net'.flights, Flight.Follows mesh fleet origin dst f := by
  cases e with
  | hear i r now draw =>
    obtain ⟨f, hf, hr⟩ := step_hear_inv mesh fleet hstep
    have hfinv := hinv f (List.mem_of_getElem? hf)
    rw [step_hear mesh fleet hf hr, Option.some.injEq] at hstep
    subst hstep
    intro g hg
    rcases List.mem_append.1 hg with hg | hg
    · rcases List.mem_or_eq_of_mem_set hg with hg | rfl
      · exact hinv g hg
      · exact ⟨hfinv.carried, hfinv.relayed, fun n hn => hfinv.heard n (List.mem_of_mem_erase hn)⟩
    · obtain ⟨raw, hraw, rfl⟩ := List.mem_map.1 hg
      exact hfinv.relay hdst hr (Option.mem_toList.1 hraw)
  | other s raw =>
    cases hstep
    intro g hg
    rcases List.mem_append.1 hg with hg | hg
    · exact hinv g hg
    · rw [List.mem_singleton.1 hg]
      exact ⟨nofun, nofun, fun n hn => hn⟩

variable (mesh) (fleet)

/-- A net in which a node is about to be heard relaying the message for the `k`th time. -/
def InFlight (net : RelayNet) (dst : UInt8) (k : ℕ) (s : UInt8) : Prop :=
  (∃ t : Sending, t.src = s ∧ t.dst = dst ∧ t.draw = .atMs k ∧
    (⟨s, fleet.frame t, some k, mesh.radio s⟩ : Flight) ∈ net.flights) ∧
  ∀ n key, (net.caches n).seen key ≠ none → key.2.1 < k

theorem InFlight.relay (h : InFlight mesh fleet net dst k s) (hdst : dst ≠ broadcast)
    (hk : k ≤ Olsr.maxHops + 1) (hr : r ∈ mesh.radio s) (hne : r ≠ s) (hrdst : r ≠ dst)
    (hroute : (mesh.routeTo r dst).isSome) :
    ∃ net', LeadsTo (mesh.step fleet) net net' ∧ InFlight mesh fleet net' dst (k + 1) r := by
  obtain ⟨⟨t, hsrc, htdst, htdraw, hmem⟩, hold⟩ := h
  obtain ⟨i, hi⟩ := List.getElem?_of_mem hmem
  obtain ⟨e, he⟩ := Option.isSome_iff_exists.1 hroute
  have hacc := Sending.accepts_newest htdraw (hk.trans_lt (by decide)) (hold r)
  let u : Sending :=
    { t with src := r, lastHop := e.nextHop, hopsTaken := 0, draw := .atMs (k + 1) }
  have hnext : t.next r (mesh.routeTo r) (.atMs (k + 1)) = some u :=
    (next_unicast (htdst ▸ hdst)).2 ⟨htdst ▸ hrdst.symm, e, htdst ▸ he, rfl⟩
  have hrec : mesh.receive fleet r (net.caches r) (fleet.frame t) k (.atMs (k + 1)) =
      (((net.caches r).check (t.check k)).1, some (fleet.frame u)) := by
    rw [receive_frame, if_pos ⟨hsrc ▸ hne.symm, hacc⟩, hnext]
    rfl
  have hstep : mesh.step fleet net (.hear i r k (.atMs (k + 1))) =
      some (mesh.heard net i ⟨s, fleet.frame t, some k, mesh.radio s⟩ r
        (((net.caches r).check (t.check k)).1, some (fleet.frame u))) := by
    rw [step_hear mesh fleet hi hr, hrec]
  refine ⟨_, (LeadsTo.refl _ net).tail hstep, ⟨u, rfl, htdst, rfl, ?_⟩, ?_⟩
  · apply List.mem_append_right
    exact List.mem_singleton.2 rfl
  · intro n key hkey
    rw [heard_caches] at hkey
    split at hkey
    next hn =>
      subst hn
      exact Sending.seen_newest htdraw (hk.trans_lt (by decide)) hacc (hold n) key hkey
    next => exact Nat.lt_succ_of_lt (hold n key hkey)

variable {mesh}

theorem Relayed.inFlight (hdst : dst ≠ broadcast) (h : mesh.Relayed origin dst k s)
    (hk : k ≤ Olsr.maxHops + 1) (msg : TacticalMessage) (prio : Priority) (nextHop : UInt8) :
    ∃ net, LeadsTo (mesh.step fleet) (mesh.start origin (crypto.buildFrameForRoute msg prio dst
      (fleet.identity origin) nextHop (.atMs 0))) net ∧ InFlight mesh fleet net dst k s := by
  induction h with
  | sent =>
    refine ⟨_, .refl _ _, ⟨⟨origin, msg, prio, dst, nextHop, 0, .atMs 0⟩, rfl, rfl, rfl, ?_⟩, ?_⟩
    · exact List.mem_singleton.2 rfl
    · intro n key hkey
      exact absurd rfl hkey
  | relay _ hr hne hrdst hroute ih =>
    obtain ⟨net, hnet, hflight⟩ := ih (by omega)
    obtain ⟨net', hnet', hflight'⟩ := hflight.relay mesh fleet hdst (by omega) hr hne hrdst hroute
    exact ⟨net', hnet.trans hnet', hflight'⟩

/-- No message is relayed more than eight times in any run, exactly when no nine nodes can come
to relay it one after the other. -/
theorem relays_bounded_iff (mesh : RelayMesh) (origin dst nextHop : UInt8)
    (msg : TacticalMessage) (prio : Priority) (hdst : dst ≠ broadcast) :
    (∀ draw net, LeadsTo (mesh.step fleet) (mesh.start origin (crypto.buildFrameForRoute msg prio
        dst (fleet.identity origin) nextHop draw)) net →
      ∀ f ∈ net.flights, ∀ k, f.relays = some k → k ≤ Olsr.maxHops) ↔
      ∀ r, ¬ mesh.Relayed origin dst (Olsr.maxHops + 1) r := by
  constructor
  · intro h r hr
    obtain ⟨net, hnet, ⟨t, -, -, -, hmem⟩, -⟩ :=
      hr.inFlight fleet hdst (le_refl _) msg prio nextHop
    have hle := h _ net hnet _ hmem _ rfl
    omega
  · intro h draw net hnet f hf k hk
    by_contra hlt
    have hstart : ∀ f ∈ (mesh.start origin (crypto.buildFrameForRoute msg prio dst
        (fleet.identity origin) nextHop draw)).flights,
        Flight.Follows mesh fleet origin dst f := by
      intro f hf
      rw [List.mem_singleton.1 hf]
      refine ⟨?_, ?_, fun n hn => hn⟩
      · exact fun k _ => ⟨⟨origin, msg, prio, dst, nextHop, 0, draw⟩, rfl, rfl, rfl⟩
      · rintro k hk
        cases hk
        exact .sent
    have hinv : ∀ f ∈ net.flights, Flight.Follows mesh fleet origin dst f :=
      hnet.invariant hstart fun _ _ _ hinv hstep => step_follows hdst hinv hstep
    obtain ⟨r, hr⟩ := ((hinv f hf).relayed k hk).le mesh (by omega : Olsr.maxHops + 1 ≤ k)
    exact h r hr

/-- Two nodes that are each other's next hop towards a third one that neither of them hears. -/
def pingPong : RelayMesh where
  radio n := if n = 1 then [2] else if n = 2 then [1] else []
  routeTo n dst :=
    if dst = 3 ∧ n = 1 then some ⟨3, 2, 100, 2⟩
    else if dst = 3 ∧ n = 2 then some ⟨3, 1, 100, 2⟩ else none

theorem pingPong_relayed (k : ℕ) : pingPong.Relayed 1 3 (2 * k) 1 := by
  induction k with
  | zero => exact .sent
  | succ k ih =>
    have hthere : pingPong.Relayed 1 3 (2 * k + 1) 2 :=
      ih.relay (by decide) (by decide) (by decide) (by decide)
    exact hthere.relay (by decide) (by decide) (by decide) (by decide)

def pingPongStart (draw : Draw) : RelayNet :=
  pingPong.start 1 (Crypto.toy.buildFrameForRoute ⟨.data, [104, 105]⟩ .high 3
    (Crypto.toyFleet.identity 1) 2 draw)

theorem pingPong_bounded_iff :
    (3 : UInt8) ≠ broadcast ∧
      ((∀ draw net, LeadsTo (pingPong.step Crypto.toyFleet) (pingPongStart draw) net →
          ∀ f ∈ net.flights, ∀ k, f.relays = some k → k ≤ Olsr.maxHops) ↔
        ∀ r, ¬ pingPong.Relayed 1 3 (Olsr.maxHops + 1) r) :=
  ⟨by decide, relays_bounded_iff Crypto.toyFleet pingPong 1 3 2 _ _ (by decide)⟩

theorem pingPong_nine_relays :
    ∃ net, LeadsTo (pingPong.step Crypto.toyFleet) (pingPongStart (.atMs 0)) net ∧
      ∃ f ∈ net.flights, f.relays = some 9 := by
  have hnine : pingPong.Relayed 1 3 9 2 :=
    (pingPong_relayed 4).relay (by decide) (by decide) (by decide) (by decide)
  obtain ⟨net, hnet, ⟨t, -, -, -, hmem⟩, -⟩ := hnine.inFlight Crypto.toyFleet (by decide)
    (by decide) ⟨.data, [104, 105]⟩ .high 2
  exact ⟨net, hnet, _, hmem, rfl⟩

end RelayMesh
end TacticalMesh
