import TacticalMesh.ImageBurst
import TacticalMesh.Payloads
import TacticalMesh.TcDedup

namespace TacticalMesh
set_option autoImplicit true

/-- What identifies a topology message: the node it tells of, and its sequence number. -/
abbrev TcId := UInt8 × UInt16

def Tc.id (tc : Tc) : TcId := (tc.sender, tc.seq)

def Codec.decodeTc (codec : Codec) (payload : Bytes) : Option Tc :=
  match codec.decodeOlsr payload with
  | some (.tc tc) => some tc
  | _ => none

def Fleet.carriedTc {crypto : Crypto} (codec : Codec) (fleet : Fleet crypto) (raw : Bytes) :
    Option TcId :=
  match crypto.authenticate raw fleet.pubkeys with
  | .ok (_, auth) =>
    if auth.msgKind = .olsrTc then
      match crypto.decrypt raw auth fleet.sessionKey with
      | .ok payload => (codec.decodeTc payload).map Tc.id
      | .error _ => none
    else none
  | .error _ => none

/-- The topology message that the `process_tc` of a node reports as new when it takes a frame. -/
def Node.newTc {crypto : Crypto} (codec : Codec) (env : RxEnv) (raw : Bytes) (n : Node crypto) :
    Option TcId :=
  match (crypto.parseAndVerifyFrame raw n.pubkeys n.nonceCache env.now n.identity.sessionKey).2 with
  | .ok parsed =>
    if parsed.deliverLocal n.identity.nodeId ∧ parsed.auth.msgKind = .olsrTc then
      (codec.decodeTc parsed.plaintext).bind fun tc =>
        if (n.olsr.processTc tc parsed.auth.srcNode env.order).2 then some tc.id else none
    else none
  | .error _ => none

/-- A net, and what has been done with topology messages: which ones have come from the ticks,
which ones the nodes have taken from their queues and sent, and which ones were new to whom. -/
structure Flood (crypto : Crypto) where
  net : Net crypto
  originated : List TcId
  sent : List (UInt8 × TcId)
  reported : List (UInt8 × TcId)

namespace Net
variable {crypto : Crypto} (codec : Codec) (fleet : Fleet crypto) (net : Net crypto)

def originates : Event → Option TcId
  | .tcTick n now order _ =>
    some (Node.tc { net.nodes n with tcSeq := (net.nodes n).tcSeq + 1 } now order).id
  | _ => none

def sends : Event → Option (UInt8 × TcId)
  | .transmit n =>
    match (net.nodes n).scheduler.popNext with
    | some ((frame, _), _) => (fleet.carriedTc codec frame).map fun id => (n, id)
    | none => none
  | _ => none

def reports : Event → Option (UInt8 × TcId)
  | .deliver i env =>
    match net.air[i]? with
    | some (r, raw) =>
      if ownFrame r raw then none
      else ((net.nodes r).newTc codec env raw).map fun id => (r, id)
    | none => none
  | _ => none

end Net

namespace Flood
variable {crypto : Crypto} (codec : Codec) (fleet : Fleet crypto) (radio : UInt8 → List UInt8)

def step (s : Flood crypto) (e : Event) : Option (Flood crypto) :=
  (s.net.step codec radio e).map fun net =>
    { net := net
      originated := s.originated ++ (s.net.originates e).toList
      sent := s.sent ++ (s.net.sends codec fleet e).toList
      reported := s.reported ++ (s.net.reports codec e).toList }

def start (channel recorded : UInt8) : Flood crypto where
  net := .start fleet channel recorded
  originated := []
  sent := []
  reported := []

/-- The messages of a node that came from its tick once are sent at most once by every other
node, after they were reported as new there, and never again by the node itself. -/
def Deduplicated (origin : UInt8) (s : Flood crypto) : Prop :=
  ∀ seq, s.originated.count (origin, seq) ≤ 1 →
    (∀ x, x ≠ origin → s.sent.count (x, origin, seq) ≤ 1 ∧
      ((x, origin, seq) ∈ s.sent → (x, origin, seq) ∈ s.reported)) ∧
    (origin, origin, seq) ∉ s.sent

end Flood

theorem Codec.decodeTc_encodeOlsr (codec : Codec) (tc : Tc) :
    codec.decodeTc (codec.encodeOlsr (.tc tc)) = some tc := by
  rw [decodeTc, codec.decode_encodeOlsr]

def Sending.TellsOf (codec : Codec) (t : Sending) (id : TcId) : Prop :=
  t.msg.kind = .olsrTc ∧ ∃ tc, codec.decodeTc t.msg.payload = some tc ∧ tc.id = id

theorem Fleet.carriedTc_frame {crypto : Crypto} (codec : Codec) (fleet : Fleet crypto)
    (t : Sending) {k : TcId} :
    fleet.carriedTc codec (fleet.frame t) = some k ↔ t.TellsOf codec k := by
  rw [carriedTc, fleet.authenticate_frame, Sending.TellsOf]
  simp only [fleet.decrypt_frame, Option.ite_none_right_eq_some, Option.map_eq_some_iff]
  rfl

namespace Net
variable {crypto : Crypto} {codec : Codec} {fleet : Fleet crypto} {radio : UInt8 → List UInt8}
variable {net net' : Net crypto} {origin : UInt8}

def Silent (codec : Codec) (origin : UInt8) (t : Sending) : Prop :=
  ∀ seq, ¬ t.TellsOf codec (origin, seq)

theorem silent_of_kind (h : t.msg.kind ≠ .olsrTc) : Silent codec origin t :=
  fun _ htells => h htells.1

theorem silent_rules (h : ∀ r ∈ radio origin, r = origin) :
    Rules codec radio (Silent codec origin) (Silent codec origin) fun _ => True where
  relay t r ht _ _ routeTo draw u hu seq htells := by
    rw [Sending.TellsOf, (next_src hu).2] at htells
    exact ht seq htells
  msg _ _ _ _ _ := trivial
  forward t r ht _ _ hkind draw seq htells := ht seq ⟨hkind, htells.2⟩
  topology x tc draw hsender r hr hne seq htells := by
    obtain ⟨-, tc', htc', hid⟩ := htells
    cases (codec.decodeTc_encodeOlsr tc).symm.trans htc'
    have horigin : x = origin := hsender.symm.trans (Prod.ext_iff.1 hid).1
    exact hne ((h r (horigin ▸ hr)).trans horigin.symm)
  hello _ _ _ _ := silent_of_kind nofun
  operator s m hs _ := silent_of_kind (by rw [hs]; nofun)

end Net

namespace Flood
variable {crypto : Crypto} {codec : Codec} {fleet : Fleet crypto} {radio : UInt8 → List UInt8}
variable {s s' : Flood crypto} {origin : UInt8}

theorem step_eq_some : s.step codec fleet radio e = some s' ↔
    ∃ net, s.net.step codec radio e = some net ∧
      { net := net
        originated := s.originated ++ (s.net.originates e).toList
        sent := s.sent ++ (s.net.sends codec fleet e).toList
        reported := s.reported ++ (s.net.reports codec e).toList } = s' := Option.map_eq_some_iff

/-- No frame that a node has queued, or can still hear, tells of the origin, and none was sent. -/
structure Untold (codec : Codec) (fleet : Fleet crypto) (radio : UInt8 → List UInt8)
    (origin : UInt8) (s : Flood crypto) : Prop where
  held : s.net.Holds fleet radio (Net.Silent codec origin) (Net.Silent codec origin)
    fun _ => True
  sent : ∀ e ∈ s.sent, e.2.1 ≠ origin

theorem Untold.sends (h : s.Untold codec fleet radio origin) (e : Event) :
    ∀ p ∈ s.net.sends codec fleet e, p.2.1 ≠ origin := by
  intro p hp
  rw [Option.mem_def, Net.sends.eq_def] at hp
  split at hp
  next n =>
    split at hp
    next frame prio queues hpop =>
      obtain ⟨rest, hrest, -⟩ := Queues.popNext_eq_some hpop
      have hmem : frame ∈ (s.net.nodes n).scheduler.inner prio := by
        rw [hrest]
        exact List.mem_cons_self
      obtain ⟨t, rfl, -, ht⟩ := (h.held.nodes n).queued prio frame hmem
      obtain ⟨id, hid, rfl⟩ := Option.map_eq_some_iff.1 hp
      intro horigin
      apply ht id.2
      rw [← horigin]
      exact (fleet.carriedTc_frame codec t).1 hid
    next => cases hp
  next => cases hp

theorem Untold.step (h : s.Untold codec fleet radio origin)
    (hradio : ∀ r ∈ radio origin, r = origin) (hstep : s.step codec fleet radio e = some s') :
    s'.Untold codec fleet radio origin := by
  obtain ⟨net, hnet, rfl⟩ := step_eq_some.1 hstep
  constructor
  case held =>
    apply h.held.step_of (Net.silent_rules hradio) hnet
    case hsend => exact fun _ _ _ hs _ _ _ => hs
    case halert => exact fun _ _ _ => Net.silent_of_kind nofun
  case sent =>
    intro p hp
    rcases List.mem_append.1 hp with hp | hp
    · exact h.sent p hp
    · exact h.sends e p (Option.mem_toList.1 hp)

theorem Untold.deduplicated (h : s.Untold codec fleet radio origin) : s.Deduplicated origin := by
  have hnone (x : UInt8) (seq : UInt16) : (x, origin, seq) ∉ s.sent := fun hmem => h.sent _ hmem rfl
  intro seq _
  constructor
  · intro x _
    rw [List.count_eq_zero_of_not_mem (hnone x seq)]
    exact ⟨Nat.zero_le 1, fun hmem => absurd hmem (hnone x seq)⟩
  · exact hnone origin seq

end Flood

theorem Node.Holds.newTc_frame {crypto : Crypto} {fleet : Fleet crypto} {n : Node crypto}
    {env : RxEnv} {t : Sending} {k : TcId} (codec : Codec) (h : n.Holds fleet Q L x) :
    n.newTc codec env (fleet.frame t) = some k ↔
      n.nonceCache.accepts (t.check env.now) ∧ ((t.dst = x ∨ t.dst = broadcast) ∧
        t.msg.kind = .olsrTc) ∧ ∃ tc, codec.decodeTc t.msg.payload = some tc ∧
          n.olsr.shouldForwardTc tc ∧ tc.id = k := by
  have hlocal : (fleet.parsed t).deliverLocal n.identity.nodeId ↔
      t.dst = x ∨ t.dst = broadcast := by
    rw [ParsedFrame.deliverLocal, Bool.or_eq_true, decide_eq_true_iff, decide_eq_true_iff,
      h.identity]
    rfl
  have hkind : (fleet.parsed t).auth.msgKind = t.msg.kind := rfl
  have hplain : (fleet.parsed t).plaintext = t.msg.payload := rfl
  rw [Node.newTc, h.pubkeys, h.sessionKey]
  by_cases hacc : n.nonceCache.accepts (t.check env.now)
  · rw [fleet.parse_of_accepts hacc, and_iff_right hacc]
    simp only [hlocal, hkind, hplain, OlsrState.processTc_snd, Option.ite_none_right_eq_some,
      Option.bind_eq_some_iff, Option.some.injEq]
  · obtain ⟨e, he⟩ := fleet.parse_of_rejected hacc
    rw [he]
    constructor
    · intro hk
      cases hk
    · exact fun h => absurd h.1 hacc

/-- A topology message that is new is queued twice: as the flooded frame, and as the forwarded
one. -/
theorem Node.Holds.rxLoop_tc {crypto : Crypto} {fleet : Fleet crypto} {n : Node crypto}
    {env : RxEnv} {t : Sending} {tc : Tc} (codec : Codec) (h : n.Holds fleet Q L x)
    (hacc : n.nonceCache.accepts (t.check env.now)) (hkind : t.msg.kind = .olsrTc)
    (hprio : t.prio = .high) (hdst : t.dst = broadcast) (hhops : t.hopsTaken < Wire.maxHops)
    (htc : codec.decodeOlsr t.msg.payload = some (.tc tc)) (hnew : n.olsr.shouldForwardTc tc) :
    (n.rxLoop codec env (fleet.frame t)).1.scheduler =
      (n.scheduler.push
        (fleet.frame { t with
          src := x
          lastHop := x
          hopsTaken := saturatingSucc t.hopsTaken
          draw := env.relayDraw }) .high).push
        (fleet.frame (.own x .olsrTc t.msg.payload .high env.tcDraw)) .high := by
  have hcontrol : t.msg.kind ≠ .data := by
    rw [hkind]
    decide
  obtain ⟨-, m, hid, holsr, hqueued, hsched⟩ :=
    h.rxLoop_control codec hacc hcontrol hprio hdst hhops
  have hauth : (fleet.parsed t).auth.msgKind = .olsrTc := hkind
  have hplain : codec.decodeOlsr (fleet.parsed t).plaintext = some (.tc tc) := htc
  have hflag : (m.olsr.processTc tc (fleet.parsed t).auth.srcNode env.order).2 = true := by
    rw [OlsrState.processTc_snd, holsr]
    exact hnew
  rw [hsched, ← hqueued, Node.dispatch, hauth]
  simp only [hplain, hflag, if_true]
  rw [hid, h.identity]
  rfl

namespace Flood
variable {crypto : Crypto} {codec : Codec} {fleet : Fleet crypto} {radio : UInt8 → List UInt8}
variable {s : Flood crypto} {origin n : UInt8} {t : Sending} {k : TcId}

theorem step_of (fleet : Fleet crypto) {net : Net crypto}
    (h : s.net.step codec radio e = some net) :
    ∃ s', s.step codec fleet radio e = some s' ∧ s'.net = net ∧
      s'.originated = s.originated ++ (s.net.originates e).toList ∧
      s'.sent = s.sent ++ (s.net.sends codec fleet e).toList ∧
      s'.reported = s.reported ++ (s.net.reports codec e).toList :=
  ⟨_, step_eq_some.2 ⟨net, h, rfl⟩, rfl, rfl, rfl, rfl⟩

theorem step_transmit (codec : Codec) (radio : UInt8 → List UInt8)
    (hpop : (s.net.nodes n).scheduler.popNext = some ((fleet.frame t, prio), queues))
    (ht : t.TellsOf codec k) :
    ∃ s', s.step codec fleet radio (.transmit n) = some s' ∧ s'.originated = s.originated ∧
      s'.sent = s.sent ++ [(n, k)] ∧ s'.reported = s.reported ∧
      (s'.net.nodes n).scheduler = queues := by
  have hsends : s.net.sends codec fleet (.transmit n) = some (n, k) := by
    simp only [Net.sends, hpop, (fleet.carriedTc_frame codec t).2 ht, Option.map_some]
  obtain ⟨s', hstep, hnet, horig, hsent, hrep⟩ :=
    step_of fleet (Net.step_transmit_of codec radio hpop)
  refine ⟨s', hstep, horig.trans (List.append_nil _), ?_, hrep.trans (List.append_nil _), ?_⟩
  · rw [hsent, hsends]
    rfl
  · rw [hnet]
    exact congrArg (fun node : Node crypto => node.scheduler)
      ((Net.setNode_nodes s.net n _ n).trans (if_pos rfl))

theorem queued_twice (codec : Codec) (fleet : Fleet crypto) (channel recorded : UInt8)
    (hr : r ∈ radio origin) (hne : r ≠ origin) :
    ∃ (s : Flood crypto) (a b : Sending),
      LeadsTo (step codec fleet radio) (start fleet channel recorded) s ∧
      s.originated = [(origin, 1)] ∧ s.sent = [] ∧ s.reported = [(r, origin, 1)] ∧
      (s.net.nodes r).scheduler =
        (Queues.new.push (fleet.frame a) .high).push (fleet.frame b) .high ∧
      a.TellsOf codec (origin, 1) ∧ b.TellsOf codec (origin, 1) := by
  let s := start fleet channel recorded
  let node := { s.net.nodes origin with tcSeq := (s.net.nodes origin).tcSeq + 1 }
  let t : Sending := .own origin .olsrTc (codec.encodeOlsr (.tc (node.tc 0 byteOrder))) .high
    (.atMs 0)
  have hs : s.net.Holds fleet radio (fun _ => True) (fun _ => True) (fun _ => True) :=
    Net.start_holds fleet channel recorded
  have htells (u : Sending) (hu : u.msg = t.msg) : u.TellsOf codec (origin, 1) := by
    rw [Sending.TellsOf, hu]
    exact ⟨rfl, _, codec.decodeTc_encodeOlsr _, rfl⟩
  let s₁ : Flood crypto := ⟨(s.net.setNode origin node).send radio origin (fleet.frame t),
    [(origin, 1)], [], []⟩
  have htick : s.step codec fleet radio (.tcTick origin 0 byteOrder (.atMs 0)) = some s₁ := rfl
  have hsame : s₁.net.nodes r = s.net.nodes r := (Net.setNode_nodes ..).trans (if_neg hne)
  have htuned : ((s.net.setNode origin node).nodes r).link.channel =
      ((s.net.setNode origin node).nodes origin).link.channel := by
    rw [Net.setNode_nodes, Net.setNode_nodes, if_neg hne, if_pos rfl]
    rfl
  obtain ⟨i, hi, hheard⟩ : ∃ i, s₁.net.air[i]? = some (r, fleet.frame t) ∧
      s₁.net.step codec radio (.deliver i (.atMs 0)) =
        some (s₁.net.taken codec i r (fleet.frame t) (.atMs 0)) :=
    Net.step_deliver_sent codec radio _ hr hne htuned
  obtain ⟨s₂, hdeliver, hnet, horig, hsent, hrep⟩ := step_of fleet hheard
  have hacc : (s.net.nodes r).nonceCache.accepts (t.check 0) :=
    Sending.accepts_newest rfl (by decide) fun key hkey => absurd rfl hkey
  have hfirst : ¬ Stale 0 1 := by decide
  have hnew : (s.net.nodes r).olsr.shouldForwardTc (node.tc 0 byteOrder) :=
    OlsrState.shouldForwardTc_iff.2 ⟨hne.symm, hfirst⟩
  have hhops : (0 : UInt8) < Wire.maxHops := by decide
  refine ⟨s₂, { t with src := r, lastHop := r, hopsTaken := 1 },
    .own r .olsrTc t.msg.payload .high (.atMs 0),
    ((LeadsTo.refl _ s).tail htick).tail hdeliver, horig, hsent, ?_, ?_, htells _ rfl,
    htells _ rfl⟩
  · have htaken : (s.net.nodes r).newTc codec (.atMs 0) (fleet.frame t) = some (origin, 1) :=
      ((hs.nodes r).newTc_frame codec).2
        ⟨hacc, ⟨.inr rfl, rfl⟩, _, codec.decodeTc_encodeOlsr _, hnew, rfl⟩
    have hreports : s₁.net.reports codec (.deliver i (.atMs 0)) = some (r, origin, 1) := by
      simp only [Net.reports, hi]
      rw [if_neg fun h => hne ((ownFrame_frame fleet t).1 h).symm, hsame, htaken]
      rfl
    rw [hrep, hreports]
    rfl
  · rw [hnet, Net.taken_nodes, if_pos rfl, hsame]
    exact (hs.nodes r).rxLoop_tc codec hacc rfl rfl rfl hhops (codec.decode_encodeOlsr _) hnew

theorem sent_twice (codec : Codec) (fleet : Fleet crypto) (channel recorded : UInt8)
    (hr : r ∈ radio origin) (hne : r ≠ origin) :
    ∃ s, LeadsTo (step codec fleet radio) (start fleet channel recorded) s ∧
      s.originated = [(origin, 1)] ∧ s.sent = [(r, origin, 1), (r, origin, 1)] ∧
      s.reported = [(r, origin, 1)] := by
  obtain ⟨s, a, b, hrun, horig, hsent, hrep, hqueued, ha, hb⟩ :=
    queued_twice codec fleet channel recorded hr hne
  have hpop := (congrArg Queues.popNext hqueued).trans Queues.popNext_push_push
  obtain ⟨s₁, hsend₁, horig₁, hsent₁, hrep₁, hqueues⟩ := step_transmit codec radio hpop ha
  have hpop' := (congrArg Queues.popNext hqueues).trans Queues.popNext_push_new
  obtain ⟨s₂, hsend₂, horig₂, hsent₂, hrep₂, -⟩ := step_transmit codec radio hpop' hb
  refine ⟨s₂, (hrun.tail hsend₁).tail hsend₂, ?_, ?_, ?_⟩
  · rw [horig₂, horig₁, horig]
  · rw [hsent₂, hsent₁, hsent]
    rfl
  · rw [hrep₂, hrep₁, hrep]

theorem not_deduplicated (horig : s.originated = [(origin, seq)])
    (hsent : s.sent = [(r, origin, seq), (r, origin, seq)]) (hne : r ≠ origin) :
    ¬ s.Deduplicated origin := by
  intro h
  have hle := ((h seq (by rw [horig, List.count_singleton_self])).1 r hne).1
  rw [hsent, List.count_cons_self, List.count_singleton_self] at hle
  exact absurd hle (by decide)

/-- The messages of a node are deduplicated in all runs, exactly when nobody else hears it. -/
theorem deduplicated_iff (codec : Codec) (fleet : Fleet crypto) (radio : UInt8 → List UInt8)
    (channel recorded origin : UInt8) :
    (∀ s, LeadsTo (step codec fleet radio) (start fleet channel recorded) s →
      s.Deduplicated origin) ↔ ∀ r ∈ radio origin, r = origin := by
  constructor
  · intro h r hr
    by_contra hne
    obtain ⟨s, hrun, horig, hsent, -⟩ := sent_twice codec fleet channel recorded hr hne
    exact not_deduplicated horig hsent hne (h s hrun)
  · intro hradio s hrun
    have hstart : (start fleet channel recorded).Untold codec fleet radio origin :=
      ⟨Net.start_holds fleet channel recorded, fun _ h => absurd h List.not_mem_nil⟩
    have huntold : s.Untold codec fleet radio origin :=
      hrun.invariant hstart fun _ _ _ h hstep => h.step hradio hstep
    exact huntold.deduplicated

theorem pair_sends_twice :
    ∃ s, LeadsTo (step Codec.bincode Crypto.toyFleet Net.pair) (start Crypto.toyFleet 0 0) s ∧
      s.originated = [(1, 1)] ∧ s.sent = [(2, 1, 1), (2, 1, 1)] ∧ s.reported = [(2, 1, 1)] ∧
      ¬ s.Deduplicated 1 := by
  have hr : (2 : UInt8) ∈ Net.pair 1 := by decide
  obtain ⟨s, hrun, horig, hsent, hrep⟩ :=
    sent_twice Codec.bincode Crypto.toyFleet 0 0 hr (by decide)
  exact ⟨s, hrun, horig, hsent, hrep, not_deduplicated horig hsent (by decide)⟩

end Flood
end TacticalMesh
