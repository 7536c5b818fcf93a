import TacticalMesh.MeshNetwork
import TacticalMesh.OlsrRoutes

namespace TacticalMesh
set_option autoImplicit true

def Sending.own (src : UInt8) (kind : MsgKind) (payload : Bytes) (prio : Priority) (draw : Draw) :
    Sending where
  src := src
  msg := ⟨kind, payload⟩
  prio := prio
  dst := broadcast
  lastHop := src
  hopsTaken := 0
  draw := draw

/-- The routing state is one that a run of its three operations leads to. -/
def OlsrState.Reached (x : UInt8) (s : OlsrState) : Prop :=
  ∃ events, s = (OlsrState.new x).run events

theorem OlsrState.Reached.handle (h : Reached x s) (e : OlsrEvent) : Reached x (s.handle e) := by
  obtain ⟨events, rfl⟩ := h
  refine ⟨events ++ [e], ?_⟩
  rw [run, run, List.foldl_append]
  rfl

theorem OlsrState.Reached.localId_eq (h : Reached x s) : s.localId = x := by
  obtain ⟨events, rfl⟩ := h
  exact run_localId _ events

namespace Node
variable {crypto : Crypto} {fleet : Fleet crypto} {codec : Codec} {env : RxEnv}
variable {Q : Sending → Prop} {L : AppMsg → Prop} {x : UInt8} {n : Node crypto}

/-- Node `x` has its keys, has queued only frames of its own with `Q`, and is about to handle
only messages with `L`. -/
structure Holds (fleet : Fleet crypto) (Q : Sending → Prop) (L : AppMsg → Prop) (x : UInt8)
    (n : Node crypto) : Prop where
  identity : n.identity = fleet.identity x
  pubkeys : n.pubkeys = fleet.pubkeys
  olsr : n.olsr.Reached x
  queued : ∀ p raw, raw ∈ n.scheduler.inner p → ∃ s, raw = fleet.frame s ∧ s.src = x ∧ Q s
  spawned : ∀ m ∈ n.spawned, L m

theorem Holds.sessionKey (h : n.Holds fleet Q L x) :
    n.identity.sessionKey = fleet.sessionKey := by
  rw [h.identity]
  rfl

theorem Holds.mono (h : n.Holds fleet Q L x) (hQ : ∀ s, s.src = x → Q s → Q' s)
    (hL : ∀ m, L m → L' m) : n.Holds fleet Q' L' x where
  identity := h.identity
  pubkeys := h.pubkeys
  olsr := h.olsr
  queued p raw hraw := by
    obtain ⟨s, hs, hsrc, hq⟩ := h.queued p raw hraw
    exact ⟨s, hs, hsrc, hQ s hsrc hq⟩
  spawned m hm := hL m (h.spawned m hm)

theorem Holds.enqueue (h : n.Holds fleet Q L x) (hsrc : s.src = x) (hs : Q s)
    (hframe : frame = fleet.frame s) (prio : Priority) :
    (n.enqueue frame prio).Holds fleet Q L x where
  identity := h.identity
  pubkeys := h.pubkeys
  olsr := h.olsr
  queued p raw hraw := by
    rcases Queues.mem_push.1 hraw with hraw | ⟨rfl, -⟩
    · exact h.queued p raw hraw
    · exact ⟨s, hframe, hsrc, hs⟩
  spawned := h.spawned

theorem Holds.own_frame (h : n.Holds fleet Q L x) (kind : MsgKind) (payload : Bytes)
    (prio : Priority) (draw : Draw) :
    crypto.buildFrame ⟨kind, payload⟩ prio broadcast n.identity draw =
      fleet.frame (.own x kind payload prio draw) := by
  rw [h.identity]
  rfl

theorem Holds.relay (h : n.Holds fleet Q L x)
    (hnext : ∀ u, t.next x n.olsr.routeTo env.relayDraw = some u → Q u) :
    (n.relay env (fleet.parsed t)).Holds fleet Q L x := by
  rw [Node.relay, h.identity, relay_parsed]
  cases hu : t.next x n.olsr.routeTo env.relayDraw with
  | none => exact h
  | some u => exact h.enqueue (next_src hu).1 (hnext u hu) rfl _

theorem Holds.dispatch (h : n.Holds fleet Q L x)
    (htc : t.msg.kind = .olsrTc → Q (.own x .olsrTc t.msg.payload .high env.tcDraw))
    (hmsg : ∀ m, t.msg.kind = .data → codec.decodeApp t.msg.payload = some m → L m) :
    (n.dispatch codec env (fleet.parsed t)).Holds fleet Q L x := by
  have hkind : (fleet.parsed t).auth.msgKind = t.msg.kind := rfl
  have hplain : (fleet.parsed t).plaintext = t.msg.payload := rfl
  rw [Node.dispatch, hkind, hplain]
  cases hk : t.msg.kind with
  | olsrHello =>
    simp only
    split
    next hello _ =>
      exact ⟨h.identity, h.pubkeys, h.olsr.handle (.hello hello t.src _ _ _), h.queued,
        h.spawned⟩
    next => exact h
  | olsrTc =>
    simp only
    split
    next tc _ =>
      have h' : ({ n with olsr := (n.olsr.processTc tc (fleet.parsed t).auth.srcNode
          env.order).1 } : Node crypto).Holds fleet Q L x :=
        ⟨h.identity, h.pubkeys, h.olsr.handle (.tc tc t.src _), h.queued, h.spawned⟩
      split
      next => exact h'.enqueue rfl (htc hk) (h.own_frame ..) _
      next => exact h'
    next => exact h
  | data =>
    simp only
    split
    next m hm =>
      refine ⟨h.identity, h.pubkeys, h.olsr, h.queued, ?_⟩
      intro m' hm'
      rcases List.mem_append.1 hm' with hm' | hm'
      · exact h.spawned m' hm'
      · rw [List.mem_singleton.1 hm']
        exact hmsg m hk hm
    next => exact h
  | ack => exact h
  | sessionKeyRotation => exact ⟨h.identity, h.pubkeys, h.olsr, h.queued, h.spawned⟩

def alert (codec : Codec) (env : RxEnv) (n : Node crypto) (x : UInt8) : Sending :=
  .own x .data (codec.encodeApp (.jamAlert ⟨x, n.app.channel, env.now⟩)) .emergency env.alertDraw

theorem Holds.raiseAlarm (h : n.Holds fleet Q L x) (halert : Q (n.alert codec env x)) :
    (n.raiseAlarm codec env).Holds fleet Q L x := by
  have hid : n.identity.nodeId = x := by
    rw [h.identity]
    rfl
  have hhop : ({ n with
      toShared := n.toShared.handleJamAlert ⟨x, n.app.channel, env.now⟩ env.succeeds
      jamDetected := true } : Node crypto).Holds fleet Q L x :=
    ⟨h.identity, h.pubkeys, h.olsr, h.queued, h.spawned⟩
  have hsent := hhop.enqueue rfl halert (hhop.own_frame ..) .emergency
  rw [Node.raiseAlarm, hid]
  exact ⟨hsent.identity, hsent.pubkeys, hsent.olsr, hsent.queued, hsent.spawned⟩

theorem Holds.resetJam (h : n.Holds fleet Q L x) : n.resetJam.Holds fleet Q L x := by
  rw [Node.resetJam]
  split
  next => exact ⟨h.identity, h.pubkeys, h.olsr, h.queued, h.spawned⟩
  next => exact h

theorem Holds.jamCheck (h : n.Holds fleet Q L x)
    (halert : n.detects → Q (n.alert codec env x)) :
    (n.jamCheck codec env).Holds fleet Q L x := by
  rw [Node.jamCheck]
  apply Holds.resetJam
  split
  next hdet => exact h.raiseAlarm (halert hdet)
  next => exact h

section Frame
variable (codec : Codec) (env : RxEnv) (parsed : ParsedFrame) (n : Node crypto)

theorem relay_changes : ∃ scheduler, n.relay env parsed = { n with scheduler } := by
  rw [Node.relay]
  split
  next => exact ⟨_, rfl⟩
  next => exact ⟨n.scheduler, rfl⟩

theorem dispatch_changes : ∃ olsr scheduler spawned streamRots,
    n.dispatch codec env parsed = { n with olsr, scheduler, spawned, streamRots } := by
  rw [Node.dispatch]
  simp only
  split
  next =>
    split
    next => exact ⟨_, n.scheduler, n.spawned, n.streamRots, rfl⟩
    next => exact ⟨n.olsr, n.scheduler, n.spawned, n.streamRots, rfl⟩
  next =>
    split
    next =>
      split
      next => exact ⟨_, _, n.spawned, n.streamRots, rfl⟩
      next => exact ⟨_, n.scheduler, n.spawned, n.streamRots, rfl⟩
    next => exact ⟨n.olsr, n.scheduler, n.spawned, n.streamRots, rfl⟩
  next =>
    split
    next => exact ⟨n.olsr, n.scheduler, _, n.streamRots, rfl⟩
    next => exact ⟨n.olsr, n.scheduler, n.spawned, n.streamRots, rfl⟩
  next => exact ⟨n.olsr, n.scheduler, n.spawned, n.streamRots, rfl⟩
  next => exact ⟨n.olsr, n.scheduler, n.spawned, _, rfl⟩

theorem relay_keeps : (n.relay env parsed).app = n.app ∧ (n.relay env parsed).link = n.link ∧
    (n.relay env parsed).jamWindow = n.jamWindow ∧
    (n.relay env parsed).jamDetected = n.jamDetected ∧ (n.relay env parsed).olsr = n.olsr := by
  obtain ⟨scheduler, h⟩ := relay_changes env parsed n
  rw [h]
  exact ⟨rfl, rfl, rfl, rfl, rfl⟩

theorem dispatch_keeps : (n.dispatch codec env parsed).app = n.app ∧
    (n.dispatch codec env parsed).link = n.link ∧
    (n.dispatch codec env parsed).jamWindow = n.jamWindow ∧
    (n.dispatch codec env parsed).jamDetected = n.jamDetected := by
  obtain ⟨olsr, scheduler, spawned, streamRots, h⟩ := dispatch_changes codec env parsed n
  rw [h]
  exact ⟨rfl, rfl, rfl, rfl⟩

theorem resetJam_keeps : n.resetJam.app = n.app ∧ n.resetJam.link = n.link ∧
    n.resetJam.olsr = n.olsr ∧ n.resetJam.scheduler = n.scheduler := by
  rw [Node.resetJam]
  split <;> exact ⟨rfl, rfl, rfl, rfl⟩

def dispatched : Node crypto := ((n.record env parsed).relay env parsed).dispatch codec env parsed

theorem dispatched_keeps : (n.dispatched codec env parsed).app = n.app ∧
    (n.dispatched codec env parsed).link = n.link ∧
    (n.dispatched codec env parsed).jamWindow =
      n.jamWindow.record parsed.auth.priority env.now ∧
    (n.dispatched codec env parsed).jamDetected = n.jamDetected := by
  obtain ⟨ha, hl, hw, hd⟩ :=
    dispatch_keeps codec env parsed ((n.record env parsed).relay env parsed)
  obtain ⟨ha', hl', hw', hd', -⟩ := relay_keeps env parsed (n.record env parsed)
  exact ⟨ha.trans ha', hl.trans hl', hw.trans hw', hd.trans hd'⟩

theorem dispatched_identity : (n.dispatched codec env parsed).identity = n.identity := by
  obtain ⟨_, _, _, _, hdispatch⟩ :=
    dispatch_changes codec env parsed ((n.record env parsed).relay env parsed)
  obtain ⟨_, hrelay⟩ := relay_changes env parsed (n.record env parsed)
  rw [dispatched, hdispatch, hrelay]
  rfl

variable {parsed} {n}

theorem handleParsed_of_local (h : parsed.deliverLocal n.identity.nodeId) :
    n.handleParsed codec env parsed =
      ((n.dispatched codec env parsed).jamCheck codec env,
        (n.dispatched codec env parsed).detects) := if_pos h

theorem handleParsed_of_not_local (h : ¬ parsed.deliverLocal n.identity.nodeId) :
    n.handleParsed codec env parsed = ((n.record env parsed).relay env parsed, false) := if_neg h

variable (parsed) (n)

theorem handleParsed_app (h : (n.handleParsed codec env parsed).2 = false) :
    (n.handleParsed codec env parsed).1.app = n.app ∧
      (n.handleParsed codec env parsed).1.link = n.link := by
  by_cases hlocal : parsed.deliverLocal n.identity.nodeId
  · rw [handleParsed_of_local codec env hlocal] at h ⊢
    obtain ⟨ha, hl, -⟩ := dispatched_keeps codec env parsed n
    have hnot : ¬ (n.dispatched codec env parsed).detects := Bool.not_eq_true _ ▸ h
    rw [jamCheck, if_neg hnot]
    obtain ⟨ha', hl', -⟩ := resetJam_keeps (n.dispatched codec env parsed)
    exact ⟨ha'.trans ha, hl'.trans hl⟩
  · rw [handleParsed_of_not_local codec env hlocal]
    obtain ⟨ha, hl, -⟩ := relay_keeps env parsed (n.record env parsed)
    exact ⟨ha, hl⟩

theorem handleParsed_hop (h : (n.handleParsed codec env parsed).2 = true) :
    (n.handleParsed codec env parsed).1.link =
      n.link.setChannel (Shared.fallbackChannel n.app.channel) env.succeeds := by
  by_cases hlocal : parsed.deliverLocal n.identity.nodeId
  · rw [handleParsed_of_local codec env hlocal] at h ⊢
    obtain ⟨ha, hl, -⟩ := dispatched_keeps codec env parsed n
    obtain ⟨-, hl', -⟩ := resetJam_keeps ((n.dispatched codec env parsed).raiseAlarm codec env)
    rw [jamCheck, if_pos h, hl', ← ha, ← hl]
    rfl
  · rw [handleParsed_of_not_local codec env hlocal] at h
    cases h

end Frame

theorem Holds.handleParsed (h : n.Holds fleet Q L x)
    (hnext : ∀ u, t.next x n.olsr.routeTo env.relayDraw = some u → Q u)
    (htc : t.msg.kind = .olsrTc → Q (.own x .olsrTc t.msg.payload .high env.tcDraw))
    (hmsg : ∀ m, t.msg.kind = .data → codec.decodeApp t.msg.payload = some m → L m)
    (halert : (n.handleParsed codec env (fleet.parsed t)).2 → Q (n.alert codec env x)) :
    (n.handleParsed codec env (fleet.parsed t)).1.Holds fleet Q L x := by
  have hrecord : (n.record env (fleet.parsed t)).Holds fleet Q L x :=
    ⟨h.identity, h.pubkeys, h.olsr, h.queued, h.spawned⟩
  have hrouted := hrecord.relay hnext
  by_cases hlocal : (fleet.parsed t).deliverLocal n.identity.nodeId
  · have hdisp := hrouted.dispatch htc hmsg
    rw [handleParsed_of_local codec env hlocal] at halert ⊢
    refine Holds.jamCheck hdisp fun hdet => ?_
    have hq := halert hdet
    rw [Node.alert, ← (dispatched_keeps codec env (fleet.parsed t) n).1] at hq
    exact hq
  · rw [handleParsed_of_not_local codec env hlocal]
    exact hrouted

def remember (t : Sending) (now : ℕ) (n : Node crypto) : Node crypto :=
  { n with nonceCache := (n.nonceCache.check (t.check now)).1 }

theorem Holds.remember (h : n.Holds fleet Q L x) : (n.remember t now).Holds fleet Q L x :=
  ⟨h.identity, h.pubkeys, h.olsr, h.queued, h.spawned⟩

theorem Holds.rxLoop_of_rejected (codec : Codec) (env : RxEnv) (h : n.Holds fleet Q L x)
    (hrej : ¬ n.nonceCache.accepts (t.check env.now)) :
    ∃ b e r, n.rxLoop codec env (fleet.frame t) =
      ({ n with badSigs := b, timeDrops := e, replayDrops := r }, false) := by
  obtain ⟨e, he⟩ := fleet.parse_of_rejected hrej
  rw [Node.rxLoop, h.pubkeys, h.sessionKey, he]
  cases e <;> exact ⟨_, _, _, rfl⟩

theorem rxLoop_of_accepts (h : n.Holds fleet Q L x)
    (hacc : n.nonceCache.accepts (t.check env.now)) :
    n.rxLoop codec env (fleet.frame t) =
      (n.remember t env.now).handleParsed codec env (fleet.parsed t) := by
  rw [Node.rxLoop, Node.remember, h.pubkeys, h.sessionKey, fleet.parse_of_accepts hacc]

theorem Holds.rxLoop (h : n.Holds fleet Q L x)
    (hnext : ∀ u, t.next x n.olsr.routeTo env.relayDraw = some u → Q u)
    (htc : t.msg.kind = .olsrTc → Q (.own x .olsrTc t.msg.payload .high env.tcDraw))
    (hmsg : ∀ m, t.msg.kind = .data → codec.decodeApp t.msg.payload = some m → L m)
    (halert : (n.rxLoop codec env (fleet.frame t)).2 → Q (n.alert codec env x)) :
    (n.rxLoop codec env (fleet.frame t)).1.Holds fleet Q L x := by
  by_cases hacc : n.nonceCache.accepts (t.check env.now)
  · rw [rxLoop_of_accepts h hacc] at halert ⊢
    exact h.remember.handleParsed hnext htc hmsg halert
  · obtain ⟨b, e, r, hr⟩ := h.rxLoop_of_rejected codec env hacc
    rw [hr]
    exact ⟨h.identity, h.pubkeys, h.olsr, h.queued, h.spawned⟩

theorem Holds.rxLoop_app (h : n.Holds fleet Q L x)
    (hdet : (n.rxLoop codec env (fleet.frame t)).2 = false) :
    (n.rxLoop codec env (fleet.frame t)).1.app = n.app ∧
      (n.rxLoop codec env (fleet.frame t)).1.link = n.link := by
  by_cases hacc : n.nonceCache.accepts (t.check env.now)
  · rw [rxLoop_of_accepts h hacc] at hdet ⊢
    exact handleParsed_app codec env _ _ hdet
  · obtain ⟨b, e, r, hr⟩ := h.rxLoop_of_rejected codec env hacc
    rw [hr]
    exact ⟨rfl, rfl⟩

theorem Holds.rxLoop_hop (h : n.Holds fleet Q L x)
    (hdet : (n.rxLoop codec env (fleet.frame t)).2 = true) :
    (n.rxLoop codec env (fleet.frame t)).1.link =
      n.link.setChannel (Shared.fallbackChannel n.app.channel) env.succeeds := by
  by_cases hacc : n.nonceCache.accepts (t.check env.now)
  · rw [rxLoop_of_accepts h hacc] at hdet ⊢
    exact handleParsed_hop codec env _ _ hdet
  · obtain ⟨b, e, r, hr⟩ := h.rxLoop_of_rejected codec env hacc
    rw [hr] at hdet
    cases hdet

theorem Holds.hears_frame (h : n.Holds fleet Q L x) :
    n.hears now (fleet.frame t) =
      if n.nonceCache.accepts (t.check now) then some t.src else none := by
  rw [Node.hears, h.pubkeys, h.sessionKey]
  split
  next parsed hp =>
    by_cases hacc : n.nonceCache.accepts (t.check now)
    · rw [fleet.parse_of_accepts hacc] at hp
      cases hp
      exact (if_pos hacc).symm
    · obtain ⟨e, he⟩ := fleet.parse_of_rejected hacc
      rw [he] at hp
      cases hp
  next e hp =>
    by_cases hacc : n.nonceCache.accepts (t.check now)
    · rw [fleet.parse_of_accepts hacc] at hp
      cases hp
    · exact (if_neg hacc).symm

/-- A routing control frame that has not been relayed too often is queued again, and then it is
dispatched. -/
theorem Holds.rxLoop_control (codec : Codec) (h : n.Holds fleet Q L x)
    (hacc : n.nonceCache.accepts (t.check env.now)) (hkind : t.msg.kind ≠ .data)
    (hprio : t.prio = .high) (hdst : t.dst = broadcast) (hhops : t.hopsTaken < Wire.maxHops) :
    (n.rxLoop codec env (fleet.frame t)).2 = false ∧
      ∃ m : Node crypto, m.identity = n.identity ∧ m.olsr = n.olsr ∧
        m.scheduler = n.scheduler.push
          (fleet.frame { t with
            src := x
            lastHop := x
            hopsTaken := saturatingSucc t.hopsTaken
            draw := env.relayDraw }) .high ∧
        (n.rxLoop codec env (fleet.frame t)).1.scheduler =
          (m.dispatch codec env (fleet.parsed t)).scheduler := by
  rw [rxLoop_of_accepts h hacc]
  have hlocal : (fleet.parsed t).deliverLocal (n.remember t env.now).identity.nodeId := by
    rw [ParsedFrame.deliverLocal, Bool.or_eq_true]
    exact .inr (decide_eq_true hdst)
  obtain ⟨-, -, hwindow, -⟩ := dispatched_keeps codec env (fleet.parsed t) (n.remember t env.now)
  have hauth : (fleet.parsed t).auth.priority = .high := hprio
  have hclear : ((n.remember t env.now).dispatched codec env (fleet.parsed t)).detects = false := by
    rw [detects, hwindow, hauth, JamWindow.record_high, Bool.and_false]
  have hnext : t.next x ((n.remember t env.now).record env (fleet.parsed t)).olsr.routeTo
        env.relayDraw =
      some { t with
        src := x
        lastHop := x
        hopsTaken := saturatingSucc t.hopsTaken
        draw := env.relayDraw } := by
    rw [Sending.next, if_pos hdst, if_pos ⟨hhops, hkind⟩]
  have hid : ((n.remember t env.now).record env (fleet.parsed t)).identity = fleet.identity x :=
    h.identity
  have hrelay : ((n.remember t env.now).record env (fleet.parsed t)).relay env (fleet.parsed t) =
      ((n.remember t env.now).record env (fleet.parsed t)).enqueue
        (fleet.frame { t with
          src := x
          lastHop := x
          hopsTaken := saturatingSucc t.hopsTaken
          draw := env.relayDraw }) .high := by
    rw [Node.relay, hid, relay_parsed, hnext]
    simp only [Option.map_some, hprio]
  rw [handleParsed_of_local codec env hlocal, hclear, Node.jamCheck, hclear,
    if_neg Bool.false_ne_true, (resetJam_keeps _).2.2.2, dispatched, hrelay]
  exact ⟨rfl, ((n.remember t env.now).record env (fleet.parsed t)).enqueue _ .high, rfl, rfl, rfl,
    rfl⟩

end Node
end TacticalMesh
