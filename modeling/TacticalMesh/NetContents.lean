import TacticalMesh.NodeContents

namespace TacticalMesh
set_option autoImplicit true

/-- What nodes may queue, `Q`, what may be on air, `A`, and what may be about to be handled, `L`,
fit together: whatever the loops make of one of them is allowed again. -/
structure Policy (codec : Codec) (radio : UInt8 → List UInt8) (Q A : Sending → Prop)
    (L : AppMsg → Prop) : Prop where
  relay : ∀ t r, A t → r ∈ radio t.src → r ≠ t.src → ∀ routeTo draw u,
    t.next r routeTo draw = some u → Q u
  msg : ∀ t m, A t → t.msg.kind = .data → codec.decodeApp t.msg.payload = some m → L m
  topology : ∀ s, s.msg.kind = .olsrTc → Q s ∧ A s
  hello : ∀ x h draw, h.sender = x →
    A (.own x .olsrHello (codec.encodeOlsr (.hello h)) .high draw)
  operator : ∀ s m, s.msg = ⟨.data, codec.encodeApp m⟩ → m.changesChannel = false → Q s

/-- The same for what nodes make of what they hear alone. Topology messages that are heard may be
forwarded. -/
structure Conveys (codec : Codec) (radio : UInt8 → List UInt8) (Q A : Sending → Prop)
    (L : AppMsg → Prop) : Prop where
  relay : ∀ t r, A t → r ∈ radio t.src → r ≠ t.src → ∀ routeTo draw u,
    t.next r routeTo draw = some u → Q u
  msg : ∀ t m, A t → t.msg.kind = .data → codec.decodeApp t.msg.payload = some m → L m
  forward : ∀ t r, A t → r ∈ radio t.src → r ≠ t.src → t.msg.kind = .olsrTc → ∀ draw,
    Q (.own r .olsrTc t.msg.payload .high draw)

/-- Beside that, what the ticks say may be heard, and the operator may send any message that does
not change the channel. Not every topology message has to be allowed. -/
structure Rules (codec : Codec) (radio : UInt8 → List UInt8) (Q A : Sending → Prop)
    (L : AppMsg → Prop) : Prop extends Conveys codec radio Q A L where
  topology : ∀ x tc draw, tc.sender = x → ∀ r ∈ radio x, r ≠ x →
    A (.own x .olsrTc (codec.encodeOlsr (.tc tc)) .high draw)
  hello : ∀ x h draw, h.sender = x →
    A (.own x .olsrHello (codec.encodeOlsr (.hello h)) .high draw)
  operator : ∀ s m, s.msg = ⟨.data, codec.encodeApp m⟩ → m.changesChannel = false → Q s

theorem Policy.rules (h : Policy codec radio Q A L) : Rules codec radio Q A L where
  relay := h.relay
  msg := h.msg
  forward _ _ _ _ _ _ _ := (h.topology _ rfl).1
  topology _ _ _ _ _ _ _ := (h.topology _ rfl).2
  hello := h.hello
  operator := h.operator

theorem Shared.handleTactical_keeps {succeeds : Bool} (s : Shared crypto) :
    (s.handleTactical msg now succeeds).identity = s.identity ∧
      (s.handleTactical msg now succeeds).pubkeys = s.pubkeys ∧
      (s.handleTactical msg now succeeds).olsr = s.olsr ∧
      (s.handleTactical msg now succeeds).scheduler = s.scheduler := by
  cases msg with
  | chat chat =>
    rw [handleTactical, handleChat]
    split <;> exact ⟨rfl, rfl, rfl, rfl⟩
  | _ => exact ⟨rfl, rfl, rfl, rfl⟩

namespace Node
variable {crypto : Crypto} {fleet : Fleet crypto} {codec : Codec} {radio : UInt8 → List UInt8}
variable {Q A : Sending → Prop} {L : AppMsg → Prop} {x : UInt8} {n : Node crypto}

theorem Holds.outbound (h : n.Holds fleet Q L x)
    (hq : ∀ s, s.src = x → s.msg = ⟨.data, codec.encodeApp msg⟩ → s.dst = dst → Q s) :
    (n.outbound codec msg dst prio draw).Holds fleet Q L x := by
  rw [Node.outbound]
  split
  next hdst => exact h.enqueue rfl (hq (.own x ..) rfl rfl hdst.symm) (h.own_frame ..) _
  next =>
    split
    next r _ =>
      have hframe : crypto.buildFrameForRoute ⟨.data, codec.encodeApp msg⟩ prio dst n.identity
          r.nextHop draw = fleet.frame ⟨x, ⟨.data, codec.encodeApp msg⟩, prio, dst, r.nextHop, 0,
            draw⟩ := by
        rw [h.identity]
        rfl
      exact h.enqueue rfl (hq ⟨x, _, prio, dst, _, 0, draw⟩ rfl rfl rfl) hframe _
    next => exact h

theorem Holds.runTask {succeeds : Bool} (h : n.Holds fleet Q L x) :
    ({ n with
      toShared := n.toShared.handleTactical msg now succeeds
      spawned := n.spawned.eraseIdx i } : Node crypto).Holds fleet Q L x := by
  obtain ⟨hid, hkeys, holsr, hqueues⟩ := n.toShared.handleTactical_keeps
  exact
    { identity := hid.trans h.identity
      pubkeys := hkeys.trans h.pubkeys
      olsr := holsr.symm ▸ h.olsr
      queued := hqueues.symm ▸ h.queued
      spawned := fun m hm => h.spawned m (List.mem_of_mem_eraseIdx hm) }

end Node

namespace Net
variable {crypto : Crypto} {fleet : Fleet crypto} {codec : Codec} {radio : UInt8 → List UInt8}
variable {Q A : Sending → Prop} {L : AppMsg → Prop} {net net' : Net crypto}

/-- All nodes hold what they may, and so does the air. -/
structure Holds (fleet : Fleet crypto) (radio : UInt8 → List UInt8) (Q A : Sending → Prop)
    (L : AppMsg → Prop) (net : Net crypto) : Prop where
  nodes : ∀ x, (net.nodes x).Holds fleet Q L x
  air : ∀ r raw, (r, raw) ∈ net.air →
    ∃ s, raw = fleet.frame s ∧ r ∈ radio s.src ∧ (r ≠ s.src → A s)

theorem start_holds (fleet : Fleet crypto) (channel recorded : UInt8) :
    (start fleet channel recorded).Holds fleet radio Q A L where
  nodes _ :=
    { identity := rfl
      pubkeys := rfl
      olsr := ⟨[], rfl⟩
      queued := fun _ _ h => absurd h List.not_mem_nil
      spawned := fun _ h => absurd h List.not_mem_nil }
  air _ _ h := absurd h List.not_mem_nil

theorem Holds.mono (h : net.Holds fleet radio Q A L) (hQ : ∀ s, Q s → Q' s)
    (hA : ∀ s, A s → A' s) (hL : ∀ m, L m → L' m) : net.Holds fleet radio Q' A' L' where
  nodes x := (h.nodes x).mono (fun s _ => hQ s) hL
  air r raw hr := by
    obtain ⟨s, hframe, hrange, hs⟩ := h.air r raw hr
    exact ⟨s, hframe, hrange, fun hne => hA s (hs hne)⟩

theorem setNode_nodes (net : Net crypto) (n : UInt8) (node : Node crypto) (x : UInt8) :
    (net.setNode n node).nodes x = if x = n then node else net.nodes x :=
  Function.update_apply ..

theorem Holds.setNode (h : net.Holds fleet radio Q A L) (hnode : node.Holds fleet Q L n) :
    (net.setNode n node).Holds fleet radio Q A L where
  nodes x := by
    rw [setNode_nodes]
    split
    next hx => rwa [hx]
    next => exact h.nodes x
  air := h.air

theorem mem_send : (r, raw) ∈ (net.send radio n frame).air ↔ (r, raw) ∈ net.air ∨
    r ∈ radio n ∧ (net.nodes r).link.channel = (net.nodes n).link.channel ∧ raw = frame := by
  simp only [send, List.mem_append, List.mem_map, List.mem_filter, decide_eq_true_eq,
    Prod.mk.injEq]
  constructor
  · rintro (h | ⟨r', ⟨hr, hc⟩, rfl, rfl⟩)
    · exact .inl h
    · exact .inr ⟨hr, hc, rfl⟩
  · rintro (h | ⟨hr, hc, rfl⟩)
    · exact .inl h
    · exact .inr ⟨r, ⟨hr, hc⟩, rfl, rfl⟩

theorem Holds.send (h : net.Holds fleet radio Q A L) (hframe : frame = fleet.frame s)
    (hs : ∀ r ∈ radio s.src, r ≠ s.src →
      (net.nodes r).link.channel = (net.nodes s.src).link.channel → A s) :
    (net.send radio s.src frame).Holds fleet radio Q A L where
  nodes := h.nodes
  air r raw hr := by
    rcases mem_send.1 hr with hr | ⟨hrange, hc, rfl⟩
    · exact h.air r raw hr
    · exact ⟨s, hframe, hrange, fun hne => hs r hrange hne hc⟩

theorem step_transmit (h : net.step codec radio (.transmit n) = some net') :
    ∃ frame prio queues, (net.nodes n).scheduler.popNext = some ((frame, prio), queues) ∧
      net' = (net.setNode n { net.nodes n with scheduler := queues }).send radio n frame := by
  simp only [step] at h
  split at h
  next frame prio queues hpop =>
    cases h
    exact ⟨frame, prio, queues, hpop, rfl⟩
  next => cases h

theorem step_outbound (h : net.step codec radio (.outbound n msg dst prio draw) = some net') :
    msg.changesChannel = false ∧
      net' = net.setNode n ((net.nodes n).outbound codec msg dst prio draw) := by
  simp only [step] at h
  split at h
  next => cases h
  next hmsg =>
    cases h
    exact ⟨Bool.not_eq_true _ ▸ hmsg, rfl⟩

theorem step_runTask {succeeds : Bool}
    (h : net.step codec radio (.runTask n i now succeeds) = some net') :
    ∃ msg ∈ (net.nodes n).spawned, net' = net.setNode n
      { net.nodes n with
        toShared := (net.nodes n).toShared.handleTactical msg now succeeds
        spawned := (net.nodes n).spawned.eraseIdx i } := by
  simp only [step] at h
  split at h
  next msg hmsg =>
    cases h
    exact ⟨msg, List.mem_of_getElem? hmsg, rfl⟩
  next => cases h

def taken (codec : Codec) (net : Net crypto) (i : ℕ) (r : UInt8) (raw : Bytes) (env : RxEnv) :
    Net crypto :=
  { net.setNode r ((net.nodes r).rxLoop codec env raw).1 with
    air := net.air.eraseIdx i
    heard := net.heard ++ ((net.nodes r).hears env.now raw).toList.map fun src => (r, src)
    detections := net.detections ++ if ((net.nodes r).rxLoop codec env raw).2 then [r] else [] }

theorem taken_nodes (codec : Codec) (net : Net crypto) (x : UInt8) :
    (net.taken codec i r raw env).nodes x =
      if x = r then ((net.nodes r).rxLoop codec env raw).1 else net.nodes x :=
  setNode_nodes ..

theorem step_deliver_of (codec : Codec) (radio : UInt8 → List UInt8) (env : RxEnv)
    {net : Net crypto} {t : Sending} (hget : net.air[i]? = some (r, fleet.frame t))
    (hown : t.src ≠ r) :
    net.step codec radio (.deliver i env) = some (net.taken codec i r (fleet.frame t) env) := by
  simp only [step, hget, deliver, if_neg fun hsrc => hown ((ownFrame_frame fleet t).1 hsrc)]
  rfl

theorem step_deliver_sent (codec : Codec) (radio : UInt8 → List UInt8) (env : RxEnv)
    {net : Net crypto} {t : Sending} (hr : r ∈ radio t.src) (hne : r ≠ t.src)
    (hchannel : (net.nodes r).link.channel = (net.nodes t.src).link.channel) :
    ∃ i, (net.send radio t.src (fleet.frame t)).air[i]? = some (r, fleet.frame t) ∧
      (net.send radio t.src (fleet.frame t)).step codec radio (.deliver i env) =
        some ((net.send radio t.src (fleet.frame t)).taken codec i r (fleet.frame t) env) := by
  obtain ⟨i, hi⟩ := List.getElem?_of_mem
    (mem_send.2 (.inr ⟨hr, hchannel, rfl⟩) :
      (r, fleet.frame t) ∈ (net.send radio t.src (fleet.frame t)).air)
  exact ⟨i, hi, step_deliver_of codec radio env hi hne.symm⟩

theorem step_transmit_of (codec : Codec) (radio : UInt8 → List UInt8) {net : Net crypto}
    (hpop : (net.nodes n).scheduler.popNext = some ((frame, prio), queues)) :
    net.step codec radio (.transmit n) =
      some ((net.setNode n { net.nodes n with scheduler := queues }).send radio n frame) := by
  simp only [step, hpop]

theorem Holds.step_deliver (h : net.Holds fleet radio Q A L)
    (hstep : net.step codec radio (.deliver i env) = some net') :
    net' = { net with air := net.air.eraseIdx i } ∨
      ∃ r t, r ∈ radio t.src ∧ t.src ≠ r ∧ A t ∧
        net' = net.taken codec i r (fleet.frame t) env := by
  simp only [step] at hstep
  split at hstep
  next r raw hget =>
    obtain ⟨t, rfl, hrange, ht⟩ := h.air r raw (List.mem_of_getElem? hget)
    rw [Option.some.injEq, deliver] at hstep
    by_cases hown : t.src = r
    · rw [if_pos ((ownFrame_frame fleet t).2 hown)] at hstep
      exact .inl hstep.symm
    · rw [if_neg fun hsrc => hown ((ownFrame_frame fleet t).1 hsrc)] at hstep
      exact .inr ⟨r, t, hrange, hown, ht (Ne.symm hown), hstep.symm⟩
  next => cases hstep

theorem Holds.taken (h : net.Holds fleet radio Q A L) (hpol : Conveys codec radio Q A L)
    (hrange : r ∈ radio t.src) (ht : A t) (hown : t.src ≠ r)
    (halert : ((net.nodes r).rxLoop codec env (fleet.frame t)).2 →
      Q ((net.nodes r).alert codec env r)) :
    (net.taken codec i r (fleet.frame t) env).Holds fleet radio Q A L := by
  have hnode : ((net.nodes r).rxLoop codec env (fleet.frame t)).1.Holds fleet Q L r := by
    apply (h.nodes r).rxLoop
    case hnext => exact fun u => hpol.relay t r ht hrange hown.symm _ _ u
    case htc => exact fun hkind => hpol.forward t r ht hrange hown.symm hkind _
    case hmsg => exact fun m => hpol.msg t m ht
    case halert => exact halert
  exact ⟨(h.setNode hnode).nodes, fun r raw hr => h.air r raw (List.mem_of_mem_eraseIdx hr)⟩

/-- What may be held is held after every step, provided that the message of a tick may be heard,
the operator's messages may be queued, queued frames may be sent, and the alerts of nodes that
detect a jam may be queued. -/
theorem Holds.step_sending (h : net.Holds fleet radio Q A L) (hpol : Conveys codec radio Q A L)
    (hstep : net.step codec radio e = some net')
    (hhello : ∀ n now order draw, e = .helloTick n now order draw →
      A (.own n .olsrHello (codec.encodeOlsr (.hello ((net.nodes n).hello now order))) .high draw))
    (htick : ∀ n now order draw, e = .tcTick n now order draw → ∀ r ∈ radio n, r ≠ n →
      A (.own n .olsrTc (codec.encodeOlsr (.tc (Node.tc
        { net.nodes n with tcSeq := (net.nodes n).tcSeq + 1 } now order))) .high draw))
    (hoperator : ∀ s m prio draw, e = .outbound s.src m s.dst prio draw →
      m.changesChannel = false → s.msg = ⟨.data, codec.encodeApp m⟩ → Q s)
    (hsend : ∀ s r, e = .transmit s.src → Q s → r ∈ radio s.src → r ≠ s.src →
      (net.nodes r).link.channel = (net.nodes s.src).link.channel → A s)
    (halert : ∀ r env, net'.detections = net.detections ++ [r] →
      Q ((net.nodes r).alert codec env r)) :
    net'.Holds fleet radio Q A L := by
  cases e with
  | helloTick n now order draw =>
    cases hstep
    exact h.send (s := .own n ..) ((h.nodes n).own_frame ..) fun _ _ _ _ =>
      hhello n now order draw rfl
  | tcTick n now order draw =>
    cases hstep
    have hnode : ({ net.nodes n with tcSeq := (net.nodes n).tcSeq + 1 } : Node crypto).Holds
        fleet Q L n := ⟨(h.nodes n).identity, (h.nodes n).pubkeys, (h.nodes n).olsr,
          (h.nodes n).queued, (h.nodes n).spawned⟩
    exact (h.setNode hnode).send (s := .own n ..) (hnode.own_frame ..) fun r hr hne _ =>
      htick n now order draw rfl r hr hne
  | agingTick n now staleOrder order =>
    cases hstep
    exact h.setNode ⟨(h.nodes n).identity, (h.nodes n).pubkeys,
      (h.nodes n).olsr.handle (.aging now staleOrder order), (h.nodes n).queued,
      (h.nodes n).spawned⟩
  | outbound n msg dst prio draw =>
    obtain ⟨hmsg, rfl⟩ := step_outbound hstep
    refine h.setNode ((h.nodes n).outbound fun s hsrc hs hdst => ?_)
    exact hoperator s msg prio draw (by rw [hsrc, hdst]) hmsg hs
  | transmit n =>
    obtain ⟨frame, prio, queues, hpop, rfl⟩ := step_transmit hstep
    obtain ⟨rest, hrest, -⟩ := Queues.popNext_eq_some hpop
    have hmem : frame ∈ (net.nodes n).scheduler.inner prio := by
      rw [hrest]
      exact List.mem_cons_self
    obtain ⟨s, hframe, rfl, hs⟩ := (h.nodes n).queued prio frame hmem
    have hnode : ({ net.nodes s.src with scheduler := queues } : Node crypto).Holds fleet Q L
        s.src := ⟨(h.nodes s.src).identity, (h.nodes s.src).pubkeys, (h.nodes s.src).olsr,
          fun p raw hraw => (h.nodes s.src).queued p raw (Queues.mem_of_popNext hpop hraw),
          (h.nodes s.src).spawned⟩
    refine (h.setNode hnode).send hframe fun r hr hne hc => hsend s r rfl hs hr hne ?_
    rwa [setNode_nodes, setNode_nodes, if_pos rfl, if_neg hne] at hc
  | deliver i env =>
    obtain rfl | ⟨r, t, hrange, hown, ht, rfl⟩ := h.step_deliver hstep
    · exact ⟨h.nodes, fun r raw hr => h.air r raw (List.mem_of_mem_eraseIdx hr)⟩
    · refine h.taken hpol hrange ht hown fun hdet => halert r env ?_
      simp only [Net.taken, if_pos hdet]
  | runTask n i now succeeds =>
    obtain ⟨msg, -, rfl⟩ := step_runTask hstep
    exact h.setNode (h.nodes n).runTask

theorem Holds.step_of (h : net.Holds fleet radio Q A L) (hpol : Rules codec radio Q A L)
    (hstep : net.step codec radio e = some net')
    (hsend : ∀ s r, e = .transmit s.src → Q s → r ∈ radio s.src → r ≠ s.src →
      (net.nodes r).link.channel = (net.nodes s.src).link.channel → A s)
    (halert : ∀ r env, net'.detections = net.detections ++ [r] →
      Q ((net.nodes r).alert codec env r)) :
    net'.Holds fleet radio Q A L := by
  refine h.step_sending hpol.toConveys hstep ?_ ?_ ?_ hsend halert
  · exact fun n now order draw _ => hpol.hello n _ draw (h.nodes n).olsr.localId_eq
  · exact fun n now order draw _ =>
      hpol.topology n _ draw (h.nodes n).olsr.localId_eq
  · exact fun s m _ _ _ hm hs => hpol.operator s m hs hm

theorem Holds.step (h : net.Holds fleet radio Q A L) (hpol : Policy codec radio Q A L)
    (hstep : net.step codec radio e = some net')
    (hsend : ∀ s r, e = .transmit s.src → Q s → r ∈ radio s.src → r ≠ s.src →
      (net.nodes r).link.channel = (net.nodes s.src).link.channel → A s)
    (halert : ∀ r env, net'.detections = net.detections ++ [r] →
      Q ((net.nodes r).alert codec env r)) :
    net'.Holds fleet radio Q A L := h.step_of hpol.rules hstep hsend halert

theorem tunedStep_eq_some :
    net.tunedStep codec radio e = some net' ↔
      e.hopSucceeds ∧ net.step codec radio e = some net' := by
  rw [tunedStep]
  split
  next h => simp [h]
  next h => simp [h]

end Net
end TacticalMesh
