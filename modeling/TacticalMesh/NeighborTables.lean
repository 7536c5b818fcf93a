import TacticalMesh.NetContents

namespace TacticalMesh
set_option autoImplicit true

/-- A HELLO that names `y` as its sender, whoever sends it on. -/
def Sending.greets (codec : Codec) (t : Sending) (y : UInt8) : Prop :=
  t.msg.kind = .olsrHello ∧
    ∃ hello, codec.decodeOlsr t.msg.payload = some (.hello hello) ∧ hello.sender = y

namespace Node
variable {crypto : Crypto} {fleet : Fleet crypto} {codec : Codec} {env : RxEnv}
variable {Q : Sending → Prop} {L : AppMsg → Prop} {x : UInt8} {n : Node crypto}

def lists (n : Node crypto) (y : UInt8) : Prop := (n.olsr.neighbors y).isSome

theorem lists_congr {m : Node crypto} (h : m.olsr.neighbors = n.olsr.neighbors) :
    m.lists y ↔ n.lists y := by
  rw [lists, lists, h]

theorem dispatch_lists (hid : n.olsr.localId = x) :
    (n.dispatch codec env (fleet.parsed t)).lists y ↔ n.lists y ∨ t.greets codec y ∧ y ≠ x := by
  have hkind : (fleet.parsed t).auth.msgKind = t.msg.kind := rfl
  have hplain : (fleet.parsed t).plaintext = t.msg.payload := rfl
  rw [Node.dispatch, hkind, hplain, Sending.greets]
  cases hk : t.msg.kind with
  | olsrHello =>
    simp only [true_and]
    split
    next hello hdec =>
      have hsender : (∃ hello', some (OlsrMessage.hello hello) = some (.hello hello') ∧
          hello'.sender = y) ↔ y = hello.sender := by
        constructor
        · rintro ⟨_, ⟨⟩, rfl⟩
          rfl
        · rintro rfl
          exact ⟨hello, rfl, rfl⟩
      rw [lists, OlsrState.processHello_neighbors, hid, hdec, hsender]
      rfl
    next hdec =>
      constructor
      · exact .inl
      · rintro (h | ⟨⟨hello, hh, -⟩, -⟩)
        · exact h
        · exact absurd hh (hdec hello)
  | olsrTc =>
    simp only [reduceCtorEq, false_and, or_false]
    split
    next tc _ =>
      split
      next => exact lists_congr ((n.olsr.processTc_tables tc _ _).1)
      next => exact lists_congr ((n.olsr.processTc_tables tc _ _).1)
    next => rfl
  | data =>
    simp only [reduceCtorEq, false_and, or_false]
    split <;> rfl
  | ack => simp [lists]
  | sessionKeyRotation => simp [lists]

theorem jamCheck_olsr : (n.jamCheck codec env).olsr = n.olsr := by
  rw [jamCheck]
  obtain ⟨-, -, h, -⟩ := resetJam_keeps (if n.detects then n.raiseAlarm codec env else n)
  rw [h]
  split <;> rfl

theorem relay_record_olsr (parsed : ParsedFrame) :
    ((n.record env parsed).relay env parsed).olsr = n.olsr :=
  (relay_keeps env parsed (n.record env parsed)).2.2.2.2

/-- The routing event is the one that a frame makes of its payload. -/
def CarriedBy (codec : Codec) (env : RxEnv) (t : Sending) : OlsrEvent → Prop
  | .hello hello _ rssiDbm _ _ =>
    t.msg.kind = .olsrHello ∧ codec.decodeOlsr t.msg.payload = some (.hello hello) ∧
      rssiDbm = env.rssiDbm
  | .tc tc _ _ => t.msg.kind = .olsrTc ∧ codec.decodeOlsr t.msg.payload = some (.tc tc)
  | .aging _ _ _ => False

theorem dispatch_olsr : (n.dispatch codec env (fleet.parsed t)).olsr = n.olsr ∨
    ∃ e, CarriedBy codec env t e ∧
      (n.dispatch codec env (fleet.parsed t)).olsr = n.olsr.handle e := by
  have hkind : (fleet.parsed t).auth.msgKind = t.msg.kind := rfl
  have hplain : (fleet.parsed t).plaintext = t.msg.payload := rfl
  rw [dispatch, hkind, hplain]
  cases hk : t.msg.kind with
  | olsrHello =>
    simp only
    split
    next hello hdec =>
      exact .inr ⟨.hello hello t.src env.rssiDbm env.helloNow env.order, ⟨hk, hdec, rfl⟩, rfl⟩
    next => exact .inl rfl
  | olsrTc =>
    simp only
    split
    next tc hdec =>
      refine .inr ⟨.tc tc t.src env.order, ⟨hk, hdec⟩, ?_⟩
      split <;> rfl
    next => exact .inl rfl
  | data =>
    simp only
    split <;> exact .inl rfl
  | ack => exact .inl rfl
  | sessionKeyRotation => exact .inl rfl

theorem Holds.rxLoop_olsr (h : n.Holds fleet Q L x) (t : Sending) :
    (n.rxLoop codec env (fleet.frame t)).1.olsr = n.olsr ∨
      ∃ e, CarriedBy codec env t e ∧
        (n.rxLoop codec env (fleet.frame t)).1.olsr = n.olsr.handle e := by
  by_cases hacc : n.nonceCache.accepts (t.check env.now)
  · rw [rxLoop_of_accepts h hacc]
    have hrouted : (((n.remember t env.now).record env (fleet.parsed t)).relay env
        (fleet.parsed t)).olsr = n.olsr := relay_record_olsr _
    by_cases hlocal : (fleet.parsed t).deliverLocal (n.remember t env.now).identity.nodeId
    · rw [handleParsed_of_local codec env hlocal, jamCheck_olsr, dispatched, ← hrouted]
      exact dispatch_olsr
    · rw [handleParsed_of_not_local codec env hlocal, hrouted]
      exact .inl rfl
  · obtain ⟨b, e, r, hr⟩ := h.rxLoop_of_rejected codec env hacc
    rw [hr]
    exact .inl rfl

theorem Holds.rxLoop_lists (h : n.Holds fleet Q L x)
    (hy : (n.rxLoop codec env (fleet.frame t)).1.lists y) :
    n.lists y ∨ n.nonceCache.accepts (t.check env.now) ∧ t.greets codec y ∧ y ≠ x := by
  by_cases hacc : n.nonceCache.accepts (t.check env.now)
  · rw [rxLoop_of_accepts h hacc] at hy
    have hrouted : (((n.remember t env.now).record env (fleet.parsed t)).relay env
        (fleet.parsed t)).olsr = n.olsr := relay_record_olsr _
    by_cases hlocal : (fleet.parsed t).deliverLocal (n.remember t env.now).identity.nodeId
    · rw [handleParsed_of_local codec env hlocal, lists, jamCheck_olsr] at hy
      have hid := (congrArg OlsrState.localId hrouted).trans h.olsr.localId_eq
      rcases (dispatch_lists hid).1 hy with hy | hy
      · rw [lists, hrouted] at hy
        exact .inl hy
      · exact .inr ⟨hacc, hy⟩
    · rw [handleParsed_of_not_local codec env hlocal, lists, hrouted] at hy
      exact .inl hy
  · obtain ⟨b, e, r, hr⟩ := h.rxLoop_of_rejected codec env hacc
    rw [hr] at hy
    exact .inl hy

theorem Holds.rxLoop_greeted (h : n.Holds fleet Q L x)
    (hacc : n.nonceCache.accepts (t.check env.now)) (hdst : t.dst = broadcast)
    (ht : t.greets codec y) (hne : y ≠ x) :
    (n.rxLoop codec env (fleet.frame t)).1.lists y := by
  rw [rxLoop_of_accepts h hacc]
  have hrouted : (((n.remember t env.now).record env (fleet.parsed t)).relay env
      (fleet.parsed t)).olsr = n.olsr := relay_record_olsr _
  have hlocal : (fleet.parsed t).deliverLocal (n.remember t env.now).identity.nodeId := by
    rw [ParsedFrame.deliverLocal, Bool.or_eq_true]
    exact .inr (decide_eq_true hdst)
  rw [handleParsed_of_local codec env hlocal, lists, jamCheck_olsr]
  have hid := (congrArg OlsrState.localId hrouted).trans h.olsr.localId_eq
  exact (dispatch_lists hid).2 (.inr ⟨ht, hne⟩)

theorem Holds.rxLoop_floods (codec : Codec) (h : n.Holds fleet Q L x)
    (hacc : n.nonceCache.accepts (t.check env.now)) (hkind : t.msg.kind = .olsrHello)
    (hprio : t.prio = .high) (hdst : t.dst = broadcast) (hhops : t.hopsTaken < Wire.maxHops) :
    (n.rxLoop codec env (fleet.frame t)).2 = false ∧
      (n.rxLoop codec env (fleet.frame t)).1.scheduler = n.scheduler.push
        (fleet.frame { t with
          src := x
          lastHop := x
          hopsTaken := saturatingSucc t.hopsTaken
          draw := env.relayDraw }) .high := by
  have hcontrol : t.msg.kind ≠ .data := by
    rw [hkind]
    decide
  obtain ⟨hquiet, m, -, -, hqueued, hsched⟩ :=
    h.rxLoop_control codec hacc hcontrol hprio hdst hhops
  have hdispatch : (m.dispatch codec env (fleet.parsed t)).scheduler = m.scheduler := by
    have hauth : (fleet.parsed t).auth.msgKind = .olsrHello := hkind
    rw [Node.dispatch, hauth]
    simp only
    split <;> rfl
  exact ⟨hquiet, hsched.trans (hdispatch.trans hqueued)⟩

theorem outbound_olsr : (n.outbound codec msg dst prio draw).olsr = n.olsr := by
  rw [outbound]
  split
  next => rfl
  next => split <;> rfl

end Node

namespace Net
variable {crypto : Crypto} {codec : Codec} {fleet : Fleet crypto} {radio : UInt8 → List UInt8}
variable {Q A : Sending → Prop} {L : AppMsg → Prop} {net net' : Net crypto}

def Prompts (codec : Codec) (radio : UInt8 → List UInt8) (A : Sending → Prop) (x : UInt8) :
    Event → OlsrEvent → Prop
  | .agingTick n now staleOrder order, ev => n = x ∧ ev = .aging now staleOrder order
  | .deliver _ env, ev =>
    ∃ t, A t ∧ x ∈ radio t.src ∧ t.src ≠ x ∧ Node.CarriedBy codec env t ev
  | _, _ => False

theorem Holds.step_olsr (h : net.Holds fleet radio Q A L)
    (hstep : net.step codec radio e = some net') (x : UInt8) :
    (net'.nodes x).olsr = (net.nodes x).olsr ∨
      ∃ ev, Prompts codec radio A x e ev ∧ (net'.nodes x).olsr = (net.nodes x).olsr.handle ev := by
  have hset {n : UInt8} {node : Node crypto} (holsr : node.olsr = (net.nodes n).olsr) :
      ((net.setNode n node).nodes x).olsr = (net.nodes x).olsr := by
    rw [setNode_nodes]
    split
    next hx => rw [holsr, hx]
    next => rfl
  cases e with
  | helloTick n now order draw =>
    cases hstep
    exact .inl rfl
  | tcTick n now order draw =>
    cases hstep
    exact .inl (hset rfl)
  | agingTick n now staleOrder order =>
    cases hstep
    rw [setNode_nodes]
    split
    next hx =>
      subst hx
      exact .inr ⟨.aging now staleOrder order, ⟨rfl, rfl⟩, rfl⟩
    next => exact .inl rfl
  | outbound n msg dst prio draw =>
    obtain ⟨-, rfl⟩ := step_outbound hstep
    exact .inl (hset Node.outbound_olsr)
  | transmit n =>
    obtain ⟨frame, prio, queues, -, rfl⟩ := step_transmit hstep
    exact .inl (hset rfl)
  | deliver i env =>
    obtain rfl | ⟨r, t, hrange, hown, ht, rfl⟩ := h.step_deliver hstep
    · exact .inl rfl
    · rw [taken_nodes]
      split
      next hx =>
        subst hx
        rcases (h.nodes x).rxLoop_olsr t with hsame | ⟨ev, hcarried, hev⟩
        · exact .inl hsame
        · exact .inr ⟨ev, ⟨t, ht, hrange, hown, hcarried⟩, hev⟩
      next => exact .inl rfl
  | runTask n i now succeeds =>
    obtain ⟨msg, -, rfl⟩ := step_runTask hstep
    obtain ⟨-, -, holsr, -⟩ := (net.nodes n).toShared.handleTactical_keeps
    exact .inl (hset holsr)

/-- Whoever hears nobody lists nobody. -/
theorem unheard (hrange : ∀ n, x ∉ radio n)
    (h : LeadsTo (step codec radio) (start fleet channel recorded) net) (v : UInt8) :
    (net.nodes x).olsr.neighbors v = none := by
  let inv (net : Net crypto) : Prop :=
    net.Holds fleet radio (fun _ => True) (fun _ => True) (fun _ => True) ∧
      (net.nodes x).olsr.neighbors v = none
  have hall : Conveys codec radio (fun _ => True) (fun _ => True) fun _ => True :=
    ⟨fun _ _ _ _ _ _ _ _ _ => trivial, fun _ _ _ _ _ => trivial, fun _ _ _ _ _ _ _ => trivial⟩
  refine (h.invariant (P := inv) ⟨start_holds fleet channel recorded, rfl⟩ ?_).2
  rintro before e after ⟨hheld, hnone⟩ hstep
  refine ⟨hheld.step_sending hall hstep (fun _ _ _ _ _ => trivial)
    (fun _ _ _ _ _ _ _ _ => trivial) (fun _ _ _ _ _ _ _ => trivial)
    (fun _ _ _ _ _ _ _ => trivial) fun _ _ _ => trivial, ?_⟩
  rcases hheld.step_olsr hstep x with hsame | ⟨ev, hprompts, hev⟩
  · rw [hsame, hnone]
  · rw [hev]
    cases e with
    | agingTick n now staleOrder order =>
      obtain ⟨-, rfl⟩ := hprompts
      exact OlsrState.agingTick_neighbors_none.2 (.inl hnone)
    | deliver i env =>
      obtain ⟨t, -, hin, -⟩ := hprompts
      exact absurd hin (hrange t.src)
    | helloTick | tcTick | outbound | transmit | runTask => exact hprompts.elim

end Net
end TacticalMesh
