import TacticalMesh.AttackedNetwork
import TacticalMesh.ImageBurst

namespace TacticalMesh
set_option autoImplicit true

/-- Node `n` has sent the message: its operator has told it to, or it is the alert of a jam that
the node has detected. -/
def Posted (events : List Event) (detections : List UInt8) (n : UInt8) (m : AppMsg)
    (dst : UInt8) : Prop :=
  (∃ prio draw, Event.outbound n m dst prio draw ∈ events) ∨
    (∃ ja, m = .jamAlert ja ∧ ja.detectedBy = n) ∧ n ∈ detections ∧ dst = broadcast

theorem Posted.mono (h : Posted events detections n m dst) (he : events ⊆ events')
    (hd : detections ⊆ detections') : Posted events' detections' n m dst := by
  rcases h with ⟨prio, draw, hmem⟩ | ⟨hja, hn, hdst⟩
  · exact .inl ⟨prio, draw, he hmem⟩
  · exact .inr ⟨hja, hd hn, hdst⟩

/-- A message of this frame was sent by some node to the destination of the frame, and a broadcast
one by the node that the frame comes from. -/
def Sending.Vouched (P : UInt8 → AppMsg → UInt8 → Prop) (codec : Codec) (t : Sending) : Prop :=
  ∀ m, t.msg.kind = .data → codec.decodeApp t.msg.payload = some m →
    (t.dst = broadcast → P t.src m broadcast) ∧ (t.dst ≠ broadcast → ∃ n, P n m t.dst)

/-- A message may come to node `x`: it was sent to it, or broadcast in range of it. -/
def MayReach (P : UInt8 → AppMsg → UInt8 → Prop) (radio : UInt8 → List UInt8) (m : AppMsg)
    (x : UInt8) : Prop :=
  (∃ n, P n m x) ∨ ∃ n, P n m broadcast ∧ x ∈ radio n ∧ x ≠ n

theorem MayReach.mono (h : MayReach P radio m x) (hP : ∀ n m dst, P n m dst → P' n m dst) :
    MayReach P' radio m x := by
  rcases h with ⟨n, hn⟩ | ⟨n, hn, hrange⟩
  · exact .inl ⟨n, hP _ _ _ hn⟩
  · exact .inr ⟨n, hP _ _ _ hn, hrange⟩

namespace Sending
variable {P P' : UInt8 → AppMsg → UInt8 → Prop} {codec : Codec} {t : Sending}

theorem Vouched.mono (h : t.Vouched P codec) (hP : ∀ n m dst, P n m dst → P' n m dst) :
    t.Vouched P' codec := by
  intro m hkind hm
  obtain ⟨hbroad, huni⟩ := h m hkind hm
  refine ⟨fun hdst => hP _ _ _ (hbroad hdst), fun hdst => ?_⟩
  obtain ⟨n, hn⟩ := huni hdst
  exact ⟨n, hP _ _ _ hn⟩

theorem vouched_of_kind (h : t.msg.kind ≠ .data) : t.Vouched P codec :=
  fun _ hkind => absurd hkind h

theorem vouched_app (hmsg : t.msg = ⟨.data, codec.encodeApp m⟩)
    (hP : P t.src m t.dst) : t.Vouched P codec := by
  intro m' _ hm'
  rw [hmsg, codec.decode_encodeApp] at hm'
  cases hm'
  exact ⟨fun hdst => hdst ▸ hP, fun _ => ⟨t.src, hP⟩⟩

/-- Data is relayed towards its destination or not at all. -/
theorem Vouched.next {draw : Draw} (h : t.Vouched P codec)
    (hu : t.next r routeTo draw = some u) :
    u.Vouched P codec := by
  intro m hkind hm
  rw [(next_src hu).2] at hkind hm
  have hdst : t.dst ≠ broadcast := by
    intro hdst
    rw [next_data hdst hkind] at hu
    cases hu
  obtain ⟨-, e, -, rfl⟩ := (next_unicast hdst).1 hu
  exact ⟨fun hdst' => absurd hdst' hdst, (h m hkind hm).2⟩

theorem Vouched.mayReach (h : t.Vouched P codec) (hkind : t.msg.kind = .data)
    (hm : codec.decodeApp t.msg.payload = some m) (hdst : t.dst = x ∨ t.dst = broadcast)
    (hrange : x ∈ radio t.src) (hne : x ≠ t.src) : MayReach P radio m x := by
  obtain ⟨hbroad, huni⟩ := h m hkind hm
  by_cases hall : t.dst = broadcast
  · exact .inr ⟨t.src, hbroad hall, hrange, hne⟩
  · obtain ⟨n, hn⟩ := huni hall
    have hx : t.dst = x := hdst.resolve_right hall
    exact .inl ⟨n, hx ▸ hn⟩

theorem vouched_carries (P : UInt8 → AppMsg → UInt8 → Prop) (codec : Codec)
    (radio : UInt8 → List UInt8) :
    Conveys codec radio (Vouched P codec) (Vouched P codec) fun _ => True where
  relay _ _ ht _ _ _ _ _ hu := ht.next hu
  msg _ _ _ _ _ := trivial
  forward _ _ _ _ _ _ _ := vouched_of_kind nofun

end Sending

namespace Node
variable {crypto : Crypto} {fleet : Fleet crypto} {codec : Codec} {env : RxEnv}
variable {Q : Sending → Prop} {L : AppMsg → Prop} {x : UInt8} {n : Node crypto}

theorem dispatch_spawned (hm : m ∈ (n.dispatch codec env (fleet.parsed t)).spawned) :
    m ∈ n.spawned ∨ t.msg.kind = .data ∧ codec.decodeApp t.msg.payload = some m := by
  have hkind : (fleet.parsed t).auth.msgKind = t.msg.kind := rfl
  have hplain : (fleet.parsed t).plaintext = t.msg.payload := rfl
  rw [Node.dispatch, hkind, hplain] at hm
  cases hk : t.msg.kind with
  | data =>
    simp only [hk] at hm
    split at hm
    next m' hm' =>
      rcases List.mem_append.1 hm with hm | hm
      · exact .inl hm
      · rw [List.mem_singleton.1 hm]
        exact .inr ⟨rfl, hm'⟩
    next => exact .inl hm
  | olsrHello =>
    simp only [hk] at hm
    split at hm <;> exact .inl hm
  | olsrTc =>
    simp only [hk] at hm
    split at hm
    next =>
      split at hm <;> exact .inl hm
    next => exact .inl hm
  | ack =>
    rw [hk] at hm
    exact .inl hm
  | sessionKeyRotation =>
    rw [hk] at hm
    exact .inl hm

theorem Holds.rxLoop_spawned (h : n.Holds fleet Q L x)
    (hm : m ∈ (n.rxLoop codec env (fleet.frame t)).1.spawned) :
    m ∈ n.spawned ∨ (t.dst = x ∨ t.dst = broadcast) ∧ t.msg.kind = .data ∧
      codec.decodeApp t.msg.payload = some m := by
  by_cases hacc : n.nonceCache.accepts (t.check env.now)
  · rw [rxLoop_of_accepts h hacc] at hm
    have hrouted : (((n.remember t env.now).record env (fleet.parsed t)).relay env
        (fleet.parsed t)).spawned = n.spawned := by
      obtain ⟨_, hrelay⟩ := relay_changes env (fleet.parsed t)
        ((n.remember t env.now).record env (fleet.parsed t))
      rw [hrelay]
      rfl
    by_cases hlocal : (fleet.parsed t).deliverLocal (n.remember t env.now).identity.nodeId
    · rw [handleParsed_of_local codec env hlocal, jamCheck_spawned] at hm
      rcases dispatch_spawned hm with hm | hm
      · rw [hrouted] at hm
        exact .inl hm
      · rw [ParsedFrame.deliverLocal, Bool.or_eq_true, decide_eq_true_iff,
          decide_eq_true_iff] at hlocal
        have hid : (n.remember t env.now).identity.nodeId = x :=
          congrArg Identity.nodeId h.identity
        rw [hid] at hlocal
        exact .inr ⟨hlocal, hm⟩
    · rw [handleParsed_of_not_local codec env hlocal, hrouted] at hm
      exact .inl hm
  · obtain ⟨b, e, r, hr⟩ := h.rxLoop_of_rejected codec env hacc
    rw [hr] at hm
    exact .inl hm

end Node
namespace Net
variable {crypto : Crypto} {fleet : Fleet crypto} {codec : Codec} {radio : UInt8 → List UInt8}
variable {P P' : UInt8 → AppMsg → UInt8 → Prop} {net net' : Net crypto}

/-- All frames are vouched for, and so is what is about to be handled. -/
structure Sourced (codec : Codec) (fleet : Fleet crypto) (radio : UInt8 → List UInt8)
    (P : UInt8 → AppMsg → UInt8 → Prop) (net : Net crypto) : Prop where
  held : net.Holds fleet radio (Sending.Vouched P codec) (Sending.Vouched P codec) fun _ => True
  spawned : ∀ x, ∀ m ∈ (net.nodes x).spawned, MayReach P radio m x

theorem Sourced.mono (h : net.Sourced codec fleet radio P)
    (hP : ∀ n m dst, P n m dst → P' n m dst) : net.Sourced codec fleet radio P' where
  held := h.held.mono (fun _ ht => ht.mono hP) (fun _ ht => ht.mono hP) fun _ _ => trivial
  spawned x m hm := (h.spawned x m hm).mono hP

theorem Sourced.setNode (h : net.Sourced codec fleet radio P)
    (hnode : ∀ m ∈ node.spawned, m ∈ (net.nodes n).spawned) :
    ∀ x, ∀ m ∈ ((net.setNode n node).nodes x).spawned, MayReach P radio m x := by
  intro x m hm
  rw [setNode_nodes] at hm
  split at hm
  next hx =>
    rw [hx]
    exact h.spawned n m (hnode m hm)
  next => exact h.spawned x m hm

theorem outbound_spawned (n : Node crypto) :
    (n.outbound codec msg dst prio draw).spawned = n.spawned := by
  rw [Node.outbound]
  split
  next => rfl
  next => split <;> rfl

theorem Sourced.step_spawned (h : net.Sourced codec fleet radio P)
    (hstep : net.step codec radio e = some net') :
    ∀ x, ∀ m ∈ (net'.nodes x).spawned, MayReach P radio m x := by
  cases e with
  | helloTick n now order draw =>
    cases hstep
    exact h.spawned
  | tcTick n now order draw =>
    cases hstep
    exact h.setNode fun _ hm => hm
  | agingTick n now staleOrder order =>
    cases hstep
    exact h.setNode fun _ hm => hm
  | outbound n msg dst prio draw =>
    obtain ⟨-, rfl⟩ := step_outbound hstep
    refine h.setNode fun m hm => ?_
    rwa [outbound_spawned] at hm
  | transmit n =>
    obtain ⟨frame, prio, queues, -, rfl⟩ := step_transmit hstep
    exact h.setNode fun _ hm => hm
  | deliver i env =>
    obtain rfl | ⟨r, t, hrange, hown, ht, rfl⟩ := h.held.step_deliver hstep
    · exact h.spawned
    · intro x m hm
      rw [taken_nodes] at hm
      split at hm
      next hx =>
        rw [hx]
        rcases (h.held.nodes r).rxLoop_spawned hm with hm | ⟨hdst, hkind, hm⟩
        · exact h.spawned r m hm
        · exact ht.mayReach hkind hm hdst hrange hown.symm
      next => exact h.spawned x m hm
  | runTask n i now succeeds =>
    obtain ⟨msg, -, rfl⟩ := step_runTask hstep
    exact h.setNode fun _ hm => List.mem_of_mem_eraseIdx hm

theorem Sourced.step (h : net.Sourced codec fleet radio P)
    (hP : ∀ n m dst, P n m dst → P' n m dst) (hstep : net.step codec radio e = some net')
    (hoperator : ∀ n m dst prio draw, e = .outbound n m dst prio draw → P' n m dst)
    (halert : ∀ r ja, net'.detections = net.detections ++ [r] → ja.detectedBy = r →
      P' r (.jamAlert ja) broadcast) : net'.Sourced codec fleet radio P' where
  held := by
    refine (h.mono hP).held.step_sending (Sending.vouched_carries P' codec radio) hstep ?_ ?_ ?_
      (fun _ _ _ hs _ _ _ => hs) ?_
    · exact fun _ _ _ _ _ => Sending.vouched_of_kind nofun
    · exact fun _ _ _ _ _ _ _ _ => Sending.vouched_of_kind nofun
    · exact fun s m prio draw he _ hs => Sending.vouched_app hs (hoperator _ _ _ _ _ he)
    · exact fun r env hdet => Sending.vouched_app rfl (halert r _ hdet rfl)
  spawned := (h.mono hP).step_spawned hstep

theorem Posted.undelivered {es : List Event} {d : List UInt8} (h : Posted es d n m dst) :
    Posted (es.filterMap Event.undelivered) d n m dst := by
  rcases h with ⟨prio, draw, hmem⟩ | hja
  · exact .inl ⟨prio, draw, List.mem_filterMap.2 ⟨_, hmem, rfl⟩⟩
  · exact .inr hja

end Net
end TacticalMesh
