import TacticalMesh.ChannelRecord
import TacticalMesh.JamEpisodes

namespace TacticalMesh
set_option autoImplicit true

namespace Shared
variable {crypto : Crypto}

def counters (s : Shared crypto) : ℕ × ℕ × ℕ × ℕ :=
  (s.badSigs, s.timeDrops, s.replayDrops, s.channelHops)

theorem handleTactical_counters (s : Shared crypto) (now : ℕ) (succeeds : Bool)
    (h : ∀ ja, msg ≠ .jamAlert ja) : (s.handleTactical msg now succeeds).counters =
      (s.badSigs, s.timeDrops, s.replayDrops,
        s.channelHops + if msg.changesChannel then 1 else 0) := by
  cases msg with
  | jamAlert ja => exact absurd rfl (h ja)
  | chat chat =>
    rw [handleTactical, handleChat]
    split <;> rfl
  | _ => rfl

end Shared

namespace Node
variable {crypto : Crypto} (codec : Codec) (env : RxEnv) (parsed : ParsedFrame) (n : Node crypto)

def rejection (raw : Bytes) : List FrameError :=
  match (crypto.parseAndVerifyFrame raw n.pubkeys n.nonceCache env.now
    n.identity.sessionKey).2 with
  | .error (.error e) => [e]
  | _ => []

def Alarms (raw : Bytes) : Prop :=
  n.jamDetected = false ∧ ∃ parsed,
    (crypto.parseAndVerifyFrame raw n.pubkeys n.nonceCache env.now
      n.identity.sessionKey).2 = .ok parsed ∧
    parsed.deliverLocal n.identity.nodeId ∧
    (n.jamWindow.record parsed.auth.priority env.now).isJammed

theorem rxLoop_raises_iff (raw : Bytes) :
    (n.rxLoop codec env raw).2 ↔ n.Alarms env raw := by
  have hround : (n.rxLoop codec env raw).2 ↔ Round.raises codec ⟨n, raw, .bulk, env⟩ := Iff.rfl
  rw [hround]
  cases hv : (Round.mk n raw .bulk env).verdict with
  | error e =>
    apply iff_of_false (Round.rejected codec _ hv).1
    rintro ⟨-, parsed, hparsed, -⟩
    cases hv.symm.trans hparsed
  | ok parsed =>
    rw [(Round.accepted codec _ hv).1]
    apply and_congr_right
    intro _
    constructor
    · exact fun hall => ⟨parsed, hv, hall⟩
    · rintro ⟨parsed', hparsed', hall⟩
      cases hv.symm.trans hparsed'
      exact hall

theorem relay_counters : (n.relay env parsed).counters = n.counters := by
  obtain ⟨scheduler, h⟩ := relay_changes env parsed n
  rw [h]
  rfl

theorem dispatch_counters : (n.dispatch codec env parsed).counters = n.counters := by
  obtain ⟨olsr, scheduler, spawned, streamRots, h⟩ := dispatch_changes codec env parsed n
  rw [h]
  rfl

theorem resetJam_counters : n.resetJam.counters = n.counters := by
  rw [resetJam]
  split <;> rfl

theorem jamCheck_counters : (n.jamCheck codec env).counters =
    (n.badSigs, n.timeDrops, n.replayDrops, n.channelHops + if n.detects then 2 else 0) := by
  rw [jamCheck, resetJam_counters]
  split <;> rfl

theorem handleParsed_counters : (n.handleParsed codec env parsed).1.counters =
    (n.badSigs, n.timeDrops, n.replayDrops,
      n.channelHops + if (n.handleParsed codec env parsed).2 then 2 else 0) := by
  by_cases hlocal : parsed.deliverLocal n.identity.nodeId
  · have hdispatched : (n.dispatched codec env parsed).counters = n.counters :=
      (dispatch_counters ..).trans (relay_counters ..)
    simp only [Shared.counters, Prod.mk.injEq] at hdispatched
    obtain ⟨hbad, htime, hreplay, hhops⟩ := hdispatched
    rw [handleParsed_of_local codec env hlocal, jamCheck_counters, hbad, htime, hreplay, hhops]
  · rw [handleParsed_of_not_local codec env hlocal]
    exact relay_counters ..

theorem rxLoop_counters (raw : Bytes) : (n.rxLoop codec env raw).1.counters =
    (n.badSigs + (n.rejection env raw).count .badSignature,
      n.timeDrops + (n.rejection env raw).count .timeWindowExpired,
      n.replayDrops + (n.rejection env raw).count .replayedNonce,
      n.channelHops + if (n.rxLoop codec env raw).2 then 2 else 0) := by
  cases hv : (crypto.parseAndVerifyFrame raw n.pubkeys n.nonceCache env.now
      n.identity.sessionKey).2 with
  | ok parsed =>
    simp only [rxLoop, rejection, hv]
    exact handleParsed_counters ..
  | error fault =>
    simp only [rxLoop, rejection, hv]
    cases fault with
    | panic => rfl
    | error e => cases e <;> rfl

end Node

/-- A node with the flag of its spoofer. What was rejected, and how many hops were executed, is
written down as the run goes on. -/
structure WatchedNode (crypto : Crypto) where
  node : Node crypto
  spoofActive : Bool
  rejected : List FrameError
  hops : ℕ

/-- One step of a task of the node. A handler that was spawned for an alert takes two of them: its
own part, and then that of the hop it asks for. -/
inductive TaskStep where
  | receive (raw : Bytes) (env : RxEnv)
  | handler (i : ℕ) (now : ℕ) (succeeds : Bool)
  | spoofer
  | spoofKey
  | outbound (msg : AppMsg) (dst : UInt8) (prio : Priority) (draw : Draw)
  | transmit
  | tcTick
  | agingTick (now : ℕ) (staleOrder : KeyOrder UInt8) (order : IterOrder)

namespace WatchedNode
variable {crypto : Crypto} (codec : Codec)

def new (identity : Identity crypto) (pubkeys : PubkeyStore crypto) (channel : UInt8) :
    WatchedNode crypto where
  node :=
    { toShared := .new identity pubkeys channel
      jamWindow := .new
      jamDetected := false
      tcSeq := 0
      spawned := [] }
  spoofActive := false
  rejected := []
  hops := 0

def receive (raw : Bytes) (env : RxEnv) (w : WatchedNode crypto) : WatchedNode crypto :=
  let (node, raised) := w.node.rxLoop codec env raw
  { w with
    node
    rejected := w.rejected ++ w.node.rejection env raw
    hops := w.hops + if raised then 1 else 0 }

def handler (i : ℕ) (now : ℕ) (succeeds : Bool) (w : WatchedNode crypto) : WatchedNode crypto :=
  match w.node.spawned[i]? with
  | none => w
  | some (.jamAlert ja) =>
    let (shared, hop) := w.node.toShared.startJamAlert ja
    { w with
      node := { w.node with
        toShared := shared
        spawned := w.node.spawned.set i (.channelHop hop) } }
  | some msg =>
    { w with
      node := { w.node with
        toShared := w.node.toShared.handleTactical msg now succeeds
        spawned := w.node.spawned.eraseIdx i }
      hops := w.hops + if msg.changesChannel then 1 else 0 }

/-- The spoofer counts what it sends as rejected. -/
def spoofer (w : WatchedNode crypto) : WatchedNode crypto :=
  if w.spoofActive then { w with node := { w.node with badSigs := w.node.badSigs + 1 } } else w

def step (w : WatchedNode crypto) : TaskStep → WatchedNode crypto
  | .receive raw env => w.receive codec raw env
  | .handler i now succeeds => w.handler i now succeeds
  | .spoofer => w.spoofer
  | .spoofKey => { w with spoofActive := !w.spoofActive }
  | .outbound msg dst prio draw => { w with node := w.node.outbound codec msg dst prio draw }
  | .transmit =>
    match w.node.scheduler.popNext with
    | some (_, scheduler) => { w with node := { w.node with scheduler } }
    | none => w
  | .tcTick => { w with node := { w.node with tcSeq := w.node.tcSeq + 1 } }
  | .agingTick now staleOrder order =>
    { w with node := { w.node with olsr := w.node.olsr.agingTick now staleOrder order } }

def run (w : WatchedNode crypto) (steps : List TaskStep) : WatchedNode crypto :=
  steps.foldl (step codec) w

structure Truthful (w : WatchedNode crypto) : Prop where
  badSigs : w.node.badSigs = w.rejected.count .badSignature
  timeDrops : w.node.timeDrops = w.rejected.count .timeWindowExpired
  replayDrops : w.node.replayDrops = w.rejected.count .replayedNonce
  channelHops : w.node.channelHops = w.hops

/-- The spoofer sends nothing in this step, and no alert is handled in it. -/
def Genuine (w : WatchedNode crypto) : TaskStep → Prop
  | .receive raw env => ¬ w.node.Alarms env raw
  | .handler i _ _ => ∀ ja, w.node.spawned[i]? ≠ some (.jamAlert ja)
  | .spoofer => w.spoofActive = false
  | _ => True

theorem truthful_iff_counters (w : WatchedNode crypto) :
    w.Truthful ↔ w.node.counters =
      (w.rejected.count .badSignature, w.rejected.count .timeWindowExpired,
        w.rejected.count .replayedNonce, w.hops) := by
  simp only [Shared.counters, Prod.mk.injEq]
  constructor
  · exact fun h => ⟨h.badSigs, h.timeDrops, h.replayDrops, h.channelHops⟩
  · rintro ⟨hbad, htime, hreplay, hhops⟩
    exact ⟨hbad, htime, hreplay, hhops⟩

variable {codec} {w : WatchedNode crypto}

theorem receive_truthful_iff (h : w.Truthful) (raw : Bytes) (env : RxEnv) :
    (w.receive codec raw env).Truthful ↔ ¬ w.node.Alarms env raw := by
  rw [truthful_iff_counters, ← w.node.rxLoop_raises_iff codec env raw]
  simp only [receive, Node.rxLoop_counters, List.count_append, h.badSigs, h.timeDrops,
    h.replayDrops, h.channelHops, Prod.mk.injEq, true_and, Nat.add_left_cancel_iff]
  split
  next hraised => simp [hraised]
  next hquiet => simp [hquiet]

theorem handler_truthful_iff (h : w.Truthful) (i now : ℕ) (succeeds : Bool) :
    (w.handler i now succeeds).Truthful ↔ ∀ ja, w.node.spawned[i]? ≠ some (.jamAlert ja) := by
  rw [handler]
  split
  next hnone =>
    apply iff_of_true h
    rw [hnone]
    exact fun ja => nofun
  next ja hja =>
    apply iff_of_false
    · intro h'
      have hhops := h'.channelHops
      simp only [Shared.startJamAlert, Shared.pushLog, h.channelHops] at hhops
      omega
    · exact fun hall => hall ja hja
  next msg hmsg hsome =>
    have hnot : ∀ ja, msg ≠ .jamAlert ja := by
      rintro ja rfl
      exact hmsg ja rfl
    apply iff_of_true
    · have hhandled := w.node.toShared.handleTactical_counters now succeeds hnot
      rw [h.badSigs, h.timeDrops, h.replayDrops, h.channelHops] at hhandled
      exact (truthful_iff_counters _).2 hhandled
    · intro ja hja
      rw [hsome] at hja
      exact hnot ja (Option.some.inj hja)

theorem spoofer_truthful_iff (h : w.Truthful) : w.spoofer.Truthful ↔ w.spoofActive = false := by
  rw [spoofer]
  split
  next hactive =>
    apply iff_of_false
    · intro h'
      have hbad := h'.badSigs
      simp only [h.badSigs] at hbad
      omega
    · rw [hactive]
      exact Bool.noConfusion
  next hidle => exact iff_of_true h (Bool.not_eq_true _ ▸ hidle)

theorem outbound_counters (n : Node crypto) (msg : AppMsg) (dst : UInt8) (prio : Priority)
    (draw : Draw) : (n.outbound codec msg dst prio draw).counters = n.counters := by
  rw [Node.outbound]
  split
  next => rfl
  next => split <;> rfl

theorem step_truthful_iff (h : w.Truthful) (t : TaskStep) :
    (w.step codec t).Truthful ↔ w.Genuine t := by
  cases t with
  | receive raw env => exact receive_truthful_iff h raw env
  | handler i now succeeds => exact handler_truthful_iff h i now succeeds
  | spoofer => exact spoofer_truthful_iff h
  | spoofKey => exact iff_of_true ⟨h.badSigs, h.timeDrops, h.replayDrops, h.channelHops⟩ trivial
  | outbound msg dst prio draw =>
    refine iff_of_true ?_ trivial
    rw [truthful_iff_counters] at h ⊢
    exact (outbound_counters ..).trans h
  | transmit =>
    refine iff_of_true ?_ trivial
    rw [step]
    split
    next => exact ⟨h.badSigs, h.timeDrops, h.replayDrops, h.channelHops⟩
    next => exact h
  | tcTick => exact iff_of_true ⟨h.badSigs, h.timeDrops, h.replayDrops, h.channelHops⟩ trivial
  | agingTick now staleOrder order =>
    exact iff_of_true ⟨h.badSigs, h.timeDrops, h.replayDrops, h.channelHops⟩ trivial

/-- The counters are truthful all along a run exactly if in no step of it the spoofer sends or an
alert is handled. -/
theorem counters_truthful_iff (codec : Codec) (identity : Identity crypto)
    (pubkeys : PubkeyStore crypto) (channel : UInt8) (steps : List TaskStep) :
    (∀ pre, pre <+: steps → ((new identity pubkeys channel).run codec pre).Truthful) ↔
      ∀ pre t, pre ++ [t] <+: steps →
        ((new identity pubkeys channel).run codec pre).Genuine t :=
  foldl_invariant_iff (I := fun _ => True) ⟨rfl, rfl, rfl, rfl⟩ (fun _ => trivial)
    fun _ t _ h => step_truthful_iff h t

def toyWatched : WatchedNode .toy :=
  new (Crypto.toyFleet.identity 1) Crypto.toyFleet.pubkeys 6

def alertOfTwo : Bytes :=
  Crypto.toyFleet.frame
    (.own 2 .data (Codec.bincode.encodeApp (.jamAlert ⟨2, 6, 0⟩)) .emergency (.atMs 0))

/-- One frame that the spoofer sends counts as a bad signature received, and one alert as two
hops. -/
theorem spoofs_and_alerts_miscounted :
    ¬ (toyWatched.run .bincode [.spoofKey, .spoofer]).Truthful ∧
      ¬ (toyWatched.run .bincode
        [.receive alertOfTwo (.atMs 0), .handler 0 0 true, .handler 0 0 true]).Truthful := by
  constructor
  · intro h
    exact absurd h.badSigs (by decide)
  · intro h
    exact absurd h.channelHops (by decide +kernel)

end WatchedNode
end TacticalMesh
