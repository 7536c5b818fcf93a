import TacticalMesh.NetContents

namespace TacticalMesh
set_option autoImplicit true

/-- The blocks of an image, broadcast by node 2, one every millisecond. -/
def shardFrame (codec : Codec) (image : ℕ → ImageShard) (k : ℕ) : Sending :=
  .own 2 .data (codec.encodeApp (.imageShard (image k))) .bulk (.atMs k)

namespace JamWindow

def bulk (k : ℕ) : JamWindow := ⟨(List.range k).map fun t => (t, .bulk)⟩

theorem record_bulk (hk : k ≤ 500) : (bulk k).record .bulk k = bulk (k + 1) := by
  have hlist : (bulk k).entries ++ [(k, Priority.bulk)] = (bulk (k + 1)).entries := by
    rw [bulk, bulk, List.range_succ, List.map_append]
    rfl
  have hfirst : ¬ 500 < k - 0 := by omega
  rw [record, hlist, evict, bulk, List.range_succ_eq_map, List.map_cons,
    List.dropWhile_cons_of_neg (by simpa using hfirst)]

theorem isJammed_bulk : (bulk k).isJammed = decide (150 < k) := by
  have hhigh : (bulk k).entries.countP (fun e => e.2 = .high) = 0 := by
    simp [bulk, List.countP_eq_zero]
  have hbulk : (bulk k).entries.countP (fun e => e.2 = .bulk) = k := by
    rw [List.countP_eq_length.2 (by simp [bulk])]
    simp [bulk]
  cases k with
  | zero => rfl
  | succ k =>
    have hsome : (bulk (k + 1)).entries.isEmpty = false := by simp [bulk, List.range_succ]
    simp only [isJammed, hhigh, hbulk, hsome, decide_true, Bool.not_false, Bool.true_and]

end JamWindow
namespace Node
variable {crypto : Crypto} {fleet : Fleet crypto} {codec : Codec} {image : ℕ → ImageShard}
variable {channel recorded : UInt8} {n : Node crypto}

structure Flooded (fleet : Fleet crypto) (channel recorded : UInt8) (k : ℕ) (n : Node crypto) :
    Prop where
  holds : n.Holds fleet (fun _ => True) (fun _ => True) 1
  window : n.jamWindow = .bulk k
  quiet : n.jamDetected = false
  old : ∀ key, n.nonceCache.seen key ≠ none → key.2.1 < k
  idle : n.scheduler = .new
  spawned : n.spawned = []
  tuned : n.link.channel = channel
  agreed : n.app.channel = recorded

theorem flooded_zero (fleet : Fleet crypto) (channel recorded : UInt8) :
    Flooded fleet channel recorded 0 ((Net.start fleet channel recorded).nodes 1) where
  holds :=
    { identity := rfl
      pubkeys := rfl
      olsr := ⟨[], rfl⟩
      queued := fun _ _ h => absurd h List.not_mem_nil
      spawned := fun _ h => absurd h List.not_mem_nil }
  window := rfl
  quiet := rfl
  old _ h := absurd rfl h
  idle := rfl
  spawned := rfl
  tuned := rfl
  agreed := rfl

def taking (codec : Codec) (image : ℕ → ImageShard) (k : ℕ) (n : Node crypto) : Node crypto :=
  { n.remember (shardFrame codec image k) k with
    jamWindow := .bulk (k + 1)
    spawned := [.imageShard (image k)] }

theorem Flooded.rxLoop (h : n.Flooded fleet channel recorded k) (hk : k ≤ 500) :
    n.rxLoop codec (.atMs k) (fleet.frame (shardFrame codec image k)) =
      ((n.taking codec image k).jamCheck codec (.atMs k), (n.taking codec image k).detects) := by
  have hacc : n.nonceCache.accepts ((shardFrame codec image k).check k) :=
    Sending.accepts_newest rfl (by omega) h.old
  have hlocal : (fleet.parsed (shardFrame codec image k)).deliverLocal
      (n.remember (shardFrame codec image k) k).identity.nodeId := by
    rw [ParsedFrame.deliverLocal, Bool.or_eq_true]
    exact .inr (decide_eq_true rfl)
  have hnow : (RxEnv.atMs k).now = k := rfl
  have hid : ((n.remember (shardFrame codec image k) k).record (.atMs k)
      (fleet.parsed (shardFrame codec image k))).identity = fleet.identity 1 := h.holds.identity
  have hkind : (fleet.parsed (shardFrame codec image k)).auth.msgKind = .data := rfl
  have hprio : (fleet.parsed (shardFrame codec image k)).auth.priority = .bulk := rfl
  have hdecode : codec.decodeApp (fleet.parsed (shardFrame codec image k)).plaintext =
      some (.imageShard (image k)) := codec.decode_encodeApp _
  have hdispatched : (n.remember (shardFrame codec image k) k).dispatched codec (.atMs k)
      (fleet.parsed (shardFrame codec image k)) = n.taking codec image k := by
    rw [dispatched, Node.relay, hid, relay_parsed, next_data rfl rfl, Option.map_none,
      Node.dispatch, hkind]
    simp only [hdecode, record, hprio, hnow, taking, remember, h.window, JamWindow.record_bulk hk,
      h.spawned, List.nil_append]
  rw [rxLoop_of_accepts h.holds hacc, hnow, handleParsed_of_local codec _ hlocal]
  exact congrArg (fun m => (m.jamCheck codec (.atMs k), m.detects)) hdispatched

theorem Flooded.detects (h : n.Flooded fleet channel recorded k) :
    (n.taking codec image k).detects = decide (150 ≤ k) := by
  have hquiet : (n.taking codec image k).jamDetected = false := h.quiet
  have hwindow : (n.taking codec image k).jamWindow = .bulk (k + 1) := rfl
  rw [Node.detects, hquiet, hwindow, JamWindow.isJammed_bulk, Bool.not_false, Bool.true_and,
    decide_eq_decide, Nat.lt_succ_iff]

theorem Flooded.jamCheck (h : n.Flooded fleet channel recorded k) (hk : k < 150) :
    (n.taking codec image k).jamCheck codec (.atMs k) = n.taking codec image k := by
  have hquiet : (n.taking codec image k).jamDetected = false := h.quiet
  have hnot : ¬ 150 ≤ k := by omega
  rw [Node.jamCheck, h.detects, decide_eq_false hnot, if_neg Bool.false_ne_true, Node.resetJam,
    hquiet, Bool.false_and, if_neg Bool.false_ne_true]

def handledShard (n : Node crypto) : Node crypto := { n with spawned := [] }

theorem Flooded.taking (h : n.Flooded fleet channel recorded k) (hk : k < 150) :
    (n.taking codec image k).handledShard.Flooded fleet channel recorded (k + 1) where
  holds := ⟨h.holds.identity, h.holds.pubkeys, h.holds.olsr, h.holds.queued,
    fun _ hm => absurd hm List.not_mem_nil⟩
  window := rfl
  quiet := h.quiet
  old := Sending.seen_newest rfl (by omega) (Sending.accepts_newest rfl (by omega) h.old) h.old
  idle := h.idle
  spawned := rfl
  tuned := h.tuned
  agreed := h.agreed

theorem Flooded.alarm (h : n.Flooded fleet channel recorded 150) :
    ((n.taking codec image 150).jamCheck codec (.atMs 150)).link.channel =
        Shared.fallbackChannel recorded ∧
      ∃ frame, ((n.taking codec image 150).jamCheck codec (.atMs 150)).scheduler =
        Queues.new.push frame .emergency := by
  rw [Node.jamCheck, h.detects, decide_eq_true (le_refl 150), if_pos rfl,
    (resetJam_keeps _).2.1, (resetJam_keeps _).2.2.2, ← h.agreed, ← h.idle]
  exact ⟨rfl, _, rfl⟩

theorem jamCheck_spawned : (n.jamCheck codec env).spawned = n.spawned := by
  rw [Node.jamCheck, Node.resetJam]
  split <;> split <;> rfl

end Node

namespace Net
variable {crypto : Crypto} {fleet : Fleet crypto} {codec : Codec} {image : ℕ → ImageShard}
variable {channel recorded : UInt8} {net : Net crypto}

def pair (n : UInt8) : List UInt8 := if n = 1 then [2] else if n = 2 then [1] else []

structure Burst (fleet : Fleet crypto) (channel recorded : UInt8) (k : ℕ) (net : Net crypto) :
    Prop where
  flooded : (net.nodes 1).Flooded fleet channel recorded k
  others : ∀ n, n ≠ 1 → net.nodes n = (start fleet channel recorded).nodes n
  air : net.air = []
  detections : net.detections = []

theorem Burst.sends (codec : Codec) (image : ℕ → ImageShard)
    (h : net.Burst fleet channel recorded k) :
    ∃ sent, LeadsTo (tunedStep codec pair) net sent ∧ (∀ n, sent.nodes n = net.nodes n) ∧
      sent.air = [(1, fleet.frame (shardFrame codec image k))] ∧
      sent.detections = net.detections := by
  let s := shardFrame codec image k
  let queued := net.setNode 2 ((net.nodes 2).enqueue (fleet.frame s) .bulk)
  let sent := (queued.setNode 2 { queued.nodes 2 with scheduler := .new }).send pair 2
    (fleet.frame s)
  have htwo := h.others 2 (by decide)
  have hout : (net.nodes 2).outbound codec (.imageShard (image k)) broadcast .bulk (.atMs k) =
      (net.nodes 2).enqueue (fleet.frame s) .bulk := by
    rw [htwo]
    rfl
  have houtbound : net.tunedStep codec pair
      (.outbound 2 (.imageShard (image k)) broadcast .bulk (.atMs k)) = some queued :=
    congrArg (fun node => some (net.setNode 2 node)) hout
  have hqueued : queued.nodes 2 = (net.nodes 2).enqueue (fleet.frame s) .bulk :=
    (setNode_nodes ..).trans (if_pos rfl)
  have hpop : (queued.nodes 2).scheduler.popNext = some ((fleet.frame s, .bulk), .new) := by
    rw [hqueued, htwo]
    exact Queues.popNext_push_new
  have htransmit : queued.tunedStep codec pair (.transmit 2) = some sent :=
    step_transmit_of codec pair hpop
  have hsent (n : UInt8) : sent.nodes n = net.nodes n := by
    by_cases hn : n = 2
    · have hself : sent.nodes 2 = { queued.nodes 2 with scheduler := .new } :=
        (setNode_nodes queued 2 _ 2).trans (if_pos rfl)
      rw [hn, hself, hqueued, htwo]
      rfl
    · have hother : sent.nodes n = queued.nodes n :=
        (setNode_nodes queued 2 _ n).trans (if_neg hn)
      rw [hother, setNode_nodes, if_neg hn]
  have hchannel : (sent.nodes 1).link.channel = (sent.nodes 2).link.channel := by
    rw [hsent, hsent, htwo, h.flooded.tuned]
    rfl
  have hair : sent.air = [(1, fleet.frame s)] := by
    have hrange : ((pair 2).filter fun r =>
        (sent.nodes r).link.channel = (sent.nodes 2).link.channel) = [1] :=
      List.filter_eq_self.2 fun r hr => by
        rw [List.mem_singleton.1 hr]
        exact decide_eq_true hchannel
    have hsplit : sent.air = net.air ++ ((pair 2).filter fun r =>
        (sent.nodes r).link.channel = (sent.nodes 2).link.channel).map
          fun r => (r, fleet.frame s) := rfl
    rw [hsplit, h.air, hrange]
    rfl
  exact ⟨sent, ((LeadsTo.refl _ net).tail houtbound).tail htransmit, hsent, hair, rfl⟩

theorem Burst.shot (codec : Codec) (image : ℕ → ImageShard)
    (h : net.Burst fleet channel recorded k) (hk : k ≤ 500) :
    ∃ net', LeadsTo (tunedStep codec pair) net net' ∧
      net'.nodes 1 =
        (((net.nodes 1).taking codec image k).jamCheck codec (.atMs k)).handledShard ∧
      (∀ n, n ≠ 1 → net'.nodes n = net.nodes n) ∧ net'.air = [] ∧
      net'.detections = if 150 ≤ k then [1] else [] := by
  let s := shardFrame codec image k
  obtain ⟨sent, hsends, hsent, hair, hnone⟩ := h.sends codec image
  have hdeliver : sent.tunedStep codec pair (.deliver 0 (.atMs k)) =
      some (sent.taken codec 0 1 (fleet.frame s) (.atMs k)) :=
    step_deliver_of codec pair _ (by rw [hair]; rfl) (by decide : (2 : UInt8) ≠ 1)
  have hrx : (sent.nodes 1).rxLoop codec (.atMs k) (fleet.frame s) =
      (((net.nodes 1).taking codec image k).jamCheck codec (.atMs k), decide (150 ≤ k)) := by
    rw [hsent, h.flooded.rxLoop hk, h.flooded.detects]
  generalize hheard : sent.taken codec 0 1 (fleet.frame s) (.atMs k) = heard at hdeliver
  have hone : heard.nodes 1 =
      ((net.nodes 1).taking codec image k).jamCheck codec (.atMs k) := by
    rw [← hheard, taken_nodes, if_pos rfl, hrx]
  have hspawned : (heard.nodes 1).spawned = [.imageShard (image k)] := by
    rw [hone, Node.jamCheck_spawned]
    rfl
  have hrun : heard.tunedStep codec pair (.runTask 1 0 k true) =
      some (heard.setNode 1 (heard.nodes 1).handledShard) := by
    simp only [tunedStep, Event.hopSucceeds, if_true, step, hspawned]
    rfl
  refine ⟨_, (hsends.tail hdeliver).tail hrun, ?_, ?_, ?_, ?_⟩
  · rw [setNode_nodes, if_pos rfl, hone]
  · intro n hn
    rw [setNode_nodes, if_neg hn, ← hheard, taken_nodes, if_neg hn, hsent]
  · have htaken : (sent.taken codec 0 1 (fleet.frame s) (.atMs k)).air = sent.air.eraseIdx 0 := rfl
    change heard.air = []
    rw [← hheard, htaken, hair]
    rfl
  · have htaken : (sent.taken codec 0 1 (fleet.frame s) (.atMs k)).detections = sent.detections ++
        if ((sent.nodes 1).rxLoop codec (.atMs k) (fleet.frame s)).2 then [1] else [] := rfl
    change heard.detections = _
    rw [← hheard, htaken, hrx, hnone, h.detections, List.nil_append]
    simp only [decide_eq_true_eq]

theorem start_burst (fleet : Fleet crypto) (channel recorded : UInt8) :
    (start fleet channel recorded).Burst fleet channel recorded 0 where
  flooded := Node.flooded_zero fleet channel recorded
  others _ _ := rfl
  air := rfl
  detections := rfl

theorem Burst.next (codec : Codec) (image : ℕ → ImageShard)
    (h : net.Burst fleet channel recorded k) (hk : k < 150) :
    ∃ net', LeadsTo (tunedStep codec pair) net net' ∧
      net'.Burst fleet channel recorded (k + 1) := by
  obtain ⟨net', hrun, hone, hothers, hair, hdet⟩ := h.shot codec image (by omega)
  rw [h.flooded.jamCheck hk] at hone
  rw [if_neg (by omega)] at hdet
  have hflooded : ((net.nodes 1).taking codec image k).handledShard.Flooded fleet channel recorded
      (k + 1) := h.flooded.taking hk
  rw [← hone] at hflooded
  exact ⟨net', hrun, hflooded, fun n hn => (hothers n hn).trans (h.others n hn), hair, hdet⟩

theorem burst_reached (codec : Codec) (fleet : Fleet crypto) (image : ℕ → ImageShard)
    (channel recorded : UInt8) (hk : k ≤ 150) :
    ∃ net, LeadsTo (tunedStep codec pair) (start fleet channel recorded) net ∧
      net.Burst fleet channel recorded k := by
  induction k with
  | zero => exact ⟨_, .refl _ _, start_burst fleet channel recorded⟩
  | succ k ih =>
    obtain ⟨net, hrun, hburst⟩ := ih (by omega)
    obtain ⟨net', hrun', hburst'⟩ := hburst.next codec image (by omega)
    exact ⟨net', hrun.trans hrun', hburst'⟩

/-- An image of 151 blocks makes its receiver hop away, and its alert is heard by nobody. -/
theorem image_alarm (codec : Codec) (fleet : Fleet crypto) (image : ℕ → ImageShard)
    (channel recorded : UInt8) (hne : Shared.fallbackChannel recorded ≠ channel) :
    ∃ net, LeadsTo (tunedStep codec pair) (start fleet channel recorded) net ∧
      net.detections = [1] ∧ net.Settled ∧
      net.channelOf 1 = Shared.fallbackChannel recorded ∧ net.channelOf 2 = channel := by
  obtain ⟨net, hrun, hburst⟩ := burst_reached codec fleet image channel recorded (le_refl 150)
  obtain ⟨net', hrun', hone, hothers, hair, hdet⟩ := hburst.shot codec image (by decide)
  obtain ⟨hhop, frame, hqueued⟩ : (net'.nodes 1).link.channel = Shared.fallbackChannel recorded ∧
      ∃ frame, (net'.nodes 1).scheduler = Queues.new.push frame .emergency := by
    rw [hone]
    exact hburst.flooded.alarm
  have hstart (n : UInt8) (hn : n ≠ 1) :
      net'.nodes n = (start fleet channel recorded).nodes n :=
    (hothers n hn).trans (hburst.others n hn)
  have hpop : (net'.nodes 1).scheduler.popNext = some ((frame, .emergency), .new) := by
    rw [hqueued]
    exact Queues.popNext_push_new
  let sent := (net'.setNode 1 { net'.nodes 1 with scheduler := .new }).send pair 1 frame
  have htransmit : net'.tunedStep codec pair (.transmit 1) = some sent :=
    step_transmit_of codec pair hpop
  have hself : sent.nodes 1 = { net'.nodes 1 with scheduler := .new } :=
    (setNode_nodes net' 1 _ 1).trans (if_pos rfl)
  have hother (n : UInt8) (hn : n ≠ 1) : sent.nodes n = (start fleet channel recorded).nodes n :=
    ((setNode_nodes net' 1 _ n).trans (if_neg hn)).trans (hstart n hn)
  have hlink : sent.channelOf 1 = Shared.fallbackChannel recorded := by
    rw [channelOf, hself]
    exact hhop
  have hstay : sent.channelOf 2 = channel := by
    rw [channelOf, hother 2 (by decide)]
    rfl
  have hunheard : sent.air = [] := by
    rw [List.eq_nil_iff_forall_not_mem]
    rintro ⟨r, raw⟩ hmem
    rcases mem_send.1 hmem with hmem | ⟨hr, hc, -⟩
    · have hnil : (r, raw) ∈ net'.air := hmem
      rw [hair] at hnil
      cases hnil
    · cases List.mem_singleton.1 hr
      exact hne (hlink.symm.trans (hc.symm.trans hstay))
  refine ⟨sent, (hrun.trans hrun').tail htransmit, hdet, ⟨hunheard, fun n => ?_⟩, hlink, hstay⟩
  by_cases hn : n = 1
  · rw [hn, hself]
    refine ⟨fun _ => rfl, ?_⟩
    change (net'.nodes 1).spawned = []
    rw [hone]
    rfl
  · rw [hother n hn]
    exact ⟨fun _ => rfl, rfl⟩

end Net
end TacticalMesh
