import TacticalMesh.JamRounds
import TacticalMesh.Runs

namespace TacticalMesh
set_option autoImplicit true

theorem Queues.push_ne (q : Queues) (frame : Bytes) (prio : Priority) : q.push frame prio ≠ q := by
  intro h
  have hlen := congrArg (fun q : Queues => (q.inner prio).length) h
  simp [push] at hlen

namespace Node
variable {crypto : Crypto} (codec : Codec) (env : RxEnv) (n : Node crypto)

theorem jamCheck_jamDetected : (n.jamCheck codec env).jamDetected = n.jamWindow.isJammed := by
  rw [jamCheck, detects, resetJam]
  cases hlatched : n.jamDetected with
  | false =>
    cases hjammed : n.jamWindow.isJammed with
    | false => simp [hlatched]
    | true => simp [raiseAlarm, enqueue, hjammed]
  | true =>
    cases hjammed : n.jamWindow.isJammed with
    | false => simp [hjammed, hlatched]
    | true => simp [hjammed, hlatched]

def alertFrame : Bytes :=
  crypto.buildFrame
    ⟨.data, codec.encodeApp (.jamAlert ⟨n.identity.nodeId, n.app.channel, env.now⟩)⟩ .emergency
    broadcast n.identity env.alertDraw

theorem jamCheck_scheduler : (n.jamCheck codec env).scheduler =
    if n.detects then n.scheduler.push (n.alertFrame codec env) .emergency else n.scheduler := by
  rw [jamCheck, (resetJam_keeps _).2.2.2]
  split <;> rfl

end Node

namespace Round
variable {crypto : Crypto} (codec : Codec) (r : Round crypto)

def Delivered : Prop :=
  ∃ parsed, r.verdict = .ok parsed ∧ parsed.deliverLocal r.before.identity.nodeId

/-- Of the accepted frames up to this one, those of the last 500 ms show a jam. -/
def Jam (pre : List (Round crypto)) : Prop :=
  Floods ((pre ++ [r]).filterMap recorded) r.env.now

def checked : Node crypto :=
  { r.before with
    nonceCache := (crypto.parseAndVerifyFrame r.raw r.before.pubkeys r.before.nonceCache r.env.now
      r.before.identity.sessionKey).1 }

def routed : Queues :=
  match r.verdict with
  | .ok parsed =>
    if parsed.deliverLocal r.before.identity.nodeId then
      (r.checked.dispatched codec r.env parsed).scheduler
    else ((r.checked.record r.env parsed).relay r.env parsed).scheduler
  | .error _ => r.before.scheduler

def EnqueuesAlert : Prop :=
  (r.after codec).scheduler = (r.routed codec).push (r.before.alertFrame codec r.env) .emergency

variable {r}

theorem rxLoop_of_accepted (h : r.verdict = .ok parsed) :
    r.before.rxLoop codec r.env r.raw = r.checked.handleParsed codec r.env parsed := by
  rw [verdict] at h
  simp only [Node.rxLoop, h]
  rfl

theorem rxLoop_of_local (h : r.verdict = .ok parsed)
    (hlocal : parsed.deliverLocal r.before.identity.nodeId) :
    r.before.rxLoop codec r.env r.raw =
      ((r.checked.dispatched codec r.env parsed).jamCheck codec r.env,
        (r.checked.dispatched codec r.env parsed).detects) := by
  rw [rxLoop_of_accepted codec h]
  exact Node.handleParsed_of_local codec r.env hlocal

theorem rxLoop_of_not_local (h : r.verdict = .ok parsed)
    (hlocal : ¬ parsed.deliverLocal r.before.identity.nodeId) :
    r.before.rxLoop codec r.env r.raw =
      ((r.checked.record r.env parsed).relay r.env parsed, false) := by
  rw [rxLoop_of_accepted codec h]
  exact Node.handleParsed_of_not_local codec r.env hlocal

theorem delivered_iff (h : r.verdict = .ok parsed) :
    r.Delivered ↔ parsed.deliverLocal r.before.identity.nodeId := by
  constructor
  · rintro ⟨parsed', hparsed', hlocal⟩
    cases h.symm.trans hparsed'
    exact hlocal
  · exact fun hlocal => ⟨parsed, h, hlocal⟩

theorem latch_of_local (h : r.verdict = .ok parsed)
    (hlocal : parsed.deliverLocal r.before.identity.nodeId) :
    (r.after codec).jamDetected =
      (r.before.jamWindow.record parsed.auth.priority r.env.now).isJammed := by
  rw [after, rxLoop_of_local codec h hlocal]
  simp only [Node.jamCheck_jamDetected, (Node.dispatched_keeps codec r.env parsed r.checked).2.2.1]
  rfl

theorem latch_of_not_delivered (h : ¬ r.Delivered) :
    ¬ r.raises codec ∧ (r.after codec).jamDetected = r.before.jamDetected := by
  cases hv : r.verdict with
  | error e =>
    obtain ⟨hraises, -, hlatched⟩ := r.rejected codec hv
    exact ⟨hraises, hlatched⟩
  | ok parsed =>
    rw [delivered_iff hv] at h
    obtain ⟨-, -, -, hlatched, -⟩ := Node.relay_keeps r.env parsed (r.checked.record r.env parsed)
    rw [raises, after, rxLoop_of_not_local codec hv h]
    exact ⟨Bool.false_ne_true, hlatched⟩

theorem after_scheduler (r : Round crypto) [Decidable (r.raises codec)] :
    (r.after codec).scheduler =
      if r.raises codec then
        (r.routed codec).push (r.before.alertFrame codec r.env) .emergency
      else r.routed codec := by
  cases hv : r.verdict with
  | error e =>
    rw [if_neg (r.rejected codec hv).1, routed, hv]
    rw [verdict] at hv
    simp only [after, Node.rxLoop, hv]
    split
    next heq => cases heq
    all_goals rfl
  | ok parsed =>
    by_cases hlocal : parsed.deliverLocal r.before.identity.nodeId
    · have hframe : (r.checked.dispatched codec r.env parsed).alertFrame codec r.env =
          r.before.alertFrame codec r.env := by
        rw [Node.alertFrame, Node.dispatched_identity, (Node.dispatched_keeps ..).1]
        rfl
      simp only [routed, hv, raises, after, rxLoop_of_local codec hv hlocal, if_pos hlocal]
      rw [Node.jamCheck_scheduler, hframe]
    · have hrelayed := (latch_of_not_delivered codec (mt (delivered_iff hv).1 hlocal)).1
      rw [if_neg hrelayed, routed, hv, after, rxLoop_of_not_local codec hv hlocal]
      exact (if_neg hlocal).symm

theorem enqueuesAlert_iff : r.EnqueuesAlert codec ↔ r.raises codec := by
  classical
  rw [EnqueuesAlert, after_scheduler]
  split
  next h => exact iff_of_true rfl h
  next h => exact iff_of_false (fun heq => Queues.push_ne _ _ _ heq.symm) h

end Round

namespace RxRun
variable {crypto : Crypto} {codec : Codec} {rounds pre post : List (Round crypto)}
variable {r : Round crypto} {window : JamWindow} {latched : Bool}

/-- The latch is set exactly if the last frame for this node came in a jam. -/
theorem latched_iff (h : RxRun codec rounds window latched) :
    latched ↔ LastWith Round.Delivered (fun pre q => q.Jam pre) rounds := by
  induction h with
  | start =>
    apply iff_of_false Bool.false_ne_true
    rintro ⟨pre, q, post, hsplit, -⟩
    cases pre <;> cases hsplit
  | @round rounds window latched r h hwindow hlatched htime ih =>
    by_cases hr : r.Delivered
    · rw [lastWith_concat_of_pos hr]
      obtain ⟨parsed, hv, hlocal⟩ := hr
      rw [Round.latch_of_local codec hv hlocal, h.jammed_iff hwindow hlatched htime hv]
      rfl
    · rw [lastWith_concat_of_neg hr, (Round.latch_of_not_delivered codec hr).2, hlatched, ih]

theorem raises_iff_begins (h : RxRun codec rounds window latched)
    (hsplit : rounds = pre ++ r :: post) :
    r.raises codec ↔
      r.Delivered ∧ r.Jam pre ∧ ¬ LastWith Round.Delivered (fun pre q => q.Jam pre) pre := by
  obtain ⟨window', latched', hrun, hwindow, hlatched, htime⟩ := h.before hsplit
  rw [hrun.raises_iff hwindow hlatched htime, Round.Shows, hlatched, ← hrun.latched_iff,
    Bool.not_eq_true]
  constructor
  · rintro ⟨hquiet, parsed, hv, hlocal, hfloods⟩
    exact ⟨⟨parsed, hv, hlocal⟩, hfloods, hquiet⟩
  · rintro ⟨⟨parsed, hv, hlocal⟩, hfloods, hquiet⟩
    exact ⟨hquiet, parsed, hv, hlocal, hfloods⟩

end RxRun

/-- An alert is queued with exactly those frames for this node with which a jam begins: there was
none at the last such frame before. A frame that is only relayed is recorded and leaves the latch
as it is. -/
structure OneAlertPerEpisode {crypto : Crypto} (codec : Codec) (rounds : List (Round crypto)) :
    Prop where
  alerts : ∀ pre r post, rounds = pre ++ r :: post →
    (r.EnqueuesAlert codec ↔
      r.Delivered ∧ r.Jam pre ∧ ¬ LastWith Round.Delivered (fun pre q => q.Jam pre) pre)
  relayed : ∀ r ∈ rounds, ∀ parsed, r.verdict = .ok parsed → ¬ r.Delivered →
    ¬ r.EnqueuesAlert codec ∧ (r.after codec).scheduler = r.routed codec ∧
      (r.after codec).jamDetected = r.before.jamDetected ∧
      (r.after codec).jamWindow = r.before.jamWindow.record parsed.auth.priority r.env.now

theorem one_alert_per_episode {crypto : Crypto} (codec : Codec) (rounds : List (Round crypto))
    (window : JamWindow) (latched : Bool) (h : RxRun codec rounds window latched) :
    OneAlertPerEpisode codec rounds where
  alerts pre r post hsplit := by
    rw [r.enqueuesAlert_iff codec]
    exact h.raises_iff_begins hsplit
  relayed r _ parsed hv hr := by
    classical
    obtain ⟨hraises, hlatched⟩ := r.latch_of_not_delivered codec hr
    rw [r.enqueuesAlert_iff codec, r.after_scheduler codec, if_neg hraises]
    exact ⟨hraises, rfl, hlatched, (r.accepted codec hv).2⟩

theorem block_raises {crypto : Crypto} (codec : Codec) (fleet : Fleet crypto)
    (image : ℕ → ImageShard) (hk : k = 150) : (blockRound codec fleet image k).raises codec := by
  have htime : ∀ r' ∈ (List.range k).map (blockRound codec fleet image),
      r'.env.now ≤ (blockRound codec fleet image k).env.now := by
    intro r' hr'
    obtain ⟨t, ht, rfl⟩ := List.mem_map.1 hr'
    exact (List.mem_range.1 ht).le
  rw [(block_run codec fleet image k).raises_iff rfl rfl htime]
  have hrounds : (List.range k).map (blockRound codec fleet image) ++
      [blockRound codec fleet image k] =
        (List.range (k + 1)).map (blockRound codec fleet image) := by
    rw [List.range_succ, List.map_append]
    rfl
  have hfaithful : ∀ r ∈ (List.range (k + 1)).map (blockRound codec fleet image),
      r.Faithful := by
    intro r hr
    obtain ⟨t, ht, rfl⟩ := List.mem_map.1 hr
    exact block_faithful codec fleet image
      ((Nat.le_of_lt_succ (List.mem_range.1 ht)).trans_eq hk)
  obtain ⟨parsed, hv, hlocal, -⟩ := block_faithful codec fleet image hk.le
  refine ⟨(blockNode_flooded codec fleet image hk.le).quiet, parsed, hv, hlocal, ?_⟩
  rw [hrounds, Round.recorded_of_faithful hfaithful, List.map_map]
  exact floods_steady (by omega) (hk.trans_le (by decide))

theorem blocks_one_alert :
    OneAlertPerEpisode .bincode ((List.range 151).map (blockRound .bincode Crypto.toyFleet block)) ∧
      (blockRound .bincode Crypto.toyFleet block 150).EnqueuesAlert .bincode := by
  constructor
  · exact one_alert_per_episode .bincode _ _ _ (block_run .bincode Crypto.toyFleet block 151)
  · rw [Round.enqueuesAlert_iff]
    exact block_raises .bincode Crypto.toyFleet block rfl

end TacticalMesh
