import TacticalMesh.ImageBurst
import TacticalMesh.Payloads
import TacticalMesh.RecentEvents

namespace TacticalMesh
set_option autoImplicit true

/-- Of the frames of the last 500 ms more than 150 are bulk frames and none is of high priority. -/
def Floods (frames : List (ℕ × Priority)) (now : ℕ) : Prop :=
  150 < (recent 500 now frames).countP (fun e => e.2 = .bulk) ∧
    (recent 500 now frames).countP (fun e => e.2 = .high) = 0

namespace JamWindow

/-- The window holds the recent ones of these frames, and has done so since some moment. -/
def Shows (w : JamWindow) (frames : List (ℕ × Priority)) (since : ℕ) : Prop :=
  w.entries = recent 500 since frames

theorem Shows.record {w : JamWindow} (h : w.Shows frames since) (hle : since ≤ now)
    (horder : InOrder (frames ++ [(now, prio)])) :
    (w.record prio now).Shows (frames ++ [(now, prio)]) now := by
  have hnow : recent 500 since [(now, prio)] = [(now, prio)] := by
    apply List.filter_eq_self.2
    intro e he
    rw [List.mem_singleton.1 he]
    simp only [decide_eq_true_eq]
    omega
  have hentries : w.entries ++ [(now, prio)] = recent 500 since (frames ++ [(now, prio)]) := by
    rw [h, recent, recent, List.filter_append]
    exact congrArg _ hnow.symm
  have hsorted : InOrder (w.entries ++ [(now, prio)]) := by
    rw [hentries]
    exact horder.filter _
  rw [Shows, JamWindow.record, evict, hsorted.dropWhile_eq, hentries, recent_recent hle]

theorem Shows.isJammed {w : JamWindow} (h : w.Shows frames now) :
    w.isJammed ↔ Floods frames now := by
  rw [JamWindow.isJammed, h, Floods]
  simp only [Bool.and_eq_true, decide_eq_true_eq]
  constructor
  · rintro ⟨⟨-, hhigh⟩, hbulk⟩
    exact ⟨hbulk, hhigh⟩
  · rintro ⟨hbulk, hhigh⟩
    refine ⟨⟨?_, hhigh⟩, hbulk⟩
    cases hrecent : recent 500 now frames with
    | nil =>
      rw [hrecent] at hbulk
      cases hbulk
    | cons => rfl

end JamWindow

theorem Node.jamCheck_jamWindow {crypto : Crypto} (codec : Codec) (env : RxEnv)
    (n : Node crypto) : (n.jamCheck codec env).jamWindow = n.jamWindow := by
  have hreset : ∀ m : Node crypto, m.resetJam.jamWindow = m.jamWindow := by
    intro m
    rw [Node.resetJam]
    split <;> rfl
  rw [Node.jamCheck, hreset]
  split <;> rfl

theorem Node.handleParsed_jam {crypto : Crypto} (codec : Codec) (env : RxEnv)
    (parsed : ParsedFrame) (n : Node crypto) :
    ((n.handleParsed codec env parsed).2 = true ↔ n.jamDetected = false ∧
      parsed.deliverLocal n.identity.nodeId ∧
      (n.jamWindow.record parsed.auth.priority env.now).isJammed) ∧
    (n.handleParsed codec env parsed).1.jamWindow =
      n.jamWindow.record parsed.auth.priority env.now := by
  by_cases hlocal : parsed.deliverLocal n.identity.nodeId
  · obtain ⟨-, -, hwindow, hlatched⟩ := dispatched_keeps codec env parsed n
    rw [handleParsed_of_local codec env hlocal]
    simp only
    rw [jamCheck_jamWindow, detects, hwindow, hlatched, Bool.and_eq_true, Bool.not_eq_true']
    exact ⟨and_congr_right fun _ => (and_iff_right hlocal).symm, rfl⟩
  · obtain ⟨-, -, hwindow, -⟩ := relay_keeps env parsed (n.record env parsed)
    rw [handleParsed_of_not_local codec env hlocal]
    exact ⟨iff_of_false Bool.false_ne_true fun hall => hlocal hall.2.1, hwindow⟩

/-- One round of `rx_loop`: the node as it finds it, the frame and the queue it came through. -/
structure Round (crypto : Crypto) where
  before : Node crypto
  raw : Bytes
  prio : Priority
  env : RxEnv

namespace Round
variable {crypto : Crypto} (codec : Codec) (r : Round crypto)

def after : Node crypto := (r.before.rxLoop codec r.env r.raw).1

def raises : Prop := (r.before.rxLoop codec r.env r.raw).2

def verdict : Parse ParsedFrame :=
  (crypto.parseAndVerifyFrame r.raw r.before.pubkeys r.before.nonceCache r.env.now
    r.before.identity.sessionKey).2

def arrival : ℕ × Priority := (r.env.now, r.prio)

/-- What is recorded of it: nothing unless it is accepted, and then the priority it names. -/
def recorded : Option (ℕ × Priority) :=
  r.verdict.toOption.map fun parsed => (r.env.now, parsed.auth.priority)

theorem rejected (h : r.verdict = .error e) : ¬ r.raises codec ∧
    (r.after codec).jamWindow = r.before.jamWindow ∧
    (r.after codec).jamDetected = r.before.jamDetected := by
  rw [verdict] at h
  simp only [raises, after, Node.rxLoop, h]
  split
  next heq => cases heq
  all_goals exact ⟨Bool.false_ne_true, rfl, rfl⟩

theorem accepted (h : r.verdict = .ok parsed) :
    (r.raises codec ↔ r.before.jamDetected = false ∧
      parsed.deliverLocal r.before.identity.nodeId ∧
      (r.before.jamWindow.record parsed.auth.priority r.env.now).isJammed) ∧
    (r.after codec).jamWindow =
      r.before.jamWindow.record parsed.auth.priority r.env.now := by
  rw [verdict] at h
  simp only [raises, after, Node.rxLoop, h]
  exact Node.handleParsed_jam ..

/-- The frame is accepted and for this node, and its header names the queue it came through. -/
def Faithful : Prop :=
  ∃ parsed, r.verdict = .ok parsed ∧ parsed.deliverLocal r.before.identity.nodeId ∧
    parsed.auth.priority = r.prio

theorem recorded_of_faithful {rounds : List (Round crypto)} (h : ∀ r ∈ rounds, r.Faithful) :
    rounds.filterMap recorded = rounds.map arrival := by
  rw [← List.filterMap_eq_map]
  apply List.filterMap_congr
  intro r hr
  obtain ⟨parsed, hparsed, -, hprio⟩ := h r hr
  rw [recorded, hparsed, Function.comp_apply, arrival, ← hprio]
  rfl

/-- The frame is accepted and for this node when no jam is latched, and the frames that were
accepted so far show a flood. -/
def Shows (pre : List (Round crypto)) : Prop :=
  r.before.jamDetected = false ∧ ∃ parsed, r.verdict = .ok parsed ∧
    parsed.deliverLocal r.before.identity.nodeId ∧
    Floods ((pre ++ [r]).filterMap recorded) r.env.now

end Round

/-- The rounds of `rx_loop`, and its two variables after them. Between two rounds other tasks may
change all the rest of the node. -/
inductive RxRun {crypto : Crypto} (codec : Codec) :
    List (Round crypto) → JamWindow → Bool → Prop where
  | start : RxRun codec [] .new false
  | round (h : RxRun codec rounds window latched) (hwindow : r.before.jamWindow = window)
      (hlatched : r.before.jamDetected = latched)
      (htime : ∀ r' ∈ rounds, r'.env.now ≤ r.env.now) :
      RxRun codec (rounds ++ [r]) (r.after codec).jamWindow (r.after codec).jamDetected

namespace RxRun
variable {crypto : Crypto} {codec : Codec} {rounds pre post : List (Round crypto)}
variable {r : Round crypto} {window : JamWindow} {latched : Bool}

theorem recorded_now {e : ℕ × Priority} (h : e ∈ rounds.filterMap Round.recorded) :
    ∃ r ∈ rounds, e.1 = r.env.now := by
  obtain ⟨r, hr, he⟩ := List.mem_filterMap.1 h
  obtain ⟨parsed, -, rfl⟩ := Option.map_eq_some_iff.1 he
  exact ⟨r, hr, rfl⟩

/-- The window holds the recent frames of those that were accepted. -/
theorem shows (h : RxRun codec rounds window latched) :
    InOrder (rounds.filterMap Round.recorded) ∧
      ∃ since, window.Shows (rounds.filterMap Round.recorded) since ∧
        ∀ now, (∀ r ∈ rounds, r.env.now ≤ now) → since ≤ now := by
  induction h with
  | start => exact ⟨.nil, 0, rfl, fun now _ => Nat.zero_le now⟩
  | @round rounds window latched r _ hwindow _ htime ih =>
    obtain ⟨horder, since, hshows, hsince⟩ := ih
    rw [List.filterMap_append]
    cases hv : r.verdict with
    | error e =>
      have hnone : [r].filterMap Round.recorded = [] := by
        simp only [List.filterMap_cons, Round.recorded, hv]
        rfl
      rw [hnone, List.append_nil, (r.rejected codec hv).2.1, hwindow]
      refine ⟨horder, since, hshows, fun now hnow => hsince now fun r' hr' => ?_⟩
      exact hnow r' (List.mem_append_left _ hr')
    | ok parsed =>
      have hsome : [r].filterMap Round.recorded = [(r.env.now, parsed.auth.priority)] := by
        simp only [List.filterMap_cons, Round.recorded, hv]
        rfl
      have horder' : InOrder (rounds.filterMap Round.recorded ++
          [(r.env.now, parsed.auth.priority)]) := by
        apply horder.concat
        intro e he
        obtain ⟨r', hr', hnow⟩ := recorded_now he
        rw [hnow]
        exact htime r' hr'
      rw [hsome, (r.accepted codec hv).2, hwindow]
      refine ⟨horder', r.env.now, hshows.record (hsince _ htime) horder', fun now hnow => ?_⟩
      exact hnow r (List.mem_append_right _ (.head _))

theorem jammed_iff (h : RxRun codec rounds window latched) (hwindow : r.before.jamWindow = window)
    (hlatched : r.before.jamDetected = latched)
    (htime : ∀ r' ∈ rounds, r'.env.now ≤ r.env.now) (hv : r.verdict = .ok parsed) :
    (r.before.jamWindow.record parsed.auth.priority r.env.now).isJammed ↔
      Floods ((rounds ++ [r]).filterMap Round.recorded) r.env.now := by
  obtain ⟨horder, since, hshows, hsince⟩ := h.shows
  have hrun := (RxRun.round h hwindow hlatched htime).shows
  have hsome : (rounds ++ [r]).filterMap Round.recorded =
      rounds.filterMap Round.recorded ++ [(r.env.now, parsed.auth.priority)] := by
    rw [List.filterMap_append]
    simp only [List.filterMap_cons, Round.recorded, hv]
    rfl
  rw [hsome] at hrun ⊢
  rw [hwindow]
  exact (hshows.record (hsince _ htime) hrun.1).isJammed

theorem raises_iff (h : RxRun codec rounds window latched) (hwindow : r.before.jamWindow = window)
    (hlatched : r.before.jamDetected = latched)
    (htime : ∀ r' ∈ rounds, r'.env.now ≤ r.env.now) : r.raises codec ↔ r.Shows rounds := by
  cases hv : r.verdict with
  | error e =>
    apply iff_of_false (r.rejected codec hv).1
    rintro ⟨-, parsed, hparsed, -⟩
    cases hv.symm.trans hparsed
  | ok parsed =>
    rw [(r.accepted codec hv).1, h.jammed_iff hwindow hlatched htime hv, Round.Shows]
    apply and_congr_right
    intro _
    constructor
    · exact fun hall => ⟨parsed, hv, hall⟩
    · rintro ⟨parsed', hparsed', hall⟩
      cases hv.symm.trans hparsed'
      exact hall

theorem before (h : RxRun codec rounds window latched) (hsplit : rounds = pre ++ r :: post) :
    ∃ window' latched', RxRun codec pre window' latched' ∧ r.before.jamWindow = window' ∧
      r.before.jamDetected = latched' ∧ ∀ r' ∈ pre, r'.env.now ≤ r.env.now := by
  induction h generalizing post with
  | start => cases pre <;> cases hsplit
  | @round rounds window latched r₀ h hwindow hlatched htime ih =>
    rcases List.eq_nil_or_concat post with rfl | ⟨post', r₁, rfl⟩
    · obtain ⟨rfl, hlast⟩ := List.append_inj' hsplit rfl
      cases hlast
      exact ⟨window, latched, h, hwindow, hlatched, htime⟩
    · rw [List.concat_eq_append, ← List.cons_append, ← List.append_assoc] at hsplit
      exact ih (List.append_inj' hsplit rfl).1

end RxRun

/-- Whenever the Bulk queue is flooded and no jam is latched, something happens in one of the
rounds of the last 500 ms. -/
def InTime {crypto : Crypto} (happens : List (Round crypto) → Round crypto → Prop)
    (rounds : List (Round crypto)) : Prop :=
  ∀ pre r post, rounds = pre ++ r :: post → Floods ((pre ++ [r]).map Round.arrival) r.env.now →
    r.before.jamDetected = false → ∃ pre' r' post', pre ++ [r] = pre' ++ r' :: post' ∧
      r.env.now - r'.env.now ≤ 500 ∧ happens pre' r'

theorem InTime.imp {crypto : Crypto} {happens happens' : List (Round crypto) → Round crypto → Prop}
    {rounds : List (Round crypto)} (h : InTime happens rounds)
    (himp : ∀ pre r post, rounds = pre ++ r :: post → happens pre r → happens' pre r) :
    InTime happens' rounds := by
  intro pre r post hrounds hfloods hlatched
  obtain ⟨pre', r', post', hpre, hrecent, hhappens⟩ := h pre r post hrounds hfloods hlatched
  refine ⟨pre', r', post', hpre, hrecent, himp pre' r' (post' ++ post) ?_ hhappens⟩
  rw [hrounds, ← List.singleton_append, ← List.append_assoc, hpre, List.append_assoc,
    List.cons_append]

/-- Every flood of the Bulk queue raises an alert in time if all frames are accepted, are for this
node and name the queue they came through, and exactly if each time the frames that were accepted
show a flood in time. -/
theorem floods_raise_iff {crypto : Crypto} (codec : Codec) (rounds : List (Round crypto))
    (window : JamWindow) (latched : Bool) (h : RxRun codec rounds window latched) :
    ((∀ r ∈ rounds, r.Faithful) → InTime (fun _ r => r.raises codec) rounds) ∧
      (InTime (fun _ r => r.raises codec) rounds ↔
        InTime (fun pre r => r.Shows pre) rounds) := by
  have hraises : ∀ pre r post, rounds = pre ++ r :: post →
      (r.raises codec ↔ r.Shows pre) := by
    intro pre r post hsplit
    obtain ⟨window', latched', hrun, hwindow, hlatched, htime⟩ := h.before hsplit
    exact hrun.raises_iff hwindow hlatched htime
  constructor
  · intro hfaithful pre r post hrounds hfloods hlatched
    have hmem : ∀ r' ∈ pre ++ [r], r' ∈ rounds := by
      intro r' hr'
      rw [hrounds, ← List.singleton_append, ← List.append_assoc]
      exact List.mem_append_left _ hr'
    have hrecorded : (pre ++ [r]).filterMap Round.recorded = (pre ++ [r]).map Round.arrival :=
      Round.recorded_of_faithful fun r' hr' => hfaithful r' (hmem r' hr')
    obtain ⟨parsed, hparsed, hlocal, -⟩ :=
      hfaithful r (hmem r (List.mem_append_right _ (.head _)))
    have hshows : r.Shows pre := by
      refine ⟨hlatched, parsed, hparsed, hlocal, ?_⟩
      rw [hrecorded]
      exact hfloods
    refine ⟨pre, r, [], rfl, ?_, (hraises pre r post hrounds).2 hshows⟩
    rw [Nat.sub_self]
    exact Nat.zero_le _
  · constructor
    case mp => exact fun hall => hall.imp fun pre r post hsplit => (hraises pre r post hsplit).1
    case mpr => exact fun hall => hall.imp fun pre r post hsplit => (hraises pre r post hsplit).2

theorem floods_steady (hmany : 150 < k) (hshort : now ≤ 500) :
    Floods ((List.range k).map fun t => (t, .bulk)) now := by
  have hrecent : recent 500 now ((List.range k).map fun t => (t, Priority.bulk)) =
      (List.range k).map fun t => (t, .bulk) := by
    apply List.filter_eq_self.2
    intro e _
    simp only [decide_eq_true_eq]
    omega
  rw [Floods, hrecent, List.countP_map, List.countP_map]
  have hall : (List.range k).countP ((fun e : ℕ × Priority => e.2 = .bulk) ∘ fun t => (t, .bulk)) =
      (List.range k).length := List.countP_eq_length.2 fun _ _ => rfl
  rw [hall, List.length_range]
  exact ⟨hmany, List.countP_eq_zero.2 fun _ _ => Bool.false_ne_true⟩

section Blocks
variable {crypto : Crypto} (codec : Codec) (fleet : Fleet crypto) (image : ℕ → ImageShard)

/-- Node 1 as the blocks of an image find it, each handled before the next one comes. -/
def blockNode : ℕ → Node crypto
  | 0 => (Net.start fleet 6 0).nodes 1
  | k + 1 => ((blockNode k).rxLoop codec (.atMs k)
      (fleet.frame (shardFrame codec image k))).1.handledShard

def blockRound (k : ℕ) : Round crypto where
  before := blockNode codec fleet image k
  raw := fleet.frame (shardFrame codec image k)
  prio := .bulk
  env := .atMs k

theorem blockNode_flooded (hk : k ≤ 150) : (blockNode codec fleet image k).Flooded fleet 6 0 k := by
  induction k with
  | zero => exact Node.flooded_zero fleet 6 0
  | succ k ih =>
    have hflooded := ih (by omega)
    rw [blockNode, hflooded.rxLoop (by omega), hflooded.jamCheck (by omega)]
    exact hflooded.taking (by omega)

theorem block_run (k : ℕ) :
    RxRun codec ((List.range k).map (blockRound codec fleet image))
      (blockNode codec fleet image k).jamWindow (blockNode codec fleet image k).jamDetected := by
  induction k with
  | zero => exact .start
  | succ k ih =>
    have htime : ∀ r' ∈ (List.range k).map (blockRound codec fleet image),
        r'.env.now ≤ (blockRound codec fleet image k).env.now := by
      intro r' hr'
      obtain ⟨t, ht, rfl⟩ := List.mem_map.1 hr'
      exact (List.mem_range.1 ht).le
    have hafter : blockNode codec fleet image (k + 1) =
        ((blockRound codec fleet image k).after codec).handledShard := by
      rw [blockNode, Round.after, blockRound]
    have hkeeps : ∀ n : Node crypto, n.handledShard.jamWindow = n.jamWindow ∧
        n.handledShard.jamDetected = n.jamDetected := fun _ => ⟨rfl, rfl⟩
    rw [List.range_succ, List.map_append, hafter, (hkeeps _).1, (hkeeps _).2]
    exact RxRun.round ih rfl rfl htime

theorem block_faithful (hk : k ≤ 150) : (blockRound codec fleet image k).Faithful := by
  have hflooded := blockNode_flooded codec fleet image hk
  have hacc : (blockNode codec fleet image k).nonceCache.accepts
      ((shardFrame codec image k).check k) :=
    Sending.accepts_newest rfl (by omega) hflooded.old
  refine ⟨fleet.parsed (shardFrame codec image k), ?_, ?_, rfl⟩
  · have hverdict : (blockRound codec fleet image k).verdict =
        (crypto.parseAndVerifyFrame (fleet.frame (shardFrame codec image k))
          (blockNode codec fleet image k).pubkeys (blockNode codec fleet image k).nonceCache k
          (blockNode codec fleet image k).identity.sessionKey).2 := rfl
    rw [hverdict, hflooded.holds.pubkeys, hflooded.holds.sessionKey, fleet.parse_of_accepts hacc]
  · rw [ParsedFrame.deliverLocal, Bool.or_eq_true]
    exact .inr (decide_eq_true rfl)

end Blocks

def block (_ : ℕ) : ImageShard := ⟨7, 1, 0, 0, 1, 1, [0xff, 0xd8]⟩

/-- In 150 ms the blocks flood the queue, and an alert is raised in time. -/
theorem blocks_raise :
    Floods (((List.range 151).map (blockRound .bincode Crypto.toyFleet block)).map Round.arrival)
        150 ∧
      (blockRound .bincode Crypto.toyFleet block 150).before.jamDetected = false ∧
      InTime (fun _ r => r.raises .bincode)
        ((List.range 151).map (blockRound .bincode Crypto.toyFleet block)) := by
  have hrun := block_run .bincode Crypto.toyFleet block 151
  refine ⟨?_, (blockNode_flooded .bincode Crypto.toyFleet block (le_refl 150)).quiet,
    (floods_raise_iff .bincode _ _ _ hrun).1 ?_⟩
  · rw [List.map_map]
    exact floods_steady (by decide) (by decide)
  · intro r hr
    obtain ⟨k, hk, rfl⟩ := List.mem_map.1 hr
    exact block_faithful .bincode Crypto.toyFleet block (Nat.le_of_lt_succ (List.mem_range.1 hk))

/-- What the jammer sends is long enough for a frame, and its kind is none. -/
def garbage : Bytes := List.replicate 1400 0xFF

theorem garbage_rejected {crypto : Crypto} (store : PubkeyStore crypto) (cache : NonceCache)
    (now : ℕ) (sessionKey : SessionKey) :
    (crypto.parseAndVerifyFrame garbage store cache now sessionKey).2 =
      .error (.error .truncatedFrame) := by
  have hlen : garbage.length = 1400 := List.length_replicate
  have hlong : ¬ garbage.length < minFrameLen := by
    rw [hlen]
    decide
  have hslice : ∀ i j, i ≤ j → j ≤ 1400 →
      slice garbage i j = (.ok (List.replicate (j - i) 0xFF) : Parse Bytes) := by
    intro i j hij hj
    apply slice_eq_ok.2
    refine ⟨hij, hj.trans_eq hlen.symm, ?_⟩
    rw [garbage, List.drop_replicate, List.take_replicate, Nat.min_eq_left (by omega)]
  have hauth : crypto.authenticate garbage store = .error (.error .truncatedFrame) := by
    rw [Crypto.authenticate, if_neg hlong, hslice 0 4 (by decide) (by decide),
      hslice 4 48 (by decide) (by decide)]
    rfl
  rw [crypto.parseAndVerifyFrame_of_error hauth]

def garbageRound (k : ℕ) : Round .toy where
  before := (Net.start Crypto.toyFleet 6 0).nodes 1
  raw := garbage
  prio := .bulk
  env := .atMs k

theorem garbage_run (k : ℕ) :
    RxRun Codec.bincode ((List.range k).map garbageRound) .new false := by
  induction k with
  | zero => exact .start
  | succ k ih =>
    have hrejected := (garbageRound k).rejected Codec.bincode (garbage_rejected ..)
    have htime : ∀ r' ∈ (List.range k).map garbageRound, r'.env.now ≤ (garbageRound k).env.now := by
      intro r' hr'
      obtain ⟨t, ht, rfl⟩ := List.mem_map.1 hr'
      exact (List.mem_range.1 ht).le
    have hrun := RxRun.round (r := garbageRound k) ih rfl rfl htime
    rw [hrejected.2.1, hrejected.2.2] at hrun
    rw [List.range_succ, List.map_append]
    exact hrun

/-- In 150 ms the jammer floods the queue, and no alert is raised. -/
theorem garbage_unseen : RxRun Codec.bincode ((List.range 151).map garbageRound) .new false ∧
    ¬ InTime (fun _ r => r.raises Codec.bincode) ((List.range 151).map garbageRound) := by
  refine ⟨garbage_run 151, fun hall => ?_⟩
  have hsplit : (List.range 151).map garbageRound =
      (List.range 150).map garbageRound ++ garbageRound 150 :: [] := by
    rw [List.range_succ, List.map_append]
    rfl
  have hfloods : Floods (((List.range 150).map garbageRound ++ [garbageRound 150]).map
      Round.arrival) 150 := by
    rw [← hsplit]
    have hframes : ((List.range 151).map garbageRound).map Round.arrival =
      (List.range 151).map fun t => (t, .bulk) := List.map_map
    rw [hframes]
    exact floods_steady (by decide) (by decide)
  obtain ⟨pre, r, post, hpre, -, hraises⟩ := hall _ (garbageRound 150) [] hsplit hfloods rfl
  have hmem : r ∈ (List.range 151).map garbageRound := by
    rw [hsplit, hpre]
    exact List.mem_append_right _ (.head _)
  obtain ⟨k, -, rfl⟩ := List.mem_map.1 hmem
  exact ((garbageRound k).rejected Codec.bincode (garbage_rejected ..)).1 hraises

end TacticalMesh
