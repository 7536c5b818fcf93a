import TacticalMesh.ImageBurst
import TacticalMesh.Payloads

namespace TacticalMesh
set_option autoImplicit true

def AppMsg.hopTarget : AppMsg → Option UInt8
  | jamAlert ja => some (Shared.fallbackChannel ja.channel)
  | channelHop ch => some ch.newChannel
  | _ => none

theorem AppMsg.hopTarget_of_not_changes (h : AppMsg.changesChannel m = false) :
    m.hopTarget = none := by
  cases m with
  | jamAlert ja => cases h
  | channelHop ch => cases h
  | _ => rfl

namespace Shared
variable {crypto : Crypto} {succeeds : Bool}

theorem handleTactical_stays (s : Shared crypto) (h : AppMsg.hopTarget msg = none) :
    (s.handleTactical msg now succeeds).app.channel = s.app.channel ∧
      (s.handleTactical msg now succeeds).link = s.link := by
  cases msg with
  | jamAlert ja => cases h
  | channelHop ch => cases h
  | chat chat =>
    rw [handleTactical, handleChat]
    split <;> exact ⟨rfl, rfl⟩
  | _ => exact ⟨rfl, rfl⟩

theorem handleTactical_hops (s : Shared crypto) (h : AppMsg.hopTarget msg = some c) :
    (s.handleTactical msg now true).app.channel = c ∧
      (s.handleTactical msg now true).link.channel = c := by
  cases msg with
  | jamAlert ja =>
    cases h
    exact ⟨rfl, rfl⟩
  | channelHop ch =>
    cases h
    exact ⟨rfl, rfl⟩
  | _ => cases h

end Shared

def Sending.Carries (codec : Codec) (ok : AppMsg → Prop) (s : Sending) : Prop :=
  s.msg.kind = .data → ∀ m, codec.decodeApp s.msg.payload = some m → ok m

theorem Sending.Carries.policy (hQ : ∀ s, Sending.Carries codec ok s → Q s)
    (hok : ∀ m, AppMsg.hopTarget m = none → ok m) :
    Policy codec radio Q (Sending.Carries codec ok) ok where
  relay t r ht _ _ routeTo draw u hu := by
    obtain ⟨-, hmsg⟩ := next_src hu
    apply hQ
    rw [Sending.Carries, hmsg]
    exact ht
  msg t m ht hk hm := ht hk m hm
  topology s hs := by
    have hnot : Sending.Carries codec ok s := fun hk => by rw [hs] at hk; cases hk
    exact ⟨hQ s hnot, hnot⟩
  hello _ _ _ _ hk := by cases hk
  operator s m hs hm := by
    apply hQ
    intro _ m' hm'
    rw [hs] at hm'
    cases (codec.decode_encodeApp m).symm.trans hm'
    exact hok m (AppMsg.hopTarget_of_not_changes hm)

theorem Node.outbound_keeps {crypto : Crypto} (codec : Codec) (msg : AppMsg) (dst : UInt8)
    (prio : Priority) (draw : Draw) (n : Node crypto) :
    (n.outbound codec msg dst prio draw).app.channel = n.app.channel ∧
      (n.outbound codec msg dst prio draw).link.channel = n.link.channel := by
  rw [Node.outbound]
  split
  next => exact ⟨rfl, rfl⟩
  next => split <;> exact ⟨rfl, rfl⟩

namespace Net
variable {crypto : Crypto} {fleet : Fleet crypto} {codec : Codec} {radio : UInt8 → List UInt8}
variable {Q A : Sending → Prop} {L : AppMsg → Prop} {net net' : Net crypto}

def Stays (net net' : Net crypto) (x : UInt8) : Prop :=
  net'.recordedOf x = net.recordedOf x ∧ net'.channelOf x = net.channelOf x

theorem stays_of {node : Node crypto}
    (hnodes : ∀ x, net'.nodes x = if x = n then node else net.nodes x)
    (happ : node.app.channel = (net.nodes n).app.channel)
    (hlink : node.link.channel = (net.nodes n).link.channel) (x : UInt8) : net.Stays net' x := by
  rw [Stays, recordedOf, recordedOf, channelOf, channelOf, hnodes]
  split
  next hx =>
    rw [hx]
    exact ⟨happ, hlink⟩
  next => exact ⟨rfl, rfl⟩

theorem Holds.step_tuned (h : net.Holds fleet radio Q A L)
    (hstep : net.tunedStep codec radio e = some net') :
    net'.detections = net.detections ∧
      (∀ x, net.Stays net' x ∨ ∃ m c, L m ∧ m.hopTarget = some c ∧ net'.recordedOf x = c ∧
        net'.channelOf x = c) ∨
    ∃ d, net'.detections = net.detections ++ [d] ∧
      net'.channelOf d = Shared.fallbackChannel (net.recordedOf d) ∧
      ∀ x, x ≠ d → net'.channelOf x = net.channelOf x := by
  obtain ⟨hok, hstep⟩ := tunedStep_eq_some.1 hstep
  cases e with
  | helloTick n now order draw =>
    cases hstep
    exact .inl ⟨rfl, fun _ => .inl ⟨rfl, rfl⟩⟩
  | tcTick n now order draw =>
    cases hstep
    refine .inl ⟨rfl, fun x => .inl ?_⟩
    refine stays_of (setNode_nodes net n _) ?_ ?_ x <;> rfl
  | agingTick n now staleOrder order =>
    cases hstep
    refine .inl ⟨rfl, fun x => .inl ?_⟩
    refine stays_of (setNode_nodes net n _) ?_ ?_ x <;> rfl
  | outbound n msg dst prio draw =>
    obtain ⟨-, rfl⟩ := step_outbound hstep
    obtain ⟨happ, hlink⟩ := (net.nodes n).outbound_keeps codec msg dst prio draw
    exact .inl ⟨rfl, fun x => .inl (stays_of (setNode_nodes net n _) happ hlink x)⟩
  | transmit n =>
    obtain ⟨frame, prio, queues, -, rfl⟩ := step_transmit hstep
    refine .inl ⟨rfl, fun x => .inl ?_⟩
    refine stays_of (setNode_nodes net n _) ?_ ?_ x <;> rfl
  | deliver i env =>
    have hsucc : env.succeeds = true := hok
    obtain rfl | ⟨r, t, -, -, -, rfl⟩ := h.step_deliver hstep
    · exact .inl ⟨rfl, fun _ => .inl ⟨rfl, rfl⟩⟩
    · cases hdet : ((net.nodes r).rxLoop codec env (fleet.frame t)).2 with
      | false =>
        obtain ⟨happ, hlink⟩ := (h.nodes r).rxLoop_app hdet
        refine .inl ⟨?_, fun x => .inl (stays_of (taken_nodes codec net) (congrArg _ happ)
          (congrArg _ hlink) x)⟩
        simp only [Net.taken, hdet, Bool.false_eq_true, if_false, List.append_nil]
      | true =>
        refine .inr ⟨r, ?_, ?_, ?_⟩
        · simp only [Net.taken, hdet, if_true]
        · rw [channelOf, taken_nodes, if_pos rfl, (h.nodes r).rxLoop_hop hdet, hsucc]
          rfl
        · intro x hx
          rw [channelOf, taken_nodes, if_neg hx]
          rfl
  | runTask n i now succeeds =>
    have hsucc : succeeds = true := hok
    obtain ⟨msg, hmsg, rfl⟩ := step_runTask hstep
    refine .inl ⟨rfl, fun x => ?_⟩
    cases hhop : msg.hopTarget with
    | none =>
      obtain ⟨happ, hlink⟩ := (net.nodes n).toShared.handleTactical_stays hhop
      exact .inl (stays_of (setNode_nodes net n _) happ (congrArg _ hlink) x)
    | some c =>
      obtain ⟨happ, hlink⟩ := (net.nodes n).toShared.handleTactical_hops hhop
      rw [hsucc, Stays, recordedOf, recordedOf, channelOf, channelOf, setNode_nodes]
      split
      next => exact .inr ⟨msg, c, (h.nodes n).spawned msg hmsg, hhop, happ, hlink⟩
      next => exact .inl ⟨rfl, rfl⟩

def Harmless (m : AppMsg) : Prop := m.hopTarget = none

def AimsAt (c : UInt8) (m : AppMsg) : Prop := ∀ c', m.hopTarget = some c' → c' = c

theorem Harmless.aimsAt (h : Harmless m) : AimsAt c m := by
  intro c' hc'
  rw [h] at hc'
  cases hc'

theorem not_detected (h : net'.detections = net.detections) :
    net'.detections ≠ net.detections ++ [d] := by
  rw [h]
  simp

theorem Holds.stays (h : net.Holds fleet radio Q A Harmless)
    (hstep : net.tunedStep codec radio e = some net') (hdet : net'.detections = net.detections)
    (x : UInt8) : net.Stays net' x := by
  obtain ⟨-, hx⟩ | ⟨d, hd, -⟩ := h.step_tuned hstep
  · obtain hx | ⟨m, c, hm, hc, -⟩ := hx x
    · exact hx
    · rw [hm] at hc
      cases hc
  · exact absurd hd (not_detected hdet)

/-- Nobody has detected a jam yet. -/
structure Calm (fleet : Fleet crypto) (codec : Codec) (radio : UInt8 → List UInt8)
    (channel recorded : UInt8) (net : Net crypto) : Prop where
  detections : net.detections = []
  holds : net.Holds fleet radio (Sending.Carries codec Harmless) (Sending.Carries codec Harmless)
    Harmless
  tuned : ∀ x, net.channelOf x = channel
  agreed : ∀ x, net.recordedOf x = recorded

/-- Node `d` has detected a jam, and its alert keeps everyone on the channel. -/
structure Together (fleet : Fleet crypto) (codec : Codec) (radio : UInt8 → List UInt8)
    (channel d : UInt8) (net : Net crypto) : Prop where
  detections : net.detections = [d]
  holds : net.Holds fleet radio (Sending.Carries codec (AimsAt channel))
    (Sending.Carries codec (AimsAt channel)) (AimsAt channel)
  tuned : ∀ x, net.channelOf x = channel

/-- Node `d` has detected a jam and hopped away; its alert cannot be heard by anyone. -/
structure Parted (fleet : Fleet crypto) (codec : Codec) (radio : UInt8 → List UInt8)
    (channel fallback d : UInt8) (net : Net crypto) : Prop where
  detections : net.detections = [d]
  holds : net.Holds fleet radio (fun s => s.src = d ∨ Sending.Carries codec Harmless s)
    (Sending.Carries codec Harmless) Harmless
  hopped : net.channelOf d = fallback
  left : ∀ x, x ≠ d → net.channelOf x = channel

theorem Calm.step_quiet (h : net.Calm fleet codec radio channel recorded)
    (hstep : net.tunedStep codec radio e = some net') (hdet : net'.detections = net.detections) :
    net'.Calm fleet codec radio channel recorded := by
  have hstays := h.holds.stays hstep hdet
  obtain ⟨-, hstep⟩ := tunedStep_eq_some.1 hstep
  constructor
  case detections => exact hdet.trans h.detections
  case holds =>
    exact h.holds.step (Sending.Carries.policy (fun _ hs => hs) fun _ hm => hm) hstep
      (fun _ _ _ hs _ _ _ => hs) fun d _ hd => absurd hd (not_detected hdet)
  case tuned => exact fun x => (hstays x).2.trans (h.tuned x)
  case agreed => exact fun x => (hstays x).1.trans (h.agreed x)

theorem Together.step_quiet (h : net.Together fleet codec radio channel d)
    (hstep : net.tunedStep codec radio e = some net') (hdet : net'.detections = net.detections) :
    net'.Together fleet codec radio channel d := by
  constructor
  case detections => exact hdet.trans h.detections
  case holds =>
    obtain ⟨-, hstep⟩ := tunedStep_eq_some.1 hstep
    exact h.holds.step (Sending.Carries.policy (fun _ hs => hs) fun _ => Harmless.aimsAt) hstep
      (fun _ _ _ hs _ _ _ => hs) fun d _ hd => absurd hd (not_detected hdet)
  case tuned =>
    intro x
    obtain ⟨-, hx⟩ | ⟨d, hd, -⟩ := h.holds.step_tuned hstep
    · obtain hx | ⟨m, c, hm, hc, -, hx⟩ := hx x
      · exact hx.2.trans (h.tuned x)
      · exact hx.trans (hm c hc)
    · exact absurd hd (not_detected hdet)

theorem Parted.step_quiet (h : net.Parted fleet codec radio channel fallback d)
    (hne : fallback ≠ channel) (hstep : net.tunedStep codec radio e = some net')
    (hdet : net'.detections = net.detections) :
    net'.Parted fleet codec radio channel fallback d := by
  have hstays := h.holds.stays hstep hdet
  obtain ⟨-, hstep⟩ := tunedStep_eq_some.1 hstep
  constructor
  case detections => exact hdet.trans h.detections
  case holds =>
    refine h.holds.step (Sending.Carries.policy (fun _ hs => .inr hs) fun _ hm => hm) hstep ?_ ?_
    · rintro s r - (rfl | hs) - hr hc
      · exact absurd (h.hopped.symm.trans (hc.symm.trans (h.left r hr))) hne
      · exact hs
    · exact fun d _ hd => absurd hd (not_detected hdet)
  case hopped => exact (hstays d).2.trans h.hopped
  case left => exact fun x hx => (hstays x).2.trans (h.left x hx)

theorem Calm.alert (h : net.Calm fleet codec radio channel recorded) (x : UInt8) (env : RxEnv) :
    Sending.Carries codec (AimsAt (Shared.fallbackChannel recorded))
      ((net.nodes x).alert codec env x) := by
  intro _ m hm c hc
  cases (codec.decode_encodeApp _).symm.trans hm
  cases hc
  exact congrArg _ (h.agreed x)

theorem Calm.step_detection (h : net.Calm fleet codec radio channel recorded)
    (hstep : net.tunedStep codec radio e = some net')
    (hdet : net'.detections = net.detections ++ [d]) :
    net'.detections = [d] ∧ net'.channelOf d = Shared.fallbackChannel recorded ∧
      ∀ x, x ≠ d → net'.channelOf x = channel := by
  obtain ⟨hd, -⟩ | ⟨d', hd, hhop, hothers⟩ := h.holds.step_tuned hstep
  · exact absurd hdet (not_detected hd)
  · rw [hdet, List.append_cancel_left_eq, List.singleton_inj] at hd
    subst hd
    refine ⟨?_, ?_, fun x hx => (hothers x hx).trans (h.tuned x)⟩
    · rw [hdet, h.detections, List.nil_append]
    · rw [hhop, h.agreed]

theorem Calm.step_together (h : net.Calm fleet codec radio channel recorded)
    (hback : Shared.fallbackChannel recorded = channel)
    (hstep : net.tunedStep codec radio e = some net')
    (hdet : net'.detections = net.detections ++ [d]) :
    net'.Together fleet codec radio channel d := by
  obtain ⟨hone, hhop, hothers⟩ := h.step_detection hstep hdet
  obtain ⟨-, hstep⟩ := tunedStep_eq_some.1 hstep
  constructor
  case detections => exact hone
  case holds =>
    have hweak : ∀ s, Sending.Carries codec Harmless s →
        Sending.Carries codec (AimsAt channel) s := fun s hs hk m hm => (hs hk m hm).aimsAt
    refine (h.holds.mono hweak hweak fun _ => Harmless.aimsAt).step
      (Sending.Carries.policy (fun _ hs => hs) fun _ => Harmless.aimsAt) hstep
      (fun _ _ _ hs _ _ _ => hs) fun x env _ => ?_
    exact hback ▸ h.alert x env
  case tuned =>
    intro x
    by_cases hx : x = d
    · rw [hx, hhop, hback]
    · exact hothers x hx

theorem Calm.step_parted (h : net.Calm fleet codec radio channel recorded)
    (hstep : net.tunedStep codec radio e = some net')
    (hdet : net'.detections = net.detections ++ [d]) :
    net'.Parted fleet codec radio channel (Shared.fallbackChannel recorded) d := by
  obtain ⟨hone, hhop, hothers⟩ := h.step_detection hstep hdet
  obtain ⟨-, hstep⟩ := tunedStep_eq_some.1 hstep
  constructor
  case detections => exact hone
  case holds =>
    refine (h.holds.mono (fun _ hs => .inr hs) (fun _ hs => hs) fun _ hm => hm).step
      (Sending.Carries.policy (fun _ hs => .inr hs) fun _ hm => hm) hstep ?_ ?_
    · rintro s r rfl - - - -
      obtain ⟨frame, prio, queues, -, rfl⟩ := step_transmit hstep
      exact absurd hdet (not_detected rfl)
    · intro x env hx
      rw [hdet, List.append_cancel_left_eq, List.singleton_inj] at hx
      exact .inl hx.symm
  case hopped => exact hhop
  case left => exact hothers

inductive Phase (fleet : Fleet crypto) (codec : Codec) (radio : UInt8 → List UInt8)
    (channel recorded : UInt8) (net : Net crypto) : Prop
  | calm : net.Calm fleet codec radio channel recorded →
      Phase fleet codec radio channel recorded net
  | together (d : UInt8) : Shared.fallbackChannel recorded = channel →
      net.Together fleet codec radio channel d → Phase fleet codec radio channel recorded net
  | parted (d : UInt8) : Shared.fallbackChannel recorded ≠ channel →
      net.Parted fleet codec radio channel (Shared.fallbackChannel recorded) d →
      Phase fleet codec radio channel recorded net
  | again : 1 < net.detections.length → Phase fleet codec radio channel recorded net

theorem start_phase : Phase fleet codec radio channel recorded (start fleet channel recorded) :=
  .calm ⟨rfl, start_holds fleet channel recorded, fun _ => rfl, fun _ => rfl⟩

theorem step_detections (h : net.step codec radio e = some net') :
    net'.detections = net.detections ∨ ∃ d, net'.detections = net.detections ++ [d] := by
  cases e with
  | outbound n msg dst prio draw =>
    obtain ⟨-, rfl⟩ := step_outbound h
    exact .inl rfl
  | transmit n =>
    obtain ⟨frame, prio, queues, -, rfl⟩ := step_transmit h
    exact .inl rfl
  | deliver i env =>
    simp only [step] at h
    split at h
    next r raw _ =>
      cases h
      rw [deliver]
      split
      next => exact .inl rfl
      next =>
        simp only
        split
        next => exact .inr ⟨r, rfl⟩
        next => exact .inl (List.append_nil _)
    next => cases h
  | runTask n i now succeeds =>
    obtain ⟨msg, -, rfl⟩ := step_runTask h
    exact .inl rfl
  | _ =>
    cases h
    exact .inl rfl

theorem Phase.step (h : Phase fleet codec radio channel recorded net)
    (hstep : net.tunedStep codec radio e = some net') :
    Phase fleet codec radio channel recorded net' := by
  have hdet := step_detections (tunedStep_eq_some.1 hstep).2
  cases h with
  | calm h =>
    obtain hdet | ⟨d, hdet⟩ := hdet
    · exact .calm (h.step_quiet hstep hdet)
    · by_cases hback : Shared.fallbackChannel recorded = channel
      · exact .together d hback (h.step_together hback hstep hdet)
      · exact .parted d hback (h.step_parted hstep hdet)
  | together d hback h =>
    obtain hdet | ⟨d', hdet⟩ := hdet
    · exact .together d hback (h.step_quiet hstep hdet)
    · refine .again ?_
      simp [hdet, h.detections]
  | parted d hback h =>
    obtain hdet | ⟨d', hdet⟩ := hdet
    · exact .parted d hback (h.step_quiet hback hstep hdet)
    · refine .again ?_
      simp [hdet, h.detections]
  | again h =>
    refine .again ?_
    obtain hdet | ⟨d', hdet⟩ := hdet
    · rwa [hdet]
    · rw [hdet, List.length_append]
      omega

/-- After a run in which one node has detected a jam the nodes are on one channel exactly when
they have all started on the fallback channel, or the node is alone. -/
theorem together_iff (codec : Codec) (radio : UInt8 → List UInt8) (fleet : Fleet crypto)
    (channel recorded : UInt8) (members : List UInt8)
    (hrun : LeadsTo (tunedStep codec radio) (start fleet channel recorded) net)
    (hone : net.detections = [d]) :
    (∀ m ∈ members, net.channelOf m = net.channelOf d) ↔
      Shared.fallbackChannel recorded = channel ∨ ∀ m ∈ members, m = d := by
  have hphase : Phase fleet codec radio channel recorded net :=
    hrun.invariant start_phase fun _ _ _ h hstep => h.step hstep
  cases hphase with
  | calm h =>
    rw [h.detections] at hone
    cases hone
  | together d' hback h =>
    refine iff_of_true (fun m _ => ?_) (.inl hback)
    rw [h.tuned, h.tuned]
  | parted d' hback h =>
    rw [h.detections, List.singleton_inj] at hone
    subst hone
    constructor
    · intro hsame
      refine .inr fun m hm => ?_
      by_contra hne
      exact hback (h.hopped.symm.trans ((hsame m hm).symm.trans (h.left m hne)))
    · rintro (hback' | hall) m hm
      · exact absurd hback' hback
      · rw [hall m hm]
  | again h =>
    rw [hone] at h
    simp at h

def image (k : ℕ) : ImageShard := ⟨7, 151, .ofNat k, 0, 1, 1, [0xff, 0xd8]⟩

theorem image_together_iff :
    ∃ net, LeadsTo (tunedStep Codec.bincode pair) (start Crypto.toyFleet 6 0) net ∧
      net.detections = [1] ∧
      ((∀ m ∈ [1, 2], net.channelOf m = net.channelOf 1) ↔
        Shared.fallbackChannel 0 = 6 ∨ ∀ m ∈ [(1 : UInt8), 2], m = 1) := by
  obtain ⟨net, hrun, hone, -⟩ :=
    image_alarm Codec.bincode Crypto.toyFleet image 6 0 (by decide)
  exact ⟨net, hrun, hone, together_iff Codec.bincode pair Crypto.toyFleet 6 0 [1, 2] hrun hone⟩

theorem image_splits :
    ∃ net, LeadsTo (tunedStep Codec.bincode pair) (start Crypto.toyFleet 6 0) net ∧
      net.detections = [1] ∧ net.Settled ∧ net.channelOf 1 = 36 ∧ net.channelOf 2 = 6 :=
  image_alarm Codec.bincode Crypto.toyFleet image 6 0 (by decide)

end Net
end TacticalMesh
