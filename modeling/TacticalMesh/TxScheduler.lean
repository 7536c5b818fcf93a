import TacticalMesh.QueueHistory
import TacticalMesh.Runs

namespace TacticalMesh
set_option autoImplicit true

/-- What the scheduler uses of tokio's `Notify`, on which one task at most waits. -/
structure Notify where
  State : Type
  new : State
  /-- A permit is stored. -/
  stored : State → Bool
  /-- `notify_one`, while a task waits or not; does it wake that task? -/
  notifyOne : State → Bool → State × Bool
  /-- `notified().await`; does it return at once? -/
  notified : State → State × Bool

/-- One permit is stored when no task waits, and the next wait consumes it. -/
structure Notify.Documented (n : Notify) : Prop where
  stores : ∀ s, n.stored (n.notifyOne s false).1
  wakes : ∀ s, (n.notifyOne s true).2
  consumes : ∀ s, n.stored s → (n.notified s).2 ∧ ¬ n.stored (n.notified s).1
  waits : ∀ s, ¬ n.stored s → ¬ (n.notified s).2

/-- Where `run` stands: before it locks the queues, with a frame for the link, between the empty
queues and the wait, or in the wait. -/
inductive RunPoint where
  | popping
  | sending (item : Bytes × Priority)
  | awaiting
  | suspended
  deriving DecidableEq

/-- Where a call of `enqueue` stands: before its push, or between that and `notify_one`. -/
inductive EnqueuePoint where
  | pushing (frame : Bytes) (prio : Priority)
  | notifying
  deriving DecidableEq

/-- The queues and the `Notify` that the tasks share, and where each of the tasks stands. -/
structure TxScheduler (n : Notify) where
  history : QueueHistory
  notify : n.State
  run : RunPoint
  callers : List EnqueuePoint
  /-- What has been given to the link; whether it could send it makes no difference. -/
  sent : List (Bytes × Priority)

inductive TxEvent where
  | enqueue (frame : Bytes) (prio : Priority)
  | caller (i : ℕ)
  | run

namespace TxScheduler
variable {n : Notify} {s s' : TxScheduler n}

def new (n : Notify) : TxScheduler n where
  history := .new
  notify := n.new
  run := .popping
  callers := []
  sent := []

/-- A push under the lock, then `notify_one`. -/
def stepCaller (s : TxScheduler n) (i : ℕ) : Option (TxScheduler n) :=
  match s.callers[i]? with
  | none => none
  | some (.pushing frame prio) =>
    some
      { s with
        history := s.history.push frame prio
        callers := s.callers.set i .notifying }
  | some .notifying =>
    let (notify, woken) := n.notifyOne s.notify (s.run = .suspended)
    some
      { s with
        notify
        run := if s.run = .suspended ∧ woken then .popping else s.run
        callers := s.callers.eraseIdx i }

def stepRun (s : TxScheduler n) : Option (TxScheduler n) :=
  match s.run with
  | .popping =>
    match s.history.queues.popNext with
    | some (item, _) => some { s with history := s.history.popNext, run := .sending item }
    | none => some { s with run := .awaiting }
  | .sending item => some { s with run := .popping, sent := s.sent ++ [item] }
  | .awaiting =>
    let (notify, ready) := n.notified s.notify
    some { s with notify, run := if ready then .popping else .suspended }
  | .suspended => none

def step (s : TxScheduler n) : TxEvent → Option (TxScheduler n)
  | .enqueue frame prio => some { s with callers := s.callers ++ [.pushing frame prio] }
  | .caller i => s.stepCaller i
  | .run => s.stepRun

def Queued (s : TxScheduler n) : Prop := ∃ p, s.history.queues.inner p ≠ []

/-- Where frames are queued and `run` goes to its wait, a permit is stored or comes; where it
waits, one comes. -/
def Awake (s : TxScheduler n) : Prop :=
  s.Queued →
    (s.run = .awaiting → n.stored s.notify ∨ .notifying ∈ s.callers) ∧
    (s.run = .suspended → .notifying ∈ s.callers)

theorem awake_new : (new n).Awake := by
  rintro ⟨p, hp⟩
  exact absurd rfl hp

theorem awake_of_run (ha : s.run ≠ .awaiting) (hs : s.run ≠ .suspended) : s.Awake := fun _ =>
  ⟨fun h => absurd h ha, fun h => absurd h hs⟩

theorem awake_of_caller (h : .notifying ∈ s.callers) : s.Awake := fun _ =>
  ⟨fun _ => .inr h, fun _ => h⟩

theorem Awake.enqueue (hs : s.Awake) (frame : Bytes) (prio : Priority) :
    Awake { s with callers := s.callers ++ [.pushing frame prio] } := by
  intro hq
  obtain ⟨ha, hsusp⟩ := hs hq
  constructor
  · intro hrun
    exact (ha hrun).imp id (List.mem_append_left _)
  · intro hrun
    exact List.mem_append_left _ (hsusp hrun)

theorem Awake.caller (hn : n.Documented) (hstep : s.stepCaller i = some s') :
    s'.Awake := by
  rw [stepCaller] at hstep
  split at hstep
  next => cases hstep
  next hi =>
    cases hstep
    obtain ⟨hlt, -⟩ := List.getElem?_eq_some_iff.1 hi
    apply awake_of_caller
    exact List.mem_set hlt _
  next =>
    cases hstep
    by_cases hrun : s.run = .suspended
    · apply awake_of_run <;> simp [hrun, hn.wakes]
    · intro _
      simp only [hrun, decide_false, false_and, if_false]
      exact ⟨fun _ => .inl (hn.stores _), False.elim⟩

theorem Awake.run (hn : n.Documented) (hs : s.Awake) (hstep : s.stepRun = some s') :
    s'.Awake := by
  rw [stepRun] at hstep
  split at hstep
  next =>
    split at hstep
    next =>
      cases hstep
      apply awake_of_run <;> simp
    next hnone =>
      cases hstep
      rintro ⟨p, hp⟩
      exact absurd (Queues.popNext_eq_none.1 hnone p) hp
  next =>
    cases hstep
    apply awake_of_run <;> simp
  next hrun =>
    cases hstep
    by_cases hstored : n.stored s.notify
    · apply awake_of_run <;> simp [(hn.consumes _ hstored).1]
    · intro hq
      have hcaller := ((hs hq).1 hrun).resolve_left hstored
      exact awake_of_caller hcaller hq
  next => cases hstep

theorem Awake.step (hn : n.Documented) (hs : s.Awake) (hstep : s.step e = some s') :
    s'.Awake := by
  cases e with
  | enqueue frame prio =>
    cases hstep
    exact hs.enqueue frame prio
  | caller i => exact Awake.caller hn hstep
  | run => exact hs.run hn hstep

/-- No run of the scheduler, with any number of calls at once, ends in a wait beside a frame that
nobody is about to announce. -/
theorem no_lost_wakeup (hn : n.Documented) (h : LeadsTo step (new n) s) :
    ¬ (s.run = .suspended ∧ ¬ n.stored s.notify ∧ .notifying ∉ s.callers ∧ s.Queued) := by
  rintro ⟨hrun, -, hcaller, hq⟩
  have hs : s.Awake := h.invariant awake_new fun _ _ _ ht hstep => ht.step hn hstep
  exact hcaller ((hs hq).2 hrun)

def onePermit : Notify where
  State := Bool
  new := false
  stored permit := permit
  notifyOne permit waiting := (permit || !waiting, waiting)
  notified permit := (false, permit)

theorem onePermit_documented : onePermit.Documented where
  stores s := Bool.or_true s
  wakes _ := rfl
  consumes _ h := ⟨h, Bool.false_ne_true⟩
  waits _ h := h

def pushedInWait : TxScheduler onePermit where
  history := QueueHistory.new.push [1] .bulk
  notify := false
  run := .suspended
  callers := [.notifying]
  sent := []

theorem no_lost_wakeup_pushedInWait :
    ¬ (pushedInWait.run = .suspended ∧ ¬ onePermit.stored pushedInWait.notify ∧
      .notifying ∉ pushedInWait.callers ∧ pushedInWait.Queued) :=
  no_lost_wakeup onePermit_documented ⟨[.run, .run, .enqueue [1] .bulk, .caller 0], rfl⟩

def pending (s : TxScheduler n) : List (Bytes × Priority) :=
  match s.run with
  | .sending item => [item]
  | _ => []

/-- The queues have been used by pushes and pops only, and what has been popped has been sent, or
is about to be. -/
def Drained (s : TxScheduler n) : Prop :=
  s.history.Conserved ∧ s.history.popped = s.sent ++ s.pending

theorem drained_new : (new n).Drained := ⟨QueueHistory.conserved_new, rfl⟩

theorem pending_of_not_sending (h : ∀ item, s.run ≠ .sending item) : s.pending = [] := by
  rw [pending]
  split
  next item hrun => exact absurd hrun (h item)
  next => rfl

theorem suspended_of_rest (h : s.stepRun = none) : s.run = .suspended := by
  rw [stepRun] at h
  split at h
  next => split at h <;> cases h
  next => cases h
  next => cases h
  next hrun => exact hrun

theorem Drained.caller (hs : s.Drained) (hstep : s.stepCaller i = some s') : s'.Drained := by
  obtain ⟨hconserved, hpopped⟩ := hs
  rw [stepCaller] at hstep
  split at hstep
  next => cases hstep
  next =>
    cases hstep
    exact ⟨hconserved.push _ _, hpopped⟩
  next =>
    cases hstep
    refine ⟨hconserved, ?_⟩
    by_cases hrun : s.run = .suspended ∧ (n.notifyOne s.notify (s.run = .suspended)).2
    · have hnone : s.pending = [] := pending_of_not_sending (by simp [hrun.1])
      rw [hnone] at hpopped
      simpa only [pending, if_pos hrun] using hpopped
    · simpa only [pending, if_neg hrun] using hpopped

theorem Drained.run (hs : s.Drained) (hstep : s.stepRun = some s') : s'.Drained := by
  obtain ⟨hconserved, hpopped⟩ := hs
  rw [stepRun] at hstep
  split at hstep
  next hrun =>
    have hnone : s.pending = [] := pending_of_not_sending (by simp [hrun])
    rw [hnone, List.append_nil] at hpopped
    split at hstep
    next item queues hpop =>
      cases hstep
      refine ⟨hconserved.popNext, ?_⟩
      simp only [QueueHistory.popNext, hpop, pending, hpopped]
    next =>
      cases hstep
      exact ⟨hconserved, by rw [pending, List.append_nil, hpopped]⟩
  next item hrun =>
    cases hstep
    refine ⟨hconserved, ?_⟩
    rw [hpopped, pending, hrun, pending, List.append_nil]
  next hrun =>
    cases hstep
    have hnone : s.pending = [] := pending_of_not_sending (by simp [hrun])
    refine ⟨hconserved, ?_⟩
    rw [hpopped, hnone, pending_of_not_sending]
    intro item
    dsimp only
    split <;> simp
  next => cases hstep

theorem Drained.step (hs : s.Drained) (hstep : s.step e = some s') : s'.Drained := by
  cases e with
  | enqueue frame prio =>
    cases hstep
    exact hs
  | caller i => exact hs.caller hstep
  | run => exact hs.run hstep

/-- What the link is given under a priority is the beginning of what was pushed under it, and where
neither `run` nor a call can go on, it is all of it. -/
theorem sent_in_order (hn : n.Documented) (h : LeadsTo step (new n) s) :
    (∀ p, framesOf p s.sent <+: framesOf p s.history.pushed) ∧
      (s.callers = [] → s.stepRun = none →
        ∀ p, framesOf p s.sent = framesOf p s.history.pushed) := by
  have hdrained : s.Drained := h.invariant drained_new fun _ _ _ ht hstep => ht.step hstep
  obtain ⟨hconserved, hpopped⟩ := hdrained
  constructor
  · intro p
    have hall := hconserved.popped_isPrefix p
    rw [hpopped, framesOf_append] at hall
    exact (List.prefix_append ..).trans hall
  · intro hcallers hrest p
    have hrun := suspended_of_rest hrest
    have hawake : s.Awake := h.invariant awake_new fun _ _ _ ht hstep => ht.step hn hstep
    have hempty : s.history.queues.inner p = [] := by
      by_contra hqueued
      have hcaller := (hawake ⟨p, hqueued⟩).2 hrun
      rw [hcallers] at hcaller
      cases hcaller
    have hall := hconserved p
    rw [hempty, List.append_nil, hpopped, pending, hrun, List.append_nil] at hall
    exact hall

def twoPushes : List TxEvent :=
  [.run, .run, .enqueue [1] .bulk, .enqueue [2] .emergency, .caller 0, .caller 1, .caller 0,
    .caller 0] ++ List.replicate 8 .run

theorem twoPushes_sent : ∃ s : TxScheduler onePermit,
    twoPushes.foldlM step (new onePermit) = some s ∧ s.sent = [([2], .emergency), ([1], .bulk)] ∧
      ∀ p, framesOf p s.sent = framesOf p s.history.pushed := by
  have hends : (twoPushes.foldlM step (new onePermit)).map
      (fun s => (s.sent, s.callers, s.stepRun.isNone)) =
        some ([([2], .emergency), ([1], .bulk)], [], true) := rfl
  obtain ⟨s, hrun, hend⟩ := Option.map_eq_some_iff.1 hends
  obtain ⟨hsent, hrest⟩ := Prod.mk.inj hend
  obtain ⟨hcallers, hstuck⟩ := Prod.mk.inj hrest
  exact ⟨s, hrun, hsent, (sent_in_order onePermit_documented ⟨twoPushes, hrun⟩).2 hcallers
    (Option.isNone_iff_eq_none.1 hstuck)⟩

end TxScheduler
end TacticalMesh
