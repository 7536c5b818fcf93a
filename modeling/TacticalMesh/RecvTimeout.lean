import TacticalMesh.ByteStrings

namespace TacticalMesh
set_option autoImplicit true

inductive RecvFrom where
  | datagram (buf : Bytes)
  | wouldBlock
  | failed
  deriving DecidableEq, Repr

structure RxFrame where
  data : Bytes
  rssiDbm : Int8
  streamId : UInt32
  seq : UInt32
  deriving DecidableEq, Repr

inductive RecvResult where
  | frame (frame : RxFrame)
  | none
  | error
  deriving DecidableEq, Repr

def rxPollTimeoutMs : ℕ := 50

/-- What the calls of one `recv_timeout` would meet, one after the other: the outcome, the time of
the call, and the clock as it is read after a call that would block. Time does not go back. -/
structure PortTraffic where
  startedAt : ℕ
  outcome : ℕ → RecvFrom
  calledAt : ℕ → ℕ
  readAt : ℕ → ℕ
  start_le : startedAt ≤ calledAt 0
  called_le : ∀ i, calledAt i ≤ readAt i
  read_le : ∀ i, readAt i ≤ calledAt (i + 1)

namespace PortTraffic
variable (streamId : UInt32) (timeout : ℕ) (t : PortTraffic)

def deadline : ℕ := t.startedAt + timeout

/-- One round of the loop, which goes on if this is `none`. -/
def round (i : ℕ) : Option RecvResult :=
  match t.outcome i with
  | .datagram buf =>
    if 8 ≤ buf.length then
      let sid := UInt32.ofNat (leValue (buf.take 4))
      if sid ≠ streamId then none
      else
        some (.frame
          { data := buf.drop 8
            rssiDbm := -60
            streamId := sid
            seq := .ofNat (leValue ((buf.drop 4).take 4)) })
    else none
  | .wouldBlock => if t.deadline timeout ≤ t.readAt i then some .none else none
  | .failed => some .error

/-- What `recv_timeout` has returned after at most the given number of calls. -/
def recvTimeout : ℕ → Option RecvResult
  | 0 => none
  | calls + 1 =>
    match recvTimeout calls with
    | some result => some result
    | none => t.round streamId timeout calls

def Calls (i : ℕ) : Prop := t.recvTimeout streamId timeout i = none

/-- A call made when the deadline has been reached is the last one, and so the loop returns if the
clock gets there. -/
structure RespectsDeadline : Prop where
  last : ∀ i, t.Calls streamId timeout i → t.deadline timeout ≤ t.calledAt i →
    ¬ t.Calls streamId timeout (i + 1)
  returns : ∀ i, t.deadline timeout ≤ t.calledAt i →
    ∃ calls result, t.recvTimeout streamId timeout calls = some result

/-- The call brings a datagram that is too short or is one of another stream. -/
def Foreign (i : ℕ) : Prop :=
  ∃ buf, t.outcome i = .datagram buf ∧
    (buf.length < 8 ∨ UInt32.ofNat (leValue (buf.take 4)) ≠ streamId)

def Early (i : ℕ) : Prop := t.outcome i = .wouldBlock ∧ t.readAt i < t.deadline timeout

variable {streamId timeout t}

theorem round_eq_none :
    t.round streamId timeout i = none ↔ t.Foreign streamId i ∨ t.Early timeout i := by
  rw [round, Foreign, Early]
  cases t.outcome i with
  | datagram buf =>
    by_cases hlen : 8 ≤ buf.length
    · by_cases hsid : UInt32.ofNat (leValue (buf.take 4)) = streamId
      · simp [hlen, hsid]
      · simp [hlen, hsid]
    · simp [hlen, Nat.not_le.1 hlen]
  | wouldBlock => simp
  | failed => simp

theorem calls_succ :
    t.Calls streamId timeout (i + 1) ↔
      t.Calls streamId timeout i ∧ t.round streamId timeout i = none := by
  rw [Calls, Calls, recvTimeout]
  cases t.recvTimeout streamId timeout i with
  | none => simp
  | some result => simp

theorem calls_iff :
    t.Calls streamId timeout i ↔ ∀ j < i, t.Foreign streamId j ∨ t.Early timeout j := by
  induction i with
  | zero => exact iff_of_true rfl nofun
  | succ i ih => rw [calls_succ, ih, round_eq_none, Nat.forall_lt_succ_right]

theorem not_early (h : t.deadline timeout ≤ t.calledAt i) : ¬ t.Early timeout i := by
  rintro ⟨-, hread⟩
  exact absurd (h.trans (t.called_le i)) (Nat.not_le.2 hread)

theorem returns_of_not_calls (h : ¬ t.Calls streamId timeout i) :
    ∃ result, t.recvTimeout streamId timeout i = some result :=
  Option.ne_none_iff_exists'.1 h

/-- The loop respects its deadline exactly if no call that it makes after the deadline brings a
datagram which it ignores. -/
theorem respectsDeadline_iff (streamId : UInt32) (timeout : ℕ) (t : PortTraffic) :
    t.RespectsDeadline streamId timeout ↔
      ∀ i, (∀ j < i, t.Foreign streamId j ∨ t.Early timeout j) →
        t.deadline timeout ≤ t.calledAt i → ¬ t.Foreign streamId i := by
  constructor
  · intro h i hbefore hlate hforeign
    have hcalls := calls_iff.2 hbefore
    exact h.last i hcalls hlate (calls_succ.2 ⟨hcalls, round_eq_none.2 (.inl hforeign)⟩)
  · intro h
    have hlast : ∀ i, t.Calls streamId timeout i → t.deadline timeout ≤ t.calledAt i →
        ¬ t.Calls streamId timeout (i + 1) := by
      intro i hcalls hlate hnext
      rcases round_eq_none.1 (calls_succ.1 hnext).2 with hforeign | hearly
      · exact h i (calls_iff.1 hcalls) hlate hforeign
      · exact not_early hlate hearly
    refine ⟨hlast, ?_⟩
    intro i hlate
    by_cases hcalls : t.Calls streamId timeout i
    · exact ⟨i + 1, returns_of_not_calls (hlast i hcalls hlate)⟩
    · exact ⟨i, returns_of_not_calls hcalls⟩

/-- Nothing arrives until the deadline of 50 ms, with a call every 2 ms. While the reader sleeps for
the last time `k` datagrams of stream 0 arrive, and the calls that fetch them take no time. -/
def backlog (k : ℕ) : PortTraffic where
  startedAt := 0
  outcome i := if 25 ≤ i ∧ i < 25 + k then .datagram (List.replicate 8 0) else .wouldBlock
  calledAt i := min (2 * i) 50
  readAt i := min (2 * i) 50
  start_le := Nat.zero_le _
  called_le _ := le_rfl
  read_le i := min_le_min_right 50 (Nat.mul_le_mul_left 2 i.le_succ)

theorem backlog_calls (k : ℕ) : (backlog k).Calls 1 rxPollTimeoutMs (25 + k) := by
  refine calls_iff.2 fun i hi => ?_
  by_cases hlate : 25 ≤ i
  · exact .inl ⟨_, if_pos ⟨hlate, hi⟩, .inr (by decide)⟩
  · right
    have hdeadline : (backlog k).deadline rxPollTimeoutMs = 50 := rfl
    have hread : (backlog k).readAt i = min (2 * i) 50 := rfl
    exact ⟨if_neg fun h => hlate h.1, by rw [hdeadline, hread]; omega⟩

theorem backlog_late (i : ℕ) (hi : 25 ≤ i) :
    (backlog k).deadline rxPollTimeoutMs ≤ (backlog k).calledAt i := by
  have hdeadline : (backlog k).deadline rxPollTimeoutMs = 50 := rfl
  have hcalled : (backlog k).calledAt i = min (2 * i) 50 := rfl
  rw [hdeadline, hcalled]
  omega

/-- Two datagrams of another stream that wait when the deadline is reached make a reader of stream
1 call three times after it. -/
theorem backlog_two_late :
    ¬ (backlog 2).RespectsDeadline 1 rxPollTimeoutMs ∧
      (∀ i, 25 ≤ i → i ≤ 27 → (backlog 2).Calls 1 rxPollTimeoutMs i ∧
        (backlog 2).deadline rxPollTimeoutMs ≤ (backlog 2).calledAt i) ∧
      (backlog 2).recvTimeout 1 rxPollTimeoutMs 28 = some .none := by
  have hcalls (i : ℕ) (hi : i ≤ 27) : (backlog 2).Calls 1 rxPollTimeoutMs i :=
    calls_iff.2 fun j hj => calls_iff.1 (backlog_calls 2) j (hj.trans_le hi)
  refine ⟨fun h => ?_, fun i hle hi => ⟨hcalls i hi, backlog_late i hle⟩, by decide +kernel⟩
  exact h.last 25 (hcalls 25 (by decide)) (backlog_late 25 le_rfl) (hcalls 26 (by decide))

end PortTraffic
end TacticalMesh
