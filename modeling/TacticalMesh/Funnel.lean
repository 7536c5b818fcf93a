import TacticalMesh.Runs
import Mathlib.Algebra.Order.BigOperators.Group.Finset
import Mathlib.Data.Fintype.Basic
import Mathlib.Logic.Function.Basic

namespace TacticalMesh
set_option autoImplicit true

/-- Bounded lanes that run into one bounded queue. Each lane has a worker, which takes the first
item off the lane and holds it until the queue has room. All that was accepted and all that was
served stays on record. -/
structure Funnel (ι α : Type) where
  lanes : ι → List α
  inHand : ι → Option α
  queue : List (ι × α)
  accepted : ι → List α
  served : List (ι × α)

structure Depths where
  lane : ℕ
  queue : ℕ

inductive FunnelMove (ι : Type) where
  | take (i : ι)
  | forward (i : ι)
  | serve
  deriving DecidableEq

def ofLane [DecidableEq ι] (i : ι) (items : List (ι × α)) : List α :=
  (items.filter fun item => item.1 = i).map Prod.snd

theorem sum_add_eq [DecidableEq ι] [Fintype ι] {f g : ι → ℕ}
    (hothers : ∀ i, i ≠ j → g i = f i) (hplace : g j + k = f j) : ∑ i, g i + k = ∑ i, f i := by
  have hrest : ∑ i ∈ Finset.univ.erase j, g i = ∑ i ∈ Finset.univ.erase j, f i :=
    Finset.sum_congr rfl fun i hi => hothers i (Finset.ne_of_mem_erase hi)
  rw [← Finset.add_sum_erase _ g (Finset.mem_univ j),
    ← Finset.add_sum_erase _ f (Finset.mem_univ j), ← hplace, hrest]
  omega

section OfLane
variable [DecidableEq ι] {i j : ι}

theorem ofLane_append : ofLane i (l ++ l') = ofLane i l ++ ofLane i l' := by
  rw [ofLane, List.filter_append, List.map_append]
  rfl

theorem ofLane_self {a : α} : ofLane i [(i, a)] = [a] := by simp [ofLane]

theorem ofLane_ne {a : α} (h : j ≠ i) : ofLane i [(j, a)] = [] := by simp [ofLane, h]

theorem mem_ofLane {l : List (ι × α)} : a ∈ ofLane i l ↔ (i, a) ∈ l := by
  simp [ofLane]

end OfLane

namespace Funnel

def new : Funnel ι α := ⟨fun _ => [], fun _ => none, [], fun _ => [], []⟩

structure Within (d : Depths) (f : Funnel ι α) : Prop where
  lane_le : ∀ i, (f.lanes i).length ≤ d.lane
  queue_le : f.queue.length ≤ d.queue

theorem within_new : (new : Funnel ι α).Within d :=
  ⟨fun _ => Nat.zero_le _, Nat.zero_le _⟩

variable [DecidableEq ι] (d : Depths) {f g : Funnel ι α} {i j : ι}

def accept (f : Funnel ι α) (i : ι) (a : α) : Funnel ι α :=
  { f with
    lanes := Function.update f.lanes i (f.lanes i ++ [a])
    accepted := Function.update f.accepted i (f.accepted i ++ [a]) }

/-- An item for which the lane has no room is dropped. -/
def offer (f : Funnel ι α) (i : ι) (a : α) : Funnel ι α :=
  if (f.lanes i).length < d.lane then f.accept i a else f

def taken (f : Funnel ι α) (i : ι) (a : α) (rest : List α) : Funnel ι α :=
  { f with
    lanes := Function.update f.lanes i rest
    inHand := Function.update f.inHand i (some a) }

def forwarded (f : Funnel ι α) (i : ι) (a : α) : Funnel ι α :=
  { f with
    inHand := Function.update f.inHand i none
    queue := f.queue ++ [(i, a)] }

def step (f : Funnel ι α) : FunnelMove ι → Option (Funnel ι α)
  | .take i =>
    match f.inHand i, f.lanes i with
    | none, a :: rest => some (f.taken i a rest)
    | _, _ => none
  | .forward i =>
    match f.inHand i with
    | some a => if f.queue.length < d.queue then some (f.forwarded i a) else none
    | none => none
  | .serve =>
    match f.queue with
    | [] => none
    | item :: rest => some { f with queue := rest, served := f.served ++ [item] }

variable {d}

theorem step_take :
    f.step d (.take i) = some g ↔
      f.inHand i = none ∧ ∃ a rest, f.lanes i = a :: rest ∧ g = f.taken i a rest := by
  rw [step]
  split
  next a rest hhand hlane => simp [hhand, hlane, eq_comm]
  next hno =>
    refine iff_of_false nofun ?_
    rintro ⟨hhand, a, rest, hlane, -⟩
    exact hno a rest hhand hlane

theorem step_forward :
    f.step d (.forward i) = some g ↔
      ∃ a, f.inHand i = some a ∧ f.queue.length < d.queue ∧ g = f.forwarded i a := by
  rw [step]
  split
  next a hhand =>
    split
    next hroom => simp [hhand, hroom, eq_comm]
    next hroom => simp [hhand, hroom]
  next hhand => simp [hhand]

theorem step_serve :
    f.step d .serve = some g ↔
      ∃ item rest, f.queue = item :: rest ∧
        g = { f with queue := rest, served := f.served ++ [item] } := by
  rw [step]
  split
  next hqueue => simp [hqueue]
  next item rest hqueue => simp [hqueue, eq_comm]

/-- Whatever has come off the lane is served before what is queued, that before what the worker
holds, and that before what is in the lane. -/
def backlog (f : Funnel ι α) (i : ι) : List α :=
  ofLane i f.queue ++ (f.inHand i).toList ++ f.lanes i

/-- Nothing is lost, made or overtaken between the lane and the consumer. -/
def Conserves (f : Funnel ι α) : Prop :=
  ∀ i, f.accepted i = ofLane i f.served ++ f.backlog i

theorem conserves_new : (new : Funnel ι α).Conserves := fun _ => rfl

theorem step_moves (hstep : f.step d m = some g) (i : ι) :
    g.accepted i = f.accepted i ∧
      ofLane i g.served ++ g.backlog i = ofLane i f.served ++ f.backlog i := by
  cases m with
  | take j =>
    obtain ⟨hhand, a, rest, hlane, rfl⟩ := step_take.1 hstep
    refine ⟨rfl, ?_⟩
    by_cases hi : i = j
    · subst hi
      simp [taken, backlog, hhand, hlane]
    · simp [taken, backlog, Function.update_of_ne hi]
  | forward j =>
    obtain ⟨a, hhand, -, rfl⟩ := step_forward.1 hstep
    refine ⟨rfl, ?_⟩
    by_cases hi : i = j
    · subst hi
      simp [forwarded, backlog, ofLane_append, ofLane_self, hhand]
    · simp [forwarded, backlog, ofLane_append, ofLane_ne (Ne.symm hi), Function.update_of_ne hi]
  | serve =>
    obtain ⟨item, rest, hqueue, rfl⟩ := step_serve.1 hstep
    refine ⟨rfl, ?_⟩
    have hsplit : ofLane i f.queue = ofLane i [item] ++ ofLane i rest := by
      rw [hqueue, ← ofLane_append]
      rfl
    simp [backlog, ofLane_append, hsplit]

theorem Conserves.step (h : f.Conserves) (hstep : f.step d m = some g) : g.Conserves := by
  intro i
  obtain ⟨haccepted, hitems⟩ := step_moves hstep i
  rw [haccepted, hitems, h i]

theorem Within.step (h : f.Within d) (hstep : f.step d m = some g) : g.Within d := by
  cases m with
  | take j =>
    obtain ⟨-, a, rest, hlane, rfl⟩ := step_take.1 hstep
    refine ⟨fun i => ?_, h.queue_le⟩
    by_cases hi : i = j
    · subst hi
      have hle := h.lane_le i
      rw [hlane, List.length_cons] at hle
      simp only [taken, Function.update_self]
      exact Nat.le_of_succ_le hle
    · simp only [taken, Function.update_of_ne hi]
      exact h.lane_le i
  | forward j =>
    obtain ⟨a, -, hroom, rfl⟩ := step_forward.1 hstep
    refine ⟨h.lane_le, ?_⟩
    rw [forwarded, List.length_append]
    exact hroom
  | serve =>
    obtain ⟨item, rest, hqueue, rfl⟩ := step_serve.1 hstep
    have hle := h.queue_le
    rw [hqueue, List.length_cons] at hle
    exact ⟨h.lane_le, Nat.le_of_succ_le hle⟩

def offered (d : Depths) (f : Funnel ι α) (i : ι) (a : α) (j : ι) : List α :=
  if j = i ∧ (f.lanes i).length < d.lane then [a] else []

theorem offer_adds (f : Funnel ι α) (i : ι) (a : α) (j : ι) :
    (f.offer d i a).served = f.served ∧
      (f.offer d i a).accepted j = f.accepted j ++ f.offered d i a j ∧
      (f.offer d i a).backlog j = f.backlog j ++ f.offered d i a j ∧
      (f.offer d i a).lanes j = f.lanes j ++ f.offered d i a j := by
  rw [offer, offered]
  by_cases hroom : (f.lanes i).length < d.lane
  · by_cases hj : j = i
    · subst hj
      simp [accept, backlog, hroom]
    · simp [accept, backlog, hroom, hj]
  · simp [hroom]

theorem Conserves.offer (h : f.Conserves) (i : ι) (a : α) : (f.offer d i a).Conserves := by
  intro j
  obtain ⟨hserved, haccepted, hbacklog, -⟩ := f.offer_adds i a j
  rw [haccepted, hbacklog, hserved, h j, List.append_assoc]

theorem Within.offer (h : f.Within d) (i : ι) (a : α) : (f.offer d i a).Within d := by
  rw [Funnel.offer]
  split
  next hroom =>
    refine ⟨fun j => ?_, h.queue_le⟩
    by_cases hj : j = i
    · subst hj
      simp only [accept, Function.update_self, List.length_append]
      exact hroom
    · simp only [accept, Function.update_of_ne hj]
      exact h.lane_le j
  next => exact h

def Drained (f : Funnel ι α) : Prop := ∀ i, f.backlog i = []

theorem Drained.served (h : f.Drained) (hc : f.Conserves) (i : ι) :
    ofLane i f.served = f.accepted i := by
  rw [hc i, h i, List.append_nil]

/-- Where something is left some worker or the consumer can go on. -/
theorem drained_of_stuck (hdepth : 0 < d.queue) (hstuck : ∀ m, f.step d m = none) :
    f.Drained := by
  have hqueue : f.queue = [] := by
    cases hq : f.queue with
    | nil => rfl
    | cons item rest =>
      have hserve : f.step d .serve = some _ := step_serve.2 ⟨item, rest, hq, rfl⟩
      rw [hstuck] at hserve
      cases hserve
  have hroom : f.queue.length < d.queue := by
    rw [hqueue]
    exact hdepth
  intro i
  have hhand : f.inHand i = none := by
    cases hh : f.inHand i with
    | none => rfl
    | some a =>
      have hforward := step_forward.2 ⟨a, hh, hroom, rfl⟩
      rw [hstuck] at hforward
      cases hforward
  have hlane : f.lanes i = [] := by
    cases hl : f.lanes i with
    | nil => rfl
    | cons a rest =>
      have htake : f.step d (.take i) = some _ := step_take.2 ⟨hhand, a, rest, hl, rfl⟩
      rw [hstuck] at htake
      cases htake
  rw [backlog, hqueue, hhand, hlane]
  rfl

section Rank
variable [Fintype ι]

/-- The moves that are left for the items of one lane until they are queued. -/
def load (f : Funnel ι α) (i : ι) : ℕ :=
  3 * (f.lanes i).length + 2 * (f.inHand i).toList.length

def rank (f : Funnel ι α) : ℕ := ∑ i, f.load i + f.queue.length

theorem step_rank (hstep : f.step d m = some g) : g.rank + 1 = f.rank := by
  cases m with
  | take j =>
    obtain ⟨hhand, a, rest, hlane, rfl⟩ := step_take.1 hstep
    have hothers (i : ι) (hi : i ≠ j) : (f.taken j a rest).load i = f.load i := by
      simp only [load, taken, Function.update_of_ne hi]
    have hload : (f.taken j a rest).load j + 1 = f.load j := by
      simp [load, taken, hhand, hlane]
      omega
    rw [rank, rank, ← sum_add_eq hothers hload]
    exact Nat.add_right_comm ..
  | forward j =>
    obtain ⟨a, hhand, -, rfl⟩ := step_forward.1 hstep
    have hothers (i : ι) (hi : i ≠ j) : (f.forwarded j a).load i = f.load i := by
      simp only [load, forwarded, Function.update_of_ne hi]
    have hload : (f.forwarded j a).load j + 2 = f.load j := by simp [load, forwarded, hhand]
    have hqueue : (f.forwarded j a).queue.length = f.queue.length + 1 := List.length_append
    rw [rank, rank, ← sum_add_eq hothers hload, hqueue]
    omega
  | serve =>
    obtain ⟨item, rest, hqueue, rfl⟩ := step_serve.1 hstep
    rw [rank, rank, hqueue, List.length_cons]
    rfl

theorem offer_rank (f : Funnel ι α) (i : ι) (a : α) : (f.offer d i a).rank ≤ f.rank + 3 := by
  rw [offer]
  split
  next =>
    have hothers (j : ι) (hj : j ≠ i) : f.load j = (f.accept i a).load j := by
      simp only [load, accept, Function.update_of_ne hj]
    have hload : f.load i + 3 = (f.accept i a).load i := by
      simp [load, accept]
      omega
    have hqueue : (f.accept i a).queue = f.queue := rfl
    rw [rank, rank, ← sum_add_eq hothers hload, hqueue]
    omega
  next => exact Nat.le_add_right ..

end Rank

end Funnel
end TacticalMesh
