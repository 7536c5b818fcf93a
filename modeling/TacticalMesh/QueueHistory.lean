import TacticalMesh.Scheduler
import Mathlib.Data.List.Induction

namespace TacticalMesh
set_option autoImplicit true

namespace Queues

theorem popNext_eq_none {q : Queues} : q.popNext = none ↔ ∀ p, q.inner p = [] := by
  rw [popNext, List.findSome?_eq_none_iff]
  constructor
  · intro h p
    have hp := h p (by cases p <;> simp [order])
    split at hp
    next hq => exact hq
    next => cases hp
  · intro h p _
    rw [h p]

theorem higher_empty {q : Queues} (h : q.popNext = some ((frame, prio), q'))
    (hp : p.toU8 < prio.toU8) : q.inner p = [] := by
  rw [popNext, List.findSome?_eq_some_iff] at h
  obtain ⟨above, prio', below, horder, hfound, habove⟩ := h
  split at hfound
  next => cases hfound
  next =>
    cases hfound
    have hmem : p ∈ above := by
      have hsorted : order.Pairwise fun a b => a.toU8 < b.toU8 := by decide
      have hall : p ∈ order := by cases p <;> simp [order]
      rw [horder] at hsorted hall
      rcases List.mem_append.1 hall with hin | hin
      · exact hin
      · rcases List.mem_cons.1 hin with rfl | hin
        · exact absurd hp (UInt8.lt_irrefl _)
        · have hlow := List.rel_of_pairwise_cons (List.pairwise_append.1 hsorted).2.1 hin
          exact absurd (UInt8.lt_trans hp hlow) (UInt8.lt_irrefl _)
    have hnone := habove p hmem
    split at hnone
    next hq => exact hq
    next => cases hnone

end Queues

inductive QueueCall where
  | push (frame : Bytes) (prio : Priority)
  | popNext
  deriving DecidableEq

def QueueCall.pushes : QueueCall → Option (Bytes × Priority)
  | push frame prio => some (frame, prio)
  | popNext => none

/-- The queues with everything that has been pushed and popped, each in its order. -/
structure QueueHistory where
  queues : Queues
  pushed : List (Bytes × Priority)
  popped : List (Bytes × Priority)

def framesOf (p : Priority) (items : List (Bytes × Priority)) : List Bytes :=
  (items.filter fun item => item.2 = p).map Prod.fst

theorem framesOf_append : framesOf p (l ++ l') = framesOf p l ++ framesOf p l' := by
  rw [framesOf, List.filter_append, List.map_append]
  rfl

theorem framesOf_self : framesOf p [(frame, p)] = [frame] := by
  simp [framesOf]

theorem framesOf_ne (h : prio ≠ p) : framesOf p [(frame, prio)] = [] := by
  simp [framesOf, h]

namespace QueueHistory

def new : QueueHistory := ⟨.new, [], []⟩

def push (h : QueueHistory) (frame : Bytes) (prio : Priority) : QueueHistory where
  queues := h.queues.push frame prio
  pushed := h.pushed ++ [(frame, prio)]
  popped := h.popped

def popNext (h : QueueHistory) : QueueHistory :=
  match h.queues.popNext with
  | none => h
  | some (item, queues) => { h with queues, popped := h.popped ++ [item] }

def call (h : QueueHistory) : QueueCall → QueueHistory
  | .push frame prio => h.push frame prio
  | .popNext => h.popNext

/-- The calls of all tasks, in the order in which they got the lock. -/
def after (calls : List QueueCall) : QueueHistory := calls.foldl call new

/-- Of each priority, what has come out and what is queued is what was put in. -/
def Conserved (h : QueueHistory) : Prop :=
  ∀ p, framesOf p h.popped ++ h.queues.inner p = framesOf p h.pushed

variable {h : QueueHistory}

theorem Conserved.push (hc : h.Conserved) (frame : Bytes) (prio : Priority) :
    (h.push frame prio).Conserved := by
  intro p
  have hp := hc p
  simp only [QueueHistory.push, Queues.push, framesOf_append]
  by_cases heq : prio = p
  · subst heq
    rw [Function.update_self, framesOf_self, ← List.append_assoc, hp]
  · rw [Function.update_of_ne (Ne.symm heq), framesOf_ne heq, List.append_nil, hp]

theorem Conserved.pop (hc : h.Conserved) (hpop : h.queues.popNext = some (item, rest)) :
    Conserved { h with queues := rest, popped := h.popped ++ [item] } := by
  intro p
  have hp := hc p
  obtain ⟨frame, prio⟩ := item
  obtain ⟨tail, hqueue, rfl⟩ := Queues.popNext_eq_some hpop
  simp only [framesOf_append]
  by_cases heq : prio = p
  · subst heq
    rw [Function.update_self, framesOf_self, List.append_assoc, List.singleton_append, ← hqueue,
      hp]
  · rw [Function.update_of_ne (Ne.symm heq), framesOf_ne heq, List.append_nil, hp]

theorem Conserved.popNext (hc : h.Conserved) : h.popNext.Conserved := by
  rw [QueueHistory.popNext]
  split
  next => exact hc
  next hpop => exact hc.pop hpop

theorem Conserved.call (hc : h.Conserved) (c : QueueCall) : (h.call c).Conserved := by
  cases c with
  | push frame prio => exact hc.push frame prio
  | popNext => exact hc.popNext

theorem conserved_new : new.Conserved := fun _ => rfl

theorem conserved_after (calls : List QueueCall) : (after calls).Conserved := by
  induction calls using List.reverseRecOn with
  | nil => exact conserved_new
  | append_singleton calls c ih =>
    rw [after, List.foldl_append]
    exact ih.call c

theorem popNext_pushed (h : QueueHistory) : h.popNext.pushed = h.pushed := by
  rw [popNext]
  split <;> rfl

theorem pushed_after (calls : List QueueCall) :
    (after calls).pushed = calls.filterMap QueueCall.pushes := by
  induction calls using List.reverseRecOn with
  | nil => rfl
  | append_singleton calls c ih =>
    have hcall : after (calls ++ [c]) = (after calls).call c := List.foldl_append
    rw [hcall, List.filterMap_append, ← ih]
    cases c with
    | push frame prio => rfl
    | popNext => exact (popNext_pushed _).trans (List.append_nil _).symm

theorem Conserved.popped_isPrefix (hc : h.Conserved) (p : Priority) :
    framesOf p h.popped <+: framesOf p h.pushed :=
  ⟨h.queues.inner p, hc p⟩

/-- Whatever the order of the calls, each queue is first in, first out and loses nothing, and the
next frame is one of the highest queue that is not empty. -/
theorem strict_priority_fifo (calls : List QueueCall) :
    (after calls).pushed = calls.filterMap QueueCall.pushes ∧
    (∀ p, framesOf p (after calls).popped <+: framesOf p (after calls).pushed ∧
      framesOf p (after calls).popped ++ (after calls).queues.inner p =
        framesOf p (after calls).pushed) ∧
    (∀ frame prio queues, (after calls).queues.popNext = some ((frame, prio), queues) →
      ∀ p, p.toU8 < prio.toU8 → (after calls).queues.inner p = []) ∧
    ((after calls).queues.popNext = none → ∀ p, (after calls).queues.inner p = []) := by
  have hc := conserved_after calls
  refine ⟨pushed_after calls, fun p => ⟨hc.popped_isPrefix p, hc p⟩, ?_, ?_⟩
  · intro frame prio queues hpop p hp
    exact Queues.higher_empty hpop hp
  · intro hpop
    exact Queues.popNext_eq_none.1 hpop

end QueueHistory
end TacticalMesh
