import TacticalMesh.WireHeaders
import Mathlib.Logic.Function.Basic

namespace TacticalMesh
set_option autoImplicit true

structure Queues where
  inner : Priority → List Bytes

namespace Queues

def new : Queues := ⟨fun _ => []⟩

def push (q : Queues) (frame : Bytes) (prio : Priority) : Queues :=
  ⟨Function.update q.inner prio (q.inner prio ++ [frame])⟩

def order : List Priority := [.emergency, .critical, .high, .bulk]

def popNext (q : Queues) : Option ((Bytes × Priority) × Queues) :=
  order.findSome? fun prio =>
    match q.inner prio with
    | [] => none
    | frame :: rest => some ((frame, prio), ⟨Function.update q.inner prio rest⟩)

theorem mem_push {q : Queues} :
    f ∈ (q.push frame prio).inner p ↔ f ∈ q.inner p ∨ f = frame ∧ p = prio := by
  simp only [push, Function.update_apply]
  split
  next h => simp [h]
  next h => simp [h]

theorem popNext_eq_some {q : Queues} (h : q.popNext = some ((frame, prio), q')) :
    ∃ rest, q.inner prio = frame :: rest ∧ q' = ⟨Function.update q.inner prio rest⟩ := by
  obtain ⟨p, -, hp⟩ := List.exists_of_findSome?_eq_some h
  split at hp
  next => cases hp
  next rest hq =>
    cases hp
    exact ⟨rest, hq, rfl⟩

theorem mem_of_popNext {q : Queues} (h : q.popNext = some (popped, q')) (hf : f ∈ q'.inner p) :
    f ∈ q.inner p := by
  obtain ⟨frame, prio⟩ := popped
  obtain ⟨rest, hq, rfl⟩ := popNext_eq_some h
  simp only [Function.update_apply] at hf
  split at hf
  next hp =>
    rw [hp, hq]
    exact List.mem_cons_of_mem _ hf
  next => exact hf

theorem popNext_push_new : (new.push frame prio).popNext = some ((frame, prio), new) := by
  have hempty : Function.update (new.push frame prio).inner prio [] = new.inner := by
    rw [push, Function.update_idem]
    exact Function.update_eq_self prio new.inner
  have hpop : (new.push frame prio).popNext =
      some ((frame, prio), ⟨Function.update (new.push frame prio).inner prio []⟩) := by
    cases prio <;> rfl
  rw [hpop, hempty]

theorem popNext_push_push :
    ((new.push a prio).push b prio).popNext = some ((a, prio), new.push b prio) := by
  have hrest : Function.update ((new.push a prio).push b prio).inner prio [b] =
      (new.push b prio).inner := by
    rw [push, push, Function.update_idem, Function.update_idem, push]
    rfl
  have hpop : ((new.push a prio).push b prio).popNext =
      some ((a, prio), ⟨Function.update ((new.push a prio).push b prio).inner prio [b]⟩) := by
    cases prio <;> rfl
  rw [hpop, hrest]

end Queues
end TacticalMesh
