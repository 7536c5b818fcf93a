import Mathlib.Data.List.Perm.Basic
import TacticalMesh.Runs

namespace TacticalMesh
set_option autoImplicit true

/-- Concurrent tasks over a shared state, each of them run in atomic steps. -/
structure TaskPool (σ τ : Type) where
  shared : σ
  tasks : List τ

namespace TaskPool
variable {σ τ : Type} {next : τ → σ → σ × List τ} {pool pool' : TaskPool σ τ}

/-- The task at place `i` takes a step, and the tasks that this leaves take its place. -/
def step (next : τ → σ → σ × List τ) (pool : TaskPool σ τ) (i : ℕ) : Option (TaskPool σ τ) :=
  match pool.tasks[i]? with
  | none => none
  | some t =>
    some
      { shared := (next t pool.shared).1
        tasks := pool.tasks.take i ++ (next t pool.shared).2 ++ pool.tasks.drop (i + 1) }

theorem step_cases (h : step next pool i = some pool') :
    ∃ l t r, pool.tasks = l ++ t :: r ∧ l.length = i ∧ pool'.shared = (next t pool.shared).1 ∧
      pool'.tasks = l ++ (next t pool.shared).2 ++ r := by
  rw [step] at h
  split at h
  · cases h
  · rename_i t ht
    cases h
    obtain ⟨hi, rfl⟩ := List.getElem?_eq_some_iff.1 ht
    refine ⟨pool.tasks.take i, pool.tasks[i], pool.tasks.drop (i + 1), ?_, ?_, rfl, rfl⟩
    · rw [← List.drop_eq_getElem_cons hi, List.take_append_drop]
    · exact List.length_take_of_le hi.le

theorem step_append (s : σ) (l : List τ) (t : τ) (r : List τ) :
    step next ⟨s, l ++ t :: r⟩ l.length = some ⟨(next t s).1, l ++ (next t s).2 ++ r⟩ := by
  have hget : (l ++ t :: r)[l.length]? = some t := by
    rw [List.getElem?_append_right le_rfl, Nat.sub_self, List.getElem?_cons_zero]
  have hdrop : (l ++ t :: r).drop (l.length + 1) = r := by
    rw [List.append_cons]
    exact List.drop_left' (List.length_append ..)
  rw [step]
  simp only [hget, hdrop, List.take_left']

/-- A property that does not depend on the order of the tasks is kept by every run if it is kept
by a step of the first task. -/
theorem invariant {P : σ → List τ → Prop} (hperm : ∀ s l l', l.Perm l' → P s l → P s l')
    (hstep : ∀ s t rest, P s (t :: rest) → P (next t s).1 ((next t s).2 ++ rest))
    (hrun : LeadsTo (step next) pool pool') (hpool : P pool.shared pool.tasks) :
    P pool'.shared pool'.tasks := by
  apply hrun.invariant (P := fun c => P c.shared c.tasks) hpool
  intro c i c' hc h
  obtain ⟨l, t, r, htasks, -, hshared', htasks'⟩ := step_cases h
  rw [htasks] at hc
  rw [hshared', htasks']
  have hfront := hstep _ _ _ (hperm _ _ _ List.perm_middle hc)
  apply hperm _ _ _ _ hfront
  calc (next t c.shared).2 ++ (l ++ r)
      = ((next t c.shared).2 ++ l) ++ r := (List.append_assoc ..).symm
    List.Perm _ ((l ++ (next t c.shared).2) ++ r) := List.perm_append_comm.append_right r

end TaskPool
end TacticalMesh
