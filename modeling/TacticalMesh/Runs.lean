import Mathlib.Data.List.Induction
import Mathlib.Logic.Function.Iterate
import Mathlib.Order.Lattice.Nat

namespace TacticalMesh
set_option autoImplicit true

/-- Some list of events takes a machine from one state to the other. -/
def LeadsTo (step : S → E → Option S) (s s' : S) : Prop :=
  ∃ events : List E, events.foldlM step s = some s'

namespace LeadsTo

theorem refl (step : S → E → Option S) (s : S) : LeadsTo step s s := ⟨[], rfl⟩

theorem trans (h : LeadsTo step s t) (h' : LeadsTo step t u) : LeadsTo step s u := by
  obtain ⟨es, hes⟩ := h
  obtain ⟨es', hes'⟩ := h'
  refine ⟨es ++ es', ?_⟩
  rw [List.foldlM_append, hes]
  exact hes'

theorem tail {step : S → E → Option S} (h : LeadsTo step s t) (hstep : step t e = some u) :
    LeadsTo step s u := by
  refine h.trans ⟨[e], ?_⟩
  rw [List.foldlM_cons, hstep]
  rfl

theorem invariant {step : S → E → Option S} {P : S → Prop} (h : LeadsTo step s s') (hs : P s)
    (hstep : ∀ t e u, P t → step t e = some u → P u) : P s' := by
  obtain ⟨events, hrun⟩ := h
  induction events generalizing s with
  | nil =>
    cases hrun
    exact hs
  | cons e events ih =>
    rw [List.foldlM_cons, Option.bind_eq_bind, Option.bind_eq_some_iff] at hrun
    obtain ⟨t, ht, hrun⟩ := hrun
    exact ih (hstep s e t hs ht) hrun

end LeadsTo

/-- Every step of a run is taken under the guard. -/
def Along (step : S → E → Option S) (Guard : S → E → Prop) : S → List E → Prop
  | _, [] => True
  | s, e :: events => Guard s e ∧ ∀ t ∈ step s e, Along step Guard t events

instance Along.decidable (step : S → E → Option S) (Guard : S → E → Prop)
    [∀ s e, Decidable (Guard s e)] : ∀ s events, Decidable (Along step Guard s events)
  | _, [] => .isTrue trivial
  | s, e :: events =>
    have : ∀ t, Decidable (Along step Guard t events) := fun t => decidable step Guard t events
    inferInstanceAs (Decidable (Guard s e ∧ ∀ t ∈ step s e, Along step Guard t events))

theorem Along.mono {step : S → E → Option S} {Guard Guard' : S → E → Prop} {events : List E}
    (h : Along step Guard s events) (hsub : ∀ t e, Guard t e → Guard' t e) :
    Along step Guard' s events := by
  induction events generalizing s with
  | nil => trivial
  | cons e events ih => exact ⟨hsub s e h.1, fun t ht => ih (h.2 t ht)⟩

theorem foldlM_of_guarded {step guarded : S → E → Option S}
    (hsub : ∀ s e t, guarded s e = some t → step s e = some t) {events : List E}
    (h : events.foldlM guarded s = some t) : events.foldlM step s = some t := by
  induction events generalizing s with
  | nil => exact h
  | cons e events ih =>
    rw [List.foldlM_cons, Option.bind_eq_bind, Option.bind_eq_some_iff] at h ⊢
    obtain ⟨u, hu, hrest⟩ := h
    exact ⟨u, hsub s e u hu, ih hrest⟩

theorem foldlM_concat {step : S → E → Option S} {events : List E} :
    (events ++ [e]).foldlM step s = some t ↔
      ∃ u, events.foldlM step s = some u ∧ step u e = some t := by
  rw [List.foldlM_append, Option.bind_eq_bind, Option.bind_eq_some_iff]
  simp only [List.foldlM_cons, List.foldlM_nil, Option.bind_eq_bind, Option.pure_def,
    Option.bind_fun_some]

theorem Along.invariant {step : S → E → Option S} {Guard : S → E → Prop} {P : S → Prop}
    {events : List E} (h : Along step Guard s events) (hrun : events.foldlM step s = some t)
    (hs : P s) (hstep : ∀ t e u, P t → Guard t e → step t e = some u → P u) : P t := by
  induction events generalizing s with
  | nil =>
    cases hrun
    exact hs
  | cons e events ih =>
    rw [List.foldlM_cons, Option.bind_eq_bind, Option.bind_eq_some_iff] at hrun
    obtain ⟨u, hu, hrest⟩ := hrun
    exact ih (h.2 u hu) hrest (hstep s e u hs h.1 hu)

/-- Where a step keeps a property exactly if it meets a guard, the property holds all along a run
exactly if every step of the run meets the guard. -/
theorem foldl_invariant_iff {step : S → E → S} {P I : S → Prop} {Guard : S → E → Prop}
    {events : List E} (hP : P s) (hI : ∀ l : List E, I (l.foldl step s))
    (hstep : ∀ t e, I t → P t → (P (step t e) ↔ Guard t e)) :
    (∀ pre, pre <+: events → P (pre.foldl step s)) ↔
      ∀ pre e, pre ++ [e] <+: events → Guard (pre.foldl step s) e := by
  constructor
  · intro h pre e hpre
    have hbefore := h pre ((List.prefix_append pre [e]).trans hpre)
    have hafter := h (pre ++ [e]) hpre
    rw [List.foldl_append] at hafter
    exact (hstep _ e (hI pre) hbefore).1 hafter
  · intro h pre hpre
    induction pre using List.reverseRecOn with
    | nil => exact hP
    | append_singleton pre e ih =>
      have hbefore := ih ((List.prefix_append pre [e]).trans hpre)
      rw [List.foldl_append]
      exact (hstep _ e (hI pre) hbefore).2 (h pre e hpre)

theorem exists_first_prefix {P : List α → Prop} (hnil : ¬ P []) (h : P l) :
    ∃ pre x post, l = pre ++ x :: post ∧ ¬ P pre ∧ P (pre ++ [x]) := by
  induction l using List.reverseRecOn with
  | nil => exact absurd h hnil
  | append_singleton l x ih =>
    by_cases hl : P l
    · obtain ⟨pre, y, post, rfl, hpre, hy⟩ := ih hl
      exact ⟨pre, y, post ++ [x], by simp, hpre, hy⟩
    · exact ⟨l, x, [], rfl, hl, h⟩

/-- There is a last element of this kind, and with what stands before it it has the property. -/
def LastWith (P : α → Prop) (Q : List α → α → Prop) (l : List α) : Prop :=
  ∃ pre x post, l = pre ++ x :: post ∧ P x ∧ (∀ y ∈ post, ¬ P y) ∧ Q pre x

theorem lastWith_concat_of_pos {P : α → Prop} (hx : P x) :
    LastWith P Q (l ++ [x]) ↔ Q l x := by
  constructor
  · rintro ⟨pre, y, post, hsplit, -, hpost, hQ⟩
    rcases List.eq_nil_or_concat post with rfl | ⟨post', z, rfl⟩
    · obtain ⟨rfl, hlast⟩ := List.append_inj' hsplit rfl
      cases hlast
      exact hQ
    · rw [List.concat_eq_append, ← List.cons_append, ← List.append_assoc] at hsplit
      cases (List.append_inj' hsplit rfl).2
      exact absurd hx (hpost x (by simp))
  · intro hQ
    exact ⟨l, x, [], rfl, hx, nofun, hQ⟩

theorem lastWith_concat_of_neg {P : α → Prop} (hx : ¬ P x) :
    LastWith P Q (l ++ [x]) ↔ LastWith P Q l := by
  constructor
  · rintro ⟨pre, y, post, hsplit, hy, hpost, hQ⟩
    rcases List.eq_nil_or_concat post with rfl | ⟨post', z, rfl⟩
    · cases (List.append_inj' hsplit rfl).2
      exact absurd hy hx
    · rw [List.concat_eq_append, ← List.cons_append, ← List.append_assoc] at hsplit
      obtain ⟨rfl, -⟩ := List.append_inj' hsplit rfl
      exact ⟨pre, y, post', rfl, hy, fun v hv => hpost v (by simp [hv]), hQ⟩
  · rintro ⟨pre, y, post, rfl, hy, hpost, hQ⟩
    refine ⟨pre, y, post ++ [x], by simp, hy, ?_, hQ⟩
    intro v hv
    rcases List.mem_append.1 hv with hv | hv
    · exact hpost v hv
    · rwa [List.mem_singleton.1 hv]

/-- A descent along a cost ends at the only place where it need not go on. -/
theorem exists_iterate_eq {f : α → α} {cost : α → ℕ} {P : α → Prop} {target : α}
    (hstep : ∀ x, P x → x ≠ target → P (f x) ∧ cost (f x) < cost x) (hx : P x) :
    ∃ n, f^[n] x = target ∧ ∀ i < n, P (f^[i] x) ∧ f^[i] x ≠ target := by
  induction hc : cost x using Nat.strong_induction_on generalizing x with
  | _ c ih =>
    by_cases ht : x = target
    · exact ⟨0, ht, fun i hi => absurd hi (Nat.not_lt_zero i)⟩
    · obtain ⟨hfx, hlt⟩ := hstep x hx ht
      obtain ⟨n, hn, hbefore⟩ := ih _ (hc ▸ hlt) hfx rfl
      refine ⟨n + 1, hn, fun i hi => ?_⟩
      cases i with
      | zero => exact ⟨hx, ht⟩
      | succ i => exact hbefore i (Nat.lt_of_succ_lt_succ hi)

theorem iterate_injective_of_descent {f : α → α} {cost : α → ℕ}
    (hstep : ∀ i < n, cost (f^[i + 1] x) < cost (f^[i] x)) (hi : i ≤ n) (hj : j ≤ n)
    (heq : f^[i] x = f^[j] x) : i = j := by
  have hdown : ∀ a b, a < b → b ≤ n → cost (f^[b] x) < cost (f^[a] x) := by
    intro a b hab hb
    induction b, hab using Nat.le_induction with
    | base => exact hstep a hb
    | succ b hab ih => exact (hstep b hb).trans (ih (Nat.le_of_succ_le hb))
  rcases lt_trichotomy i j with hlt | heq' | hlt
  · exact absurd (congrArg cost heq) (hdown i j hlt hj).ne'
  · exact heq'
  · exact absurd (congrArg cost heq) (hdown j i hlt hi).ne

end TacticalMesh
