import Mathlib.LinearAlgebra.Lagrange

namespace TacticalMesh
set_option autoImplicit true

open Polynomial

variable {F : Type*} [Field F] {v : ℕ → F} {s t : Finset ℕ} {r r' : ℕ → F}

/-- The value at `x` of the least polynomial that has the values `r` at the points of `s`. -/
def interpolated (v : ℕ → F) (s : Finset ℕ) (r : ℕ → F) (x : F) : F :=
  ∑ i ∈ s, r i * ∏ j ∈ s.erase i, (v i - v j)⁻¹ * (x - v j)

theorem interpolated_eq_eval (v : ℕ → F) (s : Finset ℕ) (r : ℕ → F) (x : F) :
    interpolated v s r x = (Lagrange.interpolate s v r).eval x := by
  rw [interpolated, Lagrange.interpolate_apply, eval_finsetSum]
  refine Finset.sum_congr rfl fun i _ => ?_
  rw [eval_mul, eval_C, Lagrange.basis, eval_prod]
  congr 1
  refine Finset.prod_congr rfl fun j _ => ?_
  rw [Lagrange.basisDivisor, eval_mul, eval_C, eval_sub, eval_X, eval_C]

theorem interpolated_zero (hr : ∀ i ∈ s, r i = 0) (x : F) : interpolated v s r x = 0 := by
  refine Finset.sum_eq_zero fun i hi => ?_
  rw [hr i hi, zero_mul]

theorem interpolated_node (hv : Set.InjOn v s) (hi : i ∈ s) : interpolated v s r (v i) = r i := by
  rw [interpolated_eq_eval, Lagrange.eval_interpolate_at_node r hv hi]

/-- As many values as there were at first determine all the others. -/
theorem interpolated_of_card_le (hs : Set.InjOn v s) (ht : Set.InjOn v t) (hcard : s.card ≤ t.card)
    (hr : ∀ i ∈ t, r' i = interpolated v s r (v i)) (x : F) :
    interpolated v t r' x = interpolated v s r x := by
  have hdegree : (Lagrange.interpolate s v r).degree < t.card :=
    (Lagrange.degree_interpolate_lt r hs).trans_le (Nat.cast_le.2 hcard)
  have heq : Lagrange.interpolate s v r = Lagrange.interpolate t v r' := by
    apply Lagrange.eq_interpolate_of_eval_eq r' ht hdegree
    intro i hi
    rw [← interpolated_eq_eval, hr i hi]
  rw [interpolated_eq_eval, interpolated_eq_eval, heq]

end TacticalMesh
