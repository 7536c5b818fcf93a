import Mathlib.Data.List.Induction
import Mathlib.Order.Lattice

namespace TacticalMesh
set_option autoImplicit true

section
variable {α κ : Type} [LinearOrder κ]

/-- Keep the current element unless the new one has a strictly greater key. -/
def keepGreater (key : α → κ) (cur : Option α) (x : α) : Option α :=
  match cur with
  | none => some x
  | some y => if key y < key x then some x else some y

def FirstGreatest (key : α → κ) (l : List α) (x : α) : Prop :=
  ∃ pre post, l = pre ++ x :: post ∧ (∀ y ∈ pre, key y < key x) ∧ ∀ y ∈ post, key y ≤ key x

theorem FirstGreatest.mem {key : α → κ} (h : FirstGreatest key l x) : x ∈ l := by
  obtain ⟨pre, post, rfl, -, -⟩ := h
  simp

theorem FirstGreatest.le {key : α → κ} (h : FirstGreatest key l x) (hy : y ∈ l) :
    key y ≤ key x := by
  obtain ⟨pre, post, rfl, hpre, hpost⟩ := h
  rcases List.mem_append.1 hy with hy | hy
  · exact (hpre y hy).le
  · rcases List.mem_cons.1 hy with rfl | hy
    · exact le_rfl
    · exact hpost y hy

/-- A register that keeps the greater element ends with the first greatest one. -/
theorem foldl_keepGreater (key : α → κ) (l : List α) (h : l ≠ []) :
    ∃ x, l.foldl (keepGreater key) none = some x ∧ FirstGreatest key l x := by
  induction l using List.reverseRecOn with
  | nil => exact absurd rfl h
  | append_singleton l a ih =>
    rw [List.foldl_append, List.foldl_cons, List.foldl_nil]
    by_cases hl : l = []
    · subst hl
      exact ⟨a, rfl, [], [], rfl, by simp, by simp⟩
    · obtain ⟨x, hx, hfirst⟩ := ih hl
      rw [hx, keepGreater]
      split
      · rename_i hlt
        refine ⟨a, rfl, l, [], rfl, ?_, by simp⟩
        intro y hy
        exact (hfirst.le hy).trans_lt hlt
      · rename_i hge
        obtain ⟨pre, post, rfl, hpre, hpost⟩ := hfirst
        refine ⟨x, rfl, pre, post ++ [a], by simp, hpre, ?_⟩
        intro y hy
        rcases List.mem_append.1 hy with hy | hy
        · exact hpost y hy
        · rw [List.mem_singleton.1 hy]
          exact le_of_not_gt hge

theorem foldl_keepGreater_of_le (key : α → κ) (l : List α) (h : ∀ y ∈ l, key y ≤ key x) :
    l.foldl (keepGreater key) (some x) = some x := by
  induction l with
  | nil => rfl
  | cons y l ih =>
    have hy : ¬ key x < key y := not_lt_of_ge (h y (.head _))
    rw [List.foldl_cons, keepGreater, if_neg hy]
    exact ih fun z hz => h z (.tail _ hz)

theorem keepGreater_of_lt {key : α → κ} {cur : Option α} (h : ∀ y ∈ cur, key y < key x) :
    keepGreater key cur x = some x := by
  cases cur with
  | none => rfl
  | some y => exact if_pos (h y rfl)

theorem keepGreater_cases (key : α → κ) (cur : Option α) (x : α) :
    keepGreater key cur x = some x ∧ (∀ y ∈ cur, key y < key x) ∨
      keepGreater key cur x = cur ∧ ∃ y ∈ cur, key x ≤ key y := by
  cases cur with
  | none => exact .inl ⟨rfl, fun y hy => by cases hy⟩
  | some y =>
    rw [keepGreater]
    split
    · rename_i hlt
      refine .inl ⟨rfl, ?_⟩
      intro z hz
      cases hz
      exact hlt
    · rename_i hge
      exact .inr ⟨rfl, y, rfl, le_of_not_gt hge⟩

theorem foldl_keepGreater_mem {key : α → κ} {l : List α}
    (h : l.foldl (keepGreater key) cur = some x) :
    x ∈ l ∨ cur = some x := by
  induction l generalizing cur with
  | nil => exact .inr h
  | cons y l ih =>
    rcases ih h with hx | hx
    · exact .inl (.tail _ hx)
    · cases cur with
      | none =>
        cases hx
        exact .inl (.head _)
      | some z =>
        simp only [keepGreater] at hx
        split at hx
        · cases hx
          exact .inl (.head _)
        · exact .inr hx

theorem FirstGreatest.foldl_eq {key : α → κ} (h : FirstGreatest key l x) :
    l.foldl (keepGreater key) none = some x := by
  obtain ⟨pre, post, rfl, hpre, hpost⟩ := h
  have hx : keepGreater key (pre.foldl (keepGreater key) none) x = some x := by
    apply keepGreater_of_lt
    intro y hy
    rcases foldl_keepGreater_mem hy with hy | hy
    · exact hpre y hy
    · cases hy
  rw [List.foldl_append, List.foldl_cons, hx]
  exact foldl_keepGreater_of_le key post hpost

theorem foldl_keepGreater_eq_some (key : α → κ) (l : List α) (x : α) :
    l.foldl (keepGreater key) none = some x ↔ FirstGreatest key l x := by
  constructor
  · intro h
    have hnil : l ≠ [] := by
      rintro rfl
      cases h
    obtain ⟨y, hy, hfirst⟩ := foldl_keepGreater key l hnil
    rw [h, Option.some.injEq] at hy
    exact hy ▸ hfirst
  · exact FirstGreatest.foldl_eq

theorem foldl_keepGreater_isSome {key : α → κ} {l : List α} :
    (l.foldl (keepGreater key) none).isSome ↔ l ≠ [] := by
  constructor
  · rintro h rfl
    cases h
  · intro h
    obtain ⟨x, hx, -⟩ := foldl_keepGreater key l h
    rw [hx]
    rfl

/-- Every tie between two different elements is dominated by a greater element. -/
def Untied (key : α → κ) (l : List α) : Prop :=
  ∀ x ∈ l, ∀ y ∈ l, key x = key y → x ≠ y → ∃ z ∈ l, key x < key z

theorem Untied.foldl_eq {key : α → κ} {l' : List α} (h : Untied key l) (hl : ∀ x, x ∈ l' ↔ x ∈ l) :
    l'.foldl (keepGreater key) none = l.foldl (keepGreater key) none := by
  by_cases hnil : l = []
  · have hnil' : l' = [] := by
      apply List.eq_nil_iff_forall_not_mem.2
      intro x hx
      have := (hl x).1 hx
      simp [hnil] at this
    rw [hnil, hnil']
  · have hnil' : l' ≠ [] := by
      rintro rfl
      apply hnil
      apply List.eq_nil_iff_forall_not_mem.2
      intro x hx
      have := (hl x).2 hx
      simp at this
    obtain ⟨x, hx, hfx⟩ := foldl_keepGreater key l hnil
    obtain ⟨y, hy, hfy⟩ := foldl_keepGreater key l' hnil'
    have hyl := (hl y).1 hfy.mem
    have hkey : key x = key y :=
      le_antisymm (hfy.le ((hl x).2 hfx.mem)) (hfx.le hyl)
    rw [hx, hy]
    by_contra hne
    obtain ⟨z, hz, hlt⟩ := h x hfx.mem y hyl hkey fun he => hne (by rw [he])
    exact not_lt_of_ge (hfx.le hz) hlt

/-- Only ties at the top can make the outcome depend on order or repetition. -/
theorem untied_iff (key : α → κ) (l : List α) :
    Untied key l ↔ ∀ l' : List α, (∀ x, x ∈ l' ↔ x ∈ l) →
      l'.foldl (keepGreater key) none = l.foldl (keepGreater key) none := by
  constructor
  · intro h l' hl
    exact h.foldl_eq hl
  · intro h x hx y hy hkey hne
    by_contra hmax
    push Not at hmax
    have hput : ∀ z ∈ l, (∀ y ∈ l, key y ≤ key z) →
        l.foldl (keepGreater key) none = some z := by
      intro z hz hle
      rw [← h (z :: l) (by intro y; simp only [List.mem_cons]; constructor <;> grind)]
      exact foldl_keepGreater_of_le key l hle
    have hx' := hput x hx hmax
    have hy' := hput y hy fun z hz => hkey ▸ hmax z hz
    rw [hx', Option.some.injEq] at hy'
    exact hne hy'

end
end TacticalMesh
