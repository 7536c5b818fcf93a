import Mathlib.Algebra.Order.BigOperators.Group.Finset
import Mathlib.Algebra.Ring.Nat
import Mathlib.Algebra.Group.Action.Defs
import Mathlib.Data.List.Sort
import TacticalMesh.Table
import TacticalMesh.Walks

namespace TacticalMesh
set_option autoImplicit true

/-- Labels, predecessors and the queue of a shortest-path search with lazy deletion. -/
structure Search (V : Type) where
  dist : Table V ℕ
  prev : Table V V
  heap : List (ℕ × V)

namespace Search
variable {V : Type} [DecidableEq V]

/-- One edge of the vertex `u`, popped at cost `d`; `cap` is where additions saturate. -/
def relax (cap : ℕ) (le : ℕ × V → ℕ × V → Prop) [DecidableRel le] (u : V) (d : ℕ)
    (st : Search V) (e : V × ℕ) : Search V :=
  let newDist := min (d + e.2) cap
  if newDist < (st.dist e.1).getD cap then
    { dist := st.dist.insert e.1 newDist
      prev := st.prev.insert e.1 u
      heap := st.heap.orderedInsert le (newDist, e.1) }
  else st

/-- One round of the main loop: pop an entry, skip it when stale, else relax its edges. -/
def visit (cap : ℕ) (le : ℕ × V → ℕ × V → Prop) [DecidableRel le]
    (edges : V → List (V × ℕ)) (st : Search V) : Search V :=
  match st.heap with
  | [] => st
  | (d, u) :: rest =>
    let st := { st with heap := rest }
    if (st.dist u).getD cap < d then st
    else (edges u).foldl (relax cap le u d) st

def run (cap : ℕ) (le : ℕ × V → ℕ × V → Prop) [DecidableRel le]
    (edges : V → List (V × ℕ)) : ℕ → Search V → Search V
  | 0, st => st
  | n + 1, st =>
    match st.heap with
    | [] => st
    | _ :: _ => run cap le edges n (visit cap le edges st)

def start (s : V) : Search V where
  dist := Table.empty.insert s 0
  prev := Table.empty
  heap := [(0, s)]

section Termination
variable {cap : ℕ} {le : ℕ × V → ℕ × V → Prop} [DecidableRel le]
  {edges : V → List (V × ℕ)} [Fintype V]

/-- Queue entries and label values left to spend. -/
def potential (cap : ℕ) (st : Search V) : ℕ :=
  st.heap.length + ∑ v, (st.dist v).getD cap

/-- A push is paid for by the label it lowers. -/
theorem relax_potential (u : V) (d : ℕ) (st : Search V) (e : V × ℕ) :
    (st.relax cap le u d e).potential cap ≤ st.potential cap := by
  simp only [relax]
  split
  · rename_i hlt
    have hsum : ∑ v, ((st.dist.insert e.1 (min (d + e.2) cap)) v).getD cap
        < ∑ v, (st.dist v).getD cap := by
      apply Finset.sum_lt_sum
      · intro v _
        rw [Table.insert_apply]
        split
        · rename_i he
          subst he
          exact Nat.le_of_lt hlt
        · exact le_rfl
      · exact ⟨e.1, Finset.mem_univ _, by rw [Table.insert_self]; exact hlt⟩
    simp only [potential, List.orderedInsert_length]
    omega
  · exact le_rfl

theorem relaxAll_potential (u : V) (d : ℕ) (es : List (V × ℕ)) (st : Search V) :
    (es.foldl (relax cap le u d) st).potential cap ≤ st.potential cap := by
  induction es generalizing st with
  | nil => exact le_rfl
  | cons e es ih => exact (ih _).trans (relax_potential u d st e)

theorem visit_potential (st : Search V) (h : st.heap ≠ []) :
    (st.visit cap le edges).potential cap + 1 ≤ st.potential cap := by
  obtain ⟨dist, prev, heap⟩ := st
  cases heap with
  | nil => exact absurd rfl h
  | cons e rest =>
    have hpop : potential cap ⟨dist, prev, rest⟩ + 1 = potential cap ⟨dist, prev, e :: rest⟩ := by
      simp only [potential, List.length_cons]
      omega
    simp only [visit]
    split
    · exact hpop.le
    · have hle : ((edges e.2).foldl (relax cap le e.2 e.1) ⟨dist, prev, rest⟩).potential cap ≤ _ :=
        relaxAll_potential e.2 e.1 (edges e.2) ⟨dist, prev, rest⟩
      omega

/-- The loop ends, with an empty queue, within as many rounds as the potential. -/
theorem run_heap_nil (n : ℕ) (st : Search V) (h : st.potential cap ≤ n) :
    (st.run cap le edges n).heap = [] := by
  induction n generalizing st with
  | zero =>
    apply List.eq_nil_of_length_eq_zero
    simp only [potential] at h
    simp only [run]
    omega
  | succ n ih =>
    simp only [run]
    split
    · assumption
    · rename_i hh
      apply ih
      have hv : (st.visit cap le edges).potential cap + 1 ≤ st.potential cap := by
        apply visit_potential
        simp [hh]
      omega

omit [Fintype V] in
theorem run_of_heap_nil (st : Search V) (h : st.heap = []) (n : ℕ) :
    st.run cap le edges n = st := by
  cases n with
  | zero => rfl
  | succ n => simp only [run, h]

omit [Fintype V] in
theorem run_add (n m : ℕ) (st : Search V) :
    st.run cap le edges (n + m) = (st.run cap le edges n).run cap le edges m := by
  induction n generalizing st with
  | zero => simp only [run, Nat.zero_add]
  | succ n ih =>
    rw [Nat.add_right_comm, run, run]
    split
    · rename_i hh
      exact (run_of_heap_nil st hh m).symm
    · exact ih _

theorem run_eq_of_potential_le (st : Search V) (h : st.potential cap ≤ n) (hnm : n ≤ m) :
    st.run cap le edges m = st.run cap le edges n := by
  obtain ⟨k, rfl⟩ := Nat.exists_eq_add_of_le hnm
  rw [run_add]
  exact run_of_heap_nil _ (run_heap_nil n st h) k

theorem start_potential (s : V) :
    (start s).potential cap ≤ 1 + Fintype.card V * cap := by
  have hle : ∑ v, ((start s).dist v).getD cap ≤ ∑ _v : V, cap := by
    apply Finset.sum_le_sum
    intro v _
    simp only [start, Table.insert_apply]
    split
    · exact Nat.zero_le _
    · exact le_rfl
  rw [Finset.sum_const, smul_eq_mul, Finset.card_univ] at hle
  have hlen : (start s).heap.length = 1 := rfl
  simp only [potential, hlen]
  omega

end Termination

section Correctness
variable {cap : ℕ} {le : ℕ × V → ℕ × V → Prop} [DecidableRel le]
  {edges : V → List (V × ℕ)} [Fintype V] {w : Weights V} {s : V} {M : ℕ}

def found (dist : Table V ℕ) : Finset V := Finset.univ.filter fun v => (dist v).isSome

omit [DecidableEq V] in
theorem mem_found (dist : Table V ℕ) (v : V) : v ∈ found dist ↔ (dist v).isSome := by
  simp only [found, Finset.mem_filter, Finset.mem_univ, true_and]

theorem found_insert (dist : Table V ℕ) (v : V) (d : ℕ) :
    found (dist.insert v d) = Insert.insert v (found dist) := by
  ext x
  rw [mem_found, Table.insert_isSome, Finset.mem_insert, mem_found]

/-- What the loop keeps: labels are walk costs, and every edge out of a labelled vertex is
either relaxed, exempted by `E`, or still to be relaxed by a queued entry. -/
structure Sound (w : Weights V) (s : V) (M : ℕ) (E : V → V → Prop) (st : Search V) : Prop where
  source : st.dist s = some 0
  walk : ∀ v d, st.dist v = some d → ∃ n, Walk w s v n d
  queued : ∀ d v, (d, v) ∈ st.heap → ∃ d', st.dist v = some d' ∧ d' ≤ d
  relaxed : ∀ u d, st.dist u = some d → (d, u) ∈ st.heap ∨
    ∀ v c, w u v = some c → E u v ∨ ∃ d', st.dist v = some d' ∧ d' ≤ d + c
  bounded : ∀ v d, st.dist v = some d → d + M ≤ (found st.dist).card * M

theorem start_sound (w : Weights V) (s : V) (M : ℕ) (E : V → V → Prop) :
    Sound w s M E (start s) := by
  have hd : ∀ v d, (start s).dist v = some d → v = s ∧ d = 0 := by
    intro v d h
    simp only [start, Table.insert_apply, Table.empty_apply] at h
    split at h
    · cases h
      exact ⟨‹_›, rfl⟩
    · cases h
  have hs : (start s).dist s = some 0 := Table.insert_self ..
  constructor
  case source => exact hs
  case walk =>
    intro v d h
    obtain ⟨rfl, rfl⟩ := hd v d h
    exact ⟨0, .nil⟩
  case queued =>
    intro d v h
    simp only [start, List.mem_singleton, Prod.mk.injEq] at h
    obtain ⟨rfl, rfl⟩ := h
    exact ⟨0, hs, le_rfl⟩
  case relaxed =>
    intro u d h
    obtain ⟨rfl, rfl⟩ := hd u d h
    exact .inl (List.mem_singleton.2 rfl)
  case bounded =>
    intro v d h
    obtain ⟨rfl, rfl⟩ := hd v d h
    have hc : 1 ≤ (found (start v).dist).card :=
      Finset.card_pos.2 ⟨v, (mem_found _ _).2 (by rw [hs]; rfl)⟩
    calc 0 + M = 1 * M := by omega
      _ ≤ _ := Nat.mul_le_mul_right M hc

omit [Fintype V] in
theorem label_le_insert {dist : Table V ℕ} (hlow : ∀ d', dist v = some d' → d < d')
    (hx : dist x = some d') : ∃ d'', (dist.insert v d) x = some d'' ∧ d'' ≤ d' := by
  rw [Table.insert_apply]
  split
  next he =>
    subst he
    exact ⟨_, rfl, (hlow d' hx).le⟩
  next => exact ⟨d', hx, le_rfl⟩

omit [Fintype V] in
theorem label_insert_cases {dist : Table V ℕ} (hx : (dist.insert v d) x = some dx) :
    (dx, x) = (d, v) ∨ dist x = some dx := by
  rw [Table.insert_apply] at hx
  split at hx
  next he =>
    cases hx
    exact .inl (by rw [he])
  next => exact .inr hx

omit [DecidableEq V] [Fintype V] in
theorem mem_rest_of_stale {dist : Table V ℕ} {heap : List (ℕ × V)} (hheap : heap = (d, u) :: rest)
    (hstale : (dist u).getD cap < d) (hx : dist x = some dx) (hq : (dx, x) ∈ heap) :
    (dx, x) ∈ rest := by
  rw [hheap] at hq
  rcases List.mem_cons.1 hq with he | hq
  · cases he
    simp only [hx, Option.getD_some, lt_irrefl] at hstale
  · exact hq

theorem Sound.bounded_improve (h : Sound w s M E st) (hu : st.dist u = some d) (hM : c ≤ M)
    (hlow : ∀ d', st.dist v = some d' → d + c < d')
    (hx : (st.dist.insert v (d + c)) x = some d') :
    d' + M ≤ (found (st.dist.insert v (d + c))).card * M := by
  have hb := h.bounded u d hu
  have hmono : (found st.dist).card * M ≤ (Insert.insert v (found st.dist)).card * M :=
    Nat.mul_le_mul_right M (Finset.card_le_card (Finset.subset_insert ..))
  rw [found_insert]
  rw [Table.insert_apply] at hx
  split at hx
  next =>
    cases hx
    cases hv : st.dist v with
    | some dv =>
      have hbv := h.bounded v dv hv
      have hlt := hlow dv hv
      omega
    | none =>
      have hnew : v ∉ found st.dist := by simp [mem_found, hv]
      rw [Finset.card_insert_of_notMem hnew, Nat.succ_mul]
      omega
  next => exact (h.bounded x d' hx).trans hmono

omit [Fintype V] in
theorem relaxed_improve {st : Search V} {E : V → V → Prop} (hu : st.dist u = some d)
    (hw : w u v = some c) (hlow : ∀ d', st.dist v = some d' → d + c < d')
    (hx : st.dist x = some d')
    (hr : ∀ y c', w x y = some c' → E x y ∨ ∃ d₁, st.dist y = some d₁ ∧ d₁ ≤ d' + c')
    (hy : w x y = some c') :
    (E x y ∧ ¬ (x = u ∧ y = v)) ∨
      ∃ d₁, (st.dist.insert v (d + c)) y = some d₁ ∧ d₁ ≤ d' + c' := by
  by_cases hxy : x = u ∧ y = v
  · obtain ⟨rfl, rfl⟩ := hxy
    cases hu.symm.trans hx
    cases hw.symm.trans hy
    exact .inr ⟨_, Table.insert_self .., le_rfl⟩
  · rcases hr y c' hy with hE | ⟨d₁, h₁, hle₁⟩
    · exact .inl ⟨hE, hxy⟩
    · obtain ⟨d₂, h₂, hle₂⟩ := label_le_insert hlow h₁
      exact .inr ⟨d₂, h₂, hle₂.trans hle₁⟩

theorem Sound.improve (h : Sound w s M E st) (hu : st.dist u = some d) (hw : w u v = some c)
    (hM : c ≤ M) (hlow : ∀ d', st.dist v = some d' → d + c < d') :
    Sound w s M (fun x y => E x y ∧ ¬ (x = u ∧ y = v))
      { dist := st.dist.insert v (d + c)
        prev := st.prev.insert v u
        heap := st.heap.orderedInsert le (d + c, v) } := by
  constructor
  case source =>
    obtain ⟨d', hd', hle⟩ := label_le_insert hlow h.source
    rwa [Nat.le_zero.1 hle] at hd'
  case walk =>
    intro x d' hx
    simp only [Table.insert_apply] at hx
    split at hx
    next he =>
      cases hx
      subst he
      obtain ⟨n, hn⟩ := h.walk u d hu
      exact ⟨n + 1, hn.snoc hw⟩
    next => exact h.walk x d' hx
  case queued =>
    intro d' x hx
    simp only [List.mem_orderedInsert] at hx
    rcases hx with he | hx
    · cases he
      exact ⟨d + c, Table.insert_self .., le_rfl⟩
    · obtain ⟨d₁, h₁, hle₁⟩ := h.queued d' x hx
      obtain ⟨d₂, h₂, hle₂⟩ := label_le_insert hlow h₁
      exact ⟨d₂, h₂, hle₂.trans hle₁⟩
  case relaxed =>
    intro x d' hx
    simp only [List.mem_orderedInsert]
    rcases label_insert_cases hx with he | hx
    · exact .inl (.inl he)
    · rcases h.relaxed x d' hx with hq | hr
      · exact .inl (.inr hq)
      · exact .inr fun y c' hy => relaxed_improve hu hw hlow hx hr hy
  case bounded => exact fun x d' hx => h.bounded_improve hu hM hlow hx

theorem Sound.keep (h : Sound w s M E st) (hu : st.dist u = some d) (hw : w u v = some c)
    (hv : st.dist v = some d') (hle : d' ≤ d + c) :
    Sound w s M (fun x y => E x y ∧ ¬ (x = u ∧ y = v)) st := by
  refine ⟨h.source, h.walk, h.queued, ?_, h.bounded⟩
  intro x dx hx
  refine (h.relaxed x dx hx).imp_right fun hr y c' hy => ?_
  by_cases hxy : x = u ∧ y = v
  · obtain ⟨rfl, rfl⟩ := hxy
    rw [hu] at hx
    rw [hw] at hy
    cases hx
    cases hy
    exact .inr ⟨d', hv, hle⟩
  · exact (hr y c' hy).imp_left fun hE => ⟨hE, hxy⟩

variable (le) in
/-- Relaxing the edge from `u` to `v` lowers the label of `v` or finds it low enough; it never
reaches the saturation cap. -/
theorem Sound.relax_cases (h : Sound w s M E st) (hu : st.dist u = some d) (hM : c ≤ M)
    (hcap : Fintype.card V * M < cap) :
    (u ≠ v ∧ (∀ d', st.dist v = some d' → d + c < d') ∧ st.relax cap le u d (v, c) =
        { dist := st.dist.insert v (d + c)
          prev := st.prev.insert v u
          heap := st.heap.orderedInsert le (d + c, v) }) ∨
      (∃ d', st.dist v = some d' ∧ d' ≤ d + c) ∧ st.relax cap le u d (v, c) = st := by
  have hfound : (found st.dist).card * M ≤ Fintype.card V * M :=
    Nat.mul_le_mul_right M (Finset.card_le_univ _)
  have hb := h.bounded u d hu
  have hmin : min (d + c) cap = d + c := by omega
  simp only [Search.relax, hmin]
  split
  · rename_i hlt
    have hlow : ∀ d', st.dist v = some d' → d + c < d' := by
      intro d' hd'
      rwa [hd', Option.getD_some] at hlt
    have hne : u ≠ v := by
      rintro rfl
      have := hlow d hu
      omega
    exact .inl ⟨hne, hlow, rfl⟩
  · rename_i hge
    refine .inr ⟨?_, rfl⟩
    cases hv : st.dist v with
    | some d' =>
      rw [hv, Option.getD_some] at hge
      exact ⟨d', rfl, Nat.le_of_not_lt hge⟩
    | none =>
      rw [hv, Option.getD_none] at hge
      omega

theorem Sound.relax (h : Sound w s M E st) (hu : st.dist u = some d) (hw : w u v = some c)
    (hM : c ≤ M) (hcap : Fintype.card V * M < cap) :
    Sound w s M (fun x y => E x y ∧ ¬ (x = u ∧ y = v)) (st.relax cap le u d (v, c)) ∧
      (st.relax cap le u d (v, c)).dist u = some d := by
  rcases h.relax_cases le hu hM hcap with ⟨hne, hlow, heq⟩ | ⟨⟨d', hv, hle⟩, heq⟩
  · rw [heq]
    exact ⟨h.improve hu hw hM hlow, (Table.insert_of_ne _ _ hne).trans hu⟩
  · rw [heq]
    exact ⟨h.keep hu hw hv hle, hu⟩

theorem Sound.relaxAll {es : List (V × ℕ)} (h : Sound w s M E st) (hu : st.dist u = some d)
    (hes : ∀ e ∈ es, w u e.1 = some e.2) (hM : ∀ e ∈ es, e.2 ≤ M)
    (hcap : Fintype.card V * M < cap) :
    Sound w s M (fun x y => E x y ∧ ¬ (x = u ∧ ∃ c, (y, c) ∈ es))
      (es.foldl (Search.relax cap le u d) st) := by
  induction es generalizing st E with
  | nil => simpa using h
  | cons e es ih =>
    obtain ⟨h₁, hu₁⟩ : Sound w s M _ (st.relax cap le u d e) ∧ _ :=
      h.relax hu (hes e (.head _)) (hM e (.head _)) hcap
    have h₂ := ih h₁ hu₁ (fun e he => hes e (.tail _ he)) (fun e he => hM e (.tail _ he))
    refine ⟨h₂.source, h₂.walk, h₂.queued, ?_, h₂.bounded⟩
    intro x d' hx
    refine (h₂.relaxed x d' hx).imp_right fun hr y c hy => (hr y c hy).imp_left ?_
    rintro ⟨⟨hE, hne⟩, hnot⟩
    refine ⟨hE, ?_⟩
    rintro ⟨rfl, c', hc'⟩
    rcases List.mem_cons.1 hc' with he | hmem
    · exact hne ⟨rfl, congrArg Prod.fst he⟩
    · exact hnot ⟨rfl, c', hmem⟩

omit [DecidableEq V] in
theorem Sound.pop_stale (h : Sound w s M E st) (hheap : st.heap = (d, u) :: rest)
    (hstale : (st.dist u).getD cap < d) : Sound w s M E { st with heap := rest } := by
  have hmem : ∀ e ∈ rest, e ∈ st.heap := fun e he => hheap ▸ .tail _ he
  refine ⟨h.source, h.walk, fun d v hv => h.queued d v (hmem _ hv), ?_, h.bounded⟩
  intro x dx hx
  exact (h.relaxed x dx hx).imp_left (mem_rest_of_stale hheap hstale hx)

omit [DecidableEq V] in
theorem Sound.pop_fresh (h : Sound w s M (fun _ _ => False) st)
    (hheap : st.heap = (d, u) :: rest) (hfresh : ¬ (st.dist u).getD cap < d) :
    st.dist u = some d ∧ Sound w s M (fun x _ => x = u) { st with heap := rest } := by
  have hmem : ∀ e ∈ rest, e ∈ st.heap := fun e he => hheap ▸ .tail _ he
  obtain ⟨d', hd', hle⟩ := h.queued d u (hheap ▸ .head _)
  rw [hd', Option.getD_some] at hfresh
  refine ⟨by rw [hd', Nat.le_antisymm hle (Nat.le_of_not_lt hfresh)], h.source, h.walk,
    fun d v hv => h.queued d v (hmem _ hv), ?_, h.bounded⟩
  intro x dx hx
  by_cases hxu : x = u
  · exact .inr fun _ _ _ => .inl hxu
  · refine (h.relaxed x dx hx).imp (fun hq => ?_) fun hr v c hv => .inr ?_
    · rw [hheap] at hq
      rcases List.mem_cons.1 hq with he | hq
      · exact absurd (congrArg Prod.snd he) hxu
      · exact hq
    · exact (hr v c hv).resolve_left id

theorem Sound.visit (h : Sound w s M (fun _ _ => False) st)
    (hedges : ∀ u v c, (v, c) ∈ edges u ↔ w u v = some c)
    (hM : ∀ u v c, w u v = some c → c ≤ M) (hcap : Fintype.card V * M < cap) :
    Sound w s M (fun _ _ => False) (st.visit cap le edges) := by
  obtain ⟨dist, prev, heap⟩ := st
  cases heap with
  | nil => exact h
  | cons e rest =>
    obtain ⟨d, u⟩ := e
    simp only [Search.visit]
    split
    · rename_i hstale
      exact h.pop_stale rfl hstale
    · rename_i hfresh
      obtain ⟨hu, h₁⟩ := h.pop_fresh rfl hfresh
      have h₂ : Sound w s M _ ((edges u).foldl (Search.relax cap le u d) _) := h₁.relaxAll hu
        (fun e he => (hedges u e.1 e.2).1 he)
        (fun e he => hM u e.1 e.2 ((hedges u e.1 e.2).1 he)) hcap
      refine ⟨h₂.source, h₂.walk, h₂.queued, ?_, h₂.bounded⟩
      intro x dx hx
      refine (h₂.relaxed x dx hx).imp_right fun hr v c hv => .inr ?_
      refine (hr v c hv).resolve_left ?_
      rintro ⟨rfl, hnot⟩
      exact hnot ⟨rfl, c, (hedges x v c).2 hv⟩

theorem Sound.run (h : Sound w s M (fun _ _ => False) st)
    (hedges : ∀ u v c, (v, c) ∈ edges u ↔ w u v = some c)
    (hM : ∀ u v c, w u v = some c → c ≤ M) (hcap : Fintype.card V * M < cap) (n : ℕ) :
    Sound w s M (fun _ _ => False) (st.run cap le edges n) := by
  induction n generalizing st with
  | zero => exact h
  | succ n ih =>
    simp only [Search.run]
    split
    · exact h
    · exact ih (h.visit hedges hM hcap)

/-- What it takes that the loop keeps `P` beside its own invariant: `Q d u` is what stands while
the edges of `u`, popped at cost `d`, are relaxed. -/
structure Keeps (cap : ℕ) (le : ℕ × V → ℕ × V → Prop) [DecidableRel le] (w : Weights V) (s : V)
    (M : ℕ) (P : Search V → Prop) (Q : ℕ → V → Search V → Prop) : Prop where
  stale : ∀ st d u rest, P st → st.heap = (d, u) :: rest → (st.dist u).getD cap < d →
    P { st with heap := rest }
  fresh : ∀ st d u rest, P st → st.heap = (d, u) :: rest → Q d u { st with heap := rest }
  relax : ∀ E st d u v c, Q d u st → Sound w s M E st → (∀ x y, E x y → x = u) →
    st.dist u = some d → w u v = some c → c ≤ M → Q d u (st.relax cap le u d (v, c))
  done : ∀ st d u, Q d u st → P st

variable {P : Search V → Prop} {Q : ℕ → V → Search V → Prop}

theorem Keeps.relaxAll {es : List (V × ℕ)} (hk : Keeps cap le w s M P Q) (h : Q d u st)
    (hs : Sound w s M E st) (hE : ∀ x y, E x y → x = u) (hu : st.dist u = some d)
    (hes : ∀ e ∈ es, w u e.1 = some e.2) (hM : ∀ e ∈ es, e.2 ≤ M)
    (hcap : Fintype.card V * M < cap) : Q d u (es.foldl (Search.relax cap le u d) st) := by
  induction es generalizing st E with
  | nil => exact h
  | cons e es ih =>
    rw [List.forall_mem_cons] at hes hM
    obtain ⟨hs₁, hu₁⟩ : Sound w s M _ (st.relax cap le u d e) ∧ _ :=
      hs.relax hu hes.1 hM.1 hcap
    have h₁ := hk.relax E st d u e.1 e.2 h hs hE hu hes.1 hM.1
    exact ih h₁ hs₁ (fun x y hxy => hE x y hxy.1) hu₁ hes.2 hM.2

theorem Keeps.visit (hk : Keeps cap le w s M P Q) (h : P st)
    (hs : Sound w s M (fun _ _ => False) st)
    (hedges : ∀ u v c, (v, c) ∈ edges u ↔ w u v = some c)
    (hM : ∀ u v c, w u v = some c → c ≤ M) (hcap : Fintype.card V * M < cap) :
    P (st.visit cap le edges) := by
  obtain ⟨dist, prev, heap⟩ := st
  cases heap with
  | nil => exact h
  | cons e rest =>
    obtain ⟨d, u⟩ := e
    simp only [Search.visit]
    split
    next hstale => exact hk.stale _ d u rest h rfl hstale
    next hfresh =>
      obtain ⟨hu, hs₁⟩ := hs.pop_fresh rfl hfresh
      apply hk.done _ d u
      exact hk.relaxAll (hk.fresh _ d u rest h rfl) hs₁ (fun _ _ he => he) hu
        (fun e he => (hedges u e.1 e.2).1 he)
        (fun e he => hM u e.1 e.2 ((hedges u e.1 e.2).1 he)) hcap

theorem Keeps.run (hk : Keeps cap le w s M P Q) (h : P st)
    (hs : Sound w s M (fun _ _ => False) st)
    (hedges : ∀ u v c, (v, c) ∈ edges u ↔ w u v = some c)
    (hM : ∀ u v c, w u v = some c → c ≤ M) (hcap : Fintype.card V * M < cap) (n : ℕ) :
    P (st.run cap le edges n) := by
  induction n generalizing st with
  | zero => exact h
  | succ n ih =>
    simp only [Search.run]
    split
    · exact h
    · exact ih (hk.visit h hs hedges hM hcap) (hs.visit hedges hM hcap)

omit [DecidableEq V] in
/-- With an empty queue the labels are the least walk costs, for exactly the reached vertices. -/
theorem Sound.isLeast (h : Sound w s M (fun _ _ => False) st) (hnil : st.heap = []) :
    (∀ v d, st.dist v = some d → IsLeast (walkCosts w s v) d) ∧
      ∀ v, (st.dist v).isSome ↔ Reaches w s v := by
  have hlabel : ∀ v n d, Walk w s v n d → ∃ d', st.dist v = some d' ∧ d' ≤ d := by
    intro v n d hw
    refine hw.label_le h.source ?_
    intro u du v c hu hc
    rcases h.relaxed u du hu with hq | hr
    · simp [hnil] at hq
    · exact (hr v c hc).resolve_left id
  constructor
  · intro v d hd
    refine ⟨h.walk v d hd, ?_⟩
    rintro d' ⟨n, hn⟩
    obtain ⟨d'', hd'', hle⟩ := hlabel v n d' hn
    rw [hd] at hd''
    cases hd''
    exact hle
  · intro v
    constructor
    · intro hv
      obtain ⟨d, hd⟩ := Option.isSome_iff_exists.1 hv
      obtain ⟨n, hn⟩ := h.walk v d hd
      exact ⟨n, d, hn⟩
    · rintro ⟨n, d, hn⟩
      obtain ⟨d', hd', -⟩ := hlabel v n d hn
      simp [hd']

end Correctness
end Search
end TacticalMesh
