import Mathlib.Data.List.Basic
import Mathlib.Order.Defs.LinearOrder

namespace TacticalMesh
set_option autoImplicit true

def recent (span now : ℕ) (events : List (ℕ × α)) : List (ℕ × α) :=
  events.filter fun e => now - e.1 ≤ span

def InOrder (events : List (ℕ × α)) : Prop := events.Pairwise fun e e' => e.1 ≤ e'.1

theorem InOrder.dropWhile_eq {events : List (ℕ × α)} (h : InOrder events) :
    (events.dropWhile fun e => span < now - e.1) = recent span now events := by
  induction events with
  | nil => rfl
  | cons e events ih =>
    obtain ⟨hhead, htail⟩ := List.pairwise_cons.1 h
    rw [List.dropWhile_cons]
    split
    next hold =>
      have hnot : ¬ now - e.1 ≤ span := Nat.not_le.2 (of_decide_eq_true hold)
      rw [ih htail, recent, recent, List.filter_cons_of_neg (by simpa using hnot)]
    next hold =>
      have hnew : now - e.1 ≤ span := by simpa using hold
      have hall : ∀ e' ∈ e :: events, now - e'.1 ≤ span := by
        intro e' he'
        rcases List.mem_cons.1 he' with rfl | he'
        · exact hnew
        · exact Nat.le_trans (Nat.sub_le_sub_left (hhead e' he') now) hnew
      rw [recent, List.filter_eq_self.2]
      exact fun e' he' => decide_eq_true (hall e' he')

theorem InOrder.concat {events : List (ℕ × α)} (h : InOrder events)
    (hlast : ∀ e' ∈ events, e'.1 ≤ e.1) : InOrder (events ++ [e]) :=
  List.pairwise_append.2 ⟨h, List.pairwise_singleton _ _, fun e' he' _ hmem =>
    List.mem_singleton.1 hmem ▸ hlast e' he'⟩

theorem recent_recent {events : List (ℕ × α)} (hle : t ≤ now) :
    recent span now (recent span t events) = recent span now events := by
  rw [recent, recent, List.filter_filter]
  apply List.filter_congr
  intro e _
  rw [Bool.and_eq_left_iff_imp]
  simp only [decide_eq_true_eq]
  exact Nat.le_trans (Nat.sub_le_sub_right hle e.1)

end TacticalMesh
