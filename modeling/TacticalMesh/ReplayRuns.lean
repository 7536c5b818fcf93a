import Mathlib.Data.List.Induction
import TacticalMesh.NonceCache

namespace TacticalMesh
set_option autoImplicit true

namespace NonceCache

def after (cache : NonceCache) (calls : List Check) : NonceCache :=
  calls.foldl (fun c x => (c.check x).1) cache

theorem after_append (cache : NonceCache) (p q : List Check) :
    cache.after (p ++ q) = (cache.after p).after q := List.foldl_append

theorem after_concat (cache : NonceCache) (p : List Check) (w : Check) :
    cache.after (p ++ [w]) = ((cache.after p).check w).1 := by
  rw [after_append]
  rfl

def AcceptedAt (cache : NonceCache) (calls : List Check) (k : FrameKey) (i : ℕ) : Prop :=
  ∃ a x b, calls = a ++ x :: b ∧ accepts (cache.after a) x ∧ x.key = k ∧ x.localTimeMs = i

theorem AcceptedAt.append (h : AcceptedAt cache p k i) (q : List Check) :
    AcceptedAt cache (p ++ q) k i := by
  obtain ⟨a, x, b, rfl, hx⟩ := h
  exact ⟨a, x, b ++ q, by simp, hx⟩

theorem acceptedAt_concat (h : accepts (after cache p) w) :
    AcceptedAt cache (p ++ [w]) w.key w.localTimeMs := ⟨p, w, [], rfl, h, rfl, rfl⟩

theorem seen_after (p : List Check) (h : (after cache p).seen k = some i) :
    cache.seen k = some i ∨ AcceptedAt cache p k i := by
  induction p using List.reverseRecOn with
  | nil => exact .inl h
  | append_singleton p w ih =>
    rw [after_concat] at h
    by_cases hw : accepts (after cache p) w
    · rw [seen_after_accept hw] at h
      rcases h with ⟨rfl, rfl⟩ | ⟨-, h, -⟩
      · exact .inr (acceptedAt_concat hw)
      · exact (ih h).imp_right fun h => h.append _
    · rw [check_of_not_accepts hw] at h
      exact (ih h).imp_right fun h => h.append _

theorem accepted_of_inWindow (p : List Check) (hw : w.inWindow) (hnone : cache.seen w.key = none) :
    ∃ i, AcceptedAt cache (p ++ [w]) w.key i := by
  cases hseen : (after cache p).seen w.key with
  | none => exact ⟨_, acceptedAt_concat (accepts_iff.2 ⟨hw, hseen⟩)⟩
  | some i =>
    rcases seen_after p hseen with h | h
    · rw [hnone] at h
      cases h
    · exact ⟨i, h.append _⟩

theorem accepted_of_replayed (p : List Check)
    (h : ((new.after p).check w).2 = .error .replayedNonce) : ∃ i, AcceptedAt new p w.key i := by
  obtain ⟨-, hsome⟩ := check_replayed_iff.1 h
  obtain ⟨i, hseen⟩ := Option.isSome_iff_exists.1 hsome
  exact ⟨i, (seen_after p hseen).resolve_left nofun⟩

theorem accepts_or_replayed (hw : w.inWindow) :
    accepts cache w ∨ (cache.check w).2 = .error .replayedNonce := by
  cases hseen : cache.seen w.key with
  | none => exact .inl (accepts_iff.2 ⟨hw, hseen⟩)
  | some i => exact .inr (check_replayed_iff.2 ⟨hw, Option.isSome_of_eq_some hseen⟩)

theorem retained_after_accept (p : List Check) (hacc : accepts (new.after p) w)
    (hseen : ((new.after p).check w).1.seen k = some i) :
    AcceptedAt new (p ++ [w]) k i ∧ w.localTimeMs - i < nonceCacheTtlMs := by
  rw [seen_after_accept hacc] at hseen
  rcases hseen with ⟨rfl, rfl⟩ | ⟨-, hseen, hlt⟩
  · refine ⟨acceptedAt_concat hacc, ?_⟩
    rw [Nat.sub_self, nonceCacheTtlMs]
    exact Nat.succ_pos _
  · exact ⟨((seen_after p hseen).resolve_left nofun).append [w], hlt⟩

/-- However the clock jumps: only replays are rejected as such, everything else in the window is
accepted, a rejection changes nothing, and an acceptance leaves nothing old behind. -/
theorem rejections_exact (p : List Check) (w : Check) :
    (((new.after p).check w).2 = .error .replayedNonce → ∃ i, AcceptedAt new p w.key i) ∧
    (w.inWindow →
      accepts (new.after p) w ∨ ((new.after p).check w).2 = .error .replayedNonce) ∧
    (¬ accepts (new.after p) w → ((new.after p).check w).1 = new.after p) ∧
    (accepts (new.after p) w → ∀ k i, ((new.after p).check w).1.seen k = some i →
      AcceptedAt new (p ++ [w]) k i ∧ w.localTimeMs - i < nonceCacheTtlMs) := by
  refine ⟨accepted_of_replayed p, accepts_or_replayed, check_of_not_accepts, ?_⟩
  intro hacc k i hseen
  exact retained_after_accept p hacc hseen

theorem kept_or_evicted (b : List Check) (hx : accepts (after cache a) x)
    (hle : ∀ w ∈ b, x.localTimeMs ≤ w.localTimeMs) :
    (∃ i, x.localTimeMs ≤ i ∧ (cache.after (a ++ x :: b)).seen x.key = some i) ∨
      ∃ b₁ z b₂, b = b₁ ++ z :: b₂ ∧ accepts (cache.after (a ++ x :: b₁)) z ∧
        x.localTimeMs + nonceCacheTtlMs ≤ z.localTimeMs := by
  induction b using List.reverseRecOn with
  | nil =>
    refine .inl ⟨x.localTimeMs, le_refl _, ?_⟩
    rw [after_concat, seen_after_accept hx]
    exact .inl ⟨rfl, rfl⟩
  | append_singleton b w ih =>
    have hw := hle w (by simp)
    rcases ih fun v hv => hle v (List.mem_append_left _ hv) with ⟨i, hi, hseen⟩ | hev
    · have hcons : a ++ x :: (b ++ [w]) = (a ++ x :: b) ++ [w] := by simp
      rw [hcons, after_concat]
      by_cases hacc : accepts (cache.after (a ++ x :: b)) w
      · by_cases hold : w.localTimeMs - i < nonceCacheTtlMs
        · left
          by_cases hkey : x.key = w.key
          · refine ⟨w.localTimeMs, hw, ?_⟩
            rw [seen_after_accept hacc]
            exact .inl ⟨hkey, rfl⟩
          · refine ⟨i, hi, ?_⟩
            rw [seen_after_accept hacc]
            exact .inr ⟨hkey, hseen, hold⟩
        · refine .inr ⟨b, w, [], rfl, hacc, ?_⟩
          simp only [nonceCacheTtlMs] at hold ⊢
          omega
      · rw [check_of_not_accepts hacc]
        exact .inl ⟨i, hi, hseen⟩
    · obtain ⟨b₁, z, b₂, rfl, hz⟩ := hev
      exact .inr ⟨b₁, z, b₂ ++ [w], by simp, hz⟩

def NeverTwice (calls : List Check) : Prop :=
  ∀ a x b y c, calls = a ++ x :: (b ++ y :: c) → x.key = y.key →
    accepts (new.after a) x → ¬ accepts (new.after (a ++ x :: b)) y

/-- A key dated thirty seconds ahead of the clock is checked, and then checked again sixty
seconds later, after the first check of some other key at that same time. -/
def ReopensWindow (calls : List Check) : Prop :=
  ∃ a x b z d y c, calls = a ++ x :: (b ++ z :: (d ++ y :: c)) ∧ x.key = y.key ∧
    x.key.2.1 = x.localTimeMs + timeWindowMs ∧
    z.localTimeMs = x.localTimeMs + nonceCacheTtlMs ∧ y.localTimeMs = z.localTimeMs ∧
    z.inWindow ∧ ∀ w ∈ a ++ x :: b, w.key = z.key → ¬ w.inWindow

def Nondecreasing (calls : List Check) : Prop :=
  calls.Pairwise fun x y => x.localTimeMs ≤ y.localTimeMs

theorem ReopensWindow.concat (h : ReopensWindow p) (w : Check) : ReopensWindow (p ++ [w]) := by
  obtain ⟨a, x, b, z, d, y, c, rfl, h⟩ := h
  exact ⟨a, x, b, z, d, y, c ++ [w], by simp, h⟩

theorem NeverTwice.initial (h : NeverTwice (p ++ q)) : NeverTwice p := by
  rintro a x b y c rfl
  exact h a x b y (c ++ q) (by simp)

theorem NeverTwice.fresh (h : NeverTwice (p ++ [z])) (hz : accepts (new.after p) z)
    (hw : w ∈ p) (hkey : w.key = z.key) : ¬ w.inWindow := by
  intro hwin
  obtain ⟨q, r, rfl⟩ := List.append_of_mem hw
  obtain ⟨i, a, x, b, hqw, hx, hxk, -⟩ := accepted_of_inWindow q hwin (rfl : new.seen w.key = none)
  have hp : q ++ w :: r ++ [z] = a ++ x :: (b ++ r ++ z :: []) := by
    calc q ++ w :: r ++ [z] = (q ++ [w]) ++ r ++ [z] := by simp
      _ = (a ++ x :: b) ++ r ++ [z] := by rw [hqw]
      _ = a ++ x :: (b ++ r ++ z :: []) := by simp
  apply h _ _ _ _ _ hp (hxk.trans hkey) hx
  have hq : a ++ x :: (b ++ r) = q ++ w :: r := by
    calc a ++ x :: (b ++ r) = (a ++ x :: b) ++ r := by simp
      _ = q ++ w :: r := by rw [← hqw]; simp
  rwa [hq]

/-- The first key that is accepted a second time has just reopened its window. -/
theorem reopens_of_accepted_twice (hmono : Nondecreasing (p ++ [y])) (hp : NeverTwice p)
    (hsplit : p = a ++ x :: b) (hkey : x.key = y.key) (hx : accepts (new.after a) x)
    (hy : accepts (new.after p) y) : ReopensWindow (p ++ [y]) := by
  have hcons : p ++ [y] = a ++ x :: (b ++ [y]) := by simp [hsplit]
  rw [hcons, Nondecreasing, List.pairwise_append] at hmono
  obtain ⟨-, hmono, -⟩ := hmono
  obtain ⟨hle, hmono⟩ := List.pairwise_cons.1 hmono
  rcases kept_or_evicted b hx fun w hw => hle w (List.mem_append_left _ hw) with
    ⟨i, -, hseen⟩ | ⟨b₁, z, d, rfl, hz, hxz⟩
  · rw [← hsplit, hkey, (accepts_iff.1 hy).2] at hseen
    cases hseen
  · have hzy : z.localTimeMs ≤ y.localTimeMs := by
      rw [List.append_assoc, List.pairwise_append, List.cons_append,
        List.pairwise_cons] at hmono
      exact hmono.2.1.1 y (by simp)
    have hxwin := (accepts_iff.1 hx).1
    have hywin := (accepts_iff.1 hy).1
    rw [Check.inWindow, absDiff, timeWindowMs] at hxwin hywin
    rw [← hkey] at hywin
    rw [nonceCacheTtlMs] at hxz
    refine ⟨a, x, b₁, z, d, y, [], by simp [hsplit], hkey, ?_, ?_, ?_, (accepts_iff.1 hz).1, ?_⟩
    · rw [timeWindowMs]
      omega
    · rw [nonceCacheTtlMs]
      omega
    · omega
    · intro w hw hwz
      have hz' : NeverTwice (a ++ x :: b₁ ++ [z]) := by
        apply NeverTwice.initial (q := d)
        rw [hsplit] at hp
        simpa using hp
      exact hz'.fresh hz hw hwz

theorem neverTwice_concat (hp : NeverTwice p)
    (hy : ∀ a x b, p = a ++ x :: b → x.key = y.key → accepts (new.after a) x →
      ¬ accepts (new.after p) y) : NeverTwice (p ++ [y]) := by
  intro a x b v c hsplit hkey hx
  rcases List.eq_nil_or_concat c with rfl | ⟨c, w, rfl⟩
  · have heq : p ++ [y] = (a ++ x :: b) ++ [v] := by simp [hsplit]
    obtain ⟨rfl, hv⟩ := List.append_inj' heq rfl
    cases hv
    exact hy a x b rfl hkey hx
  · have heq : p ++ [y] = (a ++ x :: (b ++ v :: c)) ++ [w] := by simp [hsplit]
    obtain ⟨rfl, -⟩ := List.append_inj' heq rfl
    exact hp a x b v c rfl hkey hx

theorem neverTwice_or_reopens (calls : List Check) (hmono : Nondecreasing calls) :
    NeverTwice calls ∨ ReopensWindow calls := by
  induction calls using List.reverseRecOn with
  | nil =>
    left
    intro a x b y c h
    simp at h
  | append_singleton p y ih =>
    have hp := ih (List.pairwise_append.1 hmono).1
    rcases hp with hp | hp
    · by_cases hy : ∃ a x b, p = a ++ x :: b ∧ x.key = y.key ∧ accepts (new.after a) x ∧
          accepts (new.after p) y
      · obtain ⟨a, x, b, hsplit, hkey, hx, hacc⟩ := hy
        exact .inr (reopens_of_accepted_twice hmono hp hsplit hkey hx hacc)
      · left
        apply neverTwice_concat hp
        intro a x b hsplit hkey hx hacc
        exact hy ⟨a, x, b, hsplit, hkey, hx, hacc⟩
    · exact .inr (hp.concat y)

theorem forgotten (hz : accepts cache z) (hk : k ≠ z.key)
    (hold : ∀ i, cache.seen k = some i → i + nonceCacheTtlMs ≤ z.localTimeMs) :
    (cache.check z).1.seen k = none := by
  cases hseen : (cache.check z).1.seen k with
  | none => rfl
  | some i =>
    rw [seen_after_accept hz] at hseen
    rcases hseen with ⟨h, -⟩ | ⟨-, h, hlt⟩
    · exact absurd h hk
    · have := hold i h
      omega

theorem NeverTwice.not_both (h : NeverTwice (p ++ q)) (hp : AcceptedAt new p k i)
    (hq : AcceptedAt (new.after p) q k j) : False := by
  obtain ⟨a, x, b, rfl, hx, hxk, -⟩ := hp
  obtain ⟨a', y, b', rfl, hy, hyk, -⟩ := hq
  rw [← after_append] at hy
  have heq : a ++ x :: b ++ (a' ++ y :: b') = a ++ x :: (b ++ a' ++ y :: b') := by simp
  apply h _ _ _ _ _ heq (hxk.trans hyk.symm) hx
  simpa using hy

theorem AcceptedAt.le (hp : Nondecreasing (p ++ w :: q)) (h : AcceptedAt cache (p ++ [w]) k i) :
    i ≤ w.localTimeMs := by
  obtain ⟨a, x, b, hsplit, -, -, rfl⟩ := h
  have hx : x ∈ p ++ [w] := by simp [hsplit]
  rcases List.mem_append.1 hx with hx | hx
  · exact (List.pairwise_append.1 hp).2.2 x hx w (by simp)
  · rw [List.mem_singleton.1 hx]

theorem ReopensWindow.accepted_twice (h : ReopensWindow calls) (hmono : Nondecreasing calls) :
    ¬ NeverTwice calls := by
  intro hnever
  obtain ⟨a, x, b, z, d, y, c, rfl, hkey, hts, hzt, hyt, hzwin, hfresh⟩ := h
  rw [timeWindowMs] at hts
  rw [nonceCacheTtlMs] at hzt
  have hxwin : x.inWindow := by
    rw [Check.inWindow, absDiff, timeWindowMs]
    omega
  have hywin : y.inWindow := by
    rw [Check.inWindow, absDiff, timeWindowMs, ← hkey]
    omega
  have hxz : x.key ≠ z.key := fun he => hfresh x (by simp) he hxwin
  obtain ⟨i, hx⟩ := accepted_of_inWindow a hxwin (rfl : new.seen x.key = none)
  have hz : accepts (new.after (a ++ x :: b)) z := by
    refine accepts_iff.2 ⟨hzwin, Option.eq_none_iff_forall_ne_some.2 fun j hj => ?_⟩
    obtain hnew | ⟨a', w, b', hsplit, hw, hwk, -⟩ := seen_after _ hj
    · cases hnew
    · exact hfresh w (by simp [hsplit]) hwk (accepts_iff.1 hw).1
  have hcons : a ++ x :: b = (a ++ [x]) ++ b := by simp
  have hold : ∀ j, (new.after (a ++ x :: b)).seen x.key = some j →
      j + nonceCacheTtlMs ≤ z.localTimeMs := by
    intro j hj
    rw [hcons, after_append] at hj
    have hj' : AcceptedAt new (a ++ [x]) x.key j := by
      rcases seen_after b hj with h | h
      · exact (seen_after _ h).resolve_left nofun
      · have hpre : NeverTwice ((a ++ [x]) ++ b) := by
          apply NeverTwice.initial (q := z :: (d ++ y :: c))
          simpa using hnever
        exact (hpre.not_both hx h).elim
    have hle := hj'.le hmono
    rw [nonceCacheTtlMs]
    omega
  have hnone := forgotten hz hxz hold
  rw [← after_concat, hkey] at hnone
  obtain ⟨j, hy⟩ := accepted_of_inWindow d hywin hnone
  have hpre : NeverTwice ((a ++ x :: b ++ [z]) ++ (d ++ [y])) := by
    apply NeverTwice.initial (q := c)
    simpa using hnever
  have hx' := (hx.append b).append [z]
  rw [← hcons, hkey] at hx'
  exact hpre.not_both hx' hy

/-- Replay protection holds in a run exactly when no check reopens a window. -/
theorem neverTwice_iff (calls : List Check) (hmono : Nondecreasing calls) :
    NeverTwice calls ↔ ¬ ReopensWindow calls := by
  constructor
  · intro h hre
    exact hre.accepted_twice hmono h
  · intro h
    exact (neverTwice_or_reopens calls hmono).resolve_right h

def zeroNonce : Nonce := Vector.replicate 12 0

/-- A frame dated thirty seconds ahead, its replay a minute later, and the frame in between. -/
def reopening : List Check :=
  [⟨(1, 30000, zeroNonce), 0⟩, ⟨(2, 60000, zeroNonce), 60000⟩, ⟨(1, 30000, zeroNonce), 60000⟩]

theorem reopening_neverTwice_iff :
    Nondecreasing reopening ∧ (NeverTwice reopening ↔ ¬ ReopensWindow reopening) := by
  have hmono : Nondecreasing reopening := by
    rw [Nondecreasing]
    decide
  exact ⟨hmono, neverTwice_iff reopening hmono⟩

theorem replay_accepted_twice : Nondecreasing reopening ∧ ¬ NeverTwice reopening := by
  constructor
  · rw [Nondecreasing]
    decide
  · intro h
    exact h [] _ [_] _ [] rfl rfl (by decide) (by decide)

end NonceCache
end TacticalMesh
