import TacticalMesh.Table
import TacticalMesh.WireHeaders

namespace TacticalMesh
set_option autoImplicit true

def timeWindowMs : ℕ := 30000

def nonceCacheTtlMs : ℕ := 60000

abbrev Nonce := Vector UInt8 12

/-- What identifies a frame for replay protection: its source, its time stamp and its nonce. -/
abbrev FrameKey := UInt8 × ℕ × Nonce

structure NonceCache where
  seen : Table FrameKey ℕ

namespace NonceCache

def new : NonceCache := ⟨.empty⟩

def absDiff (a b : ℕ) : ℕ := max a b - min a b

def evict (cache : NonceCache) (now : ℕ) : NonceCache :=
  ⟨cache.seen.retain fun _ insertedAt => now - insertedAt < nonceCacheTtlMs⟩

def checkAndInsert (cache : NonceCache) (src : UInt8) (tsMs : ℕ) (nonce : Nonce)
    (localTimeMs : ℕ) : NonceCache × Except FrameError Unit :=
  if timeWindowMs < absDiff localTimeMs tsMs then (cache, .error .timeWindowExpired)
  else if (cache.seen (src, tsMs, nonce)).isSome then (cache, .error .replayedNonce)
  else (⟨(cache.evict localTimeMs).seen.insert (src, tsMs, nonce) localTimeMs⟩, .ok ())

/-- A call of `check_and_insert`: a frame key and the clock reading it is checked at. -/
structure Check where
  key : FrameKey
  localTimeMs : ℕ
  deriving DecidableEq, Repr

def Check.inWindow (c : Check) : Prop := absDiff c.localTimeMs c.key.2.1 ≤ timeWindowMs

instance : DecidablePred Check.inWindow := fun _ => inferInstanceAs (Decidable (_ ≤ _))

def check (cache : NonceCache) (c : Check) : NonceCache × Except FrameError Unit :=
  cache.checkAndInsert c.key.1 c.key.2.1 c.key.2.2 c.localTimeMs

def accepts (cache : NonceCache) (c : Check) : Prop := (cache.check c).2 = .ok ()

theorem check_of_inWindow {cache : NonceCache} {c : Check} (hwin : c.inWindow)
    (hnone : cache.seen c.key = none) :
    cache.check c = (⟨(cache.evict c.localTimeMs).seen.insert c.key c.localTimeMs⟩, .ok ()) := by
  have hnot : ¬ (cache.seen c.key).isSome := by
    rw [hnone]
    simp
  rw [check, checkAndInsert, if_neg (Nat.not_lt.2 hwin), if_neg hnot]

theorem accepts_iff : accepts cache c ↔ c.inWindow ∧ cache.seen c.key = none := by
  constructor
  · intro h
    rw [accepts, check, checkAndInsert] at h
    split at h
    next => cases h
    next hwin =>
      split at h
      next => cases h
      next hnone => exact ⟨Nat.not_lt.1 hwin, Option.not_isSome_iff_eq_none.1 hnone⟩
  · rintro ⟨hwin, hnone⟩
    rw [accepts, check_of_inWindow hwin hnone]

instance : Decidable (accepts cache c) := decidable_of_iff _ accepts_iff.symm

theorem check_replayed_iff {cache : NonceCache} {c : Check} :
    (cache.check c).2 = .error .replayedNonce ↔ c.inWindow ∧ (cache.seen c.key).isSome := by
  rw [check, checkAndInsert]
  constructor
  · intro h
    split at h
    next => cases h
    next hwin =>
      split at h
      next hseen => exact ⟨Nat.not_lt.1 hwin, hseen⟩
      next => cases h
  · rintro ⟨hwin, hseen⟩
    rw [if_neg (Nat.not_lt.2 hwin), if_pos hseen]

theorem check_of_not_accepts (h : ¬ accepts cache c) : (cache.check c).1 = cache := by
  rw [accepts_iff] at h
  rw [check, checkAndInsert]
  split
  next => rfl
  next hwin =>
    split
    next => rfl
    next hnone => exact absurd ⟨Nat.not_lt.1 hwin, Option.not_isSome_iff_eq_none.1 hnone⟩ h

theorem evict_seen_eq_some : (evict cache now).seen k = some i ↔
    cache.seen k = some i ∧ now - i < nonceCacheTtlMs := by
  rw [evict, Table.retain_eq_some, decide_eq_true_iff]

theorem seen_after_accept (h : accepts cache c) :
    (cache.check c).1.seen k = some i ↔
      k = c.key ∧ i = c.localTimeMs ∨
        k ≠ c.key ∧ cache.seen k = some i ∧ c.localTimeMs - i < nonceCacheTtlMs := by
  obtain ⟨hwin, hnone⟩ := accepts_iff.1 h
  simp only [check_of_inWindow hwin hnone, Table.insert_apply]
  split
  next hk =>
    rw [Option.some.injEq, eq_comm]
    simp [hk]
  next hk =>
    rw [evict_seen_eq_some]
    simp [hk]

end NonceCache
end TacticalMesh
