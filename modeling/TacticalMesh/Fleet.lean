import TacticalMesh.Frame

namespace TacticalMesh
set_option autoImplicit true

/-- An honest fleet: every node signs with a key of its own that all others know, and the
session key is shared. -/
structure Fleet (crypto : Crypto) where
  signingKey : UInt8 → crypto.SigningKey
  sessionKey : SessionKey

/-- A frame by what its sender put into it. -/
structure Sending where
  src : UInt8
  msg : TacticalMessage
  prio : Priority
  dst : UInt8
  lastHop : UInt8
  hopsTaken : UInt8
  draw : Draw

def Sending.check (t : Sending) (now : ℕ) : NonceCache.Check :=
  ⟨(t.src, t.draw.nowMs.toNat, (buildNonce t.src t.draw.nowMs t.draw.random).2), now⟩

def Draw.atMs (k : ℕ) : Draw := ⟨.ofNat k, Vector.replicate 5 0⟩

namespace Sending

theorem check_atMs {t : Sending} (ht : t.draw = .atMs k) (hk : k < 2 ^ 64) :
    (t.check now).key.2.1 = k := by
  have hts : (Draw.atMs k).nowMs.toNat = k := by
    rw [Draw.atMs, UInt64.toNat_ofNat', Nat.mod_eq_of_lt hk]
  rw [check, ht]
  exact hts

theorem accepts_newest {cache : NonceCache} {t : Sending} (ht : t.draw = .atMs k)
    (hk : k < 2 ^ 64) (hold : ∀ key, cache.seen key ≠ none → key.2.1 < k) :
    cache.accepts (t.check k) := by
  rw [NonceCache.accepts_iff]
  constructor
  · rw [NonceCache.Check.inWindow, check_atMs ht hk, check, NonceCache.absDiff, Nat.max_self,
      Nat.min_self, Nat.sub_self]
    exact Nat.zero_le _
  · by_contra hseen
    have hlt := hold _ hseen
    rw [check_atMs ht hk] at hlt
    exact lt_irrefl k hlt

theorem seen_newest {cache : NonceCache} {t : Sending} (ht : t.draw = .atMs k)
    (hk : k < 2 ^ 64) (hacc : cache.accepts (t.check k))
    (hold : ∀ key, cache.seen key ≠ none → key.2.1 < k) :
    ∀ key, (cache.check (t.check k)).1.seen key ≠ none → key.2.1 < k + 1 := by
  intro key hkey
  obtain ⟨i, hi⟩ := Option.ne_none_iff_exists'.1 hkey
  rw [NonceCache.seen_after_accept hacc] at hi
  rcases hi with ⟨rfl, -⟩ | ⟨-, hseen, -⟩
  · rw [check_atMs ht hk]
    exact Nat.lt_succ_self k
  · have hlt := hold key (by rw [hseen]; nofun)
    exact Nat.lt_succ_of_lt hlt

end Sending

namespace Fleet
variable {crypto : Crypto} (fleet : Fleet crypto)

def identity (nodeId : UInt8) : Identity crypto :=
  ⟨nodeId, fleet.signingKey nodeId, fleet.sessionKey⟩

def pubkeys : PubkeyStore crypto := ⟨fun nodeId => some (fleet.identity nodeId).verifyingKey⟩

def frame (t : Sending) : Bytes :=
  crypto.buildFrameInner t.msg t.prio t.dst (fleet.identity t.src) t.lastHop t.hopsTaken t.draw

def parsed (t : Sending) : ParsedFrame where
  routed := ⟨t.lastHop, t.hopsTaken, 0, 0⟩
  auth := crypto.authHeader t.msg t.prio t.dst (fleet.identity t.src) t.draw
  plaintext := t.msg.payload
  rssiDbm := 0

theorem authenticate_frame (t : Sending) :
    crypto.authenticate (fleet.frame t) fleet.pubkeys =
      .ok ((fleet.parsed t).routed, (fleet.parsed t).auth) := by
  rw [Crypto.authenticate_eq_ok]
  exact ⟨_, _, (fleet.identity t.src).verifyingKey, rfl, rfl, crypto.verify_sign _ _⟩

theorem decrypt_frame (t : Sending) :
    crypto.decrypt (fleet.frame t) (fleet.parsed t).auth fleet.sessionKey = .ok t.msg.payload :=
  crypto.decrypt_buildFrameInner

theorem parse_of_accepts {cache : NonceCache} {t : Sending} (h : cache.accepts (t.check now)) :
    crypto.parseAndVerifyFrame (fleet.frame t) fleet.pubkeys cache now fleet.sessionKey =
      ((cache.check (t.check now)).1, .ok (fleet.parsed t)) := by
  rw [crypto.parseAndVerifyFrame_of_accepted (fleet.authenticate_frame t) h, fleet.decrypt_frame]
  rfl

theorem parse_of_rejected {cache : NonceCache} {t : Sending}
    (h : ¬ cache.accepts (t.check now)) :
    ∃ e, crypto.parseAndVerifyFrame (fleet.frame t) fleet.pubkeys cache now fleet.sessionKey =
      (cache, .error (.error e)) :=
  crypto.parseAndVerifyFrame_of_rejected (fleet.authenticate_frame t) h

end Fleet

def Crypto.toyFleet : Fleet .toy := ⟨fun nodeId => nodeId, Vector.replicate 32 7⟩

end TacticalMesh
