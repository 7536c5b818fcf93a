import TacticalMesh.Fleet
import TacticalMesh.ReplayRuns

namespace TacticalMesh
set_option autoImplicit true

/-- Two caches that no later sequence of calls can tell apart. -/
def NonceCache.SameVerdicts (cache cache' : NonceCache) : Prop :=
  ∀ (calls : List Check) (c : Check),
    ((cache'.after calls).check c).2 = ((cache.after calls).check c).2

theorem NonceCache.accepts.not_sameVerdicts (h : accepts cache c) :
    ¬ cache.SameVerdicts (cache.check c).1 := by
  intro hsame
  have hc := hsame [] c
  have hseen : (cache.check c).1.seen c.key = some c.localTimeMs :=
    (seen_after_accept h).2 (.inl ⟨rfl, rfl⟩)
  have hrej := check_replayed_iff.2 ⟨(accepts_iff.1 h).1, Option.isSome_of_eq_some hseen⟩
  rw [after, after, List.foldl_nil, List.foldl_nil, hrej, h] at hc
  cases hc

namespace Crypto
variable (crypto : Crypto)

/-- A well signed frame of a known node, new to the cache and in time, whose ciphertext is not
the one that was signed for. -/
def Forged (raw : Bytes) (store : PubkeyStore crypto) (cache : NonceCache) (now : ℕ)
    (sessionKey : SessionKey) : Prop :=
  ∃ routed auth sig body key, raw = assembleFrame routed auth.toBytes sig body ∧
    store.get auth.srcNode = some key ∧ crypto.verify key auth.toBytes sig ∧
    (frameCheck auth now).inWindow ∧ cache.seen (frameCheck auth now).key = none ∧
    crypto.payloadHash12 (crypto.applyKeystream sessionKey (nonce24FromStored auth.nonce) body) ≠
      auth.payloadHash

theorem parse_of_forged {store : PubkeyStore crypto} (h : crypto.Forged raw store cache now key) :
    ∃ c, cache.accepts c ∧ crypto.parseAndVerifyFrame raw store cache now key =
      ((cache.check c).1, .error (.error .decryptFailed)) := by
  obtain ⟨routed, auth, sig, body, vkey, rfl, hkey, hver, hwin, hnone, hhash⟩ := h
  have hauth : crypto.authenticate (assembleFrame routed auth.toBytes sig body) store =
      .ok (routed, auth) := (crypto.authenticate_eq_ok).2 ⟨sig, body, vkey, rfl, hkey, hver⟩
  have hacc := NonceCache.accepts_iff.2 ⟨hwin, hnone⟩
  refine ⟨frameCheck auth now, hacc, ?_⟩
  rw [crypto.parseAndVerifyFrame_of_accepted hauth hacc, decrypt_assembleFrame, if_neg hhash]
  rfl

theorem cache_of_rejected {store : PubkeyStore crypto}
    (h : ¬ crypto.Forged raw store cache now key)
    (herr : (crypto.parseAndVerifyFrame raw store cache now key).2 = .error e) :
    (crypto.parseAndVerifyFrame raw store cache now key).1 = cache := by
  cases hauth : crypto.authenticate raw store with
  | error e' => rw [crypto.parseAndVerifyFrame_of_error hauth]
  | ok headers =>
    obtain ⟨routed, auth⟩ := headers
    by_cases hacc : cache.accepts (frameCheck auth now)
    · rw [crypto.parseAndVerifyFrame_of_accepted hauth hacc] at herr
      obtain ⟨sig, body, vkey, rfl, hkey, hver⟩ := (crypto.authenticate_eq_ok).1 hauth
      obtain ⟨hwin, hnone⟩ := NonceCache.accepts_iff.1 hacc
      rw [decrypt_assembleFrame] at herr
      split at herr
      next => cases herr
      next hhash =>
        exact absurd ⟨routed, auth, sig, body, vkey, rfl, hkey, hver, hwin, hnone, hhash⟩ h
    · obtain ⟨e', he⟩ : ∃ e', crypto.parseAndVerifyFrame raw store cache now key =
          (cache, .error (.error e')) := crypto.parseAndVerifyFrame_of_rejected hauth hacc
      rw [he]

/-- A rejected frame leaves no trace, unless its ciphertext was tampered with. -/
theorem rejected_sameVerdicts_iff (raw : Bytes) (store : PubkeyStore crypto) (cache : NonceCache)
    (now : ℕ) (sessionKey : SessionKey) :
    (∀ e, (crypto.parseAndVerifyFrame raw store cache now sessionKey).2 = .error (.error e) →
        cache.SameVerdicts (crypto.parseAndVerifyFrame raw store cache now sessionKey).1) ↔
      ¬ crypto.Forged raw store cache now sessionKey := by
  constructor
  · intro h hforged
    obtain ⟨c, hacc, hparse⟩ := crypto.parse_of_forged hforged
    rw [hparse] at h
    exact hacc.not_sameVerdicts (h .decryptFailed rfl)
  · intro h e herr calls c
    rw [crypto.cache_of_rejected h herr]

def genuine : Bytes :=
  toy.buildFrame ⟨.data, [104, 105]⟩ .high broadcast (toyFleet.identity 1)
    ⟨1000, Vector.replicate 5 9⟩

def altered : Bytes := genuine.dropLast ++ [0]

theorem altered_copy_blocks_genuine :
    let parse := fun raw cache =>
      toy.parseAndVerifyFrame raw toyFleet.pubkeys cache 1000 toyFleet.sessionKey
    let spoilt := parse altered .new
    spoilt.2 = .error (.error .decryptFailed) ∧ ¬ NonceCache.new.SameVerdicts spoilt.1 ∧
      (parse genuine .new).2.toOption.map ParsedFrame.plaintext = some [104, 105] ∧
      (parse genuine spoilt.1).2 = .error (.error .replayedNonce) := by
  refine ⟨by decide +kernel, fun h => ?_, by decide +kernel, by decide +kernel⟩
  have hverdict := h [] ⟨(1, 1000, (buildNonce 1 1000 (Vector.replicate 5 9)).2), 1000⟩
  revert hverdict
  decide +kernel

end Crypto
end TacticalMesh
