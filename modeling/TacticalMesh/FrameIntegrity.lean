import Mathlib.Data.Set.Basic
import TacticalMesh.Fleet
import TacticalMesh.SealedFrame

namespace TacticalMesh
set_option autoImplicit true

/-- The frames that the nodes of a network have emitted: each node has one signing key, which the
receiver knows, and the session key is shared. -/
structure Traffic (crypto : Crypto) (store : PubkeyStore crypto) (sessionKey : SessionKey) where
  emitted : Set (SealedFrame crypto)
  known : ∀ m ∈ emitted, store.get m.identity.nodeId = some m.identity.verifyingKey
  oneKey : ∀ m ∈ emitted, ∀ m' ∈ emitted, m.identity.nodeId = m'.identity.nodeId →
    m.identity.signingKey = m'.identity.signingKey
  session : ∀ m ∈ emitted, m.identity.sessionKey = sessionKey

variable {crypto : Crypto} {store : PubkeyStore crypto} {sessionKey : SessionKey}

/-- What the primitives promise about a frame that somebody puts on the air: a signature that
verifies was made by the holder of the key, and for this very message, and two payloads that
occur have different hashes. -/
structure Unforged (t : Traffic crypto store sessionKey) (raw : Bytes) : Prop where
  made : ∀ routed auth sig body key, raw = assembleFrame routed (AuthHeader.toBytes auth) sig body →
    store.get auth.srcNode = some key → crypto.verify key auth.toBytes sig →
      ∃ m ∈ t.emitted, m.identity.verifyingKey = key ∧ m.signature = sig
  exact : ∀ routed auth sig body key,
    raw = assembleFrame routed (AuthHeader.toBytes auth) sig body →
    store.get auth.srcNode = some key → crypto.verify key auth.toBytes sig →
      ∀ m ∈ t.emitted, m.signature = sig → m.auth.toBytes = auth.toBytes
  collisionFree : ∀ routed auth sig body,
    raw = assembleFrame routed (AuthHeader.toBytes auth) sig body → ∀ m ∈ t.emitted,
      crypto.payloadHash12 (crypto.applyKeystream sessionKey (nonce24FromStored auth.nonce) body) =
          crypto.payloadHash12 m.payload →
        crypto.applyKeystream sessionKey (nonce24FromStored auth.nonce) body = m.payload

def Accepted (crypto : Crypto) (store : PubkeyStore crypto) (sessionKey : SessionKey)
    (raw : Bytes) : Prop :=
  ∃ cache now parsed, (crypto.parseAndVerifyFrame raw store cache now sessionKey).2 = .ok parsed

/-- The frame of a sender, but for the four bytes in front. -/
def SealedFrame.withRouted (m : SealedFrame crypto) (routed : RoutedHeader) : SealedFrame crypto :=
  { m with routed }

theorem accepted_of_sealed (m : SealedFrame crypto)
    (hstore : store.get m.identity.nodeId = some m.identity.verifyingKey)
    (hkey : m.identity.sessionKey = sessionKey) : Accepted crypto store sessionKey m.raw := by
  have hacc : NonceCache.new.accepts (Crypto.frameCheck m.auth m.auth.timestampMs.toNat) := by
    rw [NonceCache.accepts_iff]
    constructor
    · rw [NonceCache.Check.inWindow, Crypto.frameCheck, NonceCache.absDiff, Nat.max_self,
        Nat.min_self, Nat.sub_self]
      exact Nat.zero_le _
    · rfl
  exact ⟨.new, _, _, congrArg Prod.snd (m.parse_raw hstore hkey hacc)⟩

theorem exists_of_accepted {raw : Bytes} (h : Accepted crypto store sessionKey raw) :
    ∃ routed auth sig body key, raw = assembleFrame routed (AuthHeader.toBytes auth) sig body ∧
      store.get auth.srcNode = some key ∧ crypto.verify key auth.toBytes sig ∧
      crypto.payloadHash12 (crypto.applyKeystream sessionKey (nonce24FromStored auth.nonce) body) =
        auth.payloadHash := by
  obtain ⟨cache, now, parsed, hparse⟩ := h
  cases hauth : crypto.authenticate raw store with
  | error e =>
    rw [crypto.parseAndVerifyFrame_of_error hauth] at hparse
    cases hparse
  | ok headers =>
    obtain ⟨routed, auth⟩ := headers
    obtain ⟨sig, body, key, rfl, hkey, hver⟩ := crypto.authenticate_eq_ok.1 hauth
    refine ⟨routed, auth, sig, body, key, rfl, hkey, hver, ?_⟩
    by_cases hacc : cache.accepts (Crypto.frameCheck auth now)
    · rw [crypto.parseAndVerifyFrame_of_accepted hauth hacc, Crypto.decrypt_assembleFrame] at hparse
      split at hparse
      next hhash => exact hhash
      next => cases hparse
    · obtain ⟨e, he⟩ : ∃ e, crypto.parseAndVerifyFrame _ store cache now sessionKey =
          (cache, .error (.error e)) := crypto.parseAndVerifyFrame_of_rejected hauth hacc
      rw [he] at hparse
      cases hparse

theorem accepted_iff {t : Traffic crypto store sessionKey} (h : Unforged t raw) :
    Accepted crypto store sessionKey raw ↔
      ∃ m ∈ t.emitted, ∃ routed, (m.withRouted routed).raw = raw := by
  constructor
  · intro hacc
    obtain ⟨routed, auth, sig, body, key, hraw, hkey, hver, hhash⟩ := exists_of_accepted hacc
    obtain ⟨m, hm, -, hsig⟩ := h.made routed auth sig body key hraw hkey hver
    have hauth := AuthHeader.toBytes_inj.1
      (h.exact routed auth sig body key hraw hkey hver m hm hsig)
    rw [← hauth, m.payloadHash_eq] at hhash
    have hplain := h.collisionFree routed auth sig body hraw m hm (hauth ▸ hhash)
    have hbody : m.ciphertext = body := by
      rw [SealedFrame.ciphertext, t.session m hm, hauth, ← hplain, crypto.applyKeystream_twice]
    refine ⟨m, hm, routed, ?_⟩
    rw [hraw, ← hauth, ← hsig, ← hbody]
    rfl
  · rintro ⟨m, hm, routed, rfl⟩
    exact accepted_of_sealed (m.withRouted routed) (t.known m hm) (t.session m hm)

theorem auth_eq_of_set {t : Traffic crypto store sessionKey} (h : Unforged t (m.raw.set i b))
    (hm : m ∈ t.emitted) (hm' : m' ∈ t.emitted) (hi : 4 ≤ i)
    (hread : (m'.withRouted routed).raw = m.raw.set i b) :
    routed = m.routed ∧ m'.auth = m.auth := by
  have hraw := hread
  have hbehind : m.routed.toBytes.length ≤ i := hi
  rw [SealedFrame.raw, SealedFrame.raw, assembleFrame, assembleFrame,
    List.set_append_right i b hbehind] at hread
  obtain ⟨hrouted, hrest⟩ := List.append_inj hread rfl
  refine ⟨RoutedHeader.toBytes_inj.1 hrouted, ?_⟩
  by_cases hheader : i < 48
  · -- the signature is the old one, and it is good for the old header only
    have hlt : i - m.routed.toBytes.length < m.auth.toBytes.length := by
      rw [RoutedHeader.length_toBytes, AuthHeader.length_toBytes, RoutedHeader.len, AuthHeader.len]
      omega
    rw [List.set_append_left _ b hlt] at hrest
    obtain ⟨-, hrest⟩ := List.append_inj hrest (by simp [SealedFrame.withRouted])
    obtain ⟨hsig, -⟩ := List.append_inj hrest (by simp)
    have hstore : store.get m'.auth.srcNode = some m'.identity.verifyingKey := by
      rw [m'.srcNode_eq]
      exact t.known m' hm'
    have hbytes := h.exact routed m'.auth m'.signature m'.ciphertext _ hraw.symm hstore
      (crypto.verify_sign _ _) m hm (Vector.toList_inj.1 hsig).symm
    exact (AuthHeader.toBytes_inj.1 hbytes).symm
  · have hle : m.auth.toBytes.length ≤ i - m.routed.toBytes.length := by
      rw [RoutedHeader.length_toBytes, AuthHeader.length_toBytes, RoutedHeader.len, AuthHeader.len]
      omega
    rw [List.set_append_right _ b hle] at hrest
    obtain ⟨hauth, -⟩ := List.append_inj hrest (by simp)
    exact AuthHeader.toBytes_inj.1 hauth

theorem withRouted_eq {t : Traffic crypto store sessionKey} (h : Unforged t raw)
    (hm : m ∈ t.emitted) (hm' : m' ∈ t.emitted) (hauth : m'.auth = m.auth)
    (hread : (m'.withRouted routed).raw = raw) : (m.withRouted routed).raw = raw := by
  have hnode : m'.identity.nodeId = m.identity.nodeId := by
    rw [← m'.srcNode_eq, ← m.srcNode_eq, hauth]
  have hsig : m'.signature = m.signature := by
    rw [SealedFrame.signature, SealedFrame.signature, Crypto.signAuth, Crypto.signAuth,
      t.oneKey m' hm' m hm hnode, hauth]
  have hplain : crypto.applyKeystream sessionKey (nonce24FromStored m'.auth.nonce) m'.ciphertext =
      m'.payload := by
    rw [SealedFrame.ciphertext, t.session m' hm', crypto.applyKeystream_twice]
  have hpayload : m'.payload = m.payload := by
    rw [← hplain]
    apply h.collisionFree routed m'.auth m'.signature m'.ciphertext hread.symm m hm
    rw [hplain, ← m'.payloadHash_eq, ← m.payloadHash_eq, hauth]
  have hbody : m'.ciphertext = m.ciphertext := by
    rw [SealedFrame.ciphertext, SealedFrame.ciphertext, t.session m' hm', t.session m hm, hauth,
      hpayload]
  rw [← hread]
  exact assembleFrame_inj.2 ⟨rfl, hauth.symm, hsig.symm, hbody.symm⟩

/-- A frame of the network with other four bytes in front. -/
def HeaderAltered (t : Traffic crypto store sessionKey) (raw : Bytes) : Prop :=
  (∃ m ∈ t.emitted, ∃ routed, (m.withRouted routed).raw = raw) ∧ ∀ m ∈ t.emitted, m.raw ≠ raw

/-- The signature does not cover the four bytes in front, and covers everything else. -/
theorem integrity_iff (t : Traffic crypto store sessionKey) (raw : Bytes) (h : Unforged t raw) :
    ((Accepted crypto store sessionKey raw → ∃ m ∈ t.emitted, m.raw = raw) ↔
        ¬ HeaderAltered t raw) ∧
      ∀ m ∈ t.emitted, ∀ i b, raw = m.raw.set i b → raw ≠ m.raw →
        (¬ Accepted crypto store sessionKey raw ↔ 4 ≤ i) := by
  constructor
  · rw [accepted_iff h, HeaderAltered, not_and]
    push Not
    rfl
  · rintro m hm i b rfl hne
    constructor
    · intro hrej
      by_contra hi
      apply hrej
      rw [accepted_iff h]
      have hlt : i < m.routed.toBytes.length := Nat.lt_of_not_le hi
      obtain ⟨routed, hrouted⟩ : ∃ r : RoutedHeader, r.toBytes = m.routed.toBytes.set i b :=
        RoutedHeader.exists_of_length (by rw [List.length_set, RoutedHeader.length_toBytes])
      refine ⟨m, hm, routed, ?_⟩
      rw [SealedFrame.raw, SealedFrame.raw, assembleFrame, assembleFrame,
        List.set_append_left i b hlt, ← hrouted]
      rfl
    · intro hi hacc
      obtain ⟨m', hm', routed, hread⟩ := (accepted_iff h).1 hacc
      obtain ⟨rfl, hauth⟩ := auth_eq_of_set h hm hm' hi hread
      exact hne (withRouted_eq h hm hm' hauth hread).symm

def Traffic.only (m : SealedFrame crypto)
    (hstore : store.get m.identity.nodeId = some m.identity.verifyingKey) :
    Traffic crypto store m.identity.sessionKey where
  emitted := {m}
  known := by
    rintro _ rfl
    exact hstore
  oneKey := by
    rintro _ rfl _ rfl -
    rfl
  session := by
    rintro _ rfl
    rfl

theorem unforged_withRouted (m : SealedFrame crypto)
    (hstore : store.get m.identity.nodeId = some m.identity.verifyingKey)
    (routed : RoutedHeader) : Unforged (.only m hstore) (m.withRouted routed).raw where
  made := by
    intro routed' auth sig body key hraw hkey hver
    obtain ⟨-, hauth, hsig, -⟩ := assembleFrame_inj.1 hraw
    have hm : m.auth = auth := hauth
    rw [← hm, m.srcNode_eq, hstore] at hkey
    exact ⟨m, rfl, Option.some.inj hkey, hsig⟩
  exact := by
    intro routed' auth sig body key hraw hkey hver m' hm' hsig
    obtain ⟨-, hauth, -, -⟩ := assembleFrame_inj.1 hraw
    have hsame : m' = m := hm'
    rw [hsame]
    exact congrArg AuthHeader.toBytes hauth
  collisionFree := by
    intro routed' auth sig body hraw m' hm' hhash
    obtain ⟨-, hauth, -, hbody⟩ := assembleFrame_inj.1 hraw
    have hsame : m' = m := hm'
    rw [← hauth, ← hbody, hsame]
    exact crypto.applyKeystream_twice _ _ _

def hello : SealedFrame .toy where
  identity := Crypto.toyFleet.identity 1
  routed := ⟨1, 0, 0, 0⟩
  auth := Crypto.toy.authHeader ⟨.data, [104, 105]⟩ .high broadcast (Crypto.toyFleet.identity 1)
    (.atMs 1000)
  payload := [104, 105]
  srcNode_eq := rfl
  payloadHash_eq := rfl

def helloTraffic : Traffic .toy Crypto.toyFleet.pubkeys Crypto.toyFleet.sessionKey :=
  .only hello rfl

def hopped : Bytes := (hello.withRouted ⟨1, 1, 0, 0⟩).raw

theorem hopped_integrity_iff :
    ((Accepted .toy Crypto.toyFleet.pubkeys Crypto.toyFleet.sessionKey hopped →
        ∃ m ∈ helloTraffic.emitted, m.raw = hopped) ↔ ¬ HeaderAltered helloTraffic hopped) ∧
      ∀ m ∈ helloTraffic.emitted, ∀ i b, hopped = m.raw.set i b → hopped ≠ m.raw →
        (¬ Accepted .toy Crypto.toyFleet.pubkeys Crypto.toyFleet.sessionKey hopped ↔ 4 ≤ i) :=
  integrity_iff helloTraffic hopped (unforged_withRouted hello rfl _)

/-- The hop counter of a genuine frame can be changed, and the frame is still accepted. -/
theorem hop_counter_not_covered :
    hello.raw = Crypto.toy.buildFrame ⟨.data, [104, 105]⟩ .high broadcast
        (Crypto.toyFleet.identity 1) (.atMs 1000) ∧
      Unforged helloTraffic hopped ∧ hopped = hello.raw.set 1 1 ∧
      Accepted .toy Crypto.toyFleet.pubkeys Crypto.toyFleet.sessionKey hopped ∧
      ¬ ∃ m ∈ helloTraffic.emitted, m.raw = hopped := by
  refine ⟨rfl, unforged_withRouted hello rfl _, rfl,
    accepted_of_sealed (hello.withRouted _) rfl rfl, ?_⟩
  rintro ⟨_, rfl, hraw⟩
  obtain ⟨hrouted, -⟩ := assembleFrame_inj.1 hraw
  exact absurd hrouted (by decide)

end TacticalMesh
