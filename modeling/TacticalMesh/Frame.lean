import TacticalMesh.Crypto
import TacticalMesh.Fec

namespace TacticalMesh
set_option autoImplicit true

structure TacticalMessage where
  kind : MsgKind
  payload : Bytes
  deriving DecidableEq, Repr

structure ParsedFrame where
  routed : RoutedHeader
  auth : AuthHeader
  plaintext : Bytes
  rssiDbm : Int8
  deriving DecidableEq, Repr

def sigLen : ℕ := 64

def minFrameLen : ℕ := RoutedHeader.len + AuthHeader.len + sigLen

def assembleFrame (routed : RoutedHeader) (authBytes : Bytes) (sig : Signature)
    (ciphertext : Bytes) : Bytes :=
  routed.toBytes ++ (authBytes ++ (sig.toList ++ ciphertext))

namespace Crypto
variable (crypto : Crypto)

def authHeader (msg : TacticalMessage) (prio : Priority) (dst : UInt8)
    (identity : Identity crypto) (draw : Draw) : AuthHeader :=
  let fec := if fecThresholdBytes < msg.payload.length then fecParams prio else (1, 1)
  { srcNode := identity.nodeId
    dstNode := dst
    msgKind := msg.kind
    priority := prio
    timestampMs := draw.nowMs
    nonce := (buildNonce identity.nodeId draw.nowMs draw.random).2
    payloadHash := crypto.payloadHash12 msg.payload
    epoch := 0
    payloadLen := .ofNat msg.payload.length
    fecIndex := 0
    fecK := fec.1
    fecN := fec.2
    fecBlockId := 0 }

def buildFrameInner (msg : TacticalMessage) (prio : Priority) (dst : UInt8)
    (identity : Identity crypto) (lastHop hopsTaken : UInt8) (draw : Draw) : Bytes :=
  let auth := crypto.authHeader msg prio dst identity draw
  let nonce24 := (buildNonce identity.nodeId draw.nowMs draw.random).1
  let ciphertext := crypto.applyKeystream identity.sessionKey nonce24 msg.payload
  let routed : RoutedHeader :=
    { lastHopId := lastHop, hopsTaken := hopsTaken, flags := 0, reserved := 0 }
  assembleFrame routed auth.toBytes (crypto.signAuth auth.toBytes identity) ciphertext

def buildFrame (msg : TacticalMessage) (prio : Priority) (dst : UInt8)
    (identity : Identity crypto) (draw : Draw) : Bytes :=
  crypto.buildFrameInner msg prio dst identity identity.nodeId 0 draw

/-- The next hop is written where the last hop belongs. -/
def buildFrameForRoute (msg : TacticalMessage) (prio : Priority) (dst : UInt8)
    (identity : Identity crypto) (nextHop : UInt8) (draw : Draw) : Bytes :=
  crypto.buildFrameInner msg prio dst identity nextHop 0 draw

def buildFrameForRebroadcast (msg : TacticalMessage) (prio : Priority)
    (identity : Identity crypto) (hopsTaken : UInt8) (draw : Draw) : Bytes :=
  crypto.buildFrameInner msg prio broadcast identity identity.nodeId hopsTaken draw

/-- The steps of `parse_and_verify_frame` before it touches the nonce cache. -/
def authenticate (raw : Bytes) (knownPubkeys : PubkeyStore crypto) :
    Parse (RoutedHeader × AuthHeader) :=
  if raw.length < minFrameLen then .error (.error .truncatedFrame)
  else do
    let routed ← RoutedHeader.fromBytes (← slice raw 0 4)
    let auth ← AuthHeader.fromBytes (← slice raw 4 48)
    let sigBytes ← toArray 64 (← slice raw 48 112)
    let authBytes ← toArray 44 (← slice raw 4 48)
    let verifyingKey ← okOr .badSignature (knownPubkeys.get auth.srcNode)
    crypto.verifyAuth authBytes.toList sigBytes verifyingKey
    return (routed, auth)

def decrypt (raw : Bytes) (auth : AuthHeader) (sessionKey : SessionKey) : Parse Bytes := do
  let body ← slice raw 112 raw.length
  let plaintext := crypto.applyKeystream sessionKey (nonce24FromStored auth.nonce) body
  if crypto.payloadHash12 plaintext = auth.payloadHash then return plaintext
  else .error (.error .decryptFailed)

def parseAndVerifyFrame (raw : Bytes) (knownPubkeys : PubkeyStore crypto)
    (nonceCache : NonceCache) (localTimeMs : ℕ) (sessionKey : SessionKey) :
    NonceCache × Parse ParsedFrame :=
  match crypto.authenticate raw knownPubkeys with
  | .error e => (nonceCache, .error e)
  | .ok (routed, auth) =>
    match nonceCache.checkAndInsert auth.srcNode auth.timestampMs.toNat auth.nonce
      localTimeMs with
    | (nonceCache, .error e) => (nonceCache, .error (.error e))
    | (nonceCache, .ok ()) =>
      (nonceCache, (crypto.decrypt raw auth sessionKey).map fun plaintext =>
        { routed, auth, plaintext, rssiDbm := 0 })

theorem slice_assembleFrame (routed : RoutedHeader) (auth : AuthHeader) (sig : Signature)
    (body : Bytes) :
    let raw := assembleFrame routed auth.toBytes sig body
    raw.length = minFrameLen + body.length ∧
      slice raw 0 4 = (.ok routed.toBytes : Parse Bytes) ∧
      slice raw 4 48 = (.ok auth.toBytes : Parse Bytes) ∧
      slice raw 48 112 = (.ok sig.toList : Parse Bytes) ∧
      slice raw 112 raw.length = (.ok body : Parse Bytes) := by
  simp only [assembleFrame]
  refine ⟨?_, ?_, ?_, ?_, ?_⟩
  · simp [minFrameLen, sigLen]
    omega
  · exact slice_append_append [] routed.toBytes _ rfl rfl
  · apply slice_append_append <;> simp [AuthHeader.len, RoutedHeader.len]
  · rw [← List.append_assoc]
    apply slice_append_append <;> simp [AuthHeader.len, RoutedHeader.len]
  · have hsplit : routed.toBytes ++ (auth.toBytes ++ (sig.toList ++ body)) =
        (routed.toBytes ++ auth.toBytes ++ sig.toList) ++ (body ++ []) := by simp
    rw [hsplit]
    apply slice_append_append
    · simp [AuthHeader.len, RoutedHeader.len]
    · simp [AuthHeader.len, RoutedHeader.len]
      omega

theorem authenticate_eq_ok {store : PubkeyStore crypto} {auth : AuthHeader} :
    crypto.authenticate raw store = .ok (routed, auth) ↔
      ∃ sig body key, raw = assembleFrame routed auth.toBytes sig body ∧
        store.get auth.srcNode = some key ∧ crypto.verify key auth.toBytes sig := by
  constructor
  · intro h
    rw [authenticate] at h
    split at h
    next => cases h
    next hlen =>
      simp only [bind_eq_ok, slice_eq_ok, toArray_eq_ok, okOr_eq_ok, verifyAuth_eq_ok] at h
      obtain ⟨_, ⟨-, h4, rfl⟩, routed', hrouted, authBytes, ⟨-, h48, hbytes⟩, auth', hauth, _,
        ⟨-, h112, rfl⟩, sig, hsig, _, ⟨-, -, rfl⟩, _, hvec, key, hkey, _, hver, hret⟩ := h
      cases hret
      obtain ⟨-, hr⟩ := RoutedHeader.toBytes_of_fromBytes hrouted
      obtain ⟨-, ha⟩ := AuthHeader.toBytes_of_fromBytes hauth
      have hjoin : ∀ i n, raw.take i ++ (raw.drop i).take n = raw.take (i + n) :=
        fun i n => List.take_add.symm
      have haeq : auth.toBytes = (raw.drop 4).take 44 := by
        rw [ha, hbytes, List.take_take]
        rfl
      refine ⟨sig, raw.drop 112, key, ?_, hkey, ?_⟩
      · have hreq : routed.toBytes = raw.take 4 := by
          rw [hr, List.drop_zero, List.take_take]
          rfl
        rw [assembleFrame, hreq, haeq, ← hsig]
        simp only [← List.append_assoc, hjoin, Nat.reduceSub, Nat.reduceAdd,
          List.take_append_drop]
      · rw [haeq, hvec]
        exact hver
  · rintro ⟨sig, body, key, rfl, hkey, hsig⟩
    obtain ⟨hlen, hrouted, hauth, hsigs, -⟩ := slice_assembleFrame routed auth sig body
    have hlong : ¬ (assembleFrame routed auth.toBytes sig body).length < minFrameLen := by omega
    rw [authenticate, if_neg hlong]
    obtain ⟨v, hv, htoArray⟩ : ∃ v : Vector UInt8 44, v.toList = auth.toBytes ∧
        toArray 44 auth.toBytes = (.ok v : Parse _) := toArray_of_length auth.length_toBytes
    have hver : crypto.verifyAuth v.toList sig key = .ok () := by
      rw [verifyAuth_eq_ok, hv]
      exact hsig
    simp only [hrouted, hauth, hsigs, ok_bind, RoutedHeader.fromBytes_toBytes,
      AuthHeader.fromBytes_toBytes, toArray_toList, hkey, okOr, htoArray, hver]
    rfl

theorem decrypt_assembleFrame {auth auth' : AuthHeader} :
    crypto.decrypt (assembleFrame routed auth.toBytes sig body) auth' key =
      if crypto.payloadHash12 (crypto.applyKeystream key (nonce24FromStored auth'.nonce) body)
          = auth'.payloadHash then
        .ok (crypto.applyKeystream key (nonce24FromStored auth'.nonce) body)
      else .error (.error .decryptFailed) := by
  obtain ⟨-, -, -, -, hbody⟩ := slice_assembleFrame routed auth sig body
  rw [decrypt, hbody, ok_bind]
  rfl

def frameCheck (auth : AuthHeader) (localTimeMs : ℕ) : NonceCache.Check :=
  ⟨(auth.srcNode, auth.timestampMs.toNat, auth.nonce), localTimeMs⟩

theorem parseAndVerifyFrame_of_error {store : PubkeyStore crypto}
    (h : crypto.authenticate raw store = .error e) :
    crypto.parseAndVerifyFrame raw store cache now key = (cache, .error e) := by
  rw [parseAndVerifyFrame, h]

theorem parseAndVerifyFrame_of_rejected {store : PubkeyStore crypto}
    (h : crypto.authenticate raw store = .ok (routed, auth))
    (hrej : ¬ cache.accepts (frameCheck auth now)) :
    ∃ e, crypto.parseAndVerifyFrame raw store cache now key = (cache, .error (.error e)) := by
  have hsame := NonceCache.check_of_not_accepts hrej
  rw [NonceCache.accepts] at hrej
  simp only [frameCheck, NonceCache.check] at hrej hsame
  rw [parseAndVerifyFrame, h]
  simp only
  split
  next c e hc =>
    rw [hc] at hsame
    exact ⟨e, by rw [← hsame]⟩
  next c hc =>
    rw [hc] at hrej
    exact absurd rfl hrej

theorem parseAndVerifyFrame_of_accepted {store : PubkeyStore crypto}
    (h : crypto.authenticate raw store = .ok (routed, auth))
    (hacc : cache.accepts (frameCheck auth now)) :
    crypto.parseAndVerifyFrame raw store cache now key =
      ((cache.check (frameCheck auth now)).1, (crypto.decrypt raw auth key).map fun plaintext =>
        { routed, auth, plaintext, rssiDbm := 0 }) := by
  rw [NonceCache.accepts] at hacc
  simp only [frameCheck, NonceCache.check] at hacc ⊢
  rw [parseAndVerifyFrame, h]
  simp only
  split
  next c e hc =>
    rw [hc] at hacc
    cases hacc
  next c hc => rw [hc]

theorem decrypt_buildFrameInner {identity : Identity crypto} :
    crypto.decrypt (crypto.buildFrameInner msg prio dst identity lastHop hopsTaken draw)
      (crypto.authHeader msg prio dst identity draw) identity.sessionKey = .ok msg.payload := by
  have hplain : crypto.applyKeystream identity.sessionKey
      (nonce24FromStored (crypto.authHeader msg prio dst identity draw).nonce)
      (crypto.applyKeystream identity.sessionKey
        (buildNonce identity.nodeId draw.nowMs draw.random).1 msg.payload) = msg.payload :=
    crypto.applyKeystream_twice _ _ _
  rw [buildFrameInner, decrypt_assembleFrame, hplain]
  exact if_pos rfl

end Crypto
end TacticalMesh
