import TacticalMesh.Frame

namespace TacticalMesh
set_option autoImplicit true

/-- A frame by what its sender put into it: the header names the sender and the payload. -/
structure SealedFrame (crypto : Crypto) where
  identity : Identity crypto
  routed : RoutedHeader
  auth : AuthHeader
  payload : Bytes
  srcNode_eq : auth.srcNode = identity.nodeId
  payloadHash_eq : auth.payloadHash = crypto.payloadHash12 payload

namespace SealedFrame
variable {crypto : Crypto} {store : PubkeyStore crypto}

def signature (m : SealedFrame crypto) : Signature := crypto.signAuth m.auth.toBytes m.identity

def ciphertext (m : SealedFrame crypto) : Bytes :=
  crypto.applyKeystream m.identity.sessionKey (nonce24FromStored m.auth.nonce) m.payload

def raw (m : SealedFrame crypto) : Bytes :=
  assembleFrame m.routed m.auth.toBytes m.signature m.ciphertext

theorem authenticate_raw (m : SealedFrame crypto)
    (hstore : store.get m.identity.nodeId = some m.identity.verifyingKey) :
    crypto.authenticate m.raw store = .ok (m.routed, m.auth) := by
  rw [Crypto.authenticate_eq_ok]
  refine ⟨m.signature, m.ciphertext, m.identity.verifyingKey, rfl, ?_, crypto.verify_sign _ _⟩
  rw [m.srcNode_eq, hstore]

theorem decrypt_raw (m : SealedFrame crypto) :
    crypto.decrypt m.raw m.auth m.identity.sessionKey = .ok m.payload := by
  rw [raw, Crypto.decrypt_assembleFrame, ciphertext, crypto.applyKeystream_twice,
    if_pos m.payloadHash_eq.symm]

theorem parse_raw (m : SealedFrame crypto)
    (hstore : store.get m.identity.nodeId = some m.identity.verifyingKey)
    (hkey : m.identity.sessionKey = sessionKey)
    (hacc : cache.accepts (Crypto.frameCheck m.auth now)) :
    crypto.parseAndVerifyFrame m.raw store cache now sessionKey =
      ((cache.check (Crypto.frameCheck m.auth now)).1,
        .ok { routed := m.routed, auth := m.auth, plaintext := m.payload, rssiDbm := 0 }) := by
  rw [crypto.parseAndVerifyFrame_of_accepted (m.authenticate_raw hstore) hacc, ← hkey,
    m.decrypt_raw]
  rfl

end SealedFrame

/-- The parts of a frame can be told apart. -/
theorem assembleFrame_inj {routed routed' : RoutedHeader} {auth auth' : AuthHeader} :
    assembleFrame routed auth.toBytes sig body = assembleFrame routed' auth'.toBytes sig' body' ↔
      routed = routed' ∧ auth = auth' ∧ sig = sig' ∧ body = body' := by
  constructor
  · intro h
    rw [assembleFrame, assembleFrame] at h
    obtain ⟨hrouted, h⟩ := List.append_inj h (by simp)
    obtain ⟨hauth, h⟩ := List.append_inj h (by simp)
    obtain ⟨hsig, hbody⟩ := List.append_inj h (by simp)
    exact ⟨RoutedHeader.toBytes_inj.1 hrouted, AuthHeader.toBytes_inj.1 hauth,
      Vector.toList_inj.1 hsig, hbody⟩
  · rintro ⟨rfl, rfl, rfl, rfl⟩
    rfl

end TacticalMesh
