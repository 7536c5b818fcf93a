import TacticalMesh.NonceCache

namespace TacticalMesh
set_option autoImplicit true

abbrev Signature := Vector UInt8 64

abbrev SessionKey := Vector UInt8 32

/-- The primitives taken from other crates, with what their documentation promises. -/
structure Crypto where
  SigningKey : Type
  VerifyingKey : Type
  verifyingKey : SigningKey → VerifyingKey
  sign : SigningKey → Bytes → Signature
  verify : VerifyingKey → Bytes → Signature → Bool
  applyKeystream : SessionKey → Vector UInt8 24 → Bytes → Bytes
  blake3 : Bytes → Vector UInt8 32
  verify_sign (k : SigningKey) (msg : Bytes) : verify (verifyingKey k) msg (sign k msg)
  applyKeystream_twice (key : SessionKey) (nonce : Vector UInt8 24) (data : Bytes) :
    applyKeystream key nonce (applyKeystream key nonce data) = data

/-- The verifying key is not stored: it is always the one of the signing key. -/
structure Identity (crypto : Crypto) where
  nodeId : UInt8
  signingKey : crypto.SigningKey
  sessionKey : SessionKey

def Identity.verifyingKey (identity : Identity crypto) : crypto.VerifyingKey :=
  crypto.verifyingKey identity.signingKey

structure PubkeyStore (crypto : Crypto) where
  keys : Table UInt8 crypto.VerifyingKey

def PubkeyStore.get (store : PubkeyStore crypto) (nodeId : UInt8) :
    Option crypto.VerifyingKey := store.keys nodeId

/-- What one call of `build_frame` reads from outside: the clock and five random bytes. -/
structure Draw where
  nowMs : UInt64
  random : Vector UInt8 5
  deriving DecidableEq, Repr

/-- The last twelve bytes of the encryption nonce are zero. -/
def nonce24FromStored (stored : Nonce) : Vector UInt8 24 :=
  stored ++ Vector.replicate 12 (0 : UInt8)

/-- The encryption nonce, and the part of it that the header stores. -/
def buildNonce (nodeId : UInt8) (timestampMs : UInt64) (random : Vector UInt8 5) :
    Vector UInt8 24 × Nonce :=
  let tsBytes : Vector UInt8 6 := ⟨(leBytes 6 timestampMs.toNat).toArray, by simp⟩
  let stored : Nonce := #v[nodeId] ++ tsBytes ++ random
  (nonce24FromStored stored, stored)

namespace Crypto
variable (crypto : Crypto)

def payloadHash12 (data : Bytes) : Vector UInt8 12 := (crypto.blake3 data).take 12

def signAuth (authBytes : Bytes) (identity : Identity crypto) : Signature :=
  crypto.sign identity.signingKey authBytes

def verifyAuth (authBytes : Bytes) (sigBytes : Signature) (key : crypto.VerifyingKey) :
    Parse Unit :=
  if crypto.verify key authBytes sigBytes then .ok () else .error (.error .badSignature)

theorem verifyAuth_eq_ok {u : Unit} :
    crypto.verifyAuth msg sig key = .ok u ↔ crypto.verify key msg sig := by
  rw [verifyAuth]
  split <;> simp_all

def checksum (data : Bytes) : UInt8 := data.foldl (fun sum b => sum + b) 0

/-- A weak stand-in for the primitives, small enough for concrete runs to be computed. -/
def toy : Crypto where
  SigningKey := UInt8
  VerifyingKey := UInt8
  verifyingKey k := k
  sign k msg := Vector.replicate 64 (k + checksum msg)
  verify k msg sig := sig == Vector.replicate 64 (k + checksum msg)
  applyKeystream key _ data := data.map fun b => b ^^^ key[0]
  blake3 data := Vector.replicate 32 (checksum data)
  verify_sign k msg := by simp
  applyKeystream_twice key nonce data := by
    have hcancel : (fun b : UInt8 => b ^^^ key[0] ^^^ key[0]) = id := by
      funext b
      rw [UInt8.xor_assoc, UInt8.xor_self, UInt8.xor_zero, id]
    rw [List.map_map]
    exact (congrArg (List.map · data) hcancel).trans (List.map_id data)

end Crypto
end TacticalMesh
