import TacticalMesh.ByteStrings

namespace TacticalMesh
set_option autoImplicit true

inductive FrameError where
  | badSignature
  | replayedNonce
  | timeWindowExpired
  | decryptFailed
  | truncatedFrame
  | fecError (reason : String)
  deriving DecidableEq, Repr

abbrev Parse := Checked FrameError

def broadcast : UInt8 := 0xFF

/-- The hop cap of the wire crate. -/
def Wire.maxHops : UInt8 := 2

inductive Priority where
  | emergency
  | critical
  | high
  | bulk
  deriving DecidableEq, Repr

def Priority.toU8 : Priority → UInt8
  | emergency => 0
  | critical => 1
  | high => 2
  | bulk => 3

def Priority.fromU8 : UInt8 → Option Priority
  | 0 => some emergency
  | 1 => some critical
  | 2 => some high
  | 3 => some bulk
  | _ => none

@[simp] theorem Priority.fromU8_toU8 (p : Priority) : fromU8 p.toU8 = some p := by
  cases p <;> rfl

theorem Priority.toU8_of_fromU8 (h : fromU8 b = some p) : p.toU8 = b := by
  unfold fromU8 at h
  split at h <;> cases h <;> rfl

inductive MsgKind where
  | data
  | olsrHello
  | olsrTc
  | ack
  | sessionKeyRotation
  deriving DecidableEq, Repr

def MsgKind.toU8 : MsgKind → UInt8
  | data => 0
  | olsrHello => 1
  | olsrTc => 2
  | ack => 3
  | sessionKeyRotation => 4

def MsgKind.fromU8 : UInt8 → Option MsgKind
  | 0 => some data
  | 1 => some olsrHello
  | 2 => some olsrTc
  | 3 => some ack
  | 4 => some sessionKeyRotation
  | _ => none

@[simp] theorem MsgKind.fromU8_toU8 (k : MsgKind) : fromU8 k.toU8 = some k := by
  cases k <;> rfl

theorem MsgKind.toU8_of_fromU8 (h : fromU8 b = some k) : k.toU8 = b := by
  unfold fromU8 at h
  split at h <;> cases h <;> rfl

def okOr (e : FrameError) : Option α → Parse α
  | some a => .ok a
  | none => .error (.error e)

theorem okOr_eq_ok : okOr e o = .ok a ↔ o = some a := by
  cases o <;> simp [okOr]

theorem take_four {bs : Bytes} (h0 : bs[0]? = some a) (h1 : bs[1]? = some b) (h2 : bs[2]? = some c)
    (h3 : bs[3]? = some d) : bs.take 4 = [a, b, c, d] := by
  match bs with
  | [] | [_] | [_, _] | [_, _, _] => simp at h3
  | _ :: _ :: _ :: _ :: _ => simp_all

structure AuthHeader where
  srcNode : UInt8
  dstNode : UInt8
  msgKind : MsgKind
  priority : Priority
  timestampMs : UInt64
  nonce : Vector UInt8 12
  payloadHash : Vector UInt8 12
  epoch : UInt16
  payloadLen : UInt16
  fecIndex : UInt8
  fecK : UInt8
  fecN : UInt8
  fecBlockId : UInt8
  deriving DecidableEq, Repr

namespace AuthHeader

def len : ℕ := 44

def toBytes (h : AuthHeader) : Bytes :=
  [h.srcNode, h.dstNode, h.msgKind.toU8, h.priority.toU8] ++
    (leBytes 8 h.timestampMs.toNat ++ (h.nonce.toList ++ (h.payloadHash.toList ++
      (leBytes 2 h.epoch.toNat ++ (leBytes 2 h.payloadLen.toNat ++
        [h.fecIndex, h.fecK, h.fecN, h.fecBlockId])))))

def fromBytes (buf : Bytes) : Parse AuthHeader :=
  if buf.length < len then .error (.error .truncatedFrame)
  else do
    let srcNode ← byteAt buf 0
    let dstNode ← byteAt buf 1
    let msgKind ← okOr .truncatedFrame (MsgKind.fromU8 (← byteAt buf 2))
    let priority ← okOr .truncatedFrame (Priority.fromU8 (← byteAt buf 3))
    let timestampMs ← toArray 8 (← slice buf 4 12)
    let nonce ← toArray 12 (← slice buf 12 24)
    let payloadHash ← toArray 12 (← slice buf 24 36)
    let epoch ← toArray 2 (← slice buf 36 38)
    let payloadLen ← toArray 2 (← slice buf 38 40)
    let fecIndex ← byteAt buf 40
    let fecK ← byteAt buf 41
    let fecN ← byteAt buf 42
    let fecBlockId ← byteAt buf 43
    return {
      srcNode, dstNode, msgKind, priority
      timestampMs := .ofNat (leValue timestampMs.toList)
      nonce, payloadHash
      epoch := .ofNat (leValue epoch.toList)
      payloadLen := .ofNat (leValue payloadLen.toList)
      fecIndex, fecK, fecN, fecBlockId }

@[simp] theorem length_toBytes (h : AuthHeader) : h.toBytes.length = len := by
  simp [toBytes, len]

theorem u64_leBytes (x : UInt64) : UInt64.ofNat (leValue (leBytes 8 x.toNat)) = x := by
  rw [leValue_leBytes, Nat.mod_eq_of_lt (by simpa using x.toNat_lt)]
  exact UInt64.ofNat_toNat

theorem u16_leBytes (x : UInt16) : UInt16.ofNat (leValue (leBytes 2 x.toNat)) = x := by
  rw [leValue_leBytes, Nat.mod_eq_of_lt (by simpa using x.toNat_lt)]
  exact UInt16.ofNat_toNat

theorem slice_toBytes (h : AuthHeader) :
    slice h.toBytes 4 12 = (.ok (leBytes 8 h.timestampMs.toNat) : Parse Bytes) ∧
    slice h.toBytes 12 24 = (.ok h.nonce.toList : Parse Bytes) ∧
    slice h.toBytes 24 36 = (.ok h.payloadHash.toList : Parse Bytes) ∧
    slice h.toBytes 36 38 = (.ok (leBytes 2 h.epoch.toNat) : Parse Bytes) ∧
    slice h.toBytes 38 40 = (.ok (leBytes 2 h.payloadLen.toNat) : Parse Bytes) := by
  simp [toBytes, slice, List.drop_append, List.drop_eq_nil_of_le]

theorem byteAt_toBytes (h : AuthHeader) :
    byteAt h.toBytes 0 = (.ok h.srcNode : Parse UInt8) ∧
    byteAt h.toBytes 1 = (.ok h.dstNode : Parse UInt8) ∧
    byteAt h.toBytes 2 = (.ok h.msgKind.toU8 : Parse UInt8) ∧
    byteAt h.toBytes 3 = (.ok h.priority.toU8 : Parse UInt8) ∧
    byteAt h.toBytes 40 = (.ok h.fecIndex : Parse UInt8) ∧
    byteAt h.toBytes 41 = (.ok h.fecK : Parse UInt8) ∧
    byteAt h.toBytes 42 = (.ok h.fecN : Parse UInt8) ∧
    byteAt h.toBytes 43 = (.ok h.fecBlockId : Parse UInt8) := by
  simp [toBytes, byteAt]

theorem fromBytes_toBytes (h : AuthHeader) : fromBytes h.toBytes = .ok h := by
  obtain ⟨hts, hnonce, hhash, hepoch, hplen⟩ := h.slice_toBytes
  obtain ⟨h0, h1, h2, h3, h40, h41, h42, h43⟩ := h.byteAt_toBytes
  have hlen : ¬ h.toBytes.length < len := by simp
  obtain ⟨ts, hts', htsArray⟩ := toArray_of_length (E := FrameError)
    (length_leBytes 8 h.timestampMs.toNat)
  obtain ⟨epoch, hepoch', hepochArray⟩ := toArray_of_length (E := FrameError)
    (length_leBytes 2 h.epoch.toNat)
  obtain ⟨plen, hplen', hplenArray⟩ := toArray_of_length (E := FrameError)
    (length_leBytes 2 h.payloadLen.toNat)
  rw [fromBytes, if_neg hlen]
  simp only [hts, hnonce, hhash, hepoch, hplen, h0, h1, h2, h3, h40, h41, h42, h43, ok_bind,
    MsgKind.fromU8_toU8, Priority.fromU8_toU8, okOr, toArray_toList, htsArray, hepochArray,
    hplenArray, hts', hepoch', hplen', u64_leBytes, u16_leBytes]
  rfl

theorem toBytes_inj {h h' : AuthHeader} : h.toBytes = h'.toBytes ↔ h = h' := by
  constructor
  · intro heq
    have hread : fromBytes h.toBytes = fromBytes h'.toBytes := congrArg _ heq
    rw [fromBytes_toBytes, fromBytes_toBytes] at hread
    exact Except.ok.inj hread
  · rintro rfl
    rfl

theorem leBytes_u64 (bs : Bytes) (h : bs.length = 8) :
    leBytes 8 (UInt64.ofNat (leValue bs)).toNat = bs := by
  have hlt := leValue_lt bs
  rw [h] at hlt
  rw [UInt64.toNat_ofNat', Nat.mod_eq_of_lt (by omega), ← h, leBytes_leValue]

theorem leBytes_u16 (bs : Bytes) (h : bs.length = 2) :
    leBytes 2 (UInt16.ofNat (leValue bs)).toNat = bs := by
  have hlt := leValue_lt bs
  rw [h] at hlt
  rw [UInt16.toNat_ofNat', Nat.mod_eq_of_lt (by omega), ← h, leBytes_leValue]

theorem toBytes_of_fromBytes (hok : fromBytes buf = .ok h) :
    len ≤ buf.length ∧ h.toBytes = buf.take len := by
  rw [fromBytes] at hok
  split at hok
  next => cases hok
  next hlen =>
    simp only [bind_eq_ok, byteAt_eq_ok, slice_eq_ok, okOr_eq_ok, toArray_eq_ok] at hok
    obtain ⟨b0, h0, b1, h1, b2, h2, k, hk, b3, h3, p, hp, tsBytes, ⟨-, -, hts⟩, ts, rfl, nonceBytes,
      ⟨-, -, hnonce⟩, nonce, rfl, hashBytes, ⟨-, -, hhash⟩, hash, rfl, epochBytes, ⟨-, -, hepoch⟩,
      epoch, rfl, plenBytes, ⟨-, -, hplen⟩, plen, rfl, b40, h40, b41, h41, b42, h42, b43, h43,
      hret⟩ := hok
    cases hret
    have hfirst := take_four h0 h1 h2 h3
    have hlast : (buf.drop 40).take 4 = [b40, b41, b42, b43] := by
      apply take_four <;> rw [List.getElem?_drop] <;> assumption
    refine ⟨Nat.not_lt.1 hlen, ?_⟩
    rw [toBytes, MsgKind.toU8_of_fromU8 hk, Priority.toU8_of_fromU8 hp,
      leBytes_u64 _ ts.length_toList, leBytes_u16 _ epoch.length_toList,
      leBytes_u16 _ plen.length_toList, hnonce, hhash, ← hfirst, ← hlast, hts, hepoch, hplen]
    have hjoin : ∀ i n, buf.take i ++ (buf.drop i).take n = buf.take (i + n) :=
      fun i n => List.take_add.symm
    simp only [← List.append_assoc, hjoin, Nat.reduceSub, Nat.reduceAdd, len]

end AuthHeader

structure RoutedHeader where
  lastHopId : UInt8
  hopsTaken : UInt8
  flags : UInt8
  reserved : UInt8
  deriving DecidableEq, Repr

namespace RoutedHeader

def len : ℕ := 4

def toBytes (r : RoutedHeader) : Bytes := [r.lastHopId, r.hopsTaken, r.flags, r.reserved]

def fromBytes (buf : Bytes) : Parse RoutedHeader :=
  if buf.length < len then .error (.error .truncatedFrame)
  else do
    let lastHopId ← byteAt buf 0
    let hopsTaken ← byteAt buf 1
    let flags ← byteAt buf 2
    let reserved ← byteAt buf 3
    return { lastHopId, hopsTaken, flags, reserved }

@[simp] theorem length_toBytes (r : RoutedHeader) : r.toBytes.length = len := rfl

theorem fromBytes_toBytes (r : RoutedHeader) : fromBytes r.toBytes = .ok r := rfl

theorem toBytes_inj {r r' : RoutedHeader} : r.toBytes = r'.toBytes ↔ r = r' := by
  constructor
  · intro heq
    have hread : fromBytes r.toBytes = fromBytes r'.toBytes := congrArg _ heq
    rw [fromBytes_toBytes, fromBytes_toBytes] at hread
    exact Except.ok.inj hread
  · rintro rfl
    rfl

theorem exists_of_length (h : bs.length = len) : ∃ r : RoutedHeader, r.toBytes = bs := by
  match bs, h with
  | [a, b, c, d], _ => exact ⟨⟨a, b, c, d⟩, rfl⟩

theorem toBytes_of_fromBytes (hok : fromBytes buf = .ok r) :
    len ≤ buf.length ∧ r.toBytes = buf.take len := by
  rw [fromBytes] at hok
  split at hok
  next => cases hok
  next hlen =>
    simp only [bind_eq_ok, byteAt_eq_ok] at hok
    obtain ⟨b0, h0, b1, h1, b2, h2, b3, h3, hret⟩ := hok
    cases hret
    exact ⟨Nat.not_lt.1 hlen, (take_four h0 h1 h2 h3).symm⟩

end RoutedHeader
end TacticalMesh
