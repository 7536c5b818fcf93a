import TacticalMesh.Frame

namespace TacticalMesh
set_option autoImplicit true

/-- Writing and reading are inverse to each other, and reading takes any bytes whatever. -/
structure ExactCodec (len : ℕ) (Coded : Bytes → Prop) (write : α → Checked E Bytes)
    (read : Bytes → Checked E α) : Prop where
  read_write : ∀ a, ∃ bytes, write a = .ok bytes ∧ read bytes = .ok a
  accepts_iff : ∀ buf, (∃ a, read buf = .ok a) ↔ len ≤ buf.length ∧ Coded buf
  write_read : ∀ buf a, read buf = .ok a → write a = .ok (buf.take len)
  read_safe : ∀ buf, Safe (read buf)

theorem okOr_safe : Safe (okOr e o : Parse α) := by
  cases o with
  | none => exact Safe.error
  | some a => exact Safe.ok

theorem okOr_errsIn {P : FrameError → Prop} (h : P e) : ErrsIn P (okOr e o : Parse α) := by
  cases o with
  | none => exact ErrsIn.error h
  | some a => exact ErrsIn.ok

theorem byteAt_of_lt {bs : Bytes} (h : i < bs.length) :
    ∃ b, bs[i]? = some b ∧ byteAt bs i = (.ok b : Checked E UInt8) :=
  ⟨bs[i], List.getElem?_eq_getElem h, byteAt_eq_ok.2 (List.getElem?_eq_getElem h)⟩

theorem arrayAt_of_le {bs : Bytes} (h : i + n ≤ bs.length) :
    ∃ (mid : Bytes) (v : Vector UInt8 n), slice bs i (i + n) = (.ok mid : Checked E Bytes) ∧
      toArray n mid = (.ok v : Checked E (Vector UInt8 n)) := by
  have hslice : slice bs i (i + n) = (.ok ((bs.drop i).take (i + n - i)) : Checked E Bytes) :=
    slice_eq_ok.2 ⟨Nat.le_add_right i n, h, rfl⟩
  obtain ⟨v, -, hv⟩ := toArray_of_length (E := E)
    ((length_of_slice hslice).trans (Nat.add_sub_cancel_left i n))
  exact ⟨_, v, hslice, hv⟩

namespace AuthHeader

/-- `to_bytes` as it fills its buffer, with the offset it moves along. -/
def toBuffer (h : AuthHeader) : Parse Bytes := do
  let buf := List.replicate len 0
  let i := 0
  let buf ← setAt buf i h.srcNode
  let i := i + 1
  let buf ← setAt buf i h.dstNode
  let i := i + 1
  let buf ← setAt buf i h.msgKind.toU8
  let i := i + 1
  let buf ← setAt buf i h.priority.toU8
  let i := i + 1
  let buf ← copyAt buf i (i + 8) (leBytes 8 h.timestampMs.toNat)
  let i := i + 8
  let buf ← copyAt buf i (i + 12) h.nonce.toList
  let i := i + 12
  let buf ← copyAt buf i (i + 12) h.payloadHash.toList
  let i := i + 12
  let buf ← copyAt buf i (i + 2) (leBytes 2 h.epoch.toNat)
  let i := i + 2
  let buf ← copyAt buf i (i + 2) (leBytes 2 h.payloadLen.toNat)
  let i := i + 2
  let buf ← setAt buf i h.fecIndex
  let i := i + 1
  let buf ← setAt buf i h.fecK
  let i := i + 1
  let buf ← setAt buf i h.fecN
  let i := i + 1
  setAt buf i h.fecBlockId

theorem toBuffer_eq (h : AuthHeader) : h.toBuffer = .ok h.toBytes := by
  have hblank : List.replicate len (0 : UInt8) = [] ++ List.replicate 44 0 := rfl
  rw [toBuffer, hblank]
  simp (disch := simp) only [setAt_blank, copyAt_blank, ok_bind]
  simp [toBytes]

theorem fromBytes_of_long (hlen : len ≤ buf.length) :
    ∃ b2 b3, ∃ header : MsgKind → Priority → AuthHeader, buf[2]? = some b2 ∧ buf[3]? = some b3 ∧
      fromBytes buf = do
        let msgKind ← okOr .truncatedFrame (MsgKind.fromU8 b2)
        let priority ← okOr .truncatedFrame (Priority.fromU8 b3)
        return header msgKind priority := by
  have hbyte : ∀ i < 44, ∃ b, buf[i]? = some b ∧ byteAt buf i = (.ok b : Parse UInt8) :=
    fun i hi => byteAt_of_lt (hi.trans_le hlen)
  have harray : ∀ i n, i + n ≤ 44 → ∃ (mid : Bytes) (v : Vector UInt8 n),
      slice buf i (i + n) = (.ok mid : Parse Bytes) ∧ toArray n mid = (.ok v : Parse _) :=
    fun i n hi => arrayAt_of_le (hi.trans hlen)
  obtain ⟨b0, -, h0⟩ := hbyte 0 (by decide)
  obtain ⟨b1, -, h1⟩ := hbyte 1 (by decide)
  obtain ⟨b2, hb2, h2⟩ := hbyte 2 (by decide)
  obtain ⟨b3, hb3, h3⟩ := hbyte 3 (by decide)
  obtain ⟨_, ts, hts, hts'⟩ := harray 4 8 (by decide)
  obtain ⟨_, nonce, hnonce, hnonce'⟩ := harray 12 12 (by decide)
  obtain ⟨_, hash, hhash, hhash'⟩ := harray 24 12 (by decide)
  obtain ⟨_, epoch, hepoch, hepoch'⟩ := harray 36 2 (by decide)
  obtain ⟨_, plen, hplen, hplen'⟩ := harray 38 2 (by decide)
  obtain ⟨b40, -, h40⟩ := hbyte 40 (by decide)
  obtain ⟨b41, -, h41⟩ := hbyte 41 (by decide)
  obtain ⟨b42, -, h42⟩ := hbyte 42 (by decide)
  obtain ⟨b43, -, h43⟩ := hbyte 43 (by decide)
  refine ⟨b2, b3, fun k p => ⟨b0, b1, k, p, .ofNat (leValue ts.toList), nonce, hash,
    .ofNat (leValue epoch.toList), .ofNat (leValue plen.toList), b40, b41, b42, b43⟩,
    hb2, hb3, ?_⟩
  rw [fromBytes, if_neg (Nat.not_lt.2 hlen)]
  simp only [h0, h1, h2, h3, hts, hts', hnonce, hnonce', hhash, hhash', hepoch, hepoch', hplen,
    hplen', h40, h41, h42, h43, ok_bind]

theorem fromBytes_of_short (hlen : buf.length < len) :
    fromBytes buf = .error (.error .truncatedFrame) := by
  rw [fromBytes, if_pos hlen]

theorem fromBytes_errsIn (buf : Bytes) :
    ErrsIn (fun e => e = .truncatedFrame ∨ e = .badSignature) (fromBytes buf) := by
  rcases Nat.lt_or_ge buf.length len with hlen | hlen
  · rw [fromBytes_of_short hlen]
    exact ErrsIn.error (.inl rfl)
  · obtain ⟨b2, b3, header, -, -, hread⟩ := fromBytes_of_long hlen
    rw [hread]
    exact ErrsIn.bind (okOr_errsIn (.inl rfl)) fun _ =>
      ErrsIn.bind (okOr_errsIn (.inl rfl)) fun _ => ErrsIn.ok

theorem fromBytes_safe (buf : Bytes) : Safe (fromBytes buf) := by
  rcases Nat.lt_or_ge buf.length len with hlen | hlen
  · rw [fromBytes_of_short hlen]
    exact Safe.error
  · obtain ⟨b2, b3, header, -, -, hread⟩ := fromBytes_of_long hlen
    rw [hread]
    exact Safe.bind okOr_safe fun _ _ => Safe.bind okOr_safe fun _ _ => Safe.ok

def Coded (buf : Bytes) : Prop :=
  (∃ k : MsgKind, buf[2]? = some k.toU8) ∧ ∃ p : Priority, buf[3]? = some p.toU8

theorem exists_fromBytes_iff : (∃ h, fromBytes buf = .ok h) ↔ len ≤ buf.length ∧ Coded buf := by
  rcases Nat.lt_or_ge buf.length len with hlen | hlen
  · rw [fromBytes_of_short hlen]
    constructor
    · nofun
    · rintro ⟨hle, -⟩
      omega
  obtain ⟨b2, b3, header, hb2, hb3, hread⟩ := fromBytes_of_long hlen
  simp only [hread, bind_eq_ok, okOr_eq_ok, Coded, hb2, hb3, Option.some.injEq]
  constructor
  · rintro ⟨_, k, hk, p, hp, -⟩
    exact ⟨hlen, ⟨k, (MsgKind.toU8_of_fromU8 hk).symm⟩, p, (Priority.toU8_of_fromU8 hp).symm⟩
  · rintro ⟨-, ⟨k, rfl⟩, p, rfl⟩
    exact ⟨_, k, MsgKind.fromU8_toU8 k, p, Priority.fromU8_toU8 p, rfl⟩

theorem exactCodec : ExactCodec len Coded toBuffer fromBytes where
  read_write h := ⟨h.toBytes, h.toBuffer_eq, fromBytes_toBytes h⟩
  accepts_iff _ := exists_fromBytes_iff
  write_read _ h hread := by rw [toBuffer_eq, (toBytes_of_fromBytes hread).2]
  read_safe := fromBytes_safe

end AuthHeader

namespace RoutedHeader

theorem fromBytes_of_long (hlen : len ≤ buf.length) : ∃ r, fromBytes buf = .ok r := by
  match buf, hlen with
  | a :: b :: c :: d :: rest, _ =>
    refine ⟨⟨a, b, c, d⟩, ?_⟩
    have hlong : ¬ (a :: b :: c :: d :: rest).length < len := by simp [len]
    rw [fromBytes, if_neg hlong]
    rfl

theorem fromBytes_errsIn (buf : Bytes) :
    ErrsIn (fun e => e = .truncatedFrame ∨ e = .badSignature) (fromBytes buf) := by
  rcases Nat.lt_or_ge buf.length len with hlen | hlen
  · rw [fromBytes, if_pos hlen]
    exact ErrsIn.error (.inl rfl)
  · obtain ⟨r, hr⟩ := fromBytes_of_long hlen
    rw [hr]
    exact ErrsIn.ok

theorem fromBytes_safe (buf : Bytes) : Safe (fromBytes buf) := by
  rcases Nat.lt_or_ge buf.length len with hlen | hlen
  · rw [fromBytes, if_pos hlen]
    exact Safe.error
  · obtain ⟨r, hr⟩ := fromBytes_of_long hlen
    rw [hr]
    exact Safe.ok

theorem exactCodec :
    ExactCodec len (fun _ => True) (fun r => (.ok r.toBytes : Parse Bytes)) fromBytes where
  read_write r := ⟨r.toBytes, rfl, fromBytes_toBytes r⟩
  accepts_iff buf := by
    constructor
    · rintro ⟨r, hr⟩
      exact ⟨(toBytes_of_fromBytes hr).1, trivial⟩
    · rintro ⟨hlen, -⟩
      exact fromBytes_of_long hlen
  write_read _ r hread := by rw [(toBytes_of_fromBytes hread).2]
  read_safe := fromBytes_safe

end RoutedHeader

namespace Crypto
variable (crypto : Crypto)

theorem minFrameLen_le_of_authenticate {store : PubkeyStore crypto}
    (h : crypto.authenticate raw store = .ok parsed) : minFrameLen ≤ raw.length := by
  rw [authenticate] at h
  split at h
  next => cases h
  next hlen => exact Nat.not_lt.1 hlen

theorem authenticate_errsIn (raw : Bytes) (store : PubkeyStore crypto) :
    ErrsIn (fun e => e = .truncatedFrame ∨ e = .badSignature)
      (crypto.authenticate raw store) := by
  rw [authenticate]
  split
  next => exact ErrsIn.error (.inl rfl)
  next =>
    refine ErrsIn.bind ErrsIn.slice fun _ => ?_
    refine ErrsIn.bind (RoutedHeader.fromBytes_errsIn _) fun _ => ?_
    refine ErrsIn.bind ErrsIn.slice fun _ => ?_
    refine ErrsIn.bind (AuthHeader.fromBytes_errsIn _) fun auth => ?_
    refine ErrsIn.bind ErrsIn.slice fun _ => ErrsIn.bind ErrsIn.toArray fun _ => ?_
    refine ErrsIn.bind ErrsIn.slice fun _ => ErrsIn.bind ErrsIn.toArray fun _ => ?_
    refine ErrsIn.bind (okOr_errsIn (.inr rfl)) fun key => ?_
    refine ErrsIn.bind ?_ fun _ => ErrsIn.ok
    rw [verifyAuth]
    split
    next => exact ErrsIn.ok
    next => exact ErrsIn.error (.inr rfl)

theorem authenticate_safe (raw : Bytes) (store : PubkeyStore crypto) :
    Safe (crypto.authenticate raw store) := by
  rw [authenticate]
  split
  next => exact Safe.error
  next hshort =>
    have hlen : 112 ≤ raw.length := Nat.not_lt.1 hshort
    have hauth : 4 ≤ 48 ∧ 48 ≤ raw.length := ⟨by decide, by omega⟩
    refine Safe.bind (Safe.slice (by omega)) fun _ _ => ?_
    refine Safe.bind (RoutedHeader.fromBytes_safe _) fun _ _ => ?_
    refine Safe.bind (Safe.slice hauth) fun _ _ => ?_
    refine Safe.bind (AuthHeader.fromBytes_safe _) fun auth _ => ?_
    refine Safe.bind (Safe.slice (by omega)) fun _ hsig => ?_
    refine Safe.bind (Safe.toArray (length_of_slice hsig)) fun _ _ => ?_
    refine Safe.bind (Safe.slice hauth) fun _ hbytes => ?_
    refine Safe.bind (Safe.toArray (length_of_slice hbytes)) fun _ _ => ?_
    refine Safe.bind okOr_safe fun key _ => ?_
    refine Safe.bind ?_ fun _ _ => Safe.ok
    rw [verifyAuth]
    split
    · exact Safe.ok
    · exact Safe.error

theorem decrypt_safe (hlen : minFrameLen ≤ raw.length) :
    Safe (crypto.decrypt raw auth key) := by
  refine Safe.bind (Safe.slice ⟨hlen, Nat.le_refl _⟩) fun body _ => ?_
  dsimp only
  split
  · exact Safe.ok
  · exact Safe.error

theorem parseAndVerifyFrame_safe (raw : Bytes) (store : PubkeyStore crypto) (cache : NonceCache)
    (now : ℕ) (key : SessionKey) :
    Safe (crypto.parseAndVerifyFrame raw store cache now key).2 := by
  rw [parseAndVerifyFrame]
  split
  next e hrefused =>
    have hsafe := crypto.authenticate_safe raw store
    rw [hrefused] at hsafe
    intro h
    cases h
    exact hsafe rfl
  next routed auth hpassed =>
    split
    next => exact Safe.error
    next => exact Safe.map _ (crypto.decrypt_safe (crypto.minFrameLen_le_of_authenticate hpassed))

/-- Both headers are read back exactly, and no bytes make the frame parser panic. -/
theorem headers_exact_parser_total :
    ExactCodec 44 AuthHeader.Coded AuthHeader.toBuffer AuthHeader.fromBytes ∧
    ExactCodec 4 (fun _ => True) (fun r => (.ok r.toBytes : Parse Bytes))
      RoutedHeader.fromBytes ∧
    ∀ raw store cache now key,
      Safe (crypto.parseAndVerifyFrame raw store cache now key).2 :=
  ⟨AuthHeader.exactCodec, RoutedHeader.exactCodec, crypto.parseAndVerifyFrame_safe⟩

end Crypto
end TacticalMesh
