import TacticalMesh.FrameRoundTrip

namespace TacticalMesh
set_option autoImplicit true

/-- The size rule of the code, for the shard counts in use: not zero and not odd. -/
def ReedSolomon.NeedsEvenSize (rs : ReedSolomon) : Prop :=
  ∀ prio original size, original.length = (fecParams prio).1.toNat →
    (∀ s ∈ original, s.length = size) →
    ((∃ recovered, rs.encode (fecParams prio).1.toNat
      ((fecParams prio).2.toNat - (fecParams prio).1.toNat) original = .ok recovered) ↔
        0 < size ∧ size % 2 = 0)

theorem fecEncode_no_panic (rs : ReedSolomon) (data : Bytes) (prio : Priority) :
    fecEncode rs data prio ≠ .error .panic ↔ data ≠ [] := by
  constructor
  · rintro h rfl
    exact h (fecEncode_nil rs prio)
  · intro hdata h
    rw [fecEncode_of_ne_nil rs hdata] at h
    split at h
    · cases h
    · cases h

theorem fecEncode_isOk {rs : ReedSolomon} (hrs : rs.NeedsEvenSize) (hdata : data ≠ [])
    (prio : Priority) : (∃ shards, fecEncode rs data prio = .ok shards) ↔
      chunkCount (fecParams prio).1.toNat data.length % 2 = 0 := by
  have hpos := (chunkCount_pos (fecParams_fst_pos prio)).2 (List.length_pos_iff.2 hdata)
  have hcode := hrs prio (originalShards data prio) _ (length_originalShards hdata prio)
    fun s hs => length_of_mem_originalShards hs
  rw [and_iff_right hpos] at hcode
  rw [← hcode, fecEncode_of_ne_nil rs hdata]
  constructor
  · rintro ⟨shards, h⟩
    split at h
    next => cases h
    next recovered hrs => exact ⟨recovered, hrs⟩
  · rintro ⟨recovered, h⟩
    rw [h]
    exact ⟨_, rfl⟩

section
variable {crypto : Crypto} {rs : ReedSolomon} {msg : TacticalMessage} {prio : Priority}
  {dst : UInt8} {identity : Identity crypto} {draws : ShardDraws}

theorem buildFrames_of_long (hlong : fecThresholdBytes < msg.payload.length) :
    (∃ frames, crypto.buildFrames rs msg prio dst identity draws = some frames ∧
      frames.length = (fecParams prio).2.toNat) ↔
      ∃ shards, fecEncode rs msg.payload prio = .ok shards := by
  rw [Crypto.buildFrames, if_neg (Nat.not_le.2 hlong)]
  constructor
  · rintro ⟨frames, h, -⟩
    split at h
    next => cases h
    next shards henc => exact ⟨shards, henc⟩
  · rintro ⟨shards, henc⟩
    rw [henc]
    exact ⟨_, rfl, by rw [List.length_mapIdx, (fecEncode_eq_ok henc).1]⟩

/-- Sharding works exactly for payloads that are not empty and that, where they are long, are cut
into shards of an even size. -/
theorem sharding_iff (crypto : Crypto) (rs : ReedSolomon) (hrs : rs.NeedsEvenSize)
    (msg : TacticalMessage) (prio : Priority) (dst : UInt8) (identity : Identity crypto)
    (draws : ShardDraws) :
    (fecEncode rs msg.payload prio ≠ .error .panic ∧
      (fecThresholdBytes < msg.payload.length →
        ∃ frames, crypto.buildFrames rs msg prio dst identity draws = some frames ∧
          frames.length = (fecParams prio).2.toNat)) ↔
      msg.payload ≠ [] ∧ (fecThresholdBytes < msg.payload.length →
        chunkCount (fecParams prio).1.toNat msg.payload.length % 2 = 0) := by
  rw [fecEncode_no_panic]
  apply and_congr_right
  intro hdata
  apply forall_congr'
  intro hlong
  rw [buildFrames_of_long hlong, fecEncode_isOk hrs hdata]

end

theorem toy_needsEvenSize : ReedSolomon.toy.NeedsEvenSize := by
  intro prio original size hlen hsize
  have hpos := fecParams_fst_pos prio
  cases original with
  | nil =>
    rw [← hlen] at hpos
    cases hpos
  | cons first rest =>
    obtain rfl : first.length = size := hsize first (.head _)
    have hrest : ∀ shard ∈ rest, shard.length = first.length := fun s hs => hsize s (.tail _ hs)
    rw [ReedSolomon.toy_encode_cons]
    constructor
    · rintro ⟨recovered, h⟩
      split at h
      next hand => exact ⟨hand.1, hand.2.1⟩
      next => cases h
    · rintro ⟨h₀, h₁⟩
      exact ⟨_, if_pos ⟨h₀, h₁, hrest⟩⟩

def zeroMessage (len : ℕ) : TacticalMessage := ⟨.data, List.replicate len 0⟩

def zeroDraws : ShardDraws := ⟨0, 1000, fun _ => Vector.replicate 5 0⟩

theorem even_payload_sharded :
    fecEncode .toy (zeroMessage 1026).payload .high ≠ .error .panic ∧
      (fecThresholdBytes < (zeroMessage 1026).payload.length →
        ∃ frames, Crypto.toy.buildFrames .toy (zeroMessage 1026) .high broadcast
            (Crypto.toyFleet.identity 1) zeroDraws = some frames ∧
          frames.length = (fecParams .high).2.toNat) := by
  apply (sharding_iff .toy .toy toy_needsEvenSize _ _ _ _ _).2
  refine ⟨List.ne_nil_of_length_pos ?_, fun _ => ?_⟩
  · simp only [zeroMessage, List.length_replicate]
    decide
  · simp only [zeroMessage, List.length_replicate]
    decide

/-- An odd payload is one byte over the threshold: the `expect` fails. An empty one panics too. -/
theorem odd_payload_panics : ReedSolomon.toy.NeedsEvenSize ∧
    fecThresholdBytes < (zeroMessage 1025).payload.length ∧
    Crypto.toy.buildFrames .toy (zeroMessage 1025) .high broadcast (Crypto.toyFleet.identity 1)
      zeroDraws = none ∧
    fecEncode .toy [] .bulk = .error .panic := by
  have hlen : (zeroMessage 1025).payload.length = 1025 := List.length_replicate
  have hlong : fecThresholdBytes < (zeroMessage 1025).payload.length := by
    rw [hlen]
    decide
  have hodd : ¬ ∃ shards, fecEncode .toy (zeroMessage 1025).payload .high = .ok shards := by
    rw [fecEncode_isOk toy_needsEvenSize (List.ne_nil_of_length_pos (by rw [hlen]; decide)), hlen]
    decide
  refine ⟨toy_needsEvenSize, hlong, ?_, fecEncode_nil ..⟩
  rw [Crypto.buildFrames, if_neg (Nat.not_le.2 hlong)]
  cases henc : fecEncode .toy (zeroMessage 1025).payload .high with
  | error e => rfl
  | ok shards => exact absurd ⟨shards, henc⟩ hodd

end TacticalMesh
