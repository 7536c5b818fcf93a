import TacticalMesh.Chunks
import TacticalMesh.WireHeaders

namespace TacticalMesh
set_option autoImplicit true

def fecThresholdBytes : ℕ := 1024

def fecParams : Priority → UInt8 × UInt8
  | .emergency => (1, 4)
  | .critical => (1, 3)
  | .high => (1, 2)
  | .bulk => (8, 12)

/-- The erasure code of another crate: all the shards that it works on are of one size. -/
structure ReedSolomon where
  encode : ℕ → ℕ → List Bytes → Except String (List Bytes)
  length_encode : encode k recovery original = .ok shards → shards.length = recovery
  length_shard : encode k recovery original = .ok shards → source ∈ original → shard ∈ shards →
    shard.length = source.length

namespace ReedSolomon

def parity (first : Bytes) (rest : List Bytes) : Bytes :=
  rest.foldl (List.zipWith (· ^^^ ·)) first

theorem length_parity (h : ∀ shard ∈ rest, shard.length = first.length) :
    (parity first rest).length = first.length := by
  induction rest generalizing first with
  | nil => rfl
  | cons shard rest ih =>
    rw [List.forall_mem_cons] at h
    have hzip : (List.zipWith (· ^^^ ·) first shard).length = first.length := by
      rw [List.length_zipWith, h.1, Nat.min_self]
    rw [parity, List.foldl_cons, ← parity, ih fun s hs => (h.2 s hs).trans hzip.symm, hzip]

/-- A weak stand-in for the code: every recovery shard is the sum of the others. -/
def toy : ReedSolomon where
  encode _ recovery
    | [] => .error "no shards"
    | first :: rest =>
      if 0 < first.length ∧ first.length % 2 = 0 ∧ ∀ shard ∈ rest, shard.length = first.length then
        .ok (List.replicate recovery (parity first rest))
      else .error "wrong shard size"
  length_encode h := by
    split at h
    · cases h
    · split at h
      · rw [← Except.ok.inj h, List.length_replicate]
      · cases h
  length_shard h hsource hshard := by
    split at h
    · cases h
    · split at h
      next hsize =>
        rw [← Except.ok.inj h] at hshard
        rw [(List.mem_replicate.1 hshard).2, length_parity hsize.2.2]
        rcases List.mem_cons.1 hsource with rfl | hmem
        · rfl
        · exact (hsize.2.2 _ hmem).symm
      next => cases h

theorem toy_encode_cons (k recovery : ℕ) (first : Bytes) (rest : List Bytes) :
    toy.encode k recovery (first :: rest) =
      if 0 < first.length ∧ first.length % 2 = 0 ∧ ∀ shard ∈ rest, shard.length = first.length then
        .ok (List.replicate recovery (parity first rest))
      else .error "wrong shard size" := rfl

end ReedSolomon

/-- The payload with the zeros that make it divisible into `k` shards. -/
def fecPadded (data : Bytes) (k : ℕ) : Bytes :=
  data ++ List.replicate (chunkCount k data.length * k - data.length) 0

/-- Cutting into shards of size 0 is a panic. -/
def fecEncode (rs : ReedSolomon) (data : Bytes) (prio : Priority) : Parse (List Bytes) :=
  let (k, n) := fecParams prio
  let recovery := n.toNat - k.toNat
  let shardSize := chunkCount k.toNat data.length
  if shardSize = 0 then .error .panic
  else
    let originalShards := chunks shardSize (fecPadded data k.toNat)
    match rs.encode k.toNat recovery originalShards with
    | .error e => .error (.error (.fecError e))
    | .ok recoveryShards => .ok (originalShards ++ recoveryShards)

theorem fecParams_fst_pos (prio : Priority) : 0 < (fecParams prio).1.toNat := by
  cases prio <;> decide

theorem fecParams_le (prio : Priority) :
    (fecParams prio).1.toNat ≤ (fecParams prio).2.toNat := by
  cases prio <;> decide

theorem length_fecPadded (hk : 0 < k) (data : Bytes) :
    (fecPadded data k).length = k * chunkCount k data.length := by
  have hle := le_chunkCount_mul hk data.length
  rw [fecPadded, List.length_append, List.length_replicate, Nat.mul_comm k]
  omega

def originalShards (data : Bytes) (prio : Priority) : List Bytes :=
  let k := (fecParams prio).1.toNat
  chunks (chunkCount k data.length) (fecPadded data k)

theorem length_originalShards (hdata : data ≠ []) (prio : Priority) :
    (originalShards data prio).length = (fecParams prio).1.toNat := by
  have hk := fecParams_fst_pos prio
  have hpos := (chunkCount_pos hk).2 (List.length_pos_iff.2 hdata)
  rw [originalShards, length_chunks, length_fecPadded hk, chunkCount_mul hpos]

theorem length_of_mem_originalShards (h : shard ∈ originalShards data prio) :
    shard.length = chunkCount (fecParams prio).1.toNat data.length := by
  have hk := fecParams_fst_pos prio
  rcases Nat.eq_zero_or_pos (chunkCount (fecParams prio).1.toNat data.length) with hzero | hpos
  · rw [originalShards, hzero, chunks, List.mem_map] at h
    obtain ⟨i, -, rfl⟩ := h
    rw [chunk, List.take_zero, hzero]
    rfl
  · exact length_of_mem_chunks hpos (length_fecPadded hk data) h

theorem flatten_originalShards (hdata : data ≠ []) (prio : Priority) :
    (originalShards data prio).flatten = fecPadded data (fecParams prio).1.toNat :=
  flatten_chunks ((chunkCount_pos (fecParams_fst_pos prio)).2 (List.length_pos_iff.2 hdata)) _

theorem originalShards_single (hk : (fecParams prio).1 = 1) (hdata : data ≠ []) :
    originalShards data prio = [data] := by
  have hlen := length_originalShards hdata prio
  have hflat := flatten_originalShards hdata prio
  rw [hk] at hlen hflat
  obtain ⟨first, hfirst⟩ := List.length_eq_one_iff.1 hlen
  have hcount : chunkCount 1 data.length = data.length := by
    rw [chunkCount, Nat.add_sub_cancel, Nat.div_one]
  have hpadded : fecPadded data (1 : UInt8).toNat = data := by
    change data ++ List.replicate (chunkCount 1 data.length * 1 - data.length) 0 = data
    rw [hcount, Nat.mul_one, Nat.sub_self, List.replicate_zero, List.append_nil]
  rw [hfirst, List.flatten_singleton, hpadded] at hflat
  rw [hfirst, hflat]

theorem fecEncode_nil (rs : ReedSolomon) (prio : Priority) :
    fecEncode rs [] prio = .error .panic := by
  have hzero : chunkCount (fecParams prio).1.toNat ([] : Bytes).length = 0 := by
    cases prio <;> rfl
  simp only [fecEncode]
  exact if_pos hzero

theorem fecEncode_of_ne_nil (rs : ReedSolomon) (hdata : data ≠ []) (prio : Priority) :
    fecEncode rs data prio =
      match rs.encode (fecParams prio).1.toNat
        ((fecParams prio).2.toNat - (fecParams prio).1.toNat) (originalShards data prio) with
      | .error e => .error (.error (.fecError e))
      | .ok recoveryShards => .ok (originalShards data prio ++ recoveryShards) := by
  have hpos := (chunkCount_pos (fecParams_fst_pos prio)).2 (List.length_pos_iff.2 hdata)
  simp only [fecEncode]
  exact if_neg hpos.ne'

theorem fecEncode_split (h : fecEncode rs data prio = .ok shards) : data ≠ [] ∧
    ∃ recoveryShards, shards = originalShards data prio ++ recoveryShards ∧
      rs.encode (fecParams prio).1.toNat
        ((fecParams prio).2.toNat - (fecParams prio).1.toNat) (originalShards data prio) =
          .ok recoveryShards := by
  have hdata : data ≠ [] := by
    rintro rfl
    rw [fecEncode_nil] at h
    cases h
  rw [fecEncode_of_ne_nil rs hdata] at h
  split at h
  next => cases h
  next recoveryShards hrs =>
    cases h
    exact ⟨hdata, recoveryShards, rfl, hrs⟩

theorem fecEncode_eq_ok (h : fecEncode rs data prio = .ok shards) :
    shards.length = (fecParams prio).2.toNat ∧
      (∀ shard ∈ shards, shard.length = chunkCount (fecParams prio).1.toNat data.length) ∧
      (shards.take (fecParams prio).1.toNat).length = (fecParams prio).1.toNat ∧
      (shards.take (fecParams prio).1.toNat).flatten =
        fecPadded data (fecParams prio).1.toNat := by
  have hk := fecParams_fst_pos prio
  have hle := fecParams_le prio
  obtain ⟨hdata, recoveryShards, rfl, hrs⟩ := fecEncode_split h
  have hcount := length_originalShards hdata prio
  have hrec := rs.length_encode hrs
  refine ⟨?_, ?_, ?_, ?_⟩
  · rw [List.length_append, hcount, hrec]
    omega
  · intro shard hshard
    rcases List.mem_append.1 hshard with hmem | hmem
    · exact length_of_mem_originalShards hmem
    · obtain ⟨source, hsource⟩ := List.exists_mem_of_length_pos (hk.trans_eq hcount.symm)
      rw [rs.length_shard hrs hsource hmem, length_of_mem_originalShards hsource]
  · rw [List.take_left' hcount, hcount]
  · rw [List.take_left' hcount, flatten_originalShards hdata]

end TacticalMesh
