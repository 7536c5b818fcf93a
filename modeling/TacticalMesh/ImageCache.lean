import Mathlib.Data.List.Sort
import TacticalMesh.AppMessages
import TacticalMesh.ByteStrings
import TacticalMesh.Table

namespace TacticalMesh
set_option autoImplicit true

def blockIds (expected : UInt8) : List UInt8 := (List.range expected.toNat).map .ofNat

theorem mem_blockIds : b ∈ blockIds expected ↔ b < expected := by
  rw [blockIds, List.mem_map, UInt8.lt_iff_toNat_lt]
  constructor
  · rintro ⟨i, hi, rfl⟩
    have hmod : (UInt8.ofNat i).toNat ≤ i := by
      rw [UInt8.toNat_ofNat']
      exact Nat.mod_le ..
    exact hmod.trans_lt (List.mem_range.1 hi)
  · intro hb
    exact ⟨b.toNat, List.mem_range.2 hb, UInt8.ofNat_toNat⟩

def joinBlocks (blocks : UInt8 → Option Bytes) (expected : UInt8) : Option Bytes :=
  if (blockIds expected).all fun bid => (blocks bid).isSome then
    some ((blockIds expected).flatMap fun bid => (blocks bid).getD [])
  else none

theorem joinBlocks_eq_some : joinBlocks blocks expected = some full ↔
    (∀ bid < expected, (blocks bid).isSome) ∧
      (blockIds expected).flatMap (fun bid => (blocks bid).getD []) = full := by
  simp only [joinBlocks, List.all_eq_true, mem_blockIds, Option.ite_none_right_eq_some,
    Option.some.injEq]

theorem joinBlocks_isSome :
    (joinBlocks blocks expected).isSome ↔ ∀ bid < expected, (blocks bid).isSome := by
  simp only [Option.isSome_iff_exists, joinBlocks_eq_some]
  exact ⟨fun ⟨_, h, _⟩ => h, fun h => ⟨_, h, rfl⟩⟩

theorem joinBlocks_congr {blocks blocks' : UInt8 → Option Bytes}
    (h : ∀ bid < expected, blocks bid = blocks' bid) :
    joinBlocks blocks expected = joinBlocks blocks' expected := by
  apply Option.ext
  intro full
  have hflat : (blockIds expected).flatMap (fun bid => (blocks bid).getD []) =
      (blockIds expected).flatMap (fun bid => (blocks' bid).getD []) :=
    List.flatMap_congr fun bid hbid => by rw [h bid (mem_blockIds.1 hbid)]
  rw [joinBlocks_eq_some, joinBlocks_eq_some, hflat]
  exact and_congr_left' (forall₂_congr fun bid hbid => by rw [h bid hbid])

def ImageShard.key (shard : ImageShard) : UInt16 × UInt8 := (shard.targetId, shard.blockId)

structure ImageCache where
  shards : Table (UInt16 × UInt8) (List (UInt8 × Bytes))
  blockK : Table (UInt16 × UInt8) UInt8
  assembledBlocks : Table (UInt16 × UInt8) Bytes
  totalBlocksExpected : Table UInt16 UInt8
  complete : Table UInt16 Bytes

/-- A shard whose index is known already is dropped. -/
def pushShard (bucket : List (UInt8 × Bytes)) (index : UInt8) (data : Bytes) :
    List (UInt8 × Bytes) :=
  if bucket.any fun e => e.1 = index then bucket else bucket ++ [(index, data)]

/-- The shards of a block in the order of their indices, as they are. -/
def concatShards (bucket : List (UInt8 × Bytes)) : Bytes :=
  (bucket.insertionSort fun a b => a.1 ≤ b.1).flatMap Prod.snd

namespace ImageCache

def new : ImageCache := ⟨.empty, .empty, .empty, .empty, .empty⟩

/-- `insert_shard` up to where it tries to assemble the block. -/
def store (c : ImageCache) (shard : ImageShard) : ImageCache :=
  { c with
    totalBlocksExpected :=
      if 1 < shard.totalBlocks then
        c.totalBlocksExpected.orInsert shard.targetId shard.totalBlocks
      else c.totalBlocksExpected
    blockK := c.blockK.orInsert shard.key shard.k
    shards := c.shards.insert shard.key
      (pushShard ((c.shards shard.key).getD []) shard.index shard.data) }

def assemble (c : ImageCache) (key : UInt16 × UInt8) (k : UInt8) : ImageCache :=
  let threshold := ((c.blockK key).getD k).toNat
  let bucket := (c.shards key).getD []
  if threshold ≤ bucket.length ∧ (c.assembledBlocks key).isNone then
    { c with assembledBlocks := c.assembledBlocks.insert key (concatShards bucket) }
  else c

/-- What there is to show for a target after a shard of the given block. -/
def fullImage (c : ImageCache) (targetId : UInt16) (blockId : UInt8) : Option Bytes :=
  let expected := (c.totalBlocksExpected targetId).getD 0
  if expected ≤ 1 then c.assembledBlocks (targetId, blockId)
  else joinBlocks (fun bid => c.assembledBlocks (targetId, bid)) expected

def finish (c : ImageCache) (targetId : UInt16) (blockId : UInt8) : ImageCache × Bool :=
  if (c.complete targetId).isSome then (c, false)
  else
    match c.fullImage targetId blockId with
    | some full => ({ c with complete := c.complete.insert targetId full }, true)
    | none => (c, false)

def insertShard (c : ImageCache) (shard : ImageShard) : ImageCache × Bool :=
  ((c.store shard).assemble shard.key shard.k).finish shard.targetId shard.blockId

def getComplete (c : ImageCache) (targetId : UInt16) : Option Bytes := c.complete targetId

/-- How many of the expected blocks are assembled; one is expected unless a shard says otherwise. -/
def blocksAssembled (c : ImageCache) (targetId : UInt16) : UInt8 :=
  let expected := (c.totalBlocksExpected targetId).getD 1
  .ofNat ((blockIds expected).countP fun bid => (c.assembledBlocks (targetId, bid)).isSome)

def hasShard (c : ImageCache) (targetId : UInt16) (fecBlock : UInt8) : Bool :=
  ((c.shards (targetId, fecBlock)).map fun v => ! v.isEmpty).getD false

def insertAll (c : ImageCache) (arrivals : List ImageShard) : ImageCache :=
  arrivals.foldl (fun c shard => (c.insertShard shard).1) c

theorem insertAll_concat (c : ImageCache) (arrivals : List ImageShard) (shard : ImageShard) :
    c.insertAll (arrivals ++ [shard]) = ((c.insertAll arrivals).insertShard shard).1 := by
  rw [insertAll, List.foldl_append]
  rfl

def insertReturns (c : ImageCache) : List ImageShard → List Bool
  | [] => []
  | shard :: rest => (c.insertShard shard).2 :: insertReturns (c.insertShard shard).1 rest

theorem insertReturns_concat (c : ImageCache) (arrivals : List ImageShard) (shard : ImageShard) :
    c.insertReturns (arrivals ++ [shard]) =
      c.insertReturns arrivals ++ [((c.insertAll arrivals).insertShard shard).2] := by
  induction arrivals generalizing c with
  | nil => rfl
  | cons first rest ih =>
    rw [List.cons_append, insertReturns, ih]
    rfl

variable {c : ImageCache} {shard : ImageShard}

theorem finish_eq (c : ImageCache) (targetId : UInt16) (blockId : UInt8) :
    (c.finish targetId blockId).1 =
      { c with complete := (c.finish targetId blockId).1.complete } := by
  rw [finish]
  split
  · rfl
  · split <;> rfl

theorem finish_complete_self : (c.finish targetId blockId).1.complete targetId =
    (c.complete targetId).or (c.fullImage targetId blockId) := by
  rw [finish]
  split
  next h =>
    rw [Option.or_of_isSome h]
  next h =>
    have hnone : c.complete targetId = none := Option.not_isSome_iff_eq_none.1 h
    rw [hnone, Option.none_or]
    split
    next full hfull => exact (Table.insert_self ..).trans hfull.symm
    next hfull => exact hnone.trans hfull.symm

theorem finish_complete_of_ne (h : targetId' ≠ targetId) :
    (c.finish targetId blockId).1.complete targetId' = c.complete targetId' := by
  rw [finish]
  split
  · rfl
  · split
    · exact Table.insert_of_ne _ _ h
    · rfl

theorem finish_snd : (c.finish targetId blockId).2 = true ↔
    c.complete targetId = none ∧ (c.fullImage targetId blockId).isSome := by
  rw [finish]
  split
  next h => simp [Option.isSome_iff_ne_none.1 h]
  next h =>
    have hnone : c.complete targetId = none := Option.not_isSome_iff_eq_none.1 h
    split <;> simp_all

theorem assemble_eq (c : ImageCache) (key : UInt16 × UInt8) (k : UInt8) :
    c.assemble key k = { c with assembledBlocks := (c.assemble key k).assembledBlocks } := by
  rw [assemble]
  split <;> rfl

theorem assemble_assembledBlocks_of_ne (h : key' ≠ key) :
    (c.assemble key k).assembledBlocks key' = c.assembledBlocks key' := by
  rw [assemble]
  split
  · exact Table.insert_of_ne _ _ h
  · rfl

theorem assemble_assembledBlocks_self : (c.assemble key k).assembledBlocks key =
    (c.assembledBlocks key).or
      (if ((c.blockK key).getD k).toNat ≤ ((c.shards key).getD []).length then
        some (concatShards ((c.shards key).getD []))
      else none) := by
  rw [assemble]
  cases hold : c.assembledBlocks key with
  | some data => simp [hold]
  | none =>
    rw [Option.none_or]
    split
    next h =>
      rw [if_pos h.1]
      exact Table.insert_self ..
    next h =>
      have hshort : ¬ ((c.blockK key).getD k).toNat ≤ ((c.shards key).getD []).length :=
        fun hle => h ⟨hle, rfl⟩
      rw [if_neg hshort]
      exact hold

theorem insertShard_shards : (c.insertShard shard).1.shards = c.shards.insert shard.key
    (pushShard ((c.shards shard.key).getD []) shard.index shard.data) := by
  rw [insertShard, finish_eq, assemble_eq]
  rfl

theorem insertShard_blockK :
    (c.insertShard shard).1.blockK = c.blockK.orInsert shard.key shard.k := by
  rw [insertShard, finish_eq, assemble_eq]
  rfl

theorem insertShard_totalBlocksExpected : (c.insertShard shard).1.totalBlocksExpected =
    if 1 < shard.totalBlocks then
      c.totalBlocksExpected.orInsert shard.targetId shard.totalBlocks
    else c.totalBlocksExpected := by
  rw [insertShard, finish_eq, assemble_eq]
  rfl

theorem insertShard_assembledBlocks : (c.insertShard shard).1.assembledBlocks =
    ((c.store shard).assemble shard.key shard.k).assembledBlocks := by
  rw [insertShard, finish_eq]

theorem insertShard_assembledBlocks_of_ne (h : key ≠ shard.key) :
    (c.insertShard shard).1.assembledBlocks key = c.assembledBlocks key := by
  rw [insertShard_assembledBlocks, assemble_assembledBlocks_of_ne h]
  rfl

theorem insertShard_assembledBlocks_self (hbucket : (c.insertShard shard).1.shards shard.key =
    some bucket) : (c.insertShard shard).1.assembledBlocks shard.key =
      (c.assembledBlocks shard.key).or
        (if ((c.blockK shard.key).getD shard.k).toNat ≤ bucket.length then
          some (concatShards bucket)
        else none) := by
  have hk : (c.store shard).blockK shard.key = some ((c.blockK shard.key).getD shard.k) :=
    Table.orInsert_self ..
  have hstored : (c.store shard).shards shard.key = some bucket := by
    rw [← hbucket, insertShard_shards]
    rfl
  rw [insertShard_assembledBlocks, assemble_assembledBlocks_self, hstored, hk]
  rfl

theorem insertShard_assembledBlocks_of_some (h : c.assembledBlocks key = some data) :
    (c.insertShard shard).1.assembledBlocks key = some data := by
  by_cases hkey : key = shard.key
  · have hstored : (c.store shard).assembledBlocks shard.key = some data := by
      rw [← hkey]
      exact h
    rw [insertShard_assembledBlocks, hkey, assemble_assembledBlocks_self, hstored, Option.some_or]
  · rw [insertShard_assembledBlocks_of_ne hkey, h]

theorem fullImage_congr {c c' : ImageCache}
    (htotal : c.totalBlocksExpected targetId = c'.totalBlocksExpected targetId)
    (hblocks : ∀ bid, c.assembledBlocks (targetId, bid) = c'.assembledBlocks (targetId, bid)) :
    c.fullImage targetId blockId = c'.fullImage targetId blockId := by
  rw [fullImage, fullImage, htotal, hblocks, funext hblocks]

theorem insertShard_complete (c : ImageCache) (shard : ImageShard) :
    (c.insertShard shard).1.complete shard.targetId = (c.complete shard.targetId).or
      ((c.insertShard shard).1.fullImage shard.targetId shard.blockId) := by
  have hsame : ((c.store shard).assemble shard.key shard.k).complete = c.complete := by
    rw [assemble_eq]
    rfl
  rw [insertShard, finish_complete_self, hsame]
  congr 1
  apply fullImage_congr
  · rw [finish_eq]
  · intro bid
    rw [finish_eq]

theorem insertShard_complete_of_ne (h : targetId ≠ shard.targetId) :
    (c.insertShard shard).1.complete targetId = c.complete targetId := by
  rw [insertShard, finish_complete_of_ne h, assemble_eq]
  rfl

theorem insertShard_snd : (c.insertShard shard).2 = true ↔ c.complete shard.targetId = none ∧
    ((c.insertShard shard).1.complete shard.targetId).isSome := by
  have hsame : ((c.store shard).assemble shard.key shard.k).complete = c.complete := by
    rw [assemble_eq]
    rfl
  rw [insertShard, finish_snd, finish_complete_self, hsame]
  apply and_congr_right
  intro hnone
  rw [hnone, Option.none_or]

end ImageCache
end TacticalMesh
