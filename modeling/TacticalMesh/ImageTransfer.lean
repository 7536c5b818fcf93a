import TacticalMesh.Chunks
import TacticalMesh.ImageBlocks
import TacticalMesh.Runs

namespace TacticalMesh
set_option autoImplicit true

def shardSize : ℕ := 1207

/-- The shards that `handle_request_image` makes of an image. The counts are cut to a byte. -/
def imageShards (targetId : UInt16) (imageBytes : Bytes) : List ImageShard :=
  let parts := chunks shardSize imageBytes
  parts.mapIdx fun blockId data =>
    { targetId
      totalBlocks := .ofNat parts.length
      blockId := .ofNat blockId
      index := 0
      k := 1
      n := 1
      data }

section
variable {targetId : UInt16} {imageBytes : Bytes}

@[simp] theorem length_imageShards (targetId : UInt16) (imageBytes : Bytes) :
    (imageShards targetId imageBytes).length = chunkCount shardSize imageBytes.length := by
  rw [imageShards, List.length_mapIdx, length_chunks]

abbrev ShardNo (targetId : UInt16) (imageBytes : Bytes) : Type :=
  Fin (imageShards targetId imageBytes).length

theorem shardNo_lt (i : ShardNo targetId imageBytes) :
    i.val < chunkCount shardSize imageBytes.length := i.isLt.trans_eq (length_imageShards ..)

theorem get_imageShards (i : ShardNo targetId imageBytes) :
    (imageShards targetId imageBytes).get i =
      { targetId
        totalBlocks := .ofNat (chunkCount shardSize imageBytes.length)
        blockId := .ofNat i
        index := 0
        k := 1
        n := 1
        data := chunk shardSize imageBytes i } := by
  rw [List.get_eq_getElem]
  simp only [imageShards, List.getElem_mapIdx, getElem_chunks, length_chunks]

theorem isBlock_imageShards (i : ShardNo targetId imageBytes) :
    ((imageShards targetId imageBytes).get i).IsBlock targetId := by
  rw [get_imageShards]
  exact ⟨rfl, rfl, rfl⟩

theorem isBlock_of_mem_map (order : List (ShardNo targetId imageBytes)) :
    ∀ shard ∈ order.map (imageShards targetId imageBytes).get, shard.IsBlock targetId := by
  intro shard hshard
  obtain ⟨i, -, rfl⟩ := List.mem_map.1 hshard
  exact isBlock_imageShards i

/-- Whether the chunk that comes after the others is the last one that is missing. -/
def LastMissing (order : List (ShardNo targetId imageBytes)) (i : ShardNo targetId imageBytes) :
    Prop :=
  (∃ j, j ∉ order) ∧ ∀ j, j ∈ order ++ [i]

end

/-- Whatever the order and the duplicates, the call that supplies the last missing chunk is the
one that reports the image, and the image is then what was sent. -/
structure Reassembles (targetId : UInt16) (imageBytes : Bytes) : Prop where
  returns : ∀ (order : List (ShardNo targetId imageBytes)) (i : ShardNo targetId imageBytes),
    ((ImageCache.new.insertAll (order.map (imageShards targetId imageBytes).get)).insertShard
      ((imageShards targetId imageBytes).get i)).2 = true ↔ LastMissing order i
  once : ∀ order : List (ShardNo targetId imageBytes), (∀ j, j ∈ order) →
    (ImageCache.new.insertReturns
      (order.map (imageShards targetId imageBytes).get)).count true = 1
  complete : ∀ order : List (ShardNo targetId imageBytes), (∀ j, j ∈ order) →
    (ImageCache.new.insertAll (order.map (imageShards targetId imageBytes).get)).getComplete
      targetId = some imageBytes

section
variable {targetId : UInt16} {imageBytes : Bytes}

theorem ofNat_eq_iff (h : i ≤ 255) : UInt8.ofNat i = bid ↔ i = bid.toNat := by
  rw [← UInt8.toNat_inj, UInt8.toNat_ofNat', Nat.mod_eq_of_lt (by omega)]

theorem firstData_imageShards {order : List (ShardNo targetId imageBytes)} {bid : UInt8}
    (hfew : chunkCount shardSize imageBytes.length ≤ 255) (hmem : ∃ i ∈ order, i.val = bid.toNat) :
    firstData (order.map (imageShards targetId imageBytes).get) bid =
      some (chunk shardSize imageBytes bid.toNat) := by
  apply firstData_eq_some
  · intro shard hshard hbid
    obtain ⟨i, -, rfl⟩ := List.mem_map.1 hshard
    have hi := shardNo_lt i
    rw [get_imageShards] at hbid ⊢
    rw [← (ofNat_eq_iff (by omega)).1 hbid]
  · obtain ⟨i, hi, hval⟩ := hmem
    refine ⟨_, List.mem_map_of_mem hi, ?_⟩
    rw [get_imageShards, hval]
    exact UInt8.ofNat_toNat

theorem toNat_totalBlocks (hfew : chunkCount shardSize imageBytes.length ≤ 255) :
    (UInt8.ofNat (chunkCount shardSize imageBytes.length)).toNat =
      chunkCount shardSize imageBytes.length := by
  rw [UInt8.toNat_ofNat', Nat.mod_eq_of_lt (by omega)]

theorem totalBlocks_le_one (hfew : chunkCount shardSize imageBytes.length ≤ 255)
    (i : ShardNo targetId imageBytes) :
    ((imageShards targetId imageBytes).get i).totalBlocks ≤ 1 ↔
      chunkCount shardSize imageBytes.length ≤ 1 := by
  rw [get_imageShards, UInt8.le_iff_toNat_le, toNat_totalBlocks hfew]
  rfl

theorem forall_firstData_isSome {order : List (ShardNo targetId imageBytes)}
    (hfew : chunkCount shardSize imageBytes.length ≤ 255) :
    (∀ bid < UInt8.ofNat (chunkCount shardSize imageBytes.length),
      (firstData (order.map (imageShards targetId imageBytes).get) bid).isSome) ↔
        ∀ j, j ∈ order := by
  constructor
  · intro hall j
    have hj := shardNo_lt j
    have hbid : (UInt8.ofNat j).toNat = j := by
      rw [UInt8.toNat_ofNat', Nat.mod_eq_of_lt (by omega)]
    have hlt : UInt8.ofNat j < .ofNat (chunkCount shardSize imageBytes.length) := by
      rw [UInt8.lt_iff_toNat_lt, hbid, toNat_totalBlocks hfew]
      exact hj
    obtain ⟨shard, hshard, heq⟩ := firstData_isSome.1 (hall _ hlt)
    obtain ⟨i, hi, rfl⟩ := List.mem_map.1 hshard
    have hilt := shardNo_lt i
    rw [get_imageShards, ofNat_eq_iff (by omega), hbid] at heq
    rw [← Fin.ext heq]
    exact hi
  · intro hall bid hbid
    rw [UInt8.lt_iff_toNat_lt, toNat_totalBlocks hfew] at hbid
    rw [firstData_imageShards hfew ⟨⟨bid.toNat, by rwa [length_imageShards]⟩, hall _, rfl⟩]
    rfl

theorem flatMap_firstData {order : List (ShardNo targetId imageBytes)}
    (hfew : chunkCount shardSize imageBytes.length ≤ 255) (hall : ∀ j, j ∈ order) :
    (blockIds (.ofNat (chunkCount shardSize imageBytes.length))).flatMap (fun bid =>
      (firstData (order.map (imageShards targetId imageBytes).get) bid).getD []) =
        imageBytes := by
  rw [blockIds, toNat_totalBlocks hfew, List.flatMap_map]
  refine Eq.trans ?_ (flatMap_chunk (by decide : 0 < shardSize) imageBytes)
  apply List.flatMap_congr
  intro i hi
  rw [List.mem_range] at hi
  have hbid : (UInt8.ofNat i).toNat = i := by
    rw [UInt8.toNat_ofNat', Nat.mod_eq_of_lt (by omega)]
  have hmem : (⟨i, by rwa [length_imageShards]⟩ : ShardNo targetId imageBytes) ∈ order := hall _
  rw [firstData_imageShards hfew ⟨_, hmem, hbid.symm⟩, hbid]
  rfl

theorem receivedImage_imageShards (targetId : UInt16) (hsome : imageBytes ≠ [])
    (hfew : chunkCount shardSize imageBytes.length ≤ 255)
    (order : List (ShardNo targetId imageBytes)) (full : Bytes) :
    receivedImage (order.map (imageShards targetId imageBytes).get) = some full ↔
      (∀ j, j ∈ order) ∧ full = imageBytes := by
  have hpos : 0 < chunkCount shardSize imageBytes.length :=
    (chunkCount_pos (by decide)).2 (List.length_pos_iff.2 hsome)
  cases order with
  | nil =>
    have hmissing : ¬ ∀ j : ShardNo targetId imageBytes, j ∈ [] :=
      fun hall => List.not_mem_nil (hall ⟨0, hpos.trans_eq (length_imageShards ..).symm⟩)
    rw [List.map_nil, receivedImage]
    exact ⟨fun h => absurd h.symm (Option.some_ne_none full), fun h => absurd h.1 hmissing⟩
  | cons first rest =>
    have hfirst := shardNo_lt first
    have htotal := totalBlocks_le_one hfew first
    by_cases hone : chunkCount shardSize imageBytes.length ≤ 1
    · have hwhole : chunk shardSize imageBytes first = imageBytes :=
        chunk_of_single (by decide) hone hfirst
      have hall : ∀ j, j ∈ first :: rest := by
        intro j
        have hj := shardNo_lt j
        rw [Fin.ext (show j.val = first.val by omega)]
        exact List.mem_cons_self
      rw [List.map_cons, receivedImage, if_pos (htotal.2 hone), get_imageShards, hwhole,
        Option.some.injEq]
      exact ⟨fun h => ⟨hall, h.symm⟩, fun h => h.2.symm⟩
    · rw [List.map_cons, receivedImage, if_neg (mt htotal.1 hone), ← List.map_cons,
        get_imageShards, joinBlocks_eq_some, forall_firstData_isSome hfew]
      apply and_congr_right
      intro hall
      rw [flatMap_firstData hfew hall, eq_comm]

theorem reassembles (hsome : imageBytes ≠ [])
    (hfew : chunkCount shardSize imageBytes.length ≤ 255) : Reassembles targetId imageBytes where
  returns order i := by
    have htracks := ImageCache.tracks_insertAll (isBlock_of_mem_map order)
    have hiff := receivedImage_imageShards targetId hsome hfew
    have hconcat : order.map (imageShards targetId imageBytes).get ++
        [(imageShards targetId imageBytes).get i] =
          (order ++ [i]).map (imageShards targetId imageBytes).get := by
      rw [List.map_append, List.map_singleton]
    rw [htracks.insertShard_snd (isBlock_imageShards i), hconcat, LastMissing,
      Option.isSome_iff_exists, Option.eq_none_iff_forall_not_mem]
    simp only [Option.mem_def, hiff, exists_and_left, exists_eq, and_true]
    apply and_congr_left'
    rw [← not_forall]
    exact ⟨fun h hall => h imageBytes ⟨hall, rfl⟩, fun h full hfull => h hfull.1⟩
  once order hall := by
    have himage := (receivedImage_imageShards targetId hsome hfew _ _).2
      ⟨hall, rfl⟩
    rw [ImageCache.count_insertReturns (isBlock_of_mem_map order), himage]
    rfl
  complete order hall := by
    rw [ImageCache.getComplete,
      (ImageCache.tracks_insertAll (isBlock_of_mem_map order)).complete]
    exact (receivedImage_imageShards targetId hsome hfew _ _).2 ⟨hall, rfl⟩

/-- Once the counts wrap, an image is reported before its last chunk is there. -/
theorem exists_image_without_last (targetId : UInt16)
    (hmany : 255 < chunkCount shardSize imageBytes.length) :
    ∃ (order : List (ShardNo targetId imageBytes)) (j : ShardNo targetId imageBytes),
      j ∉ order ∧ (receivedImage (order.map (imageShards targetId imageBytes).get)).isSome := by
  have hlen := length_imageShards targetId imageBytes
  let last : ShardNo targetId imageBytes := ⟨chunkCount shardSize imageBytes.length - 1, by omega⟩
  let first : ShardNo targetId imageBytes := ⟨0, by omega⟩
  refine ⟨first :: (List.finRange _).filter (· ≠ last), last, ?_, ?_⟩
  · have hne : last ≠ first := fun h => by
      have hval : chunkCount shardSize imageBytes.length - 1 = 0 := congrArg Fin.val h
      omega
    simp [hne]
  · rw [List.map_cons, receivedImage]
    split
    · rfl
    · rw [joinBlocks_isSome]
      intro bid hbid
      rw [firstData_isSome]
      have hlt : bid.toNat < 255 := by
        rw [UInt8.lt_iff_toNat_lt] at hbid
        have hcount := ((imageShards targetId imageBytes).get first).totalBlocks.toNat_lt
        omega
      let i : ShardNo targetId imageBytes := ⟨bid.toNat, by omega⟩
      have hne : i ≠ last := fun h => by
        have hval : bid.toNat = chunkCount shardSize imageBytes.length - 1 := congrArg Fin.val h
        omega
      refine ⟨(imageShards targetId imageBytes).get i, ?_, ?_⟩
      · apply List.mem_cons_of_mem
        apply List.mem_map_of_mem
        simp [hne]
      · rw [get_imageShards]
        exact UInt8.ofNat_toNat

theorem completes_at_first (hwrap : UInt8.ofNat (chunkCount shardSize imageBytes.length) ≤ 1)
    (i : ShardNo targetId imageBytes) :
    (ImageCache.new.insertShard ((imageShards targetId imageBytes).get i)).2 = true := by
  rw [(ImageCache.tracks_new targetId).insertShard_snd (isBlock_imageShards i), get_imageShards,
    List.nil_append]
  refine ⟨rfl, ?_⟩
  rw [receivedImage, if_pos hwrap]
  rfl

theorem not_reassembles (hmany : 255 < chunkCount shardSize imageBytes.length) :
    ¬ Reassembles targetId imageBytes := by
  intro h
  obtain ⟨order, j, hj, hsome⟩ := exists_image_without_last targetId hmany
  obtain ⟨pre, i, post, rfl, hpre, hi⟩ := exists_first_prefix
    (P := fun order => (receivedImage (order.map (imageShards targetId imageBytes).get)).isSome)
    nofun hsome
  have htracks := ImageCache.tracks_insertAll (isBlock_of_mem_map pre)
  have hlast : LastMissing pre i := by
    rw [← h.returns, htracks.insertShard_snd (isBlock_imageShards i)]
    rw [List.map_append, List.map_singleton] at hi
    exact ⟨Option.not_isSome_iff_eq_none.1 hpre, hi⟩
  apply hj
  rw [List.append_cons]
  exact List.mem_append_left _ (hlast.2 j)

end

theorem reassembles_iff (targetId : UInt16) (imageBytes : Bytes) (hsome : imageBytes ≠ []) :
    Reassembles targetId imageBytes ↔ chunkCount shardSize imageBytes.length ≤ 255 := by
  constructor
  · intro h
    by_contra hmany
    exact not_reassembles (Nat.lt_of_not_le hmany) h
  · intro hfew
    exact reassembles hsome hfew

theorem two_chunks_reassemble : let imageBytes : Bytes := List.replicate 1207 1 ++ [2]
    chunkCount shardSize imageBytes.length = 2 ∧ Reassembles 7 imageBytes := by
  intro imageBytes
  have hcount : chunkCount shardSize imageBytes.length = 2 := by
    rw [List.length_append, List.length_replicate]
    rfl
  have hsome : imageBytes ≠ [] := List.append_ne_nil_of_right_ne_nil _ (List.cons_ne_nil 2 [])
  exact ⟨hcount, (reassembles_iff 7 imageBytes hsome).2 (by omega)⟩

/-- An image of 256 chunks announces 0 blocks, and any of its chunks completes it. -/
theorem chunks_256_complete_at_first : let imageBytes : Bytes := List.replicate (256 * 1207) 0
    chunkCount shardSize imageBytes.length = 256 ∧
      (∀ i : ShardNo 7 imageBytes,
        (ImageCache.new.insertShard ((imageShards 7 imageBytes).get i)).2 = true) ∧
      ¬ Reassembles 7 imageBytes := by
  intro imageBytes
  have hcount : chunkCount shardSize imageBytes.length = 256 := by
    rw [List.length_replicate]
    rfl
  refine ⟨hcount, fun i => ?_, not_reassembles (by omega)⟩
  exact completes_at_first (by rw [hcount]; decide) i

end TacticalMesh
