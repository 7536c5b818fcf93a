import TacticalMesh.ImageCache

namespace TacticalMesh
set_option autoImplicit true

structure ImageShard.IsBlock (targetId : UInt16) (shard : ImageShard) : Prop where
  targetId : shard.targetId = targetId
  index : shard.index = 0
  k : shard.k = 1

def firstData (arrivals : List ImageShard) (bid : UInt8) : Option Bytes :=
  (arrivals.find? fun s => s.blockId = bid).map ImageShard.data

def announced (arrivals : List ImageShard) : Option UInt8 :=
  (arrivals.find? fun s => 1 < s.totalBlocks).map ImageShard.totalBlocks

/-- The image that blocks of one shard make up: the first of them says how many there are. -/
def receivedImage : List ImageShard → Option Bytes
  | [] => none
  | first :: rest =>
    if first.totalBlocks ≤ 1 then some first.data
    else joinBlocks (firstData (first :: rest)) first.totalBlocks

theorem firstData_concat : firstData (arrivals ++ [shard]) bid =
    (firstData arrivals bid).or (if shard.blockId = bid then some shard.data else none) := by
  rw [firstData, List.find?_append, Option.map_or, firstData, List.find?_singleton]
  split <;> simp_all

theorem announced_concat : announced (arrivals ++ [shard]) =
    (announced arrivals).or (if 1 < shard.totalBlocks then some shard.totalBlocks else none) := by
  rw [announced, List.find?_append, Option.map_or, announced, List.find?_singleton]
  by_cases htotal : 1 < shard.totalBlocks <;> simp [htotal]

theorem firstData_isSome :
    (firstData arrivals bid).isSome ↔ ∃ shard ∈ arrivals, shard.blockId = bid := by
  simp only [firstData, Option.isSome_map, List.find?_isSome, decide_eq_true_eq]

theorem firstData_eq_some (hagree : ∀ shard ∈ arrivals, shard.blockId = bid → shard.data = data)
    (hmem : ∃ shard ∈ arrivals, shard.blockId = bid) : firstData arrivals bid = some data := by
  obtain ⟨found, hfound⟩ := Option.isSome_iff_exists.1 (firstData_isSome.2 hmem)
  obtain ⟨shard, hfind, hdata⟩ := Option.map_eq_some_iff.1 hfound
  have hbid := List.find?_some hfind
  rw [decide_eq_true_eq] at hbid
  rw [hfound, ← hdata, hagree shard (List.mem_of_find?_eq_some hfind) hbid]

theorem joinBlocks_concat (h : joinBlocks (firstData arrivals) expected = some full) :
    joinBlocks (firstData (arrivals ++ [shard])) expected = some full := by
  rw [← h]
  rw [joinBlocks_eq_some] at h
  apply joinBlocks_congr
  intro bid hbid
  rw [firstData_concat, Option.or_of_isSome (h.1 bid hbid)]

theorem receivedImage_concat (h : receivedImage arrivals = some full) :
    receivedImage (arrivals ++ [shard]) = some full := by
  cases arrivals with
  | nil => cases h
  | cons first rest =>
    rw [receivedImage] at h
    rw [List.cons_append, receivedImage]
    split
    next hone => rw [← h, if_pos hone]
    next hmany =>
      rw [if_neg hmany] at h
      exact joinBlocks_concat h

theorem receivedImage_concat_of_none (h : receivedImage arrivals = none) :
    receivedImage (arrivals ++ [shard]) =
      if (announced (arrivals ++ [shard])).getD 0 ≤ 1 then
        firstData (arrivals ++ [shard]) shard.blockId
      else joinBlocks (firstData (arrivals ++ [shard]))
        ((announced (arrivals ++ [shard])).getD 0) := by
  cases arrivals with
  | nil =>
    rw [List.nil_append]
    by_cases hone : shard.totalBlocks ≤ 1
    · have hnone : announced [shard] = none := by simp [announced, UInt8.not_lt.2 hone]
      have hdata : firstData [shard] shard.blockId = some shard.data := by simp [firstData]
      rw [hnone, receivedImage, if_pos hone, hdata]
      rfl
    · have hsome : announced [shard] = some shard.totalBlocks := by
        simp [announced, UInt8.not_le.1 hone]
      rw [hsome, receivedImage, if_neg hone, Option.getD_some, if_neg hone]
  | cons first rest =>
    rw [receivedImage] at h
    split at h
    next => cases h
    next hmany =>
      have hsome : announced (first :: (rest ++ [shard])) = some first.totalBlocks := by
        simp [announced, UInt8.not_le.1 hmany]
      rw [List.cons_append, hsome, receivedImage, if_neg hmany, Option.getD_some, if_neg hmany]

namespace ImageCache
variable {c : ImageCache} {targetId : UInt16} {arrivals : List ImageShard} {shard : ImageShard}

/-- What the cache knows of a target all of whose blocks are of one shard. -/
structure Tracks (targetId : UInt16) (arrivals : List ImageShard) (c : ImageCache) : Prop where
  shards : ∀ bid, c.shards (targetId, bid) = (firstData arrivals bid).map fun data => [(0, data)]
  blockK : ∀ bid, c.blockK (targetId, bid) = (firstData arrivals bid).map fun _ => 1
  assembledBlocks : ∀ bid, c.assembledBlocks (targetId, bid) = firstData arrivals bid
  totalBlocksExpected : c.totalBlocksExpected targetId = announced arrivals
  complete : c.complete targetId = receivedImage arrivals

theorem tracks_new (targetId : UInt16) : Tracks targetId [] new where
  shards _ := rfl
  blockK _ := rfl
  assembledBlocks _ := rfl
  totalBlocksExpected := rfl
  complete := rfl

namespace Tracks

theorem insert_shards (h : Tracks targetId arrivals c) (hs : shard.IsBlock targetId)
    (bid : UInt8) : (c.insertShard shard).1.shards (targetId, bid) =
      (firstData (arrivals ++ [shard]) bid).map fun data => [(0, data)] := by
  rw [insertShard_shards, firstData_concat, ImageShard.key, hs.targetId, hs.index]
  by_cases hbid : shard.blockId = bid
  · rw [hbid, Table.insert_self, h.shards, if_pos rfl]
    cases firstData arrivals bid <;> rfl
  · have hne : (targetId, bid) ≠ (targetId, shard.blockId) :=
      fun heq => hbid (Prod.mk.inj heq).2.symm
    rw [Table.insert_of_ne _ _ hne, h.shards, if_neg hbid, Option.or_none]

theorem insert_blockK (h : Tracks targetId arrivals c) (hs : shard.IsBlock targetId)
    (bid : UInt8) : (c.insertShard shard).1.blockK (targetId, bid) =
      (firstData (arrivals ++ [shard]) bid).map fun _ => 1 := by
  rw [insertShard_blockK, firstData_concat, ImageShard.key, hs.targetId, hs.k]
  by_cases hbid : shard.blockId = bid
  · rw [hbid, Table.orInsert_self, h.blockK, if_pos rfl]
    cases firstData arrivals bid <;> rfl
  · have hne : (targetId, bid) ≠ (targetId, shard.blockId) :=
      fun heq => hbid (Prod.mk.inj heq).2.symm
    rw [Table.orInsert_of_ne _ _ hne, h.blockK, if_neg hbid, Option.or_none]

theorem insert_assembledBlocks (h : Tracks targetId arrivals c) (hs : shard.IsBlock targetId)
    (bid : UInt8) : (c.insertShard shard).1.assembledBlocks (targetId, bid) =
      firstData (arrivals ++ [shard]) bid := by
  have hkey : shard.key = (targetId, shard.blockId) := by rw [ImageShard.key, hs.targetId]
  by_cases hbid : shard.blockId = bid
  · have hbucket := h.insert_shards hs bid
    have hk : (c.blockK (targetId, bid)).getD shard.k = 1 := by
      rw [h.blockK, hs.k]
      cases firstData arrivals bid <;> rfl
    rw [firstData_concat, if_pos hbid] at hbucket ⊢
    rw [hbid] at hkey
    cases hfirst : firstData arrivals bid with
    | none =>
      rw [hfirst, Option.none_or, Option.map_some, ← hkey] at hbucket
      rw [← hkey, insertShard_assembledBlocks_self hbucket, hkey, h.assembledBlocks, hfirst, hk]
      simp [concatShards]
    | some data =>
      rw [hfirst, Option.some_or, Option.map_some, ← hkey] at hbucket
      rw [← hkey, insertShard_assembledBlocks_self hbucket, hkey, h.assembledBlocks, hfirst,
        Option.some_or, Option.some_or]
  · have hne : (targetId, bid) ≠ shard.key := by
      rw [hkey]
      exact fun heq => hbid (Prod.mk.inj heq).2.symm
    rw [insertShard_assembledBlocks_of_ne hne, h.assembledBlocks, firstData_concat, if_neg hbid,
      Option.or_none]

theorem insert_totalBlocksExpected (h : Tracks targetId arrivals c)
    (hs : shard.IsBlock targetId) :
    (c.insertShard shard).1.totalBlocksExpected targetId = announced (arrivals ++ [shard]) := by
  rw [insertShard_totalBlocksExpected, announced_concat, hs.targetId]
  by_cases htotal : 1 < shard.totalBlocks
  · simp only [if_pos htotal, Table.orInsert_self, h.totalBlocksExpected]
    cases announced arrivals <;> rfl
  · simp only [if_neg htotal, h.totalBlocksExpected, Option.or_none]

theorem insert_complete (h : Tracks targetId arrivals c) (hs : shard.IsBlock targetId) :
    (c.insertShard shard).1.complete targetId = receivedImage (arrivals ++ [shard]) := by
  have hold := insertShard_complete c shard
  rw [hs.targetId, h.complete, fullImage, h.insert_totalBlocksExpected hs,
    funext (h.insert_assembledBlocks hs), h.insert_assembledBlocks hs] at hold
  rw [hold]
  cases hrec : receivedImage arrivals with
  | some full => rw [receivedImage_concat hrec, Option.some_or]
  | none => rw [receivedImage_concat_of_none hrec, Option.none_or]

theorem insertShard (h : Tracks targetId arrivals c) (hs : shard.IsBlock targetId) :
    Tracks targetId (arrivals ++ [shard]) (c.insertShard shard).1 where
  shards := h.insert_shards hs
  blockK := h.insert_blockK hs
  assembledBlocks := h.insert_assembledBlocks hs
  totalBlocksExpected := h.insert_totalBlocksExpected hs
  complete := h.insert_complete hs

theorem insertShard_snd (h : Tracks targetId arrivals c) (hs : shard.IsBlock targetId) :
    (c.insertShard shard).2 = true ↔
      receivedImage arrivals = none ∧ (receivedImage (arrivals ++ [shard])).isSome := by
  rw [ImageCache.insertShard_snd, hs.targetId, h.complete, h.insert_complete hs]

end Tracks

/-- The cache knows of a target what the arrivals tell. -/
theorem tracks_insertAll (h : ∀ shard ∈ arrivals, shard.IsBlock targetId) :
    Tracks targetId arrivals (new.insertAll arrivals) := by
  induction arrivals using List.reverseRecOn with
  | nil => exact tracks_new targetId
  | append_singleton arrivals shard ih =>
    rw [List.forall_mem_append, List.forall_mem_singleton] at h
    rw [insertAll_concat]
    exact (ih h.1).insertShard h.2

theorem count_insertReturns (h : ∀ shard ∈ arrivals, shard.IsBlock targetId) :
    (new.insertReturns arrivals).count true = if (receivedImage arrivals).isSome then 1 else 0 := by
  induction arrivals using List.reverseRecOn with
  | nil => rfl
  | append_singleton arrivals shard ih =>
    rw [List.forall_mem_append, List.forall_mem_singleton] at h
    have hlast := (tracks_insertAll h.1).insertShard_snd h.2
    rw [insertReturns_concat, List.count_append, ih h.1, List.count_singleton]
    cases hrec : receivedImage arrivals with
    | some full => simp_all [receivedImage_concat hrec]
    | none => simp_all

end ImageCache

end TacticalMesh
