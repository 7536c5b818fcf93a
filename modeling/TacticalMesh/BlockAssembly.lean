import TacticalMesh.Fec
import TacticalMesh.ImageCache

namespace TacticalMesh
set_option autoImplicit true

namespace ImageCache
variable {c : ImageCache} {key : UInt16 × UInt8} {k : UInt8} {sent : List ImageShard}
variable {shard : ImageShard}

def entry (shard : ImageShard) : UInt8 × Bytes := (shard.index, shard.data)

/-- What the cache knows of a block whose shards come with distinct indices. -/
structure Collects (key : UInt16 × UInt8) (k : UInt8) (sent : List ImageShard) (c : ImageCache) :
    Prop where
  shards : (c.shards key).getD [] = sent.map entry
  blockK : (c.blockK key).getD k = k
  assembledBlocks : c.assembledBlocks key =
    if k.toNat ≤ sent.length then some (concatShards (sent.map entry)) else none

theorem collects_new (hk : 0 < k.toNat) : Collects key k [] new where
  shards := rfl
  blockK := rfl
  assembledBlocks := (if_neg (Nat.not_le.2 hk)).symm

theorem Collects.insertShard (h : Collects key k sent c) (hkey : shard.key = key)
    (hk : shard.k = k) (hnew : shard.index ∉ sent.map ImageShard.index)
    (hshort : sent.length < k.toNat) :
    Collects key k (sent ++ [shard]) (c.insertShard shard).1 := by
  have hbucket : (c.insertShard shard).1.shards shard.key =
      some ((sent ++ [shard]).map entry) := by
    have hfresh : ¬ (sent.map entry).any (fun e => e.1 = shard.index) = true := by
      rw [List.any_map, List.any_eq_true]
      rintro ⟨s, hs, heq⟩
      have hindex : s.index = shard.index := of_decide_eq_true heq
      exact hnew (hindex ▸ List.mem_map_of_mem hs)
    rw [insertShard_shards, Table.insert_self, hkey, h.shards, pushShard, if_neg hfresh,
      List.map_append]
    rfl
  constructor
  · rw [← hkey, hbucket, Option.getD_some]
  · rw [insertShard_blockK, ← hkey, Table.orInsert_self, hkey, hk, Option.getD_some, h.blockK]
  · rw [← hkey, insertShard_assembledBlocks_self hbucket, hkey, h.assembledBlocks,
      if_neg (Nat.not_le.2 hshort), hk, h.blockK, Option.none_or, List.length_map]

theorem Collects.insertShard_of_ne (h : Collects key k sent c) (hkey : key ≠ shard.key) :
    Collects key k sent (c.insertShard shard).1 where
  shards := by rw [insertShard_shards, Table.insert_of_ne _ _ hkey, h.shards]
  blockK := by rw [insertShard_blockK, Table.orInsert_of_ne _ _ hkey, h.blockK]
  assembledBlocks := by
    rw [insertShard_assembledBlocks_of_ne hkey, h.assembledBlocks]

theorem collects_insertAll (hk : 0 < k.toNat) (hsame : ∀ s ∈ arrivals, s.key = key → s.k = k)
    (hnodup : ((arrivals.filter (·.key = key)).map ImageShard.index).Nodup)
    (hlen : (arrivals.filter (·.key = key)).length ≤ k.toNat) :
    Collects key k (arrivals.filter (·.key = key)) (new.insertAll arrivals) := by
  induction arrivals using List.reverseRecOn with
  | nil => exact collects_new hk
  | append_singleton arrivals shard ih =>
    rw [List.forall_mem_append, List.forall_mem_singleton] at hsame
    rw [insertAll_concat]
    rw [List.filter_append] at hnodup hlen ⊢
    by_cases hkey : shard.key = key
    · have hlast : [shard].filter (·.key = key) = [shard] := by simp [hkey]
      rw [hlast, List.map_append, List.nodup_append] at hnodup
      rw [hlast, List.length_append, List.length_singleton] at hlen
      rw [hlast]
      apply (ih hsame.1 hnodup.1 (by omega)).insertShard hkey (hsame.2 hkey) _ hlen
      intro hmem
      exact hnodup.2.2 _ hmem _ List.mem_cons_self rfl
    · have hlast : [shard].filter (·.key = key) = [] := by simp [hkey]
      rw [hlast, List.append_nil] at hnodup hlen ⊢
      exact (ih hsame.1 hnodup hlen).insertShard_of_ne (Ne.symm hkey)

theorem complete_eq_assembledBlocks (hone : ∀ s ∈ arrivals, s.targetId = targetId →
    s.totalBlocks ≤ 1 ∧ s.blockId = blockId) :
    (new.insertAll arrivals).totalBlocksExpected targetId = none ∧
      (new.insertAll arrivals).complete targetId =
        (new.insertAll arrivals).assembledBlocks (targetId, blockId) := by
  induction arrivals using List.reverseRecOn with
  | nil => exact ⟨rfl, rfl⟩
  | append_singleton arrivals shard ih =>
    rw [List.forall_mem_append, List.forall_mem_singleton] at hone
    obtain ⟨htotal, hcomplete⟩ := ih hone.1
    rw [insertAll_concat]
    generalize new.insertAll arrivals = c at htotal hcomplete
    by_cases htarget : shard.targetId = targetId
    · obtain ⟨hle, hblock⟩ := hone.2 htarget
      have htotal' : (c.insertShard shard).1.totalBlocksExpected targetId = none := by
        rw [insertShard_totalBlocksExpected, if_neg (UInt8.not_lt.2 hle), htotal]
      refine ⟨htotal', ?_⟩
      have hold := insertShard_complete c shard
      rw [fullImage, htarget, htotal', hblock, hcomplete] at hold
      rw [hold]
      cases hdone : c.assembledBlocks (targetId, blockId) with
      | some data => rw [insertShard_assembledBlocks_of_some hdone, Option.some_or]
      | none =>
        rw [Option.none_or]
        rfl
    · have hkey : (targetId, blockId) ≠ shard.key :=
        fun heq => htarget (Prod.mk.inj heq).1.symm
      rw [insertShard_complete_of_ne (Ne.symm htarget), insertShard_assembledBlocks_of_ne hkey,
        insertShard_totalBlocksExpected]
      refine ⟨?_, hcomplete⟩
      split
      · rw [Table.orInsert_of_ne _ _ (Ne.symm htarget), htotal]
      · exact htotal

end ImageCache
def fecShard (targetId : UInt16) (totalBlocks blockId : UInt8) (prio : Priority)
    (shards : List Bytes) (i : Fin shards.length) : ImageShard :=
  { targetId
    totalBlocks
    blockId
    index := .ofNat i
    k := (fecParams prio).1
    n := (fecParams prio).2
    data := shards.get i }

/-- In the order of their indices, the shards that arrived are the `k` data shards, or equal
them. -/
def InPlace (shards : List Bytes) (k : ℕ) (order : List (Fin shards.length)) : Prop :=
  (order.insertionSort (· ≤ ·)).map shards.get = shards.take k

theorem concatShards_fecShards (hn : shards.length ≤ 255) (order : List (Fin shards.length)) :
    concatShards ((order.map (fecShard targetId totalBlocks blockId prio shards)).map
      ImageCache.entry) = ((order.insertionSort (· ≤ ·)).map shards.get).flatten := by
  have hindex : ∀ i : Fin shards.length, (UInt8.ofNat i).toNat = i := fun i => by
    rw [UInt8.toNat_ofNat', Nat.mod_eq_of_lt (by omega)]
  have hsort := List.map_insertionSort (r := (· ≤ ·))
    (s := fun a b : UInt8 × Bytes => a.1 ≤ b.1)
    (fun i : Fin shards.length => (UInt8.ofNat i, shards.get i)) order (fun i _ j _ => by
      rw [UInt8.le_iff_toNat_le, hindex, hindex]
      rfl)
  rw [concatShards, List.map_map]
  have hentry : ImageCache.entry ∘ fecShard targetId totalBlocks blockId prio shards =
      fun i : Fin shards.length => (UInt8.ofNat i, shards.get i) := rfl
  rw [hentry, ← hsort, List.flatMap_map, List.flatMap_def]

theorem inPlace_of_data {order : List (Fin shards.length)} (hnodup : order.Nodup)
    (hlen : order.length = k) (hdata : ∀ i ∈ order, i.val < k) : InPlace shards k order := by
  have hsub : (order.map Fin.val).Subperm (List.range k) := by
    apply List.subperm_of_subset (hnodup.map Fin.val_injective)
    intro i hi
    obtain ⟨j, hj, rfl⟩ := List.mem_map.1 hi
    exact List.mem_range.2 (hdata j hj)
  have hperm : ((order.insertionSort (· ≤ ·)).map Fin.val).Perm (List.range k) := by
    refine ((List.perm_insertionSort ..).map _).trans (hsub.perm_of_length_le ?_)
    rw [List.length_map, List.length_range, hlen]
  have hsorted : (order.insertionSort (· ≤ ·)).map Fin.val = List.range k :=
    hperm.eq_of_pairwise (fun a b _ _ hab hba => Nat.le_antisymm hab hba)
      (List.pairwise_map.2 (List.pairwise_insertionSort ..)) List.pairwise_le_range
  have hk : k ≤ shards.length := by
    have hle := hnodup.length_le_card
    rwa [hlen, Fintype.card_fin] at hle
  apply List.ext_getElem
  · rw [List.length_map, List.length_insertionSort, hlen, List.length_take, Nat.min_eq_left hk]
  · intro i hi hi'
    rw [List.length_map] at hi
    have hval : ((order.insertionSort (· ≤ ·))[i]).val = i := by
      have hget := List.getElem_map (l := order.insertionSort (· ≤ ·)) (i := i) Fin.val
        (h := by rwa [List.length_map])
      simp only [hsorted, List.getElem_range] at hget
      exact hget.symm
    simp only [List.getElem_map, List.getElem_take, List.get_eq_getElem, hval]

theorem nodup_fecShard_index (hn : shards.length ≤ 255) {order : List (Fin shards.length)}
    (hnodup : order.Nodup) :
    ((order.map (fecShard targetId totalBlocks blockId prio shards)).map
      ImageShard.index).Nodup := by
  rw [List.map_map]
  apply hnodup.map_on
  intro i _ j _ heq
  have hval : (UInt8.ofNat i).toNat = (UInt8.ofNat j).toNat := congrArg UInt8.toNat heq
  rw [UInt8.toNat_ofNat', UInt8.toNat_ofNat', Nat.mod_eq_of_lt (by omega),
    Nat.mod_eq_of_lt (by omega)] at hval
  exact Fin.ext hval

theorem inPlace_iff_flatten {order : List (Fin shards.length)}
    (hsize : ∀ s ∈ shards, s.length = size) (htake : (shards.take k).length = k)
    (hlen : order.length = k) :
    InPlace shards k order ↔
      ((order.insertionSort (· ≤ ·)).map shards.get).flatten = (shards.take k).flatten := by
  have hlengths {l : List Bytes} (hl : ∀ s ∈ l, s ∈ shards) :
      l.map List.length = List.replicate l.length size := by
    rw [List.eq_replicate_iff, List.length_map]
    refine ⟨rfl, fun n hn => ?_⟩
    obtain ⟨s, hs, rfl⟩ := List.mem_map.1 hn
    exact hsize s (hl s hs)
  have hsorted : ∀ s ∈ (order.insertionSort (· ≤ ·)).map shards.get, s ∈ shards := by
    intro s hs
    obtain ⟨i, -, rfl⟩ := List.mem_map.1 hs
    exact List.get_mem ..
  rw [InPlace, List.eq_iff_flatten_eq]
  apply and_iff_left
  rw [hlengths hsorted, hlengths fun s hs => List.mem_of_mem_take hs, htake, List.length_map,
    List.length_insertionSort, hlen]

/-- A block that was cut and encoded is put together again from `k` of its shards exactly when
these are in place. -/
theorem assembles_iff (rs : ReedSolomon) (data : Bytes) (prio : Priority) (shards : List Bytes)
    (hshards : fecEncode rs data prio = .ok shards) (targetId : UInt16)
    (totalBlocks blockId : UInt8) (order : List (Fin shards.length)) (hnodup : order.Nodup)
    (hlen : order.length = (fecParams prio).1.toNat) (arrivals : List ImageShard)
    (harrivals : arrivals.filter (·.key = (targetId, blockId)) =
      order.map (fecShard targetId totalBlocks blockId prio shards)) :
    ((ImageCache.new.insertAll arrivals).assembledBlocks (targetId, blockId) =
        some (fecPadded data (fecParams prio).1.toNat) ∧
      (totalBlocks ≤ 1 → (∀ s ∈ arrivals, s.targetId = targetId → s.blockId = blockId) →
        (ImageCache.new.insertAll arrivals).getComplete targetId =
          some (fecPadded data (fecParams prio).1.toNat))) ↔
      InPlace shards (fecParams prio).1.toNat order := by
  obtain ⟨hn, hsize, htake, hflat⟩ := fecEncode_eq_ok hshards
  have hfew : shards.length ≤ 255 := by
    rw [hn]
    exact Nat.le_of_lt_succ (UInt8.toNat_lt _)
  have hsent : ∀ s ∈ arrivals, s.key = (targetId, blockId) →
      s ∈ order.map (fecShard targetId totalBlocks blockId prio shards) := by
    intro s hs hkey
    rw [← harrivals]
    exact List.mem_filter.2 ⟨hs, decide_eq_true hkey⟩
  have hk : ∀ s ∈ arrivals, s.key = (targetId, blockId) → s.k = (fecParams prio).1 := by
    intro s hs hkey
    obtain ⟨i, -, rfl⟩ := List.mem_map.1 (hsent s hs hkey)
    rfl
  have hcollects := ImageCache.collects_insertAll (fecParams_fst_pos prio) hk
    (by rw [harrivals]; exact nodup_fecShard_index hfew hnodup)
    (by rw [harrivals, List.length_map, hlen])
  have hassembled := hcollects.assembledBlocks
  rw [harrivals, List.length_map, hlen, if_pos (Nat.le_refl _), concatShards_fecShards hfew]
    at hassembled
  have hiff : (ImageCache.new.insertAll arrivals).assembledBlocks (targetId, blockId) =
      some (fecPadded data (fecParams prio).1.toNat) ↔
        InPlace shards (fecParams prio).1.toNat order := by
    rw [hassembled, Option.some.injEq, ← hflat, inPlace_iff_flatten hsize htake hlen]
  rw [← hiff, and_iff_left_iff_imp]
  intro hdone hone halone
  rw [ImageCache.getComplete, (ImageCache.complete_eq_assembledBlocks ?_).2, hdone]
  intro s hs htarget
  refine ⟨?_, halone s hs htarget⟩
  obtain ⟨i, -, rfl⟩ := List.mem_map.1
    (hsent s hs (Prod.ext htarget (halone s hs htarget)))
  exact hone

def bulkBlock : Bytes := List.replicate 16 7

def bulkShards : List Bytes := List.replicate 8 [7, 7] ++ List.replicate 4 [0, 0]

/-- The eight data shards of the block in a jumble, and then with a recovery shard for the last. -/
def jumbled : List (Fin bulkShards.length) :=
  ([3, 0, 2, 1, 5, 4, 7, 6] : List (Fin 12))

def recovered : List (Fin bulkShards.length) :=
  ([0, 1, 2, 3, 4, 5, 6, 8] : List (Fin 12))

theorem fecEncode_bulkBlock : fecEncode .toy bulkBlock .bulk = .ok bulkShards := by decide

theorem jumbled_assembles :
    (ImageCache.new.insertAll (jumbled.map (fecShard 7 1 0 .bulk bulkShards))).getComplete 7 =
      some bulkBlock :=
  ((assembles_iff .toy bulkBlock .bulk bulkShards fecEncode_bulkBlock 7 1 0 jumbled (by decide)
    (by decide) _ (by decide)).2 (inPlace_of_data (by decide) (by decide) (by decide))).2
    (by decide) (by decide)

/-- Eight of the twelve shards are here, and still the block is not what was sent. -/
theorem recovery_shard_concatenated :
    fecEncode .toy bulkBlock .bulk = .ok bulkShards ∧
      recovered.Nodup ∧ recovered.length = (fecParams .bulk).1.toNat ∧
      (fecPadded bulkBlock 8) = bulkBlock ∧
      (ImageCache.new.insertAll
        (recovered.map (fecShard 7 1 0 .bulk bulkShards))).getComplete 7 =
          some (List.replicate 14 7 ++ [0, 0]) ∧
      List.replicate 14 7 ++ [0, 0] ≠ bulkBlock := by decide

end TacticalMesh
