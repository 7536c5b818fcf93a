import TacticalMesh.ImageCache
import TacticalMesh.Runs

namespace TacticalMesh
set_option autoImplicit true

def shardIndices : List UInt8 := (List.range 256).map .ofNat

theorem mem_shardIndices (i : UInt8) : i ∈ shardIndices :=
  List.mem_map.2 ⟨i.toNat, List.mem_range.2 i.toNat_lt, UInt8.ofNat_toNat⟩

theorem pairwise_shardIndices : shardIndices.Pairwise (· < ·) := by
  apply List.pairwise_map.2
  apply List.Pairwise.imp_of_mem _ List.pairwise_lt_range
  intro i j hi hj hlt
  rw [UInt8.lt_iff_toNat_lt, UInt8.toNat_ofNat', UInt8.toNat_ofNat',
    Nat.mod_eq_of_lt (List.mem_range.1 hi), Nat.mod_eq_of_lt (List.mem_range.1 hj)]
  exact hlt

def firstReceived (arrivals : List ImageShard) (key : UInt16 × UInt8) (i : UInt8) : Option Bytes :=
  (arrivals.find? fun s => s.key = key ∧ s.index = i).map ImageShard.data

def firstK (arrivals : List ImageShard) (key : UInt16 × UInt8) : Option UInt8 :=
  (arrivals.find? fun s => s.key = key).map ImageShard.k

def receivedIndices (arrivals : List ImageShard) (key : UInt16 × UInt8) : List UInt8 :=
  shardIndices.filter fun i => (firstReceived arrivals key i).isSome

def blockBytes (arrivals : List ImageShard) (key : UInt16 × UInt8) : Bytes :=
  (receivedIndices arrivals key).flatMap fun i => (firstReceived arrivals key i).getD []

/-- As many indices as the first shard of the block asks for have been received. -/
def BlockReady (key : UInt16 × UInt8) (arrivals : List ImageShard) : Prop :=
  ∃ k ∈ firstK arrivals key, k.toNat ≤ (receivedIndices arrivals key).length

theorem firstReceived_concat : firstReceived (arrivals ++ [shard]) key i =
    (firstReceived arrivals key i).or
      (if shard.key = key ∧ shard.index = i then some shard.data else none) := by
  rw [firstReceived, List.find?_append, Option.map_or, firstReceived, List.find?_singleton]
  by_cases h : shard.key = key ∧ shard.index = i <;> simp [h]

theorem firstK_concat : firstK (arrivals ++ [shard]) key =
    (firstK arrivals key).or (if shard.key = key then some shard.k else none) := by
  rw [firstK, List.find?_append, Option.map_or, firstK, List.find?_singleton]
  split <;> simp_all

theorem receivedIndices_concat_of_ne (h : key ≠ shard.key) :
    receivedIndices (arrivals ++ [shard]) key = receivedIndices arrivals key := by
  apply List.filter_congr
  intro i _
  rw [firstReceived_concat, if_neg fun hkey => h hkey.1.symm, Option.or_none]

theorem blockReady_concat_of_ne (h : key ≠ shard.key) :
    BlockReady key (arrivals ++ [shard]) ↔ BlockReady key arrivals := by
  rw [BlockReady, BlockReady, firstK_concat, receivedIndices_concat_of_ne h, if_neg h.symm,
    Option.or_none]

theorem length_receivedIndices_le (arrivals : List ImageShard) (shard : ImageShard)
    (key : UInt16 × UInt8) :
    (receivedIndices arrivals key).length ≤ (receivedIndices (arrivals ++ [shard]) key).length := by
  apply List.Sublist.length_le
  apply List.monotone_filter_right
  intro i hi
  rw [firstReceived_concat, Option.isSome_or, hi, Bool.true_or]

theorem BlockReady.concat (h : BlockReady key arrivals) : BlockReady key (arrivals ++ [shard]) := by
  obtain ⟨k, hk, hle⟩ := h
  refine ⟨k, ?_, hle.trans (length_receivedIndices_le ..)⟩
  rw [firstK_concat, Option.mem_def.1 hk, Option.some_or]
  rfl

theorem BlockReady.append (h : BlockReady key pre) (post : List ImageShard) :
    BlockReady key (pre ++ post) := by
  induction post using List.reverseRecOn with
  | nil => rwa [List.append_nil]
  | append_singleton post shard ih =>
    rw [← List.append_assoc]
    exact ih.concat

namespace ImageCache
variable {c : ImageCache} {key : UInt16 × UInt8} {targetId : UInt16} {shard : ImageShard}
variable {arrivals : List ImageShard} {bucket : List (UInt8 × Bytes)}

/-- A bucket holds what was received first under each index, and each index once. -/
structure IsBucket (arrivals : List ImageShard) (key : UInt16 × UInt8)
    (bucket : List (UInt8 × Bytes)) : Prop where
  nodup : (bucket.map Prod.fst).Nodup
  mem : ∀ i data, (i, data) ∈ bucket ↔ firstReceived arrivals key i = some data

theorem IsBucket.any_iff (h : IsBucket arrivals key bucket) (i : UInt8) :
    (bucket.any fun e => e.1 = i) ↔ (firstReceived arrivals key i).isSome := by
  rw [List.any_eq_true, Option.isSome_iff_exists]
  constructor
  · rintro ⟨⟨j, data⟩, hmem, hj⟩
    have hji : j = i := of_decide_eq_true hj
    exact ⟨data, (h.mem i data).1 (hji ▸ hmem)⟩
  · rintro ⟨data, hdata⟩
    exact ⟨(i, data), (h.mem i data).2 hdata, decide_eq_true rfl⟩

theorem IsBucket.push (h : IsBucket arrivals key bucket) (hkey : shard.key = key) :
    IsBucket (arrivals ++ [shard]) key (pushShard bucket shard.index shard.data) := by
  have hany := h.any_iff shard.index
  rw [pushShard]
  split
  next hold =>
    refine ⟨h.nodup, fun i data => ?_⟩
    rw [h.mem, firstReceived_concat]
    by_cases hi : shard.index = i
    · subst hi
      rw [Option.or_of_isSome (hany.1 hold)]
    · rw [if_neg fun hand => hi hand.2, Option.or_none]
  next hnew =>
    have hnone : firstReceived arrivals key shard.index = none :=
      Option.not_isSome_iff_eq_none.1 fun hsome => hnew (hany.2 hsome)
    constructor
    case nodup =>
      rw [List.map_append, List.nodup_append]
      refine ⟨h.nodup, List.nodup_singleton _, ?_⟩
      intro i hi j hj hij
      obtain ⟨⟨i', data⟩, hmem, rfl⟩ := List.mem_map.1 hi
      apply hnew
      rw [List.any_eq_true]
      exact ⟨_, hmem, decide_eq_true (hij.trans (List.mem_singleton.1 hj))⟩
    case mem =>
      intro i data
      rw [List.mem_append, h.mem, firstReceived_concat, List.mem_singleton, Prod.mk.injEq]
      by_cases hi : shard.index = i
      · subst hi
        rw [hnone, Option.none_or, if_pos ⟨hkey, rfl⟩, Option.some.injEq]
        simp [eq_comm]
      · rw [if_neg fun hand => hi hand.2, Option.or_none]
        simp [Ne.symm hi]

theorem IsBucket.mem_fst (h : IsBucket arrivals key bucket) (i : UInt8) :
    i ∈ bucket.map Prod.fst ↔ i ∈ receivedIndices arrivals key := by
  rw [receivedIndices, List.mem_filter, ← h.any_iff, List.any_eq_true, List.mem_map]
  constructor
  · rintro ⟨e, he, rfl⟩
    exact ⟨mem_shardIndices _, e, he, decide_eq_true rfl⟩
  · rintro ⟨-, e, he, hi⟩
    exact ⟨e, he, of_decide_eq_true hi⟩

theorem IsBucket.map_insertionSort (h : IsBucket arrivals key bucket) :
    ((bucket.insertionSort fun a b => a.1 ≤ b.1).map Prod.fst) = receivedIndices arrivals key := by
  have htotal : Std.Total fun a b : UInt8 × Bytes => a.1 ≤ b.1 := ⟨fun _ _ => UInt8.le_total ..⟩
  have htrans : IsTrans (UInt8 × Bytes) fun a b => a.1 ≤ b.1 := ⟨fun _ _ _ => UInt8.le_trans⟩
  have hincreasing : (receivedIndices arrivals key).Pairwise (· < ·) :=
    pairwise_shardIndices.sublist (List.filter_sublist ..)
  have hperm : (bucket.map Prod.fst).Perm (receivedIndices arrivals key) :=
    (List.perm_ext_iff_of_nodup h.nodup (hincreasing.imp UInt8.ne_of_lt)).2 h.mem_fst
  apply (((List.perm_insertionSort _ bucket).map Prod.fst).trans hperm).eq_of_pairwise
  · intro i j _ _ hij hji
    exact UInt8.le_antisymm hij hji
  · exact List.pairwise_map.2 (List.pairwise_insertionSort _ bucket)
  · exact hincreasing.imp UInt8.le_of_lt

theorem IsBucket.length_eq (h : IsBucket arrivals key bucket) :
    bucket.length = (receivedIndices arrivals key).length := by
  rw [← h.map_insertionSort, List.length_map, List.length_insertionSort]

theorem IsBucket.concatShards_eq (h : IsBucket arrivals key bucket) :
    concatShards bucket = blockBytes arrivals key := by
  rw [blockBytes, ← h.map_insertionSort, List.flatMap_map, concatShards]
  apply List.flatMap_congr
  rintro ⟨i, data⟩ hmem
  have hdata := (h.mem i data).1 ((List.mem_insertionSort _).1 hmem)
  rw [hdata, Option.getD_some]

/-- What the cache remembers of the shards is what the arrivals tell. -/
structure Remembers (arrivals : List ImageShard) (c : ImageCache) : Prop where
  shards : ∀ key, IsBucket arrivals key ((c.shards key).getD [])
  blockK : ∀ key, c.blockK key = firstK arrivals key

theorem remembers_new : Remembers [] new where
  shards _ := ⟨List.nodup_nil, fun _ _ => by simp [new, firstReceived]⟩
  blockK _ := rfl

theorem Remembers.insertShard (h : Remembers arrivals c) (shard : ImageShard) :
    Remembers (arrivals ++ [shard]) (c.insertShard shard).1 := by
  constructor
  case shards =>
    intro key
    rw [insertShard_shards]
    by_cases hkey : key = shard.key
    · subst hkey
      rw [Table.insert_self]
      exact (h.shards shard.key).push rfl
    · rw [Table.insert_of_ne _ _ hkey]
      refine ⟨(h.shards key).nodup, fun i data => ?_⟩
      rw [(h.shards key).mem, firstReceived_concat, if_neg fun hand => hkey hand.1.symm,
        Option.or_none]
  case blockK =>
    intro key
    rw [insertShard_blockK, firstK_concat]
    by_cases hkey : key = shard.key
    · subst hkey
      rw [Table.orInsert_self, if_pos rfl, h.blockK]
      cases firstK arrivals shard.key <;> rfl
    · rw [Table.orInsert_of_ne _ _ hkey, if_neg (Ne.symm hkey), Option.or_none, h.blockK]

theorem remembers_insertAll (arrivals : List ImageShard) :
    Remembers arrivals (new.insertAll arrivals) := by
  induction arrivals using List.reverseRecOn with
  | nil => exact remembers_new
  | append_singleton arrivals shard ih =>
    rw [insertAll_concat]
    exact ih.insertShard shard

theorem Remembers.insertShard_assembledBlocks (h : Remembers arrivals c) (shard : ImageShard) :
    (BlockReady shard.key (arrivals ++ [shard]) →
      (c.insertShard shard).1.assembledBlocks shard.key =
        (c.assembledBlocks shard.key).or (some (blockBytes (arrivals ++ [shard]) shard.key))) ∧
      (¬ BlockReady shard.key (arrivals ++ [shard]) →
        (c.insertShard shard).1.assembledBlocks shard.key = c.assembledBlocks shard.key) := by
  have hnew := (h.insertShard shard).shards shard.key
  have hbucket : (c.insertShard shard).1.shards shard.key =
      some (pushShard ((c.shards shard.key).getD []) shard.index shard.data) := by
    rw [insertShard_shards, Table.insert_self]
  rw [hbucket, Option.getD_some] at hnew
  have hself := insertShard_assembledBlocks_self hbucket
  rw [hnew.length_eq, hnew.concatShards_eq] at hself
  have hk : firstK (arrivals ++ [shard]) shard.key =
      some ((c.blockK shard.key).getD shard.k) := by
    rw [firstK_concat, if_pos rfl, h.blockK]
    cases firstK arrivals shard.key <;> rfl
  constructor
  · rintro ⟨k, hmem, hle⟩
    rw [hk, Option.mem_some_iff] at hmem
    rw [hself, hmem, if_pos hle]
  · intro hnot
    rw [hself, if_neg fun hle => hnot ⟨_, hk, hle⟩, Option.or_none]

theorem assembledBlocks_isSome (arrivals : List ImageShard) (key : UInt16 × UInt8) :
    ((new.insertAll arrivals).assembledBlocks key).isSome ↔ BlockReady key arrivals := by
  induction arrivals using List.reverseRecOn with
  | nil =>
    constructor
    · rintro ⟨⟩
    · rintro ⟨k, hk, -⟩
      cases hk
  | append_singleton arrivals shard ih =>
    rw [insertAll_concat]
    by_cases hkey : key = shard.key
    · subst hkey
      obtain ⟨hready, hnot⟩ := (remembers_insertAll arrivals).insertShard_assembledBlocks shard
      by_cases h : BlockReady shard.key (arrivals ++ [shard])
      · simp [hready h, h]
      · rw [hnot h, ih]
        exact ⟨BlockReady.concat, fun h' => absurd h' h⟩
    · rw [insertShard_assembledBlocks_of_ne hkey, ih, blockReady_concat_of_ne hkey]

theorem insertAll_append (c : ImageCache) (pre post : List ImageShard) :
    c.insertAll (pre ++ post) = (c.insertAll pre).insertAll post := List.foldl_append ..

theorem insertAll_assembledBlocks_of_some (h : c.assembledBlocks key = some data)
    (arrivals : List ImageShard) : (c.insertAll arrivals).assembledBlocks key = some data := by
  induction arrivals generalizing c with
  | nil => exact h
  | cons shard arrivals ih => exact ih (insertShard_assembledBlocks_of_some h)

/-- The last of `pre ++ [shard]` is the first call with which the property holds. -/
def FirstWith (P : List ImageShard → Prop) (pre : List ImageShard) (shard : ImageShard) : Prop :=
  (∀ p, p <+: pre → ¬ P p) ∧ P (pre ++ [shard])

theorem assembled_at_first (h : FirstWith (BlockReady key) pre shard) (post : List ImageShard) :
    (new.insertAll (pre ++ shard :: post)).assembledBlocks key =
      some (blockBytes (pre ++ [shard]) key) := by
  obtain ⟨hbefore, hready⟩ := h
  have hnot : ¬ BlockReady key pre := hbefore pre List.prefix_rfl
  have hnone : (new.insertAll pre).assembledBlocks key = none :=
    Option.not_isSome_iff_eq_none.1 fun hsome => hnot ((assembledBlocks_isSome pre key).1 hsome)
  have hkey : key = shard.key := by
    by_contra hne
    exact hnot ((blockReady_concat_of_ne hne).1 hready)
  subst hkey
  have hstep := ((remembers_insertAll pre).insertShard_assembledBlocks shard).1 hready
  rw [hnone, Option.none_or] at hstep
  rw [insertAll_append]
  exact insertAll_assembledBlocks_of_some hstep post

theorem assembledBlocks_iff (arrivals : List ImageShard) (key : UInt16 × UInt8) (data : Bytes) :
    (new.insertAll arrivals).assembledBlocks key = some data ↔
      ∃ pre shard post, arrivals = pre ++ shard :: post ∧ FirstWith (BlockReady key) pre shard ∧
        data = blockBytes (pre ++ [shard]) key := by
  constructor
  · intro h
    have hready : BlockReady key arrivals := by
      rw [← assembledBlocks_isSome, h]
      rfl
    have hnil : ¬ BlockReady key [] := by
      rintro ⟨k, hk, -⟩
      cases hk
    obtain ⟨pre, shard, post, rfl, hnot, hfirst⟩ := exists_first_prefix hnil hready
    have hwith : FirstWith (BlockReady key) pre shard := by
      refine ⟨?_, hfirst⟩
      rintro p ⟨rest, rfl⟩ hp
      exact hnot (hp.append rest)
    rw [assembled_at_first hwith, Option.some.injEq] at h
    exact ⟨pre, shard, post, rfl, hwith, h.symm⟩
  · rintro ⟨pre, shard, post, rfl, hwith, rfl⟩
    exact assembled_at_first hwith post

theorem insertShard_getComplete_of_some (h : c.getComplete targetId = some data) :
    (c.insertShard shard).1.getComplete targetId = some data := by
  have hold : c.complete targetId = some data := h
  by_cases ht : targetId = shard.targetId
  · subst ht
    exact (insertShard_complete c shard).trans (by rw [hold, Option.some_or])
  · exact (insertShard_complete_of_ne ht).trans hold

theorem insertAll_getComplete_of_some (h : c.getComplete targetId = some data)
    (arrivals : List ImageShard) : (c.insertAll arrivals).getComplete targetId = some data := by
  induction arrivals generalizing c with
  | nil => exact h
  | cons shard arrivals ih => exact ih (insertShard_getComplete_of_some h)

/-- A call returns true for a target exactly if it makes the image complete. -/
theorem insertShard_snd_iff (c : ImageCache) (shard : ImageShard) (targetId : UInt16) :
    (shard.targetId = targetId ∧ (c.insertShard shard).2 = true) ↔
      c.getComplete targetId = none ∧ ((c.insertShard shard).1.getComplete targetId).isSome := by
  by_cases ht : shard.targetId = targetId
  · subst ht
    rw [insertShard_snd]
    exact and_iff_right rfl
  · have hsame : (c.insertShard shard).1.getComplete targetId = c.getComplete targetId :=
      insertShard_complete_of_ne (Ne.symm ht)
    rw [hsame]
    constructor
    · exact fun h => absurd h.1 ht
    · rintro ⟨hnone, hsome⟩
      rw [hnone] at hsome
      cases hsome

theorem length_insertReturns (c : ImageCache) (arrivals : List ImageShard) :
    (c.insertReturns arrivals).length = arrivals.length := by
  induction arrivals generalizing c with
  | nil => rfl
  | cons shard arrivals ih => rw [insertReturns, List.length_cons, ih, List.length_cons]

def completions (arrivals : List ImageShard) (targetId : UInt16) : ℕ :=
  (arrivals.zip (new.insertReturns arrivals)).countP fun r => r.1.targetId = targetId ∧ r.2

theorem completions_eq (arrivals : List ImageShard) (targetId : UInt16) :
    completions arrivals targetId =
      if ((new.insertAll arrivals).getComplete targetId).isSome then 1 else 0 := by
  induction arrivals using List.reverseRecOn with
  | nil => rfl
  | append_singleton arrivals shard ih =>
    have hlast := insertShard_snd_iff (new.insertAll arrivals) shard targetId
    rw [completions] at ih
    rw [completions, insertReturns_concat, insertAll_concat,
      List.zip_append (length_insertReturns ..).symm, List.countP_append, ih]
    cases hold : (new.insertAll arrivals).getComplete targetId with
    | some data =>
      rw [hold] at hlast
      rw [insertShard_getComplete_of_some hold]
      simpa using hlast
    | none =>
      rw [hold] at hlast
      simp only [true_and] at hlast
      simp [List.countP_cons, hlast]

structure Agree (targetId : UInt16) (c c' : ImageCache) : Prop where
  shards : ∀ bid, c.shards (targetId, bid) = c'.shards (targetId, bid)
  blockK : ∀ bid, c.blockK (targetId, bid) = c'.blockK (targetId, bid)
  assembledBlocks : ∀ bid, c.assembledBlocks (targetId, bid) = c'.assembledBlocks (targetId, bid)
  totalBlocksExpected : c.totalBlocksExpected targetId = c'.totalBlocksExpected targetId
  complete : c.complete targetId = c'.complete targetId

theorem agree_insertShard_of_ne (c : ImageCache) (h : targetId ≠ shard.targetId) :
    Agree targetId (c.insertShard shard).1 c := by
  have hkey : ∀ bid, (targetId, bid) ≠ shard.key := fun bid heq => h (Prod.mk.inj heq).1
  constructor
  case shards =>
    intro bid
    rw [insertShard_shards, Table.insert_of_ne _ _ (hkey bid)]
  case blockK =>
    intro bid
    rw [insertShard_blockK, Table.orInsert_of_ne _ _ (hkey bid)]
  case assembledBlocks => exact fun bid => insertShard_assembledBlocks_of_ne (hkey bid)
  case totalBlocksExpected =>
    rw [insertShard_totalBlocksExpected]
    split
    · exact Table.orInsert_of_ne _ _ h
    · rfl
  case complete => exact insertShard_complete_of_ne h

namespace Agree
variable {c' : ImageCache}

theorem symm (h : Agree targetId c c') : Agree targetId c' c where
  shards bid := (h.shards bid).symm
  blockK bid := (h.blockK bid).symm
  assembledBlocks bid := (h.assembledBlocks bid).symm
  totalBlocksExpected := h.totalBlocksExpected.symm
  complete := h.complete.symm

theorem trans (h : Agree targetId c c') (h' : Agree targetId c' c'') : Agree targetId c c'' where
  shards bid := (h.shards bid).trans (h'.shards bid)
  blockK bid := (h.blockK bid).trans (h'.blockK bid)
  assembledBlocks bid := (h.assembledBlocks bid).trans (h'.assembledBlocks bid)
  totalBlocksExpected := h.totalBlocksExpected.trans h'.totalBlocksExpected
  complete := h.complete.trans h'.complete

theorem insertShard_bucket (h : Agree shard.targetId c c') : ∃ bucket,
    (c.insertShard shard).1.shards shard.key = some bucket ∧
      (c'.insertShard shard).1.shards shard.key = some bucket := by
  have hold : c.shards shard.key = c'.shards shard.key := h.shards shard.blockId
  refine ⟨pushShard ((c'.shards shard.key).getD []) shard.index shard.data, ?_, ?_⟩
  · rw [insertShard_shards, Table.insert_self, hold]
  · rw [insertShard_shards, Table.insert_self]

theorem insertShard_assembledBlocks (h : Agree shard.targetId c c') (bid : UInt8) :
    (c.insertShard shard).1.assembledBlocks (shard.targetId, bid) =
      (c'.insertShard shard).1.assembledBlocks (shard.targetId, bid) := by
  by_cases hbid : bid = shard.blockId
  · subst hbid
    obtain ⟨bucket, hbucket, hbucket'⟩ := h.insertShard_bucket
    have hk : c.blockK shard.key = c'.blockK shard.key := h.blockK shard.blockId
    have hold : c.assembledBlocks shard.key = c'.assembledBlocks shard.key :=
      h.assembledBlocks shard.blockId
    have hself := insertShard_assembledBlocks_self hbucket
    rw [hk, hold, ← insertShard_assembledBlocks_self hbucket'] at hself
    exact hself
  · have hkey : (shard.targetId, bid) ≠ shard.key := fun heq => hbid (Prod.mk.inj heq).2
    rw [insertShard_assembledBlocks_of_ne hkey, insertShard_assembledBlocks_of_ne hkey,
      h.assembledBlocks]

theorem insertShard_totalBlocksExpected (h : Agree shard.targetId c c') :
    (c.insertShard shard).1.totalBlocksExpected shard.targetId =
      (c'.insertShard shard).1.totalBlocksExpected shard.targetId := by
  rw [ImageCache.insertShard_totalBlocksExpected, ImageCache.insertShard_totalBlocksExpected]
  split
  · rw [Table.orInsert_self, Table.orInsert_self, h.totalBlocksExpected]
  · exact h.totalBlocksExpected

theorem insertShard_complete (h : Agree shard.targetId c c') :
    (c.insertShard shard).1.complete shard.targetId =
      (c'.insertShard shard).1.complete shard.targetId := by
  rw [ImageCache.insertShard_complete, ImageCache.insertShard_complete, h.complete,
    fullImage_congr h.insertShard_totalBlocksExpected h.insertShard_assembledBlocks]

theorem insertShard (h : Agree targetId c c') (shard : ImageShard) :
    Agree targetId (c.insertShard shard).1 (c'.insertShard shard).1 := by
  by_cases ht : targetId = shard.targetId
  · subst ht
    constructor
    case shards =>
      intro bid
      rw [insertShard_shards, insertShard_shards, Table.insert_apply, Table.insert_apply]
      split
      · rw [show c.shards shard.key = c'.shards shard.key from h.shards shard.blockId]
      · exact h.shards bid
    case blockK =>
      intro bid
      rw [insertShard_blockK, insertShard_blockK, Table.orInsert, Table.orInsert,
        Table.insert_apply, Table.insert_apply]
      split
      · rw [show c.blockK shard.key = c'.blockK shard.key from h.blockK shard.blockId]
      · exact h.blockK bid
    case assembledBlocks => exact h.insertShard_assembledBlocks
    case totalBlocksExpected => exact h.insertShard_totalBlocksExpected
    case complete => exact h.insertShard_complete
  · exact (agree_insertShard_of_ne c ht).trans (h.trans (agree_insertShard_of_ne c' ht).symm)

theorem insertAll (h : Agree targetId c c') (arrivals : List ImageShard) :
    Agree targetId (c.insertAll arrivals) (c'.insertAll arrivals) := by
  induction arrivals generalizing c c' with
  | nil => exact h
  | cons shard arrivals ih => exact ih (h.insertShard shard)

end Agree

structure SameAnswers (targetId : UInt16) (c c' : ImageCache) : Prop where
  getComplete : c.getComplete targetId = c'.getComplete targetId
  blocksAssembled : c.blocksAssembled targetId = c'.blocksAssembled targetId
  hasShard : ∀ bid, c.hasShard targetId bid = c'.hasShard targetId bid
  insertShard : ∀ shard, shard.targetId = targetId →
    (c.insertShard shard).2 = (c'.insertShard shard).2

theorem Agree.sameAnswers (h : Agree targetId c c') : SameAnswers targetId c c' where
  getComplete := h.complete
  blocksAssembled := by
    simp only [ImageCache.blocksAssembled, h.totalBlocksExpected, h.assembledBlocks]
  hasShard bid := by rw [hasShard, hasShard, h.shards]
  insertShard := by
    rintro shard rfl
    apply Bool.eq_iff_iff.2
    rw [insertShard_snd, insertShard_snd, h.complete, h.insertShard_complete]

/-- What the cache does over any run from the empty one: when a block is assembled and of what,
when `insert_shard` returns true, and that targets do not meddle with each other. -/
theorem insertAll_invariant (arrivals : List ImageShard) :
    (∀ key data, (new.insertAll arrivals).assembledBlocks key = some data ↔
      ∃ pre shard post, arrivals = pre ++ shard :: post ∧ FirstWith (BlockReady key) pre shard ∧
        data = blockBytes (pre ++ [shard]) key) ∧
      (∀ targetId shard,
        (shard.targetId = targetId ∧ ((new.insertAll arrivals).insertShard shard).2 = true) ↔
          (new.insertAll arrivals).getComplete targetId = none ∧
            ((new.insertAll (arrivals ++ [shard])).getComplete targetId).isSome) ∧
      (∀ targetId, completions arrivals targetId ≤ 1) ∧
      (∀ targetId full, (new.insertAll arrivals).getComplete targetId = some full →
        ∀ later, (new.insertAll (arrivals ++ later)).getComplete targetId = some full) ∧
      ∀ targetId shard, targetId ≠ shard.targetId → ∀ later,
        SameAnswers targetId (new.insertAll (arrivals ++ shard :: later))
          (new.insertAll (arrivals ++ later)) := by
  refine ⟨assembledBlocks_iff arrivals, ?_, ?_, ?_, ?_⟩
  · intro targetId shard
    rw [insertAll_concat]
    exact insertShard_snd_iff ..
  · intro targetId
    rw [completions_eq]
    split <;> decide
  · intro targetId full h later
    rw [insertAll_append]
    exact insertAll_getComplete_of_some h later
  · intro targetId shard h later
    rw [insertAll_append, insertAll_append]
    exact ((agree_insertShard_of_ne _ h).insertAll later).sameAnswers

end ImageCache
end TacticalMesh
