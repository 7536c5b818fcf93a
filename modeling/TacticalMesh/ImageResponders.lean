import TacticalMesh.ImageTransfer

namespace TacticalMesh
set_option autoImplicit true

section
variable {R : Type} {targetId : UInt16} {jpeg : R → Bytes}

abbrev Response (targetId : UInt16) (jpeg : R → Bytes) : Type :=
  Σ r, ShardNo targetId (jpeg r)

def Response.shard (response : Response targetId jpeg) : ImageShard :=
  (imageShards targetId (jpeg response.1)).get response.2

def Response.blocks (response : Response targetId jpeg) : ℕ :=
  chunkCount shardSize (jpeg response.1).length

def receivedBlock (arrivals : List (Response targetId jpeg)) (i : ℕ) : Option Bytes :=
  firstData (arrivals.map Response.shard) (.ofNat i)

/-- Some responder announces as many blocks as the one that was heard first, and whatever block
was received first under a number of its own is its block. -/
def Unmixed (arrivals : List (Response targetId jpeg)) : Prop :=
  ∀ first ∈ arrivals.head?, ∃ r, chunkCount shardSize (jpeg r).length = first.blocks ∧
    ∀ i < first.blocks, ∀ data,
      receivedBlock arrivals i = some data → data = chunk shardSize (jpeg r) i

theorem isBlock_responses {arrivals : List (Response targetId jpeg)} :
    ∀ shard ∈ arrivals.map Response.shard, shard.IsBlock targetId := by
  intro shard hshard
  obtain ⟨response, -, rfl⟩ := List.mem_map.1 hshard
  exact isBlock_imageShards response.2

theorem receivedImage_responses (hfew : ∀ r, chunkCount shardSize (jpeg r).length ≤ 255)
    {first : Response targetId jpeg} {rest : List (Response targetId jpeg)}
    (h : receivedImage ((first :: rest).map Response.shard) = some full) :
    (first.blocks ≤ 1 ∧ full = jpeg first.1) ∨
      (∀ i < first.blocks, (receivedBlock (first :: rest) i).isSome) ∧
      (List.range first.blocks).flatMap (fun i => (receivedBlock (first :: rest) i).getD []) =
        full := by
  have hone := totalBlocks_le_one (hfew first.1) first.2
  rw [List.map_cons, receivedImage] at h
  split at h
  next hle =>
    have hdata : first.shard.data = chunk shardSize (jpeg first.1) first.2 := by
      rw [Response.shard, get_imageShards]
    rw [Option.some.injEq, hdata,
      chunk_of_single (by decide) (hone.1 hle) (shardNo_lt first.2)] at h
    exact .inl ⟨hone.1 hle, h.symm⟩
  next hmany =>
    have htotal : first.shard.totalBlocks = .ofNat first.blocks := by
      rw [Response.shard, get_imageShards, Response.blocks]
    have hcount : first.shard.totalBlocks.toNat = first.blocks := by
      rw [htotal]
      exact toNat_totalBlocks (hfew first.1)
    obtain ⟨hall, hfull⟩ := joinBlocks_eq_some.1 h
    refine .inr ⟨fun i hi => ?_, ?_⟩
    · apply hall
      have hbid : (UInt8.ofNat i).toNat ≤ i := by
        rw [UInt8.toNat_ofNat']
        exact Nat.mod_le ..
      rw [UInt8.lt_iff_toNat_lt, hcount]
      exact hbid.trans_lt hi
    · rw [blockIds, hcount, List.flatMap_map] at hfull
      exact hfull

theorem exists_response_of_receivedBlock (hfew : ∀ r, chunkCount shardSize (jpeg r).length ≤ 255)
    {arrivals : List (Response targetId jpeg)} (hi : i ≤ 255)
    (h : receivedBlock arrivals i = some data) :
    ∃ response ∈ arrivals, i < response.blocks ∧
      data = chunk shardSize (jpeg response.1) i := by
  obtain ⟨shard, hfind, rfl⟩ := Option.map_eq_some_iff.1 h
  obtain ⟨response, hmem, rfl⟩ := List.mem_map.1 (List.mem_of_find?_eq_some hfind)
  have hbid := List.find?_some hfind
  have hlt := shardNo_lt response.2
  have hfew := hfew response.1
  rw [decide_eq_true_eq, Response.shard, get_imageShards, ofNat_eq_iff (by omega),
    UInt8.toNat_ofNat', Nat.mod_eq_of_lt (by omega)] at hbid
  refine ⟨response, hmem, hbid ▸ hlt, ?_⟩
  rw [Response.shard, get_imageShards, hbid]

theorem jpeg_of_unmixed (hfew : ∀ r, chunkCount shardSize (jpeg r).length ≤ 255)
    {arrivals : List (Response targetId jpeg)} (hun : Unmixed arrivals)
    (h : receivedImage (arrivals.map Response.shard) = some full) : ∃ r, jpeg r = full := by
  cases arrivals with
  | nil => cases h
  | cons first rest =>
    rcases receivedImage_responses hfew h with ⟨-, rfl⟩ | ⟨hall, hfull⟩
    · exact ⟨first.1, rfl⟩
    · obtain ⟨r, hblocks, hr⟩ := hun first rfl
      refine ⟨r, ?_⟩
      rw [← hfull, ← flatMap_chunk (by decide : 0 < shardSize) (jpeg r), hblocks]
      apply List.flatMap_congr
      intro i hi
      rw [List.mem_range] at hi
      obtain ⟨data, hdata⟩ := Option.isSome_iff_exists.1 (hall i hi)
      rw [hdata, hr i hi data hdata]
      rfl

theorem unmixed_of_jpeg (hfew : ∀ r, chunkCount shardSize (jpeg r).length ≤ 255)
    (hsame : ∀ r r', chunkCount shardSize (jpeg r).length = chunkCount shardSize (jpeg r').length)
    {arrivals : List (Response targetId jpeg)}
    (h : receivedImage (arrivals.map Response.shard) = some (jpeg r)) : Unmixed arrivals := by
  intro first hfirst
  refine ⟨r, hsame _ _, fun i hi data hdata => ?_⟩
  have hlt := hfew first.1
  rw [← Response.blocks] at hlt
  cases arrivals with
  | nil => cases h
  | cons first' rest =>
    cases hfirst
    rcases receivedImage_responses hfew h with ⟨hone, hr⟩ | ⟨hall, hfull⟩
    · have hfirst := shardNo_lt first.2
      have hbid : first.shard.blockId = .ofNat i := by
        rw [Response.blocks] at hone hi
        rw [Response.shard, get_imageShards, show first.2.val = i by omega]
      have hown : first.shard.data = data := by
        rw [receivedBlock, List.map_cons, firstData, List.find?_cons_of_pos (by simp [hbid])]
          at hdata
        exact Option.some.inj hdata
      rw [Response.shard, get_imageShards, chunk_of_single (by decide) hone hfirst] at hown
      rw [← hown, hr, chunk_of_single (by decide) ((hsame _ _).trans_le hone)
        ((hsame _ _).trans_gt hi)]
    · have hpiece : ∀ i < first.blocks, ∃ r', (receivedBlock (first :: rest) i).getD [] =
          chunk shardSize (jpeg r') i := by
        intro i hi
        obtain ⟨data, hdata⟩ := Option.isSome_iff_exists.1 (hall i hi)
        obtain ⟨response, -, -, rfl⟩ :=
          exists_response_of_receivedBlock hfew (by omega) hdata
        exact ⟨response.1, by rw [hdata, Option.getD_some]⟩
      have hlen : ∀ i, i + 1 < first.blocks →
          ((receivedBlock (first :: rest) i).getD []).length = shardSize := by
        intro i hi
        obtain ⟨r', hr'⟩ := hpiece i (by omega)
        rw [Response.blocks, hsame _ r', lt_chunkCount (by decide)] at hi
        rw [hr', length_chunk hi.le]
      have hle : ∀ i < first.blocks,
          ((receivedBlock (first :: rest) i).getD []).length ≤ shardSize := by
        intro i hi
        obtain ⟨r', hr'⟩ := hpiece i hi
        rw [hr']
        exact length_chunk_le ..
      rw [← hfull, chunk_flatMap hlen hle hi, hdata, Option.getD_some]

/-- Among responders that announce the same number of blocks, exactly the unmixed transfers give
an image that somebody sent; among others, at least these. -/
theorem getComplete_responses (hfew : ∀ r, chunkCount shardSize (jpeg r).length ≤ 255)
    (arrivals : List (Response targetId jpeg)) (full : Bytes)
    (h : (ImageCache.new.insertAll (arrivals.map Response.shard)).getComplete targetId =
      some full) :
    (Unmixed arrivals → ∃ r, jpeg r = full) ∧
      ((∀ r r', chunkCount shardSize (jpeg r).length = chunkCount shardSize (jpeg r').length) →
        (∃ r, jpeg r = full) → Unmixed arrivals) := by
  rw [ImageCache.getComplete, (ImageCache.tracks_insertAll isBlock_responses).complete] at h
  constructor
  · intro hun
    exact jpeg_of_unmixed hfew hun h
  · rintro hsame ⟨r, rfl⟩
    exact unmixed_of_jpeg hfew hsame h

end
def twoJpegs : Bool → Bytes
  | true => List.replicate 1208 1
  | false => List.replicate 1208 2

theorem length_twoShards (r : Bool) : (imageShards 7 (twoJpegs r)).length = 2 := by
  rw [length_imageShards]
  cases r <;> decide +kernel

def twoResponse (r : Bool) (i : Fin 2) : Response 7 twoJpegs :=
  ⟨r, i.cast (length_twoShards r).symm⟩

theorem unmixed_late_response :
    Unmixed [twoResponse true 1, twoResponse true 0, twoResponse false 0] := by
  have hown : ∀ i < (twoResponse true 1).blocks,
      receivedBlock [twoResponse true 1, twoResponse true 0, twoResponse false 0] i =
        some (chunk shardSize (twoJpegs true) i) := by decide +kernel
  intro first hfirst
  cases hfirst
  refine ⟨true, rfl, fun i hi data hdata => ?_⟩
  rw [hown i hi] at hdata
  exact (Option.some.inj hdata).symm

theorem late_response_harmless : ∃ r, twoJpegs r = List.replicate 1208 1 := by
  have hcomplete : (ImageCache.new.insertAll ([twoResponse true 1, twoResponse true 0,
      twoResponse false 0].map Response.shard)).getComplete 7 =
        some (List.replicate 1208 1) := by decide +kernel
  exact (getComplete_responses (by decide +kernel) _ _ hcomplete).1 unmixed_late_response

/-- The first block of one image and the second of the other make up what nobody sent. -/
theorem responses_mixed : ∃ full,
    (ImageCache.new.insertAll
      ([twoResponse true 0, twoResponse false 1].map Response.shard)).getComplete 7 = some full ∧
    ∀ r, twoJpegs r ≠ full := by
  refine ⟨List.replicate 1207 1 ++ [2], ?_, ?_⟩
  · decide +kernel
  · decide +kernel

end TacticalMesh
