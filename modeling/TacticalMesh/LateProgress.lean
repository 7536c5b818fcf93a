import Mathlib.Data.List.Permutation
import TacticalMesh.ImageReceipt

namespace TacticalMesh
set_option autoImplicit true

/-- A transfer of `handle_request_image`: its shards in any order make up the image. -/
def imageTransfer (targetId : UInt16) (imageBytes : Bytes) (hsome : imageBytes ≠ [])
    (hfew : chunkCount shardSize imageBytes.length ≤ 255) : Transfer targetId imageBytes where
  shards := imageShards targetId imageBytes
  target shard hshard := by
    obtain ⟨i, rfl⟩ := List.mem_iff_get.1 hshard
    rw [get_imageShards]
  completes order horder := by
    have hall : (List.finRange _).map (imageShards targetId imageBytes).get =
        imageShards targetId imageBytes := List.map_get_finRange _
    rw [← hall] at horder
    have hnumbered := congrFun (congrFun
      (List.eq_map_comp_perm (imageShards targetId imageBytes).get) order) (List.finRange _)
    obtain ⟨nos, rfl, hnos⟩ := hnumbered.mpr horder
    apply ((reassembles_iff targetId imageBytes hsome).2 hfew).complete
    exact fun j => hnos.mem_iff.2 (List.mem_finRange j)

namespace ImageTask

def inserted (c : ImageCache) (shard : ImageShard) : ImageTask :=
  if (c.insertShard shard).2 then fetching shard.targetId
  else progress ⟨shard.targetId, (c.insertShard shard).1.blocksAssembled shard.targetId,
    max shard.totalBlocks 1⟩

def insertedAll (c : ImageCache) : List ImageShard → List ImageTask
  | [] => []
  | shard :: rest => inserted c shard :: insertedAll (c.insertShard shard).1 rest

theorem isProgress_inserted : (inserted c shard).isProgress = !(c.insertShard shard).2 := by
  rw [inserted]
  cases (c.insertShard shard).2 <;> rfl

theorem length_insertedAll (c : ImageCache) (shards : List ImageShard) :
    (insertedAll c shards).length = shards.length := by
  induction shards generalizing c with
  | nil => rfl
  | cons shard shards ih => rw [insertedAll, List.length_cons, List.length_cons, ih]

theorem insertedAll_append (c : ImageCache) (l r : List ImageShard) :
    insertedAll c (l ++ r) = insertedAll c l ++ insertedAll (c.insertAll l) r := by
  induction l generalizing c with
  | nil => rfl
  | cons shard l ih => exact congrArg (_ :: ·) (ih _)

theorem isProgress_of_insertedAll {targetId : UInt16} {shards : List ImageShard}
    (htarget : ∀ shard ∈ shards, shard.targetId = targetId)
    (h : (c.getComplete targetId).isSome ∨ (c.insertAll shards).getComplete targetId = none) :
    ∀ t ∈ insertedAll c shards, t.isProgress := by
  induction shards generalizing c with
  | nil => exact fun _ ht => absurd ht List.not_mem_nil
  | cons shard shards ih =>
    rw [List.forall_mem_cons] at htarget
    have hsnd := ImageCache.insertShard_snd_iff c shard targetId
    rw [and_iff_right htarget.1] at hsnd
    have hfalse : (c.insertShard shard).2 = false := by
      rw [← Bool.not_eq_true, hsnd]
      rintro ⟨hbefore, hafter⟩
      rcases h with hold | hlater
      · rw [hbefore] at hold
        cases hold
      · obtain ⟨a, ha⟩ := Option.isSome_iff_exists.1 hafter
        have hkept := ImageCache.insertAll_getComplete_of_some ha shards
        cases hkept.symm.trans hlater
    rw [insertedAll, List.forall_mem_cons, isProgress_inserted, hfalse]
    refine ⟨rfl, ih htarget.2 (h.imp_left fun hold => ?_)⟩
    obtain ⟨a, ha⟩ := Option.isSome_iff_exists.1 hold
    exact Option.isSome_of_eq_some (ImageCache.insertShard_getComplete_of_some ha)

end ImageTask

namespace ImagePool
variable {targetId : UInt16} {imageBytes : Bytes} {tr : Transfer targetId imageBytes}
variable {pool : ImagePool} (decodeJpeg : Bytes → Option (Bytes × UInt32 × UInt32))

theorem leadsTo_step (s : ImageShared) (l : List ImageTask) (t : ImageTask) (r : List ImageTask) :
    LeadsTo (step decodeJpeg) ⟨s, l ++ t :: r⟩
      ⟨(t.next decodeJpeg s).1, l ++ (t.next decodeJpeg s).2 ++ r⟩ :=
  LeadsTo.tail (.refl _ _) (TaskPool.step_append s l t r)

theorem leadsTo_inserted (s : ImageShared) (done : List ImageTask) (shards : List ImageShard) :
    LeadsTo (step decodeJpeg) ⟨s, done ++ shards.map .spawned⟩
      ⟨{ s with cache := s.cache.insertAll shards },
        done ++ ImageTask.insertedAll s.cache shards⟩ := by
  induction shards generalizing s done with
  | nil => exact .refl _ _
  | cons shard shards ih =>
    have hfirst := leadsTo_step decodeJpeg s done (.spawned shard)
      (shards.map .spawned)
    have hrest := ih { s with cache := (s.cache.insertShard shard).1 }
      (done ++ [ImageTask.inserted s.cache shard])
    rw [List.append_assoc, List.append_assoc] at hrest
    rw [List.append_assoc] at hfirst
    exact hfirst.trans hrest

theorem leadsTo_written (s : ImageShared) (tasks : List ImageTask)
    (hall : ∀ t ∈ tasks, t.isProgress) : ∃ pool', LeadsTo (step decodeJpeg) ⟨s, tasks⟩ pool' ∧
      pool'.tasks = [] ∧ (tasks ≠ [] ∨ s.imageRx ≠ none → pool'.shared.imageRx ≠ none) := by
  induction tasks generalizing s with
  | nil => exact ⟨_, .refl _ _, rfl, fun h => h.resolve_left fun hne => hne rfl⟩
  | cons t tasks ih =>
    rw [List.forall_mem_cons] at hall
    cases t with
    | progress rx =>
      obtain ⟨pool', hrun, hdone, hrx⟩ := ih { s with imageRx := some rx } hall.2
      exact ⟨pool', (leadsTo_step decodeJpeg s [] (.progress rx) tasks).trans hrun, hdone,
        fun _ => hrx (.inr (Option.some_ne_none rx))⟩
    | spawned => cases hall.1
    | fetching => cases hall.1
    | decoding => cases hall.1

variable (tr) in
theorem exists_inserted : ∃ l r,
    ImageTask.insertedAll .new tr.shards = l ++ .fetching targetId :: r ∧
      (∀ t ∈ l ++ r, t.isProgress) ∧ l.length + r.length + 1 = tr.shards.length := by
  have hcomplete := tr.completes tr.shards (.refl _)
  obtain ⟨pre, last, post, hshards, hpre, hlast⟩ := exists_first_prefix
    (P := fun order => ((ImageCache.new.insertAll order).getComplete targetId).isSome)
    Bool.false_ne_true (Option.isSome_of_eq_some hcomplete)
  have htarget := tr.target
  rw [hshards, List.forall_mem_append, List.forall_mem_cons] at htarget
  rw [ImageCache.insertAll_concat] at hlast
  have hnone := Option.not_isSome_iff_eq_none.1 hpre
  have hfetch : ImageTask.inserted (ImageCache.new.insertAll pre) last = .fetching targetId := by
    have hsnd := (ImageCache.insertShard_snd_iff (ImageCache.new.insertAll pre) last targetId).2
      ⟨hnone, hlast⟩
    rw [ImageTask.inserted, hsnd.2, hsnd.1]
    rfl
  refine ⟨ImageTask.insertedAll .new pre,
    ImageTask.insertedAll ((ImageCache.new.insertAll pre).insertShard last).1 post, ?_, ?_, ?_⟩
  · rw [hshards, ImageTask.insertedAll_append, ImageTask.insertedAll, hfetch]
  · have hbefore := ImageTask.isProgress_of_insertedAll htarget.1 (.inr hnone)
    have hafter := ImageTask.isProgress_of_insertedAll htarget.2.2 (.inl hlast)
    exact List.forall_mem_append.2 ⟨hbefore, hafter⟩
  · rw [hshards, List.length_append, List.length_cons, ImageTask.length_insertedAll,
      ImageTask.length_insertedAll]
    omega

/-- With more than one shard, some task can write its progress after all the others. -/
theorem exists_unsettled (hmany : tr.shards.length ≠ 1) (app : AppState)
    (image : Option ImageDisplay) (imageRx : Option ImageRxProgress) :
    ∃ pool', LeadsTo (step decodeJpeg) (tr.start app image imageRx) pool' ∧ pool'.tasks = [] ∧
      pool'.shared.imageRx ≠ none := by
  have hcomplete := tr.completes tr.shards (.refl _)
  obtain ⟨l, r, htasks, hall, hlen⟩ := exists_inserted tr
  have hne : l ++ r ≠ [] := by
    apply List.ne_nil_of_length_pos
    rw [List.length_append]
    omega
  have hinserted := leadsTo_inserted decodeJpeg ⟨.new, app, image, imageRx⟩ []
    tr.shards
  rw [List.nil_append, List.nil_append, htasks] at hinserted
  have hfetched := leadsTo_step decodeJpeg
    ⟨ImageCache.new.insertAll tr.shards, app, image, imageRx⟩ l (.fetching targetId) r
  simp only [ImageTask.next, hcomplete] at hfetched
  rw [List.append_assoc] at hfetched
  have hshown := leadsTo_step decodeJpeg
    ⟨ImageCache.new.insertAll tr.shards, app, image, imageRx⟩ l (.decoding targetId imageBytes) r
  simp only [ImageTask.next, List.append_nil] at hshown
  obtain ⟨pool', hwritten, hdone, hrx⟩ := leadsTo_written decodeJpeg _ (l ++ r) hall
  exact ⟨pool', hinserted.trans (hfetched.trans (hshown.trans hwritten)), hdone, hrx (.inl hne)⟩

variable {decodeJpeg}

inductive Alone (decodeJpeg : Bytes → Option (Bytes × UInt32 × UInt32)) (targetId : UInt16)
    (imageBytes : Bytes) (shard : ImageShard) : ImageShared → List ImageTask → Prop where
  | spawned (hcache : s.cache = .new) :
      Alone decodeJpeg targetId imageBytes shard s [.spawned shard]
  | fetching (hcomplete : s.cache.getComplete targetId = some imageBytes) :
      Alone decodeJpeg targetId imageBytes shard s [.fetching targetId]
  | decoding : Alone decodeJpeg targetId imageBytes shard s [.decoding targetId imageBytes]
  | shown (himage : s.image = some (decoded decodeJpeg targetId imageBytes))
      (hrx : s.imageRx = none) : Alone decodeJpeg targetId imageBytes shard s []

theorem Alone.perm {s : ImageShared} {l l' : List ImageTask} (hperm : l.Perm l')
    (h : Alone decodeJpeg targetId imageBytes shard s l) :
    Alone decodeJpeg targetId imageBytes shard s l' := by
  cases h with
  | spawned hcache => exact List.singleton_perm.1 hperm ▸ .spawned hcache
  | fetching hcomplete => exact List.singleton_perm.1 hperm ▸ .fetching hcomplete
  | decoding => exact List.singleton_perm.1 hperm ▸ .decoding
  | shown himage hrx => exact List.nil_perm.1 hperm ▸ .shown himage hrx

theorem Alone.next {s : ImageShared} {rest : List ImageTask} (hshard : shard.targetId = targetId)
    (hcomplete : (ImageCache.new.insertShard shard).1.getComplete targetId = some imageBytes)
    (h : Alone decodeJpeg targetId imageBytes shard s (t :: rest)) :
    Alone decodeJpeg targetId imageBytes shard (ImageTask.next decodeJpeg t s).1
      ((ImageTask.next decodeJpeg t s).2 ++ rest) := by
  cases h with
  | spawned hcache =>
    have hsnd := (ImageCache.insertShard_snd_iff .new shard targetId).2
      ⟨rfl, Option.isSome_of_eq_some hcomplete⟩
    simp only [ImageTask.next, hcache, hsnd.2, hshard, if_true]
    exact .fetching hcomplete
  | fetching hget =>
    simp only [ImageTask.next, hget]
    exact .decoding
  | decoding => exact .shown rfl rfl

theorem settled_of_single (hone : tr.shards.length = 1) {app : AppState}
    {image : Option ImageDisplay} {imageRx : Option ImageRxProgress}
    (hrun : LeadsTo (step decodeJpeg) (tr.start app image imageRx) pool) (hdone : pool.tasks = []) :
    pool.Settled decodeJpeg targetId imageBytes := by
  obtain ⟨shard, hshard⟩ := List.length_eq_one_iff.1 hone
  have hcomplete : (ImageCache.new.insertShard shard).1.getComplete targetId = some imageBytes :=
    tr.completes [shard] (.of_eq hshard.symm)
  have htarget : shard.targetId = targetId := tr.target shard (hshard ▸ .head _)
  have hstart : Alone decodeJpeg targetId imageBytes shard (tr.start app image imageRx).shared
      (tr.start app image imageRx).tasks := by
    rw [Transfer.start, hshard]
    exact .spawned rfl
  have hend := TaskPool.invariant (P := Alone decodeJpeg targetId imageBytes shard)
    (fun _ _ _ => Alone.perm) (fun _ _ _ => Alone.next htarget hcomplete) hrun hstart
  rw [hdone] at hend
  cases hend with
  | shown himage hrx => exact ⟨himage, hrx⟩

end ImagePool

open ImagePool

/-- A run settles exactly if no task writes its progress after the image is shown, and a transfer
settles in every interleaving exactly if it is a single shard. -/
theorem receipt_settles_iff (decodeJpeg : Bytes → Option (Bytes × UInt32 × UInt32))
    (targetId : UInt16) (imageBytes : Bytes) (tr : Transfer targetId imageBytes) (app : AppState)
    (image : Option ImageDisplay) (imageRx : Option ImageRxProgress) :
    (∀ (events : List ℕ) (pool : ImagePool),
      events.foldlM (step decodeJpeg) (tr.start app image imageRx) = some pool →
      pool.tasks = [] → (pool.Settled decodeJpeg targetId imageBytes ↔
        events.foldlM (timelyStep decodeJpeg targetId) (tr.start app image imageRx) =
          some pool)) ∧
      ((∀ pool : ImagePool, LeadsTo (step decodeJpeg) (tr.start app image imageRx) pool →
        pool.tasks = [] → pool.Settled decodeJpeg targetId imageBytes) ↔ tr.shards.length = 1) := by
  constructor
  · exact fun events pool hrun hdone => settled_iff_timely hrun hdone
  · constructor
    case mp =>
      intro hall
      by_contra hmany
      obtain ⟨pool, hrun, hdone, hrx⟩ := exists_unsettled decodeJpeg hmany app image imageRx
      exact hrx (hall pool hrun hdone).2
    case mpr => exact fun hone pool hrun hdone => settled_of_single hone hrun hdone

def noJpeg : Bytes → Option (Bytes × UInt32 × UInt32) := fun _ => none

def threeBytes : Transfer 7 [1, 2, 3] := imageTransfer 7 [1, 2, 3] (by decide) (by decide)

def twoShards : List ImageShard :=
  [⟨7, 2, 0, 0, 1, 1, [1]⟩, ⟨7, 2, 1, 0, 1, 1, [2]⟩]

def twoBlocks : Transfer 7 [1, 2] where
  shards := twoShards
  target := by decide
  completes order horder := by
    have hall : ∀ order ∈ twoShards.permutations',
        (ImageCache.new.insertAll order).getComplete 7 = some [1, 2] := by decide
    exact hall order (List.mem_permutations'.2 horder)

theorem blocks_settle :
    (∃ pool : ImagePool,
      [0, 0, 0, 0, 0].foldlM (step noJpeg) (twoBlocks.start .new none none) = some pool ∧
        pool.tasks = [] ∧ pool.Settled noJpeg 7 [1, 2]) ∧
    ∀ pool : ImagePool, LeadsTo (step noJpeg) (threeBytes.start .new none none) pool →
      pool.tasks = [] → pool.Settled noJpeg 7 [1, 2, 3] := by
  constructor
  · have hrun : ([0, 0, 0, 0, 0].foldlM (step noJpeg) (twoBlocks.start .new none none)).map
        TaskPool.tasks = some [] := rfl
    obtain ⟨pool, hpool, hdone⟩ := Option.map_eq_some_iff.1 hrun
    have htimely : [0, 0, 0, 0, 0].foldlM (timelyStep noJpeg 7)
        (twoBlocks.start .new none none) = some pool := by
      rw [← hpool]
      rfl
    refine ⟨pool, hpool, hdone, ?_⟩
    exact ((receipt_settles_iff noJpeg 7 [1, 2] twoBlocks .new none none).1 _ pool hpool hdone).2
      htimely
  · exact (receipt_settles_iff noJpeg 7 [1, 2, 3] threeBytes .new none none).2.2 (by decide)

/-- The second block completes the image, which is shown before the first one's progress is
written: the indicator stays at one block of two. -/
theorem late_progress_stays : ∃ pool : ImagePool,
    [0, 1, 1, 1, 0].foldlM (step noJpeg) (twoBlocks.start .new none none) = some pool ∧
      pool.tasks = [] ∧ pool.shared.imageRx = some ⟨7, 1, 2⟩ ∧ ¬ pool.Settled noJpeg 7 [1, 2] := by
  have hrun : ([0, 1, 1, 1, 0].foldlM (step noJpeg) (twoBlocks.start .new none none)).map
      (fun pool => (pool.tasks, pool.shared.imageRx)) = some ([], some ⟨7, 1, 2⟩) := rfl
  obtain ⟨pool, hpool, hend⟩ := Option.map_eq_some_iff.1 hrun
  obtain ⟨hdone, hrx⟩ := Prod.mk.inj hend
  refine ⟨pool, hpool, hdone, hrx, fun hsettled => ?_⟩
  cases hrx.symm.trans hsettled.2

end TacticalMesh
