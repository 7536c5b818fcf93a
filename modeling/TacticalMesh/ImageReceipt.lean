import TacticalMesh.ImageCacheRuns
import TacticalMesh.ImageTransfer
import TacticalMesh.Node
import TacticalMesh.TaskPool

namespace TacticalMesh
set_option autoImplicit true

structure ImageDisplay where
  targetId : UInt16
  pixels : Bytes
  width : UInt32
  height : UInt32
  deriving DecidableEq, Repr

structure ImageRxProgress where
  targetId : UInt16
  blocksDone : UInt8
  blocksTotal : UInt8
  deriving DecidableEq, Repr

/-- What the handlers of image shards lock: the cache, and the app state with its image fields. -/
structure ImageShared where
  cache : ImageCache
  app : AppState
  image : Option ImageDisplay
  imageRx : Option ImageRxProgress

/-- What is shown of the assembled bytes: raw pixels of a fixed size if they cannot be decoded. -/
def decoded (decodeJpeg : Bytes → Option (Bytes × UInt32 × UInt32)) (targetId : UInt16)
    (assembled : Bytes) : ImageDisplay :=
  let (pixels, width, height) := (decodeJpeg assembled).getD (assembled, 640, 480)
  { targetId, pixels, width, height }

/-- `handle_image_shard` before each of its locked sections, and the decode task it spawns. -/
inductive ImageTask where
  | spawned (shard : ImageShard)
  | fetching (targetId : UInt16)
  | progress (rx : ImageRxProgress)
  | decoding (targetId : UInt16) (assembled : Bytes)
  deriving DecidableEq

namespace ImageTask

def next (decodeJpeg : Bytes → Option (Bytes × UInt32 × UInt32)) (t : ImageTask)
    (s : ImageShared) : ImageShared × List ImageTask :=
  match t with
  | spawned shard =>
    let (cache, completed) := s.cache.insertShard shard
    let blocksDone := cache.blocksAssembled shard.targetId
    let rest :=
      if completed then fetching shard.targetId
      else progress ⟨shard.targetId, blocksDone, max shard.totalBlocks 1⟩
    ({ s with cache := cache }, [rest])
  | fetching targetId =>
    match s.cache.getComplete targetId with
    | some assembled => (s, [decoding targetId assembled])
    | none => (s, [])
  | progress rx => ({ s with imageRx := some rx }, [])
  | decoding targetId assembled =>
    let image := decoded decodeJpeg targetId assembled
    let app := s.app.pushLog
      s!"[IMG] Image for target {targetId} ready ({image.width}×{image.height})"
    ({ s with app := app, image := some image, imageRx := none }, [])

def willShow : ImageTask → Bool
  | fetching _ => true
  | decoding _ _ => true
  | _ => false

def isProgress : ImageTask → Bool
  | progress _ => true
  | _ => false

def shard? : ImageTask → Option ImageShard
  | spawned shard => some shard
  | _ => none

end ImageTask

abbrev ImagePool := TaskPool ImageShared ImageTask

/-- Shards of one target that make up an image in whatever order they come. -/
structure Transfer (targetId : UInt16) (imageBytes : Bytes) where
  shards : List ImageShard
  target : ∀ shard ∈ shards, shard.targetId = targetId
  completes : ∀ order : List ImageShard, order.Perm shards →
    (ImageCache.new.insertAll order).getComplete targetId = some imageBytes

namespace Transfer
variable {targetId : UInt16} {imageBytes : Bytes} (tr : Transfer targetId imageBytes)
variable (decodeJpeg : Bytes → Option (Bytes × UInt32 × UInt32))

def start (app : AppState) (image : Option ImageDisplay) (imageRx : Option ImageRxProgress) :
    ImagePool where
  shared := ⟨.new, app, image, imageRx⟩
  tasks := tr.shards.map .spawned

end Transfer

namespace ImagePool
variable {targetId : UInt16} {imageBytes : Bytes}
variable (decodeJpeg : Bytes → Option (Bytes × UInt32 × UInt32))

def step (pool : ImagePool) (i : ℕ) : Option ImagePool :=
  TaskPool.step (ImageTask.next decodeJpeg) pool i

def pending (targetId : UInt16) (pool : ImagePool) : Bool :=
  (pool.shared.cache.getComplete targetId).isNone || pool.tasks.any ImageTask.willShow

/-- The step would write the progress of an image that is shown already. -/
def late (targetId : UInt16) (pool : ImagePool) (i : ℕ) : Bool :=
  pool.tasks[i]?.any ImageTask.isProgress && !pool.pending targetId

def timelyStep (targetId : UInt16) (pool : ImagePool) (i : ℕ) : Option ImagePool :=
  if pool.late targetId i then none else pool.step decodeJpeg i

end ImagePool

/-- What the tasks of a transfer have done to the cache, and what they hold of it. -/
structure Transfer.Shape {targetId : UInt16} {imageBytes : Bytes}
    (tr : Transfer targetId imageBytes) (s : ImageShared) (tasks : List ImageTask) : Prop where
  order : ∃ order, s.cache = ImageCache.new.insertAll order ∧
    (order ++ tasks.filterMap ImageTask.shard?).Perm tr.shards
  few : tasks.countP ImageTask.willShow ≤ 1
  incomplete : s.cache.getComplete targetId = none → tasks.countP ImageTask.willShow = 0
  fetching : ∀ t, .fetching t ∈ tasks → t = targetId
  decoding : ∀ t assembled, .decoding t assembled ∈ tasks →
    t = targetId ∧ s.cache.getComplete targetId = some assembled

namespace Transfer.Shape
variable {targetId : UInt16} {imageBytes : Bytes} {tr : Transfer targetId imageBytes}
variable {decodeJpeg : Bytes → Option (Bytes × UInt32 × UInt32)}
variable {s : ImageShared} {tasks rest : List ImageTask} {t : ImageTask} {shard : ImageShard}

theorem perm (hperm : tasks.Perm rest) (h : tr.Shape s tasks) : tr.Shape s rest where
  order := by
    obtain ⟨order, hcache, horder⟩ := h.order
    exact ⟨order, hcache, ((hperm.symm.filterMap _).append_left _).trans horder⟩
  few := (hperm.countP_eq _).symm.trans_le h.few
  incomplete hnone := (hperm.countP_eq _).symm.trans (h.incomplete hnone)
  fetching t ht := h.fetching t (hperm.mem_iff.2 ht)
  decoding t assembled ht := h.decoding t assembled (hperm.mem_iff.2 ht)

theorem start (tr : Transfer targetId imageBytes) (app : AppState) (image : Option ImageDisplay)
    (imageRx : Option ImageRxProgress) :
    tr.Shape (tr.start app image imageRx).shared (tr.start app image imageRx).tasks where
  order := by
    refine ⟨[], rfl, ?_⟩
    have hshards : (tr.shards.map ImageTask.spawned).filterMap ImageTask.shard? = tr.shards := by
      rw [List.filterMap_map]
      exact List.filterMap_some
    exact .of_eq hshards
  few := by
    rw [Transfer.start, List.countP_map]
    exact (List.countP_eq_zero.2 fun _ _ => Bool.false_ne_true).trans_le (Nat.zero_le 1)
  incomplete _ := by
    rw [Transfer.start, List.countP_map]
    exact List.countP_eq_zero.2 fun _ _ => Bool.false_ne_true
  fetching t ht := by
    obtain ⟨_, -, heq⟩ := List.mem_map.1 ht
    cases heq
  decoding t assembled ht := by
    obtain ⟨_, -, heq⟩ := List.mem_map.1 ht
    cases heq

theorem targetId_eq (h : tr.Shape s (.spawned shard :: rest)) : shard.targetId = targetId := by
  obtain ⟨order, -, horder⟩ := h.order
  exact tr.target shard (horder.subset (List.mem_append_right _ (.head _)))

theorem tail (h : tr.Shape s (t :: rest)) (hshard : t.shard? = none)
    (hcache : s'.cache = s.cache) : tr.Shape s' rest := by
  have hle : rest.countP ImageTask.willShow ≤ (t :: rest).countP ImageTask.willShow :=
    (List.sublist_cons_self t rest).countP_le
  constructor
  case order =>
    obtain ⟨order, heq, hperm⟩ := h.order
    rw [List.filterMap_cons, hshard] at hperm
    exact ⟨order, hcache.trans heq, hperm⟩
  case few => exact hle.trans h.few
  case incomplete =>
    intro hnone
    rw [hcache] at hnone
    exact Nat.le_zero.1 (hle.trans_eq (h.incomplete hnone))
  case fetching => exact fun t ht => h.fetching t (.tail _ ht)
  case decoding =>
    intro t a ht
    rw [hcache]
    exact h.decoding t a (.tail _ ht)

theorem cons (h : tr.Shape s rest) (hshard : t.shard? = none)
    (hshow : t.willShow = true → s.cache.getComplete targetId ≠ none ∧
      rest.countP ImageTask.willShow = 0)
    (hfetching : ∀ T, t = .fetching T → T = targetId)
    (hdecoding : ∀ T assembled, t = .decoding T assembled →
      T = targetId ∧ s.cache.getComplete targetId = some assembled) :
    tr.Shape s (t :: rest) := by
  constructor
  case order =>
    obtain ⟨order, hcache, hperm⟩ := h.order
    refine ⟨order, hcache, ?_⟩
    rwa [List.filterMap_cons_none hshard]
  case few =>
    by_cases ht : t.willShow = true
    · rw [List.countP_cons_of_pos ht, (hshow ht).2]
    · rw [List.countP_cons_of_neg ht]
      exact h.few
  case incomplete =>
    intro hnone
    have hnot : ¬ t.willShow = true := fun ht => (hshow ht).1 hnone
    rw [List.countP_cons_of_neg hnot]
    exact h.incomplete hnone
  case fetching =>
    intro T hmem
    rcases List.mem_cons.1 hmem with heq | hmem
    · exact hfetching T heq.symm
    · exact h.fetching T hmem
  case decoding =>
    intro T assembled hmem
    rcases List.mem_cons.1 hmem with heq | hmem
    · exact hdecoding T assembled heq.symm
    · exact h.decoding T assembled hmem

theorem countP_spawned : (ImageTask.spawned shard :: rest).countP ImageTask.willShow =
    rest.countP ImageTask.willShow := List.countP_cons_of_neg Bool.false_ne_true

theorem inserted (h : tr.Shape s (.spawned shard :: rest)) :
    tr.Shape { s with cache := (s.cache.insertShard shard).1 } rest := by
  constructor
  case order =>
    obtain ⟨order, hcache, horder⟩ := h.order
    refine ⟨order ++ [shard], ?_, ?_⟩
    · rw [ImageCache.insertAll_concat, hcache]
    · rw [List.append_assoc]
      exact horder
  case few => exact countP_spawned.symm.trans_le h.few
  case incomplete =>
    intro hafter
    rw [← countP_spawned]
    apply h.incomplete
    cases hbefore : s.cache.getComplete targetId with
    | none => rfl
    | some a => cases hafter.symm.trans (ImageCache.insertShard_getComplete_of_some hbefore)
  case fetching => exact fun t ht => h.fetching t (.tail _ ht)
  case decoding =>
    intro t assembled ht
    obtain ⟨heq, hget⟩ := h.decoding t assembled (.tail _ ht)
    exact ⟨heq, ImageCache.insertShard_getComplete_of_some hget⟩

theorem next_spawned (h : tr.Shape s (.spawned shard :: rest)) :
    tr.Shape (ImageTask.next decodeJpeg (.spawned shard) s).1
      ((ImageTask.next decodeJpeg (.spawned shard) s).2 ++ rest) := by
  have hsnd := ImageCache.insertShard_snd_iff s.cache shard targetId
  rw [and_iff_right h.targetId_eq] at hsnd
  cases hdone : (s.cache.insertShard shard).2 with
  | true =>
    simp only [ImageTask.next, hdone, if_true, List.singleton_append]
    obtain ⟨hbefore, hafter⟩ := hsnd.1 hdone
    apply h.inserted.cons rfl
    · intro _
      exact ⟨Option.isSome_iff_ne_none.1 hafter, countP_spawned.symm.trans (h.incomplete hbefore)⟩
    · intro T heq
      cases heq
      exact h.targetId_eq
    · nofun
  | false =>
    simp only [ImageTask.next, hdone, List.singleton_append]
    apply h.inserted.cons rfl <;> nofun

theorem next_fetching {T : UInt16}
    (decodeJpeg : Bytes → Option (Bytes × UInt32 × UInt32))
    (h : tr.Shape s (.fetching T :: rest)) : ∃ assembled,
    s.cache.getComplete targetId = some assembled ∧
      ImageTask.next decodeJpeg (.fetching T) s = (s, [.decoding targetId assembled]) ∧
      tr.Shape s (.decoding targetId assembled :: rest) := by
  obtain rfl := h.fetching T (.head _)
  have hcount : (ImageTask.fetching T :: rest).countP ImageTask.willShow =
      rest.countP ImageTask.willShow + 1 := List.countP_cons_of_pos rfl
  have hfew := h.few
  have hnone := h.incomplete
  rw [hcount] at hfew hnone
  cases hget : s.cache.getComplete T with
  | none => cases hnone hget
  | some assembled =>
    refine ⟨assembled, rfl, ?_, ?_⟩
    · simp only [ImageTask.next, hget]
    apply (h.tail rfl rfl).cons rfl
    · intro _
      rw [hget]
      exact ⟨Option.some_ne_none assembled, Nat.le_zero.1 (Nat.le_of_succ_le_succ hfew)⟩
    · nofun
    · intro T' a heq
      cases heq
      exact ⟨rfl, hget⟩

theorem next (h : tr.Shape s (t :: rest)) : tr.Shape (ImageTask.next decodeJpeg t s).1
    ((ImageTask.next decodeJpeg t s).2 ++ rest) := by
  cases t with
  | spawned shard => exact h.next_spawned
  | fetching T =>
    obtain ⟨assembled, -, hnext, hshape⟩ := h.next_fetching decodeJpeg
    rw [hnext]
    exact hshape
  | progress rx => exact h.tail rfl rfl
  | decoding T assembled => exact h.tail rfl rfl

theorem of_run {pool : ImagePool} {events : List ℕ} {app : AppState} {image : Option ImageDisplay}
    {imageRx : Option ImageRxProgress} (hrun : events.foldlM (ImagePool.step decodeJpeg)
    (tr.start app image imageRx) = some pool) : tr.Shape pool.shared pool.tasks :=
  TaskPool.invariant (fun _ _ _ => perm) (fun _ _ _ => next) ⟨events, hrun⟩
    (start tr app image imageRx)

end Transfer.Shape

namespace ImagePool
variable {targetId : UInt16} {imageBytes : Bytes} {tr : Transfer targetId imageBytes}
variable {decodeJpeg : Bytes → Option (Bytes × UInt32 × UInt32)} {pool pool' : ImagePool}

def Shows (decodeJpeg : Bytes → Option (Bytes × UInt32 × UInt32)) (targetId : UInt16)
    (pool : ImagePool) : Prop :=
  ∃ assembled, pool.shared.cache.getComplete targetId = some assembled ∧
    pool.shared.image = some (decoded decodeJpeg targetId assembled)

inductive Effect (decodeJpeg : Bytes → Option (Bytes × UInt32 × UInt32)) (targetId : UInt16)
    (pool pool' : ImagePool) (i : ℕ) : Prop where
  | shows (hpending : pool.pending targetId = true) (hpending' : pool'.pending targetId = false)
      (hlate : pool.late targetId i = false) (himage : pool'.Shows decodeJpeg targetId)
      (hrx : pool'.shared.imageRx = none)
  | writes (hpending : pool'.pending targetId = pool.pending targetId)
      (hlate : pool.late targetId i = !pool.pending targetId)
      (himage : pool.Shows decodeJpeg targetId → pool'.Shows decodeJpeg targetId)
      (hrx : pool'.shared.imageRx ≠ none)
  | other (hpending : pool'.pending targetId = pool.pending targetId)
      (hlate : pool.late targetId i = false)
      (himage : pool.Shows decodeJpeg targetId → pool'.Shows decodeJpeg targetId)
      (hrx : pool'.shared.imageRx = pool.shared.imageRx)

theorem late_of_get (ht : pool.tasks[i]? = some t) :
    pool.late targetId i = (t.isProgress && !pool.pending targetId) := by
  rw [late, ht, Option.any_some]

theorem pending_eq (htasks : pool.tasks = l ++ t :: r) : pool.pending targetId =
    ((pool.shared.cache.getComplete targetId).isNone ||
      (t.willShow || (l ++ r).any ImageTask.willShow)) := by
  rw [pending, htasks, List.any_append, List.any_cons, List.any_append,
    Bool.or_left_comm (l.any ImageTask.willShow)]

theorem pending_of_willShow (htasks : pool.tasks = l ++ t :: r) (ht : t.willShow = true) :
    pool.pending targetId = true := by
  rw [pending_eq htasks, ht, Bool.true_or, Bool.or_true]

theorem effect_spawned (h : tr.Shape pool.shared (.spawned shard :: rest))
    (htasks : pool.tasks = l ++ .spawned shard :: r)
    (hshared' : pool'.shared = (ImageTask.next decodeJpeg (.spawned shard) pool.shared).1)
    (htasks' : pool'.tasks =
      l ++ (ImageTask.next decodeJpeg (.spawned shard) pool.shared).2 ++ r) :
    pool'.pending targetId = pool.pending targetId := by
  have hsnd := ImageCache.insertShard_snd_iff pool.shared.cache shard targetId
  rw [and_iff_right h.targetId_eq] at hsnd
  have hcache : pool'.shared.cache = (pool.shared.cache.insertShard shard).1 :=
    congrArg ImageShared.cache hshared'
  rw [List.append_assoc] at htasks'
  cases hdone : (pool.shared.cache.insertShard shard).2 with
  | true =>
    simp only [ImageTask.next, hdone, if_true, List.singleton_append] at htasks'
    rw [pending_of_willShow htasks' rfl, pending, (hsnd.1 hdone).1, Option.isNone_none,
      Bool.true_or]
  | false =>
    simp only [ImageTask.next, hdone, List.singleton_append] at htasks'
    have hnone : (pool'.shared.cache.getComplete targetId).isNone =
        (pool.shared.cache.getComplete targetId).isNone := by
      rw [hcache]
      cases hget : pool.shared.cache.getComplete targetId with
      | some assembled => rw [ImageCache.insertShard_getComplete_of_some hget]
      | none =>
        rw [hget, hdone] at hsnd
        cases hafter : (pool.shared.cache.insertShard shard).1.getComplete targetId with
        | none => rfl
        | some assembled =>
          rw [hafter] at hsnd
          cases hsnd.2 ⟨rfl, rfl⟩
    rw [pending_eq htasks', pending_eq htasks, hnone]
    rfl

theorem effect (h : tr.Shape pool.shared pool.tasks)
    (hstep : pool.step decodeJpeg i = some pool') : Effect decodeJpeg targetId pool pool' i := by
  obtain ⟨l, t, r, htasks, rfl, hshared', htasks'⟩ := TaskPool.step_cases hstep
  have hget : pool.tasks[l.length]? = some t := by
    rw [htasks, List.getElem?_append_right le_rfl, Nat.sub_self, List.getElem?_cons_zero]
  have hlate : pool.late targetId l.length = (t.isProgress && !pool.pending targetId) :=
    late_of_get hget
  have hfront := h.perm ((List.Perm.of_eq htasks).trans List.perm_middle)
  cases t with
  | spawned shard =>
    apply Effect.other (effect_spawned hfront htasks hshared' htasks') hlate
    · rintro ⟨assembled, hcomplete, himage⟩
      rw [Shows, hshared']
      exact ⟨assembled, ImageCache.insertShard_getComplete_of_some hcomplete, himage⟩
    · rw [hshared']
      rfl
  | fetching T =>
    obtain ⟨assembled, -, hnext, -⟩ := hfront.next_fetching decodeJpeg
    rw [hnext] at hshared' htasks'
    rw [List.append_assoc] at htasks'
    apply Effect.other _ hlate
    · rw [Shows, Shows, hshared']
      exact id
    · rw [hshared']
    · rw [pending_of_willShow htasks rfl, pending_of_willShow htasks' rfl]
  | progress rx =>
    have hrest : pool'.tasks = l ++ r := htasks'.trans (congrArg (· ++ r) (List.append_nil l))
    have hsame : pool'.pending targetId = pool.pending targetId := by
      rw [pending_eq htasks, pending, hshared', hrest]
      rfl
    apply Effect.writes hsame hlate
    · rw [Shows, Shows, hshared']
      exact id
    · rw [hshared']
      exact Option.some_ne_none rx
  | decoding T assembled =>
    obtain ⟨rfl, hcomplete⟩ := hfront.decoding T assembled (.head _)
    have hfew := hfront.few
    rw [List.countP_cons_of_pos rfl] at hfew
    have hnone : (l ++ r).any ImageTask.willShow = false := by
      rw [List.any_eq_false]
      exact List.countP_eq_zero.1 (Nat.le_zero.1 (Nat.le_of_succ_le_succ hfew))
    have hrest : pool'.tasks = l ++ r := htasks'.trans (congrArg (· ++ r) (List.append_nil l))
    apply Effect.shows (pending_of_willShow htasks rfl) _ hlate
    · rw [Shows, hshared']
      exact ⟨assembled, hcomplete, rfl⟩
    · rw [hshared']
      rfl
    · rw [pending, hshared', hrest, hnone, Bool.or_false]
      exact Option.isNone_eq_false_iff.2 (Option.isSome_of_eq_some hcomplete)

theorem timely_concat {events : List ℕ} {start : ImagePool}
    (hrun : events.foldlM (step decodeJpeg) start = some pool)
    (hstep : pool.step decodeJpeg i = some pool') :
    (events ++ [i]).foldlM (timelyStep decodeJpeg targetId) start = some pool' ↔
      events.foldlM (timelyStep decodeJpeg targetId) start = some pool ∧
        pool.late targetId i = false := by
  have hsub : ∀ p i p', timelyStep decodeJpeg targetId p i = some p' →
      step decodeJpeg p i = some p' := fun p i p' h => (Option.ite_none_left_eq_some.1 h).2
  rw [foldlM_concat]
  constructor
  · rintro ⟨mid, hmid, hlast⟩
    cases (foldlM_of_guarded hsub hmid).symm.trans hrun
    exact ⟨hmid, Bool.not_eq_true _ ▸ (Option.ite_none_left_eq_some.1 hlast).1⟩
  · rintro ⟨hmid, hlate⟩
    exact ⟨pool, hmid, Option.ite_none_left_eq_some.2 ⟨Bool.not_eq_true _ ▸ hlate, hstep⟩⟩

/-- Until the image is shown no step is late, and from then on the indicator is off as long as
none is. -/
theorem run_timely {events : List ℕ} {app : AppState} {image : Option ImageDisplay}
    {imageRx : Option ImageRxProgress}
    (hrun : events.foldlM (step decodeJpeg) (tr.start app image imageRx) = some pool) :
    (pool.pending targetId = true → events.foldlM (timelyStep decodeJpeg targetId)
      (tr.start app image imageRx) = some pool) ∧
    (pool.pending targetId = false → pool.Shows decodeJpeg targetId ∧
      (pool.shared.imageRx = none ↔ events.foldlM (timelyStep decodeJpeg targetId)
        (tr.start app image imageRx) = some pool)) := by
  induction events using List.reverseRecOn generalizing pool with
  | nil =>
    cases hrun
    exact ⟨fun _ => rfl, fun hnot => by cases hnot⟩
  | append_singleton events i ih =>
    obtain ⟨mid, hmid, hstep⟩ := foldlM_concat.1 hrun
    obtain ⟨hwait, hshown⟩ := ih hmid
    have htimely : (events ++ [i]).foldlM (timelyStep decodeJpeg targetId)
        (tr.start app image imageRx) = some pool ↔ _ := timely_concat hmid hstep
    cases effect (.of_run hmid) hstep with
    | shows hpending hpending' hlate himage hrx =>
      constructor
      · intro hnot
        cases hpending'.symm.trans hnot
      · exact fun _ => ⟨himage, iff_of_true hrx (htimely.2 ⟨hwait hpending, hlate⟩)⟩
    | writes hpending hlate himage hrx =>
      rw [hpending]
      constructor
      · intro hp
        rw [hp] at hlate
        exact htimely.2 ⟨hwait hp, hlate⟩
      · intro hp
        refine ⟨himage (hshown hp).1, iff_of_false hrx fun hall => ?_⟩
        rw [hp, (htimely.1 hall).2] at hlate
        cases hlate
    | other hpending hlate himage hrx =>
      rw [hpending]
      constructor
      · exact fun hp => htimely.2 ⟨hwait hp, hlate⟩
      · intro hp
        refine ⟨himage (hshown hp).1, ?_⟩
        rw [hrx, htimely, (hshown hp).2]
        exact (and_iff_left hlate).symm

/-- The image is shown and the receive indicator is off. -/
def Settled (decodeJpeg : Bytes → Option (Bytes × UInt32 × UInt32)) (targetId : UInt16)
    (imageBytes : Bytes) (pool : ImagePool) : Prop :=
  pool.shared.image = some (decoded decodeJpeg targetId imageBytes) ∧ pool.shared.imageRx = none

theorem settled_iff_timely {events : List ℕ} {app : AppState} {image : Option ImageDisplay}
    {imageRx : Option ImageRxProgress}
    (hrun : events.foldlM (step decodeJpeg) (tr.start app image imageRx) = some pool)
    (hdone : pool.tasks = []) : pool.Settled decodeJpeg targetId imageBytes ↔
      events.foldlM (timelyStep decodeJpeg targetId) (tr.start app image imageRx) = some pool := by
  obtain ⟨order, hcache, horder⟩ := (Transfer.Shape.of_run hrun).order
  rw [hdone, List.filterMap_nil, List.append_nil] at horder
  have hcomplete : pool.shared.cache.getComplete targetId = some imageBytes := by
    rw [hcache]
    exact tr.completes order horder
  have hpending : pool.pending targetId = false := by
    rw [pending, hdone, hcomplete]
    rfl
  obtain ⟨⟨assembled, hget, himage⟩, htimely⟩ := (run_timely hrun).2 hpending
  cases hget.symm.trans hcomplete
  rw [Settled, and_iff_right himage, htimely]

end ImagePool

end TacticalMesh
