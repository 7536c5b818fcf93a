import TacticalMesh.BoardContents
import TacticalMesh.ReportOrder
import TacticalMesh.TaskPool

namespace TacticalMesh
set_option autoImplicit true

/-- A message whose handler merges into the board; the clock of a command is read once. -/
inductive BoardOp where
  | detection (td : TargetDetection)
  | bda (d : Bda)
  | command (cmd : Command) (now : ℕ)
  deriving DecidableEq

namespace BoardOp

def targetId : BoardOp → UInt16
  | .detection td => td.targetId
  | .bda d => d.targetId
  | .command cmd _ => cmd.targetId

def run (b : TargetBoard) : BoardOp → TargetBoard
  | .detection td => handleTargetDetection td b
  | .bda d => handleBda d b
  | .command cmd now => handleCommand cmd now b

def target (pos : Position) : BoardOp → Target
  | .detection td => td.target
  | .bda d => d.target pos
  | .command cmd now => cmd.target pos now

def key (op : BoardOp) : ℕ ×ₗ ℕ := (op.target unknownPosition).key

@[simp] theorem target_id (op : BoardOp) (pos : Position) : (op.target pos).id = op.targetId := by
  cases op <;> rfl

@[simp] theorem target_key (op : BoardOp) (pos : Position) : (op.target pos).key = op.key := by
  cases op <;> rfl

theorem run_eq (b : TargetBoard) (op : BoardOp) :
    op.run b = b.merge ⟨op.target (b.position op.targetId)⟩ := by
  cases op <;> rfl

end BoardOp

/-- A handler that has been spawned, or that has released the read lock. -/
inductive BoardTask where
  | spawned (op : BoardOp)
  | holding (op : BoardOp) (pos : Position)
  deriving DecidableEq

namespace BoardTask

def op : BoardTask → BoardOp
  | spawned op => op
  | holding op _ => op

/-- One locked section: a detection merges, the others read first and merge later. -/
def next (t : BoardTask) (b : TargetBoard) : TargetBoard × List BoardTask :=
  match t with
  | spawned (.detection td) => (handleTargetDetection td b, [])
  | spawned (.bda d) => (b, [holding (.bda d) (b.position d.targetId)])
  | spawned (.command cmd now) =>
    (b, [holding (.command cmd now) (b.position cmd.targetId)])
  | holding op pos => (b.merge ⟨op.target pos⟩, [])

end BoardTask

namespace TargetBoard

def spawnAll (b : TargetBoard) (ops : List BoardOp) : TaskPool TargetBoard BoardTask where
  shared := b
  tasks := ops.map .spawned

def runAll (b : TargetBoard) (ops : List BoardOp) : TargetBoard := ops.foldl BoardOp.run b

variable {b b₀ : TargetBoard} {id : UInt16} {ops merged : List BoardOp} {pos : Position}

theorem position_of_get (h : b.get id = some t) : b.position id = t.position := by
  rw [position, h]
  rfl

/-- A position that the board shows after one of `merged` has been run alone. -/
def Shown (b₀ : TargetBoard) (merged : List BoardOp) (id : UInt16) (pos : Position) : Prop :=
  pos = b₀.position id ∨
    ∃ td, .detection td ∈ merged ∧ td.targetId = id ∧ pos = td.position ∧
      ∀ t ∈ b₀.get id, t.key < td.target.key

theorem Shown.mono (h : Shown b₀ merged id pos) (hsub : merged ⊆ ops) : Shown b₀ ops id pos := by
  rcases h with h | ⟨td, htd, hrest⟩
  · exact .inl h
  · exact .inr ⟨td, hsub htd, hrest⟩

/-- The entry of a target is the first one, or that of the greatest operation with a position
that was shown by operations less than it. -/
def Settled (b₀ : TargetBoard) (merged : List BoardOp) (id : UInt16) (entry : Option Target) :
    Prop :=
  entry = b₀.get id ∧ (∀ op ∈ merged, op.targetId = id → ∃ t ∈ entry, op.key ≤ t.key) ∨
    ∃ w ∈ merged, ∃ pos, w.targetId = id ∧ entry = some (w.target pos) ∧
      (∀ t ∈ b₀.get id, t.key < w.key) ∧
      (∀ op ∈ merged, op.targetId = id → op.key ≤ w.key) ∧
      Shown b₀ (merged.filter fun op => op.key < w.key) id pos

theorem Settled.le (h : Settled b₀ merged id entry) (hop : op ∈ merged) (hid : op.targetId = id) :
    ∃ t ∈ entry, op.key ≤ t.key := by
  rcases h with ⟨-, hle⟩ | ⟨w, -, pos, -, rfl, -, hle, -⟩
  · exact hle op hop hid
  · exact ⟨w.target pos, rfl, (hle op hop hid).trans_eq (w.target_key pos).symm⟩

theorem Settled.init_le (h : Settled b₀ merged id entry) (ht : t ∈ b₀.get id) :
    ∃ t' ∈ entry, t.key ≤ t'.key := by
  rcases h with ⟨rfl, -⟩ | ⟨w, -, pos, -, rfl, hlt, -, -⟩
  · exact ⟨t, ht, le_rfl⟩
  · exact ⟨w.target pos, rfl, (hlt t ht).le.trans_eq (w.target_key pos).symm⟩

theorem Settled.shown (h : Settled b₀ merged id (b.get id)) :
    Shown b₀ merged id (b.position id) := by
  rcases h with ⟨hentry, -⟩ | ⟨w, hw, pos, hid, hentry, hlt, -, hshown⟩
  · rw [position, hentry]
    exact .inl rfl
  · rw [position_of_get hentry]
    cases w with
    | detection td => exact .inr ⟨td, hw, hid, rfl, hlt⟩
    | bda d => exact hshown.mono (List.filter_sublist ..).subset
    | command cmd now => exact hshown.mono (List.filter_sublist ..).subset

theorem Settled.cons (h : Settled b₀ merged id entry)
    (hle : op.targetId = id → ∃ t ∈ entry, op.key ≤ t.key) :
    Settled b₀ (op :: merged) id entry := by
  rcases h with ⟨hentry, hall⟩ | ⟨w, hw, pos, hid, hentry, hlt, hall, hshown⟩
  · refine .inl ⟨hentry, ?_⟩
    intro op' hop' hid'
    rcases List.mem_cons.1 hop' with rfl | hop'
    · exact hle hid'
    · exact hall op' hop' hid'
  · refine .inr ⟨w, .tail _ hw, pos, hid, hentry, hlt, ?_, hshown.mono ?_⟩
    · intro op' hop' hid'
      rcases List.mem_cons.1 hop' with rfl | hop'
      · obtain ⟨t, ht, hkey⟩ := hle hid'
        rw [hentry, Option.mem_some_iff] at ht
        rwa [← ht, w.target_key] at hkey
      · exact hall op' hop' hid'
    · exact (List.sublist_cons_self op merged).filter _ |>.subset

/-- A merge of what was read at any earlier time keeps every entry settled. -/
theorem Settled.merge (h : Settled b₀ merged id (b.get id)) (op : BoardOp)
    (hshown : op.targetId = id → Shown b₀ merged id pos) :
    Settled b₀ (op :: merged) id ((b.merge ⟨op.target pos⟩).get id) := by
  simp only [merge_get, BoardOp.target_id]
  split
  · rename_i hid
    rcases keepGreater_cases Target.key (b.get id) (op.target pos) with ⟨hnew, hlt⟩ | ⟨hold, hle⟩
    · simp only [BoardOp.target_key] at hlt
      rw [hnew]
      have hmerged : ∀ op' ∈ merged, op'.targetId = id → op'.key < op.key := by
        intro op' hop' hid'
        obtain ⟨t, ht, hkey⟩ := h.le hop' hid'
        exact hkey.trans_lt (hlt t ht)
      refine .inr ⟨op, .head _, pos, hid, rfl, ?_, ?_, ?_⟩
      · intro t ht
        obtain ⟨t', ht', hkey⟩ := h.init_le ht
        exact hkey.trans_lt (hlt t' ht')
      · intro op' hop' hid'
        rcases List.mem_cons.1 hop' with rfl | hop'
        · exact le_rfl
        · exact (hmerged op' hop' hid').le
      · -- a detection that showed the position is less than the entry, so than `op`
        rcases hshown hid with hpos | ⟨td, htd, htid, hpos, hinit⟩
        · exact .inl hpos
        · refine .inr ⟨td, ?_, htid, hpos, hinit⟩
          apply List.mem_filter.2
          exact ⟨.tail _ htd, by simpa using hmerged _ htd htid⟩
    · rw [hold]
      apply h.cons
      intro _
      simpa only [BoardOp.target_key] using hle
  · rename_i hid
    exact h.cons fun hid' => absurd hid' hid

def runEntry (entry : Option Target) (op : BoardOp) : Option Target :=
  keepGreater Target.key entry (op.target ((entry.map Target.position).getD unknownPosition))

theorem runAll_get (b : TargetBoard) (ops : List BoardOp) (id : UInt16) :
    (b.runAll ops).get id =
      (ops.filter fun op => op.targetId = id).foldl runEntry (b.get id) := by
  induction ops generalizing b with
  | nil => rfl
  | cons op ops ih =>
    have hrun : b.runAll (op :: ops) = (op.run b).runAll ops := rfl
    rw [hrun, ih, op.run_eq, merge_get, op.target_id]
    by_cases hid : op.targetId = id
    · subst hid
      simp only [List.filter_cons, decide_true, ↓reduceIte, List.foldl_cons]
      rfl
    · simp only [List.filter_cons, hid, decide_false, ↓reduceIte, Bool.false_eq_true]

theorem foldl_runEntry_of_le (ops : List BoardOp)
    (h : ∀ op ∈ ops, ∃ t ∈ entry, op.key ≤ t.key) : ops.foldl runEntry entry = entry := by
  induction ops with
  | nil => rfl
  | cons op ops ih =>
    obtain ⟨t, ht, hle⟩ := h op (.head _)
    cases ht
    have hkeep : runEntry (some t) op = some t := by
      rw [runEntry, keepGreater, if_neg]
      exact not_lt_of_ge ((op.target_key _).trans_le hle)
    rw [List.foldl_cons, hkeep]
    exact ih fun op' hop' => h op' (.tail _ hop')

theorem foldl_runEntry_copies {op : BoardOp} (hmem : op ∈ ops) (hcopies : ∀ op' ∈ ops, op' = op)
    (hlt : ∀ t ∈ entry, t.key < op.key) :
    ops.foldl runEntry entry =
      some (op.target ((entry.map Target.position).getD unknownPosition)) := by
  cases ops with
  | nil => cases hmem
  | cons op' ops =>
    cases hcopies op' (.head _)
    have htake : runEntry entry op =
        some (op.target ((entry.map Target.position).getD unknownPosition)) := by
      apply keepGreater_of_lt
      simpa only [BoardOp.target_key] using hlt
    rw [List.foldl_cons, htake]
    apply foldl_runEntry_of_le
    intro op' hop'
    cases hcopies op' (.tail _ hop')
    exact ⟨_, rfl, (op.target_key _).ge⟩

/-- The copies of `lead` first, then those of `win`, then the others. -/
def arrange (lead win : BoardOp → Bool) (ops : List BoardOp) : List BoardOp :=
  ops.filter lead ++
    ((ops.filter (! lead ·)).filter win ++ (ops.filter (! lead ·)).filter (! win ·))

theorem arrange_perm (lead win : BoardOp → Bool) (ops : List BoardOp) :
    (arrange lead win ops).Perm ops :=
  ((List.filter_append_perm win _).append_left _).trans (List.filter_append_perm lead ops)

theorem arrange_filter (lead win : UInt16 → BoardOp → Bool) (ops : List BoardOp) (id : UInt16) :
    ((arrange (fun op => lead op.targetId op) (fun op => win op.targetId op) ops).filter
      fun op => op.targetId = id) =
      arrange (lead id) (win id) (ops.filter fun op => op.targetId = id) := by
  simp only [arrange, List.filter_append, List.filter_filter]
  congr 1
  · apply List.filter_congr
    intro op _
    by_cases hid : op.targetId = id <;> simp [hid]
  · congr 1
    · apply List.filter_congr
      intro op _
      by_cases hid : op.targetId = id <;> simp [hid]
    · apply List.filter_congr
      intro op _
      by_cases hid : op.targetId = id <;> simp [hid]

theorem foldl_arrange_first {w : BoardOp} (hw : w ∈ ops) (hlt : ∀ t ∈ entry, t.key < w.key)
    (hle : ∀ op ∈ ops, op.key ≤ w.key) :
    (arrange (fun _ => false) (fun op => op = w) ops).foldl runEntry entry =
      some (w.target ((entry.map Target.position).getD unknownPosition)) := by
  have hwin : (ops.filter fun op => op = w).foldl runEntry entry =
      some (w.target ((entry.map Target.position).getD unknownPosition)) := by
    apply foldl_runEntry_copies _ _ hlt
    · exact List.mem_filter.2 ⟨hw, by simp⟩
    · intro op hop
      simpa using (List.mem_filter.1 hop).2
  simp only [arrange, List.filter_false, Bool.not_false, List.filter_true, List.nil_append,
    List.foldl_append, hwin]
  apply foldl_runEntry_of_le
  intro op hop
  exact ⟨_, rfl, (hle op (List.filter_sublist.subset hop)).trans_eq (w.target_key _).symm⟩

theorem foldl_arrange_after {w : BoardOp} {td : TargetDetection} (hw : w ∈ ops)
    (htd : .detection td ∈ ops) (hless : td.target.key < w.key)
    (hinit : ∀ t ∈ entry, t.key < td.target.key) (hle : ∀ op ∈ ops, op.key ≤ w.key) :
    (arrange (fun op => op = .detection td) (fun op => op = w) ops).foldl runEntry entry =
      some (w.target td.position) := by
  have hne : w ≠ .detection td := by
    rintro rfl
    exact lt_irrefl _ hless
  have hlead : (ops.filter fun op => op = .detection td).foldl runEntry entry =
      some td.target := by
    apply @foldl_runEntry_copies _ _ (.detection td) _ _ hinit
    · exact List.mem_filter.2 ⟨htd, by simp⟩
    · intro op hop
      simpa using (List.mem_filter.1 hop).2
  have hwin : ((ops.filter fun op => ! decide (op = .detection td)).filter
      fun op => op = w).foldl runEntry (some td.target) = some (w.target td.position) := by
    apply foldl_runEntry_copies
    · exact List.mem_filter.2 ⟨List.mem_filter.2 ⟨hw, by simpa using hne⟩, by simp⟩
    · intro op hop
      simpa using (List.mem_filter.1 hop).2
    · intro t ht
      cases ht
      exact hless
  rw [arrange, List.foldl_append, hlead, List.foldl_append, hwin]
  apply foldl_runEntry_of_le
  intro op hop
  have hmem : op ∈ ops := (List.filter_sublist.trans List.filter_sublist).subset hop
  exact ⟨_, rfl, (hle op hmem).trans_eq (w.target_key _).symm⟩

theorem Settled.arrange (h : Settled b₀ merged id entry) :
    ∃ lead win, (arrange lead win (merged.filter fun op => op.targetId = id)).foldl runEntry
      (b₀.get id) = entry := by
  have hmem : ∀ op, op ∈ (merged.filter fun op => op.targetId = id) ↔
      op ∈ merged ∧ op.targetId = id := by
    intro op
    simp only [List.mem_filter, decide_eq_true_eq]
  generalize hops : (merged.filter fun op => op.targetId = id) = ops at hmem ⊢
  rcases h with ⟨rfl, hle⟩ | ⟨w, hw, pos, hid, rfl, hlt, hle, hshown⟩
  · refine ⟨fun _ => false, fun _ => false, ?_⟩
    apply foldl_runEntry_of_le
    intro op hop
    obtain ⟨hop, hid⟩ := (hmem op).1 ((arrange_perm _ _ ops).mem_iff.1 hop)
    exact hle op hop hid
  · have hw' : w ∈ ops := (hmem w).2 ⟨hw, hid⟩
    have hle' : ∀ op ∈ ops, op.key ≤ w.key := by
      intro op hop
      obtain ⟨hop, hid⟩ := (hmem op).1 hop
      exact hle op hop hid
    rcases hshown with rfl | ⟨td, htd, htid, rfl, hinit⟩
    · exact ⟨_, _, foldl_arrange_first hw' hlt hle'⟩
    · obtain ⟨htd, hless⟩ := List.mem_filter.1 htd
      exact ⟨_, _, foldl_arrange_after hw' ((hmem _).2 ⟨htd, htid⟩) (of_decide_eq_true hless)
        hinit hle'⟩

theorem serial_of_settled (h : ∀ id, Settled b₀ merged id (b.get id)) :
    ∃ serial : List BoardOp, serial.Perm merged ∧ b = b₀.runAll serial := by
  have hplan := fun id => (h id).arrange
  choose lead win hplan using hplan
  refine ⟨TargetBoard.arrange (fun op => lead op.targetId op) (fun op => win op.targetId op) merged,
    arrange_perm .., ?_⟩
  apply ext_get
  intro id
  rw [runAll_get, arrange_filter, hplan]

/-- Every operation has been merged or is still with a task, and what a task holds was shown. -/
structure Accounted (b₀ : TargetBoard) (ops : List BoardOp) (b : TargetBoard)
    (tasks : List BoardTask) (merged : List BoardOp) : Prop where
  perm : (merged ++ tasks.map BoardTask.op).Perm ops
  settled : ∀ id, Settled b₀ merged id (b.get id)
  shown : ∀ op pos, .holding op pos ∈ tasks → Shown b₀ merged op.targetId pos

theorem Accounted.merge (h : Accounted b₀ ops b (t :: rest) merged)
    (hshown : Shown b₀ merged t.op.targetId pos) :
    Accounted b₀ ops (b.merge ⟨t.op.target pos⟩) rest (t.op :: merged) := by
  constructor
  case perm => exact (List.perm_middle.symm.trans h.perm)
  case settled =>
    intro id
    apply (h.settled id).merge
    rintro rfl
    exact hshown
  case shown =>
    intro op pos hmem
    exact (h.shown op pos (.tail _ hmem)).mono (List.subset_cons_self ..)

theorem Accounted.hold (h : Accounted b₀ ops b (.spawned op :: rest) merged) :
    Accounted b₀ ops b (.holding op (b.position op.targetId) :: rest) merged := by
  constructor
  case perm => exact h.perm
  case settled => exact h.settled
  case shown =>
    intro op' pos hmem
    rcases List.mem_cons.1 hmem with heq | hmem
    · cases heq
      exact (h.settled op.targetId).shown
    · exact h.shown op' pos (.tail _ hmem)

theorem Accounted.next (h : Accounted b₀ ops b (t :: rest) merged) :
    ∃ merged', Accounted b₀ ops (t.next b).1 ((t.next b).2 ++ rest) merged' := by
  cases t with
  | holding op pos => exact ⟨_, h.merge (h.shown op pos (.head _))⟩
  | spawned op =>
    cases op with
    | detection td => exact ⟨_, h.merge (h.settled td.targetId).shown⟩
    | bda d => exact ⟨merged, h.hold⟩
    | command cmd now => exact ⟨merged, h.hold⟩

theorem accounted_spawnAll (b : TargetBoard) (ops : List BoardOp) :
    Accounted b ops b (ops.map .spawned) [] := by
  constructor
  case perm =>
    rw [List.nil_append, List.map_map]
    exact .of_eq (List.map_id' ops)
  case settled =>
    intro id
    exact .inl ⟨rfl, fun op hop => by cases hop⟩
  case shown =>
    intro op pos hmem
    obtain ⟨op', -, heq⟩ := List.mem_map.1 hmem
    cases heq

/-- Every interleaving of handlers that have all finished leaves the board of a serial run. -/
theorem handlers_serializable (b : TargetBoard) (ops : List BoardOp)
    (hrun : LeadsTo (TaskPool.step BoardTask.next) (spawnAll b ops) pool)
    (hdone : pool.tasks = []) :
    ∃ serial : List BoardOp, serial.Perm ops ∧ pool.shared = b.runAll serial := by
  have hinv : ∃ merged, Accounted b ops pool.shared pool.tasks merged := by
    apply TaskPool.invariant (P := fun s tasks => ∃ merged, Accounted b ops s tasks merged) _ _ hrun
    · exact ⟨[], accounted_spawnAll b ops⟩
    · rintro s l l' hperm ⟨merged, h⟩
      refine ⟨merged, ?_, h.settled, ?_⟩
      · exact ((hperm.symm.map _).append_left _).trans h.perm
      · intro op pos hmem
        exact h.shown op pos (hperm.mem_iff.2 hmem)
    · rintro s t rest ⟨merged, h⟩
      exact h.next
  obtain ⟨merged, h⟩ := hinv
  obtain ⟨serial, hserial, hboard⟩ := serial_of_settled h.settled
  refine ⟨serial, hserial.trans ?_, hboard⟩
  have hperm := h.perm
  rwa [hdone, List.map_nil, List.append_nil] at hperm

/-- The damage report reads before the detection is merged and writes after it. -/
theorem handlers_serializable_racing :
    ∃ pool, LeadsTo (TaskPool.step BoardTask.next)
        (spawnAll new [.bda strike, .detection sighting]) pool ∧
      pool.tasks = [] ∧ pool.shared.position 101 = unknownPosition ∧
      ∃ serial : List BoardOp, serial.Perm [.bda strike, .detection sighting] ∧
        pool.shared = new.runAll serial := by
  have hrun : LeadsTo (TaskPool.step BoardTask.next)
      (spawnAll new [.bda strike, .detection sighting])
      ⟨(handleTargetDetection sighting new).merge ⟨strike.target unknownPosition⟩, []⟩ :=
    ⟨[0, 1, 0], rfl⟩
  exact ⟨_, hrun, rfl, by decide, handlers_serializable _ _ hrun rfl⟩

end TargetBoard
end TacticalMesh
