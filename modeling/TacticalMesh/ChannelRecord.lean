import TacticalMesh.ChannelOrder
import TacticalMesh.TaskPool

namespace TacticalMesh
set_option autoImplicit true

namespace Shared
variable {crypto : Crypto}

/-- What `handle_jam_alert` does before it calls `handle_channel_hop`, and the hop it asks for. -/
def startJamAlert (ja : JamAlert) (s : Shared crypto) : Shared crypto × ChannelHop :=
  let s := s.pushLog
    s!"[WARN] JamAlert from NODE-{ja.detectedBy}: ch={ja.channel} at={ja.atMs}ms"
  let s := { s with channelHops := s.channelHops + 1 }
  (s,
    { newChannel := fallbackChannel ja.channel
      newEpoch := s.link.epoch + 1
      initiatedBy := s.identity.nodeId })

theorem handleJamAlert_eq (ja : JamAlert) (succeeds : Bool) (s : Shared crypto) :
    s.handleJamAlert ja succeeds =
      (s.startJamAlert ja).1.handleChannelHop (s.startJamAlert ja).2 succeeds := rfl

/-- `handle_channel_hop` until it locks the app state. -/
def tune (ch : ChannelHop) (succeeds : Bool) (s : Shared crypto) : Shared crypto :=
  { s with
    link := s.link.setChannel ch.newChannel succeeds
    streamRots := s.streamRots + 1
    channelHops := s.channelHops + 1 }

def writeDown (ch : ChannelHop) (s : Shared crypto) : Shared crypto :=
  { s with app := { s.app with channel := ch.newChannel } }.pushLog
    s!"[INFO] Hopped to ch{ch.newChannel}, epoch {ch.newEpoch}"

theorem handleChannelHop_eq (ch : ChannelHop) (succeeds : Bool) (s : Shared crypto) :
    s.handleChannelHop ch succeeds = (s.tune ch succeeds).writeDown ch := rfl

end Shared

/-- A message that is handled, and whether the radio can be tuned then. -/
structure Invocation where
  msg : ChannelMsg
  succeeds : Bool
  deriving DecidableEq, Repr

/-- A handler before each of its parts. -/
inductive HopTask where
  | alert (ja : JamAlert) (succeeds : Bool)
  | hop (ch : ChannelHop) (succeeds : Bool)
  | writing (ch : ChannelHop) (succeeded : Bool)
  deriving DecidableEq, Repr

def HopTask.isWriting : HopTask → Bool
  | writing _ _ => true
  | _ => false

def Invocation.task : Invocation → HopTask
  | ⟨.jamAlert ja, succeeds⟩ => .alert ja succeeds
  | ⟨.channelHop ch, succeeds⟩ => .hop ch succeeds

/-- A node with the argument of the last `set_channel` that succeeded, and with the channel that
was written down last by a hop whose `set_channel` had succeeded. -/
structure HopState (crypto : Crypto) where
  node : Shared crypto
  lastSet : Option UInt8
  lastWritten : Option UInt8

def HopTask.next {crypto : Crypto} (t : HopTask) (s : HopState crypto) :
    HopState crypto × List HopTask :=
  match t with
  | .alert ja succeeds =>
    let (node, ch) := s.node.startJamAlert ja
    ({ s with node }, [.hop ch succeeds])
  | .hop ch succeeds =>
    ({ s with
        node := s.node.tune ch succeeds
        lastSet := if succeeds then some ch.newChannel else s.lastSet },
      [.writing ch succeeds])
  | .writing ch succeeded =>
    ({ s with
        node := s.node.writeDown ch
        lastWritten := if succeeded then some ch.newChannel else s.lastWritten },
      [])

abbrev HopPool (crypto : Crypto) := TaskPool (HopState crypto) HopTask

namespace HopPool
variable {crypto : Crypto}

def spawnAll (node : Shared crypto) (calls : List Invocation) : HopPool crypto where
  shared := ⟨node, none, none⟩
  tasks := calls.map Invocation.task

/-- A place without a task stands for a moment at which nothing is done. -/
def advance (pool : HopPool crypto) (i : ℕ) : HopPool crypto :=
  (TaskPool.step HopTask.next pool i).getD pool

def run (pool : HopPool crypto) (schedule : List ℕ) : HopPool crypto := schedule.foldl advance pool

/-- No hop is between its `set_channel` and its entry in the app state. -/
def Quiet (pool : HopPool crypto) : Prop := ∀ ch succeeded, .writing ch succeeded ∉ pool.tasks

/-- Once the radio has been tuned, the recorded channel is the one that was set last whenever no hop
is under way, and a hop that could not tune the radio leaves the record as it was. -/
structure RecordsChannel (pool : HopPool crypto) (schedule : List ℕ) : Prop where
  recorded : ∀ pre, pre <+: schedule → (pool.run pre).Quiet →
    ∀ c, (pool.run pre).shared.lastSet = some c → (pool.run pre).shared.node.app.channel = c
  kept : ∀ pre i ch, pre ++ [i] <+: schedule →
    (pool.run pre).tasks[i]? = some (.writing ch false) → (pool.run pre).shared.lastSet.isSome →
      (pool.run (pre ++ [i])).shared.node.app.channel = (pool.run pre).shared.node.app.channel

/-- A hop that could not tune the radio asks for the channel that is recorded. -/
def FailuresIdle (pool : HopPool crypto) (schedule : List ℕ) : Prop :=
  ∀ pre i ch, pre ++ [i] <+: schedule →
    (pool.run pre).tasks[i]? = some (.writing ch false) → (pool.run pre).shared.lastSet.isSome →
      ch.newChannel = (pool.run pre).shared.node.app.channel

/-- Besides, the successful hops end with one channel, by the order of their `set_channel` and by
that of their entries. -/
structure Settles (pool : HopPool crypto) (schedule : List ℕ) : Prop where
  failuresIdle : pool.FailuresIdle schedule
  ordered : ∀ pre, pre <+: schedule → (pool.run pre).Quiet →
    (pool.run pre).shared.lastWritten = (pool.run pre).shared.lastSet

def handle (node : Shared crypto) : Invocation → Shared crypto
  | ⟨.jamAlert ja, succeeds⟩ => node.handleJamAlert ja succeeds
  | ⟨.channelHop ch, succeeds⟩ => node.handleChannelHop ch succeeds

theorem run_concat (pool : HopPool crypto) (schedule : List ℕ) (i : ℕ) :
    pool.run (schedule ++ [i]) = (pool.run schedule).advance i := List.foldl_append

theorem run_append (pool : HopPool crypto) (schedule schedule' : List ℕ) :
    pool.run (schedule ++ schedule') = (pool.run schedule).run schedule' := List.foldl_append

theorem advance_cases (pool : HopPool crypto) (i : ℕ) :
    pool.tasks[i]? = none ∧ pool.advance i = pool ∨
      ∃ l t r, pool.tasks = l ++ t :: r ∧ pool.tasks[i]? = some t ∧
        pool.advance i = ⟨(t.next pool.shared).1, l ++ (t.next pool.shared).2 ++ r⟩ := by
  rw [advance]
  cases hstep : TaskPool.step HopTask.next pool i with
  | none =>
    refine .inl ⟨?_, rfl⟩
    rw [TaskPool.step] at hstep
    split at hstep
    next h => exact h
    next => cases hstep
  | some pool' =>
    obtain ⟨l, t, r, htasks, rfl, hshared, htasks'⟩ := TaskPool.step_cases hstep
    refine .inr ⟨l, t, r, htasks, ?_, ?_⟩
    · rw [htasks, List.getElem?_append_right le_rfl, Nat.sub_self, List.getElem?_cons_zero]
    · obtain ⟨shared, tasks⟩ := pool'
      simp only at hshared htasks'
      rw [hshared, htasks']
      rfl

theorem leadsTo_run (pool : HopPool crypto) (schedule : List ℕ) :
    LeadsTo (TaskPool.step HopTask.next) pool (pool.run schedule) := by
  induction schedule using List.reverseRecOn with
  | nil => exact .refl _ pool
  | append_singleton schedule i ih =>
    rw [run_concat, advance]
    cases hstep : TaskPool.step HopTask.next (pool.run schedule) i with
    | none => exact ih
    | some pool' => exact ih.tail hstep

/-- What has been written down had been set, and what has been set is written down, or under way. -/
structure Tracks (s : HopState crypto) (tasks : List HopTask) : Prop where
  pending : ∀ ch, .writing ch true ∈ tasks → s.lastSet.isSome
  written : s.lastWritten.isSome → s.lastSet.isSome
  set : s.lastSet.isSome → s.lastWritten.isSome ∨ ∃ ch, .writing ch true ∈ tasks

theorem Tracks.perm (hperm : tasks.Perm tasks') (h : Tracks s tasks) : Tracks s tasks' := by
  constructor
  · exact fun ch hch => h.pending ch (hperm.symm.subset hch)
  · exact h.written
  · intro hset
    rcases h.set hset with hwritten | ⟨ch, hch⟩
    · exact .inl hwritten
    · exact .inr ⟨ch, hperm.subset hch⟩

theorem Tracks.next {s : HopState crypto} (h : Tracks s (t :: rest)) :
    Tracks (t.next s).1 ((t.next s).2 ++ rest) := by
  obtain ⟨hpending, hwritten, hset⟩ := h
  cases t with
  | alert ja succeeds =>
    simp only [List.mem_cons, reduceCtorEq, false_or] at hpending hset
    constructor
    · simpa [HopTask.next] using hpending
    · exact hwritten
    · simpa [HopTask.next] using hset
  | hop ch succeeds =>
    simp only [List.mem_cons, reduceCtorEq, false_or] at hpending hset
    cases succeeds with
    | true =>
      constructor
      · exact fun _ _ => rfl
      · exact fun _ => rfl
      · exact fun _ => .inr ⟨ch, List.mem_cons_self ..⟩
    | false =>
      constructor
      · simpa [HopTask.next] using hpending
      · exact hwritten
      · simpa [HopTask.next] using hset
  | writing ch succeeded =>
    cases succeeded with
    | true =>
      constructor
      · exact fun ch' hch' => hpending ch' (List.mem_cons_of_mem _ hch')
      · exact fun _ => hpending ch (List.mem_cons_self ..)
      · exact fun _ => .inl rfl
    | false =>
      simp only [List.mem_cons, HopTask.writing.injEq, reduceCtorEq, and_false, false_or]
        at hpending hset
      exact ⟨hpending, hwritten, hset⟩

theorem run_tracks (node : Shared crypto) (calls : List Invocation) (schedule : List ℕ) :
    Tracks ((spawnAll node calls).run schedule).shared
      ((spawnAll node calls).run schedule).tasks := by
  apply TaskPool.invariant (P := Tracks) (fun _ _ _ => Tracks.perm) (fun _ _ _ => Tracks.next)
    (leadsTo_run _ schedule)
  constructor
  · intro ch hch
    obtain ⟨⟨msg, succeeds⟩, -, htask⟩ := List.mem_map.1 hch
    cases msg <;> cases htask
  · exact id
  · exact nofun

theorem next_channel (t : HopTask) (s : HopState crypto) :
    (∃ ch succeeded, t = .writing ch succeeded ∧ (t.next s).1.node.app.channel = ch.newChannel) ∨
      (t.next s).1.node.app.channel = s.node.app.channel ∧
        (t.next s).1.lastWritten = s.lastWritten := by
  cases t with
  | alert ja succeeds => exact .inr ⟨rfl, rfl⟩
  | hop ch succeeds => exact .inr ⟨rfl, rfl⟩
  | writing ch succeeded => exact .inl ⟨ch, succeeded, rfl, rfl⟩

theorem advance_writing {pool : HopPool crypto}
    (h : pool.tasks[i]? = some (.writing ch succeeded)) :
    (pool.advance i).shared.node.app.channel = ch.newChannel := by
  rcases pool.advance_cases i with ⟨hnone, -⟩ | ⟨l, t, r, -, ht, hafter⟩
  · rw [h] at hnone
    cases hnone
  · rw [h, Option.some.injEq] at ht
    subst ht
    rw [hafter]
    rfl

/-- As long as the hops that fail change nothing, the record is the last successful entry. -/
theorem channel_of_lastWritten {node : Shared crypto} {calls : List Invocation}
    (h : (spawnAll node calls).FailuresIdle schedule) (hpre : pre <+: schedule)
    (hc : ((spawnAll node calls).run pre).shared.lastWritten = some c) :
    ((spawnAll node calls).run pre).shared.node.app.channel = c := by
  induction pre using List.reverseRecOn with
  | nil => cases hc
  | append_singleton pre i ih =>
    have ih := ih ((List.prefix_append pre [i]).trans hpre)
    rw [run_concat] at hc ⊢
    rcases ((spawnAll node calls).run pre).advance_cases i with
      ⟨-, hstay⟩ | ⟨l, t, r, htasks, ht, hafter⟩
    · rw [hstay] at hc ⊢
      exact ih hc
    · rw [hafter] at hc ⊢
      rcases next_channel t ((spawnAll node calls).run pre).shared with
        ⟨ch, succeeded, rfl, hchannel⟩ | ⟨hchannel, hwritten⟩
      · cases succeeded with
        | true => exact Option.some.inj hc
        | false =>
          have hset := (run_tracks node calls pre).written (Option.isSome_of_mem hc)
          rw [hchannel, h pre i ch hpre ht hset]
          exact ih hc
      · rw [hchannel]
        exact ih (hwritten.symm.trans hc)

theorem kept_iff {pool : HopPool crypto} :
    (∀ pre i ch, pre ++ [i] <+: schedule →
      (pool.run pre).tasks[i]? = some (.writing ch false) → (pool.run pre).shared.lastSet.isSome →
        (pool.run (pre ++ [i])).shared.node.app.channel =
          (pool.run pre).shared.node.app.channel) ↔ pool.FailuresIdle schedule := by
  refine forall₄_congr fun pre i ch _ => forall_congr' fun ht => ?_
  rw [run_concat, advance_writing ht]

theorem recordsChannel_iff_settles (node : Shared crypto) (calls : List Invocation)
    (schedule : List ℕ) :
    (spawnAll node calls).RecordsChannel schedule ↔ (spawnAll node calls).Settles schedule := by
  constructor
  · rintro ⟨hrecorded, hkept⟩
    have hidle := kept_iff.1 hkept
    refine ⟨hidle, ?_⟩
    intro pre hpre hquiet
    have htracks := run_tracks node calls pre
    cases hset : ((spawnAll node calls).run pre).shared.lastSet with
    | none =>
      have hnone : ¬ ((spawnAll node calls).run pre).shared.lastWritten.isSome := by
        intro hwritten
        have hsome := htracks.written hwritten
        rw [hset] at hsome
        cases hsome
      exact Option.not_isSome_iff_eq_none.1 hnone
    | some c =>
      rcases htracks.set (Option.isSome_of_mem hset) with hwritten | ⟨ch, hch⟩
      · obtain ⟨d, hd⟩ := Option.isSome_iff_exists.1 hwritten
        rw [hd, ← hrecorded pre hpre hquiet c hset, channel_of_lastWritten hidle hpre hd]
      · exact absurd hch (hquiet ch true)
  · rintro ⟨hidle, hordered⟩
    refine ⟨?_, kept_iff.2 hidle⟩
    intro pre hpre hquiet c hset
    exact channel_of_lastWritten hidle hpre ((hordered pre hpre hquiet).trans hset)

theorem quiet_iff {pool : HopPool crypto} :
    pool.Quiet ↔ pool.tasks.filter HopTask.isWriting = [] := by
  rw [List.filter_eq_nil_iff]
  constructor
  · intro h t ht hwriting
    cases t with
    | writing ch succeeded => exact h ch succeeded ht
    | alert => cases hwriting
    | hop => cases hwriting
  · exact fun h ch succeeded hmem => h _ hmem rfl

/-- A hop tunes the radio only when no other one is under way. -/
def InTurn (pool : HopPool crypto) (schedule : List ℕ) : Prop :=
  ∀ pre i ch succeeds, pre ++ [i] <+: schedule →
    (pool.run pre).tasks[i]? = some (.hop ch succeeds) → (pool.run pre).Quiet

/-- At most one hop is under way, and it is the one that tuned the radio last. -/
def OneByOne (pool : HopPool crypto) : Prop :=
  pool.tasks.filter HopTask.isWriting = [] ∧ pool.shared.lastWritten = pool.shared.lastSet ∨
    ∃ ch succeeded, pool.tasks.filter HopTask.isWriting = [.writing ch succeeded] ∧
      pool.shared.lastSet = if succeeded then some ch.newChannel else pool.shared.lastWritten

theorem OneByOne.advance {pool : HopPool crypto} (h : pool.OneByOne) (i : ℕ)
    (hturn : ∀ ch succeeds, pool.tasks[i]? = some (.hop ch succeeds) → pool.Quiet) :
    (pool.advance i).OneByOne := by
  rcases pool.advance_cases i with ⟨-, hstay⟩ | ⟨l, t, r, htasks, ht, hafter⟩
  · rw [hstay]
    exact h
  rw [hafter, OneByOne]
  simp only [List.filter_append]
  cases t with
  | alert ja succeeds =>
    rw [OneByOne, htasks, List.filter_append] at h
    simpa [HopTask.next, HopTask.isWriting] using h
  | hop ch succeeds =>
    have hquiet := quiet_iff.1 (hturn ch succeeds ht)
    have hsame : pool.shared.lastWritten = pool.shared.lastSet := by
      rcases h with ⟨-, hsame⟩ | ⟨ch', b, hone, -⟩
      · exact hsame
      · rw [hquiet] at hone
        cases hone
    rw [htasks, List.filter_append, List.append_eq_nil_iff,
      List.filter_cons_of_neg Bool.false_ne_true] at hquiet
    refine .inr ⟨ch, succeeds, ?_, ?_⟩
    · rw [hquiet.1, hquiet.2]
      rfl
    · simp only [HopTask.next, hsame]
  | writing ch succeeded =>
    rw [OneByOne, htasks, List.filter_append, List.filter_cons_of_pos rfl] at h
    rcases h with ⟨hnone, -⟩ | ⟨ch', b, hone, hset⟩
    · simp at hnone
    · obtain ⟨hl, hr⟩ : l.filter HopTask.isWriting = [] ∧ r.filter HopTask.isWriting = [] := by
        have hlen := congrArg List.length hone
        simp only [List.length_append, List.length_cons, List.length_nil] at hlen
        exact ⟨List.eq_nil_of_length_eq_zero (by omega), List.eq_nil_of_length_eq_zero (by omega)⟩
      rw [hl, hr, List.nil_append, List.cons.injEq, HopTask.writing.injEq] at hone
      obtain ⟨⟨rfl, rfl⟩, -⟩ := hone
      refine .inl ⟨?_, hset.symm⟩
      rw [hl, hr]
      rfl

theorem ordered_of_inTurn {node : Shared crypto} {calls : List Invocation}
    (h : (spawnAll node calls).InTurn schedule) (hpre : pre <+: schedule)
    (hquiet : ((spawnAll node calls).run pre).Quiet) :
    ((spawnAll node calls).run pre).shared.lastWritten =
      ((spawnAll node calls).run pre).shared.lastSet := by
  have hone : ((spawnAll node calls).run pre).OneByOne := by
    clear hquiet
    induction pre using List.reverseRecOn with
    | nil =>
      refine .inl ⟨?_, rfl⟩
      rw [List.filter_eq_nil_iff]
      intro t ht
      obtain ⟨⟨msg, succeeds⟩, -, rfl⟩ := List.mem_map.1 ht
      cases msg <;> exact nofun
    | append_singleton pre i ih =>
      rw [run_concat]
      exact (ih ((List.prefix_append pre [i]).trans hpre)).advance i
        fun ch succeeds => h pre i ch succeeds hpre
  rcases hone with ⟨-, hsame⟩ | ⟨ch, b, hwriting, -⟩
  · exact hsame
  · rw [quiet_iff.1 hquiet] at hwriting
    cases hwriting

theorem settles_iff_of_inTurn {node : Shared crypto} {calls : List Invocation}
    (h : (spawnAll node calls).InTurn schedule) :
    (spawnAll node calls).Settles schedule ↔ (spawnAll node calls).FailuresIdle schedule := by
  constructor
  · exact fun hsettles => hsettles.failuresIdle
  · exact fun hidle => ⟨hidle, fun _ hpre hquiet => ordered_of_inTurn h hpre hquiet⟩

/-- Only the handler that is run next may stand between its `set_channel` and its entry. -/
def FirstOnly (pool : HopPool crypto) : Prop := ∀ t ∈ pool.tasks.tail, t.isWriting = false

theorem FirstOnly.advance {pool : HopPool crypto} (h : pool.FirstOnly) :
    (pool.advance 0).FirstOnly := by
  obtain ⟨shared, tasks⟩ := pool
  cases tasks with
  | nil => exact h
  | cons t rest =>
    intro t' ht'
    cases t with
    | alert ja succeeds => exact h t' ht'
    | hop ch succeeds => exact h t' ht'
    | writing ch succeeded => exact h t' (List.mem_of_mem_tail ht')

theorem firstOnly_run (node : Shared crypto) (calls : List Invocation) (n : ℕ) :
    ((spawnAll node calls).run (List.replicate n 0)).FirstOnly := by
  induction n with
  | zero =>
    intro t ht
    obtain ⟨⟨msg, succeeds⟩, -, rfl⟩ := List.mem_map.1 (List.mem_of_mem_tail ht)
    cases msg <;> rfl
  | succ n ih =>
    rw [List.replicate_succ', run_concat]
    exact ih.advance

theorem inTurn_replicate (node : Shared crypto) (calls : List Invocation) (n : ℕ) :
    (spawnAll node calls).InTurn (List.replicate n 0) := by
  intro pre i ch succeeds hpre hhop ch' succeeded hwriting
  have hzeros : ∀ j ∈ pre ++ [i], j = 0 := fun j hj => List.eq_of_mem_replicate (hpre.subset hj)
  have hi : i = 0 := hzeros i (List.mem_append_right _ (.head _))
  have hrun : pre = List.replicate pre.length 0 :=
    List.eq_replicate_of_mem fun j hj => hzeros j (List.mem_append_left _ hj)
  have hfirst := firstOnly_run node calls pre.length
  rw [← hrun] at hfirst
  cases htasks : ((spawnAll node calls).run pre).tasks with
  | nil =>
    rw [htasks] at hwriting
    cases hwriting
  | cons t rest =>
    rw [htasks, hi, List.getElem?_cons_zero, Option.some.injEq] at hhop
    rw [htasks, hhop] at hwriting
    rw [FirstOnly, htasks] at hfirst
    rcases List.mem_cons.1 hwriting with hwriting | hwriting
    · cases hwriting
    · cases hfirst _ hwriting

def parts : Invocation → ℕ
  | ⟨.jamAlert _, _⟩ => 3
  | ⟨.channelHop _, _⟩ => 2

def serial (calls : List Invocation) : List ℕ := List.replicate (calls.map parts).sum 0

theorem run_parts (s : HopState crypto) (i : Invocation) (rest : List HopTask) :
    ∃ set written, run ⟨s, i.task :: rest⟩ (List.replicate (parts i) 0) =
      ⟨⟨handle s.node i, set, written⟩, rest⟩ := by
  obtain ⟨msg, succeeds⟩ := i
  cases msg with
  | jamAlert ja =>
    rw [handle, Shared.handleJamAlert_eq, Shared.handleChannelHop_eq]
    exact ⟨_, _, rfl⟩
  | channelHop ch =>
    rw [handle, Shared.handleChannelHop_eq]
    exact ⟨_, _, rfl⟩

theorem run_serial (node : Shared crypto) (calls : List Invocation) :
    ((spawnAll node calls).run (serial calls)).shared.node = calls.foldl handle node := by
  have hall : ∀ s : HopState crypto, ∃ set written,
      run ⟨s, calls.map Invocation.task⟩ (serial calls) =
        ⟨⟨calls.foldl handle s.node, set, written⟩, []⟩ := by
    induction calls with
    | nil => exact fun s => ⟨s.lastSet, s.lastWritten, rfl⟩
    | cons i calls ih =>
      intro s
      obtain ⟨set, written, hfirst⟩ := run_parts s i (calls.map Invocation.task)
      obtain ⟨set', written', hrest⟩ := ih ⟨handle s.node i, set, written⟩
      refine ⟨set', written', ?_⟩
      rw [serial, List.map_cons, List.map_cons, List.sum_cons, List.replicate_add, run_append,
        hfirst]
      exact hrest
  obtain ⟨set, written, hrun⟩ := hall ⟨node, none, none⟩
  rw [spawnAll, hrun]

/-- However the handlers are interleaved, the record is true exactly if the hops settle. If the
hops do not overlap, as when one handler runs after the other, it is true exactly if those that
fail ask for what is recorded. -/
theorem recordsChannel_iff (node : Shared crypto) (calls : List Invocation) :
    (∀ schedule, ((spawnAll node calls).RecordsChannel schedule ↔
        (spawnAll node calls).Settles schedule) ∧
      ((spawnAll node calls).InTurn schedule → ((spawnAll node calls).RecordsChannel schedule ↔
        (spawnAll node calls).FailuresIdle schedule))) ∧
      (spawnAll node calls).InTurn (serial calls) ∧
        ((spawnAll node calls).run (serial calls)).shared.node = calls.foldl handle node := by
  refine ⟨fun schedule => ⟨recordsChannel_iff_settles node calls schedule, fun hturn => ?_⟩,
    inTurn_replicate node calls _, run_serial node calls⟩
  rw [recordsChannel_iff_settles, settles_iff_of_inTurn hturn]

def twoHops (succeeds : Bool) : HopPool .toy :=
  spawnAll (Shared.toyNode 3) [⟨.channelHop ⟨36, 1, 1⟩, true⟩, ⟨.channelHop ⟨40, 2, 1⟩, succeeds⟩]

/-- The second hop fails and is recorded all the same; and if both succeed, but the first one
writes its channel down last, the record is wrong without any failure. -/
theorem hops_misrecorded : ¬ (twoHops false).RecordsChannel [0, 0, 0, 0] ∧
    ¬ (twoHops true).RecordsChannel [0, 1, 1, 0] := by
  constructor
  · intro h
    have htasks : ((twoHops false).run [0, 0, 0, 0]).tasks = [] := rfl
    have hchannel : ((twoHops false).run [0, 0, 0, 0]).shared.node.app.channel = 40 := rfl
    have hrecorded := h.recorded _ (List.prefix_refl _) (by simp [Quiet, htasks]) 36 rfl
    rw [hchannel] at hrecorded
    exact absurd hrecorded (by decide)
  · intro h
    have htasks : ((twoHops true).run [0, 1, 1, 0]).tasks = [] := rfl
    have hchannel : ((twoHops true).run [0, 1, 1, 0]).shared.node.app.channel = 36 := rfl
    have hrecorded := h.recorded _ (List.prefix_refl _) (by simp [Quiet, htasks]) 40 rfl
    rw [hchannel] at hrecorded
    exact absurd hrecorded (by decide)

end HopPool
end TacticalMesh
