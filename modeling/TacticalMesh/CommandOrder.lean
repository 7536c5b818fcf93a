import TacticalMesh.BoardHandlers

namespace TacticalMesh
set_option autoImplicit true

/-- What the nodes must agree on: the state of a target and who it is assigned to. -/
abbrev Verdict := TargetState × Option UInt8

def Target.verdict (t : Target) : Verdict := (t.state, t.assignedTo)

namespace TargetBoard
variable {b : TargetBoard} {id : UInt16} {cmds : List Command}

def verdict (b : TargetBoard) (id : UInt16) : Option Verdict := (b.get id).map Target.verdict

/-- A node handles commands, each at the reading of its own clock. -/
def deliver (b : TargetBoard) (received : List (Command × ℕ)) : TargetBoard :=
  received.foldl (fun b c => handleCommand c.1 c.2 b) b

/-- The verdicts that compete for a target: the stored one and those the commands ask for. -/
def contenders (b : TargetBoard) (cmds : List Command) (id : UInt16) : List Verdict :=
  (b.verdict id).toList ++ (cmds.filter fun c => c.targetId = id).map Command.outcome

def Greatest (l : List Verdict) (x : Verdict) : Prop := x ∈ l ∧ ∀ z ∈ l, z.1.rank ≤ x.1.rank

def Decided (l : List Verdict) (v : Option Verdict) : Prop :=
  v = none ∧ l = [] ∨ ∃ x, v = some x ∧ Greatest l x

/-- All contenders of the highest state ask for the same assignment. -/
def OneWinner (l : List Verdict) : Prop := ∀ x y, Greatest l x → Greatest l y → x = y

theorem handleCommand_get (cmd : Command) (now : ℕ) (b : TargetBoard) (id : UInt16) :
    (handleCommand cmd now b).get id =
      if cmd.targetId = id then
        keepGreater Target.key (b.get id) (cmd.target (b.position cmd.targetId) now)
      else b.get id :=
  merge_get b _ id

theorem handleCommand_other (h : cmd.targetId ≠ id) (now : ℕ) (b : TargetBoard) :
    (handleCommand cmd now b).get id = b.get id := by
  rw [handleCommand_get, if_neg h]

theorem handleCommand_verdict (h : cmd.targetId = id) (now : ℕ) (b : TargetBoard) :
    ∃ x, (handleCommand cmd now b).verdict id = some x ∧
      (x = cmd.outcome ∨ b.verdict id = some x) ∧ cmd.outcome.1.rank ≤ x.1.rank ∧
      ∀ y, b.verdict id = some y → y.1.rank ≤ x.1.rank := by
  simp only [verdict, handleCommand_get, if_pos h]
  cases b.get id with
  | none => exact ⟨cmd.outcome, rfl, .inl rfl, le_rfl, fun y hy => by cases hy⟩
  | some t =>
    simp only [keepGreater, Target.key_lt]
    split
    · rename_i hlt
      refine ⟨cmd.outcome, rfl, .inl rfl, le_rfl, ?_⟩
      intro y hy
      cases hy
      rcases hlt with hlt | ⟨hs, -⟩
      · exact hlt.le
      · exact (congrArg TargetState.rank hs).ge
    · rename_i hge
      push Not at hge
      refine ⟨t.verdict, rfl, .inr rfl, hge.1, ?_⟩
      intro y hy
      cases hy
      exact le_rfl

theorem mem_contenders (x : Verdict) (b : TargetBoard) (cmds : List Command) (id : UInt16) :
    x ∈ contenders b cmds id ↔
      b.verdict id = some x ∨ ∃ cmd ∈ cmds, cmd.targetId = id ∧ cmd.outcome = x := by
  simp only [contenders, List.mem_append, Option.mem_toList, List.mem_map, List.mem_filter,
    decide_eq_true_eq, and_assoc]

theorem contenders_other (h : cmd.targetId ≠ id) (now : ℕ) (b : TargetBoard)
    (cmds : List Command) :
    contenders (handleCommand cmd now b) cmds id = contenders b (cmd :: cmds) id := by
  simp only [contenders, verdict, handleCommand_other h, List.filter_cons, h, decide_false,
    Bool.false_eq_true, ↓reduceIte]

theorem Greatest.of_handleCommand (hid : cmd.targetId = id)
    (h : Greatest (contenders (handleCommand cmd now b) cmds id) x) :
    Greatest (contenders b (cmd :: cmds) id) x := by
  obtain ⟨y, hy, hmem, hle, hold⟩ := handleCommand_verdict hid now b
  obtain ⟨hx, hxle⟩ := h
  have hyx : y.1.rank ≤ x.1.rank := hxle y ((mem_contenders ..).2 (.inl hy))
  constructor
  · rw [mem_contenders]
    rcases (mem_contenders ..).1 hx with he | ⟨c, hc, hcid, hcx⟩
    · rw [hy, Option.some.injEq] at he
      subst he
      rcases hmem with rfl | hb
      · exact .inr ⟨cmd, .head _, hid, rfl⟩
      · exact .inl hb
    · exact .inr ⟨c, .tail _ hc, hcid, hcx⟩
  · intro z hz
    rcases (mem_contenders ..).1 hz with hz | ⟨c, hc, hcid, rfl⟩
    · exact (hold z hz).trans hyx
    · rcases List.mem_cons.1 hc with rfl | hc
      · exact hle.trans hyx
      · exact hxle _ ((mem_contenders ..).2 (.inr ⟨c, hc, hcid, rfl⟩))

/-- Whatever the order and the clocks, the final verdict is a greatest contender. -/
theorem deliver_decided (received : List (Command × ℕ)) (b : TargetBoard) :
    Decided (contenders b (received.map Prod.fst) id) ((b.deliver received).verdict id) := by
  induction received generalizing b with
  | nil =>
    cases hv : b.verdict id with
    | none =>
      refine .inl ⟨hv, ?_⟩
      simp [contenders, hv]
    | some x =>
      refine .inr ⟨x, hv, (mem_contenders ..).2 (.inl hv), ?_⟩
      intro z hz
      simp only [contenders, hv, List.map_nil, List.filter_nil, List.append_nil,
        Option.toList_some, List.mem_singleton] at hz
      rw [hz]
  | cons c received ih =>
    obtain ⟨cmd, now⟩ := c
    rw [List.map_cons]
    by_cases hid : cmd.targetId = id
    · rcases ih (handleCommand cmd now b) with ⟨-, hnil⟩ | ⟨x, hx, hg⟩
      · obtain ⟨y, hy, -⟩ := handleCommand_verdict hid now b
        have hmem := (mem_contenders y _ (received.map Prod.fst) id).2 (.inl hy)
        rw [hnil] at hmem
        cases hmem
      · exact .inr ⟨x, hx, hg.of_handleCommand hid⟩
    · rw [← contenders_other hid now]
      exact ih _

theorem deliver_zero_updatedAt (cmds : List Command) (b : TargetBoard)
    (hb : ∀ t, b.get id = some t → t.updatedAtMs ≤ m) :
    ∀ t, (b.deliver (cmds.map fun c => (c, 0))).get id = some t → t.updatedAtMs ≤ m := by
  induction cmds generalizing b with
  | nil => exact hb
  | cons cmd cmds ih =>
    apply ih (handleCommand cmd 0 b)
    intro t ht
    rw [handleCommand_get] at ht
    split at ht
    · cases hg : b.get id with
      | none =>
        rw [hg, keepGreater, Option.some.injEq] at ht
        subst ht
        exact Nat.zero_le _
      | some t' =>
        rw [hg, keepGreater] at ht
        split at ht
        · cases ht
          exact Nat.zero_le _
        · cases ht
          exact hb _ hg
    · exact hb t ht

theorem deliver_zero_get (cmds : List Command) (hb : b.get id = some t)
    (h : ∀ cmd ∈ cmds, cmd.targetId = id → cmd.outcome.1.rank ≤ t.state.rank) :
    (b.deliver (cmds.map fun c => (c, 0))).get id = some t := by
  induction cmds generalizing b with
  | nil => exact hb
  | cons cmd cmds ih =>
    apply ih _ fun c hc => h c (.tail _ hc)
    by_cases hid : cmd.targetId = id
    · have hge : ¬ t.key < (cmd.target (b.position cmd.targetId) 0).key := by
        rw [Target.key_lt]
        rintro (hlt | ⟨-, hlt⟩)
        · exact Nat.not_lt_of_ge (h cmd (.head _) hid) hlt
        · exact Nat.not_lt_zero _ hlt
      rw [handleCommand_get, if_pos hid, hb, keepGreater, if_neg hge]
    · exact (handleCommand_other hid 0 b).trans hb

theorem handleCommand_wins (hid : cmd.targetId = id)
    (ht : ∀ t, b.get id = some t →
      t.state.rank ≤ cmd.outcome.1.rank ∧ t.updatedAtMs < now) :
    (handleCommand cmd now b).verdict id = some cmd.outcome := by
  rw [verdict, handleCommand_get, if_pos hid]
  cases hb : b.get id with
  | none => rfl
  | some t =>
    obtain ⟨hr, hlt⟩ := ht t hb
    have hkey : t.key < (cmd.target (b.position cmd.targetId) now).key := by
      rw [Target.key_lt]
      rcases hr.lt_or_eq with hr | hr
      · exact .inl hr
      · exact .inr ⟨(TargetState.rank_injective hr).symm, hlt⟩
    rw [keepGreater, if_pos hkey]
    rfl

theorem map_fst_zero (cmds : List Command) :
    (cmds.map fun c => (c, 0)).map Prod.fst = cmds := by
  simp only [List.map_map, Function.comp_def, List.map_id']

/-- Every greatest contender wins on some node: the stored one when all clocks read zero,
a command when it comes last at a late enough time. -/
theorem Greatest.wins (hx : Greatest (contenders b cmds id) x) :
    ∃ received : List (Command × ℕ), (received.map Prod.fst).Perm cmds ∧
      (b.deliver received).verdict id = some x := by
  obtain ⟨hmem, hle⟩ := hx
  rcases (mem_contenders ..).1 hmem with hv | ⟨cmd, hcmd, hid, rfl⟩
  · obtain ⟨t, ht, rfl⟩ := Option.map_eq_some_iff.1 hv
    have hkeep : (b.deliver (cmds.map fun c => (c, 0))).get id = some t := by
      apply deliver_zero_get cmds ht
      intro c hc hcid
      exact hle _ ((mem_contenders ..).2 (.inr ⟨c, hc, hcid, rfl⟩))
    refine ⟨cmds.map fun c => (c, 0), by rw [map_fst_zero], ?_⟩
    rw [verdict, hkeep]
    rfl
  · let m := ((b.get id).map Target.updatedAtMs).getD 0
    let before := (cmds.erase cmd).map fun c => (c, 0)
    have hb : ∀ t, b.get id = some t → t.updatedAtMs ≤ m := by
      intro t ht
      simp [m, ht]
    refine ⟨before ++ [(cmd, m + 1)], ?_, ?_⟩
    · rw [List.map_append, map_fst_zero]
      exact List.perm_append_comm.trans (List.perm_cons_erase hcmd).symm
    · rw [deliver, List.foldl_append]
      apply handleCommand_wins hid
      intro t ht
      refine ⟨?_, Nat.lt_succ_of_le (deliver_zero_updatedAt _ b hb t ht)⟩
      have hdec : Decided (contenders b (before.map Prod.fst) id) ((b.deliver before).verdict id) :=
        deliver_decided before b
      rcases hdec with ⟨hnone, -⟩ | ⟨y, hy, hmem', -⟩
      · rw [verdict, deliver, ht] at hnone
        cases hnone
      · rw [verdict, deliver, ht, Option.map_some, Option.some.injEq] at hy
        subst hy
        rw [map_fst_zero, mem_contenders] at hmem'
        apply hle t.verdict
        rw [mem_contenders]
        refine hmem'.imp_right ?_
        rintro ⟨c, hc, hcid, hco⟩
        exact ⟨c, List.mem_of_mem_erase hc, hcid, hco⟩

/-- Nodes that handle the same commands agree on a target, in every order and at all clock
readings, exactly when the contenders of the highest state ask for one assignment. -/
theorem commands_agree_iff (b : TargetBoard) (cmds : List Command) (id : UInt16) :
    (∀ received received' : List (Command × ℕ), (received.map Prod.fst).Perm cmds →
        (received'.map Prod.fst).Perm cmds →
        (b.deliver received).verdict id = (b.deliver received').verdict id) ↔
      OneWinner (contenders b cmds id) := by
  constructor
  · intro h x y hx hy
    obtain ⟨r, hr, hrx⟩ := hx.wins
    obtain ⟨r', hr', hry⟩ := hy.wins
    have heq := h r r' hr hr'
    rw [hrx, hry, Option.some.injEq] at heq
    exact heq
  · intro h r r' hr hr'
    have hdec : ∀ received : List (Command × ℕ), (received.map Prod.fst).Perm cmds →
        Decided (contenders b cmds id) ((b.deliver received).verdict id) := by
      intro received hperm
      have hd : Decided (contenders b (received.map Prod.fst) id) _ := deliver_decided received b
      have hmem : ∀ x, x ∈ contenders b (received.map Prod.fst) id ↔ x ∈ contenders b cmds id := by
        intro x
        simp only [mem_contenders, hperm.mem_iff]
      rcases hd with ⟨hv, hnil⟩ | ⟨x, hv, hx, hle⟩
      · refine .inl ⟨hv, List.eq_nil_iff_forall_not_mem.2 fun x hx => ?_⟩
        simp [← hmem, hnil] at hx
      · exact .inr ⟨x, hv, (hmem x).1 hx, fun z hz => hle z ((hmem z).2 hz)⟩
    rcases hdec r hr with ⟨hv, hnil⟩ | ⟨x, hv, hx⟩
    · rcases hdec r' hr' with ⟨hv', -⟩ | ⟨y, -, hy, -⟩
      · rw [hv, hv']
      · rw [hnil] at hy
        cases hy
    · rcases hdec r' hr' with ⟨-, hnil⟩ | ⟨y, hv', hy⟩
      · obtain ⟨hmem, -⟩ := hx
        rw [hnil] at hmem
        cases hmem
      · rw [hv, hv', h x y hx hy]

/-- Two drones reassign target 7: each of two receivers ends with the one it heard last. -/
theorem reassign_two_winners :
    let claim : UInt8 → Command := fun issuer => ⟨7, .reassign, issuer⟩
    let received := [(claim 1, 1000), (claim 3, 2000)]
    let received' := [(claim 3, 1000), (claim 1, 2000)]
    (received.map Prod.fst).Perm (received'.map Prod.fst) ∧
      (new.deliver received).verdict 7 = some (.assigned, some 3) ∧
      (new.deliver received').verdict 7 = some (.assigned, some 1) := by
  decide

end TargetBoard
end TacticalMesh
