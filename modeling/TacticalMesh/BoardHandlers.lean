import TacticalMesh.TargetBoard

namespace TacticalMesh
set_option autoImplicit true

abbrev Position := F32 × F32 × TargetKind

def unknownPosition : Position := (0, 0, .unknown)

def Target.position (t : Target) : Position := (t.lat, t.lon, t.kind)

def TargetDetection.position (td : TargetDetection) : Position := (td.lat, td.lon, td.kind)

/-- What `handle_bda` and `handle_command` read from the board before they merge. -/
def TargetBoard.position (b : TargetBoard) (id : UInt16) : Position :=
  ((b.get id).map Target.position).getD unknownPosition

def TargetDetection.target (td : TargetDetection) : Target where
  id := td.targetId
  kind := td.kind
  state := .detected
  lat := td.lat
  lon := td.lon
  updatedAtMs := td.detectedAtMs
  assignedTo := some td.detector

def handleTargetDetection (td : TargetDetection) (b : TargetBoard) : TargetBoard :=
  b.merge ⟨td.target⟩

def BdaResult.targetState : BdaResult → TargetState
  | destroyed => .destroyed
  | damaged => .engaged
  | miss => .engaged

def Bda.target (bda : Bda) (pos : Position) : Target where
  id := bda.targetId
  kind := pos.2.2
  state := bda.result.targetState
  lat := pos.1
  lon := pos.2.1
  updatedAtMs := bda.atMs
  assignedTo := none

def handleBda (bda : Bda) (b : TargetBoard) : TargetBoard :=
  b.merge ⟨bda.target (b.position bda.targetId)⟩

def Command.outcome (cmd : Command) : TargetState × Option UInt8 :=
  match cmd.op with
  | .engage => (.engaged, none)
  | .abort => (.aborted, none)
  | .reassign => (.assigned, some cmd.issuedBy)

def Command.target (cmd : Command) (pos : Position) (now : ℕ) : Target where
  id := cmd.targetId
  kind := pos.2.2
  state := cmd.outcome.1
  lat := pos.1
  lon := pos.2.1
  updatedAtMs := now
  assignedTo := cmd.outcome.2

/-- The update is stamped with the clock of the receiving node. -/
def handleCommand (cmd : Command) (now : ℕ) (b : TargetBoard) : TargetBoard :=
  b.merge ⟨cmd.target (b.position cmd.targetId) now⟩

/-- The two reports whose handlers take everything but the position from the message. -/
inductive TargetReport where
  | detection (td : TargetDetection)
  | bda (b : Bda)
  deriving DecidableEq, Repr

namespace TargetReport

def atMs : TargetReport → ℕ
  | detection td => td.detectedAtMs
  | .bda b => b.atMs

def isBda : TargetReport → Bool
  | detection _ => false
  | bda _ => true

end TargetReport

namespace TargetBoard

def report (b : TargetBoard) : TargetReport → TargetBoard
  | .detection td => handleTargetDetection td b
  | .bda bda => handleBda bda b

variable {b : TargetBoard} {id : UInt16}

def reportAll (reports : List TargetReport) : TargetBoard := reports.foldl report new

theorem merge_position (b : TargetBoard) (u : TargetUpdate) (id : UInt16) :
    (b.merge u).position id = b.position id ∨
      u.target.id = id ∧ (b.merge u).position id = u.target.position := by
  simp only [position, merge_get]
  by_cases hid : u.target.id = id
  · rw [if_pos hid]
    cases b.get id with
    | none => exact .inr ⟨hid, rfl⟩
    | some t =>
      simp only [keepGreater]
      split
      · exact .inr ⟨hid, rfl⟩
      · exact .inl rfl
  · rw [if_neg hid]
    exact .inl rfl

theorem handleBda_position (bda : Bda) (b : TargetBoard) (id : UInt16) :
    (handleBda bda b).position id = b.position id := by
  rcases merge_position b ⟨bda.target (b.position bda.targetId)⟩ id with h | ⟨hid, h⟩
  · exact h
  · have hid' : bda.targetId = id := hid
    subst hid'
    exact h

/-- The target has been engaged at least, so no detection can replace its entry. -/
def EngagedAt (b : TargetBoard) (id : UInt16) : Prop :=
  ∃ t, b.get id = some t ∧ TargetState.engaged.rank ≤ t.state.rank

theorem EngagedAt.merge (h : EngagedAt b id) (u : TargetUpdate) : EngagedAt (b.merge u) id := by
  obtain ⟨t, ht, hr⟩ := h
  simp only [EngagedAt, merge_get, ht]
  split
  · simp only [keepGreater]
    split
    · rename_i hlt
      refine ⟨_, rfl, ?_⟩
      rw [Target.key_lt] at hlt
      rcases hlt with hlt | ⟨hs, -⟩
      · exact hr.trans hlt.le
      · rwa [hs]
    · exact ⟨t, rfl, hr⟩
  · exact ⟨t, rfl, hr⟩

theorem EngagedAt.report (h : EngagedAt b id) (r : TargetReport) : EngagedAt (b.report r) id := by
  cases r with
  | detection td => exact h.merge _
  | bda bda => exact h.merge _

theorem handleBda_engagedAt (bda : Bda) (b : TargetBoard) :
    EngagedAt (handleBda bda b) bda.targetId := by
  have hrank : TargetState.engaged.rank ≤ bda.result.targetState.rank := by
    cases bda.result <;> decide
  cases hb : b.get bda.targetId with
  | none =>
    refine ⟨bda.target (b.position bda.targetId), ?_, hrank⟩
    simp only [handleBda, merge_get, hb]
    exact if_pos rfl
  | some t =>
    simp only [EngagedAt, handleBda, merge_get, hb, Bda.target, ↓reduceIte, keepGreater]
    split
    · exact ⟨_, rfl, hrank⟩
    · rename_i hge
      refine ⟨t, rfl, ?_⟩
      rw [Target.key_lt] at hge
      push Not at hge
      exact hrank.trans hge.1

theorem EngagedAt.report_position (h : EngagedAt b id) (r : TargetReport) :
    (b.report r).position id = b.position id := by
  cases r with
  | bda bda => exact handleBda_position bda b id
  | detection td =>
    obtain ⟨t, ht, hr⟩ := h
    have hge : ¬ t.key < td.target.key := by
      rw [Target.key_lt]
      rintro (hlt | ⟨hs, -⟩)
      · exact Nat.not_lt_zero _ hlt
      · have hlow : ¬ TargetState.engaged.rank ≤ TargetState.detected.rank := by decide
        rw [← hs] at hr
        exact hlow hr
    simp only [position, TargetBoard.report, handleTargetDetection, merge_get, ht]
    split
    · rw [keepGreater, if_neg hge]
    · rfl

theorem foldl_bda_position (l : List TargetReport) (hl : ∀ r ∈ l, r.isBda) (b : TargetBoard) :
    (l.foldl report b).position id = b.position id := by
  induction l generalizing b with
  | nil => rfl
  | cons r l ih =>
    rw [List.foldl_cons, ih (fun r hr => hl r (.tail _ hr))]
    cases r with
    | bda bda => exact handleBda_position bda b id
    | detection td => exact absurd (hl _ (.head _)) (by simp [TargetReport.isBda])

theorem EngagedAt.foldl_report (h : EngagedAt b id) (l : List TargetReport) :
    (l.foldl TargetBoard.report b).position id = b.position id := by
  induction l generalizing b with
  | nil => rfl
  | cons r l ih => exact (ih (h.report r)).trans (h.report_position r)

theorem foldl_engagedAt (l : List TargetReport) (b : TargetBoard)
    (h : EngagedAt b id ∨ ∃ bda, .bda bda ∈ l ∧ bda.targetId = id) :
    EngagedAt (l.foldl report b) id := by
  induction l generalizing b with
  | nil =>
    rcases h with h | ⟨bda, hmem, -⟩
    · exact h
    · cases hmem
  | cons r l ih =>
    apply ih
    rcases h with h | ⟨bda, hmem, hid⟩
    · exact .inl (h.report r)
    · rcases List.mem_cons.1 hmem with rfl | hmem
      · subst hid
        exact .inl (handleBda_engagedAt bda b)
      · exact .inr ⟨bda, hmem, hid⟩

/-- Damage reports first, then detections: the position is the one known before. -/
theorem foldl_bda_then_position (bdas dets : List TargetReport) (hb : ∀ r ∈ bdas, r.isBda)
    (hmem : .bda bda ∈ bdas) (b : TargetBoard) :
    ((bdas ++ dets).foldl report b).position bda.targetId = b.position bda.targetId := by
  have he : EngagedAt (bdas.foldl report b) bda.targetId :=
    foldl_engagedAt bdas b (.inr ⟨bda, hmem, rfl⟩)
  rw [List.foldl_append, he.foldl_report, foldl_bda_position bdas hb]

end TargetBoard

end TacticalMesh
