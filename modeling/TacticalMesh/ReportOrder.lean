import TacticalMesh.BoardHandlers

namespace TacticalMesh
set_option autoImplicit true

namespace TargetBoard
variable {reports : List TargetReport}

def Converges (reports : List TargetReport) : Prop :=
  ∀ l l' : List TargetReport, l.Perm reports → l'.Perm reports → reportAll l = reportAll l'

/-- In every order, a target that was detected ends with the position of a detection of it. -/
def KeepsPositions (reports : List TargetReport) : Prop :=
  ∀ l : List TargetReport, l.Perm reports → ∀ td, .detection td ∈ reports →
    ∃ td', .detection td' ∈ reports ∧ td'.targetId = td.targetId ∧
      ((reportAll l).get td.targetId).map Target.position = some td'.position

/-- No target has both a damage report and a detection that knows its position. -/
def NoBlindBda (reports : List TargetReport) : Prop :=
  ∀ b td, .bda b ∈ reports → .detection td ∈ reports → td.targetId = b.targetId →
    td.position = unknownPosition

/-- The update a report amounts to when damage reports find no position. -/
def blindUpdate : TargetReport → TargetUpdate
  | .detection td => ⟨td.target⟩
  | .bda b => ⟨b.target unknownPosition⟩

/-- Targets with a damage report have no position on the board. -/
def BdaBlind (reports : List TargetReport) (b : TargetBoard) : Prop :=
  ∀ bda, .bda bda ∈ reports → b.position bda.targetId = unknownPosition

theorem BdaBlind.report_eq (h : BdaBlind reports b) (hr : r ∈ reports) :
    b.report r = b.merge (blindUpdate r) := by
  cases r with
  | detection td => rfl
  | bda bda =>
    simp only [TargetBoard.report, handleBda, h bda hr]
    rfl

theorem BdaBlind.report (h : BdaBlind reports b) (hno : NoBlindBda reports)
    (hr : r ∈ reports) : BdaBlind reports (b.report r) := by
  intro bda hbda
  cases r with
  | bda bda' =>
    rw [TargetBoard.report, handleBda_position]
    exact h bda hbda
  | detection td =>
    rcases merge_position b ⟨td.target⟩ bda.targetId with hp | ⟨hid, hp⟩
    · exact hp.trans (h bda hbda)
    · exact hp.trans (hno bda td hbda hr hid)

theorem BdaBlind.foldl_eq (h : BdaBlind reports b) (hno : NoBlindBda reports)
    (l : List TargetReport) (hl : ∀ r ∈ l, r ∈ reports) :
    l.foldl TargetBoard.report b = (l.map blindUpdate).foldl merge b := by
  induction l generalizing b with
  | nil => rfl
  | cons r l ih =>
    have hr := hl r (.head _)
    rw [List.foldl_cons, List.map_cons, List.foldl_cons, ← h.report_eq hr]
    exact ih (h.report hno hr) fun r hr => hl r (.tail _ hr)

theorem reportAll_eq_mergeAll (hno : NoBlindBda reports) (hl : l.Perm reports) :
    reportAll l = mergeAll (l.map blindUpdate) := by
  have hnew : BdaBlind reports new := fun _ _ => rfl
  apply hnew.foldl_eq hno
  intro r hr
  exact hl.mem_iff.1 hr

theorem blindUpdate_atMs (r : TargetReport) :
    (blindUpdate r).target.updatedAtMs = r.atMs := by
  cases r <;> rfl

theorem converges_of_noBlindBda (hts : (reports.map TargetReport.atMs).Nodup)
    (hno : NoBlindBda reports) : Converges reports := by
  have huntied : ∀ id, Untied Target.key (updatesFor id (reports.map blindUpdate)) := by
    intro id x hx y hy hkey hne
    rw [mem_updatesFor, List.mem_map] at hx hy
    obtain ⟨⟨r, hr, hrx⟩, -⟩ := hx
    obtain ⟨⟨r', hr', hry⟩, -⟩ := hy
    have hx := blindUpdate_atMs r
    have hy := blindUpdate_atMs r'
    rw [hrx] at hx
    rw [hry] at hy
    have hat : x.updatedAtMs = y.updatedAtMs := congrArg (fun k => (ofLex k).2) hkey
    have hrr : r = r' := List.inj_on_of_nodup_map hts hr hr' (hx.symm.trans (hat.trans hy))
    subst hrr
    rw [hrx] at hry
    cases hry
    exact absurd rfl hne
  have hmerge : ∀ l : List TargetReport, l.Perm reports →
      reportAll l = mergeAll (reports.map blindUpdate) := by
    intro l hl
    rw [reportAll_eq_mergeAll hno hl]
    apply (mergeAll_eq_iff_untied _).2 huntied
    intro u
    exact (hl.map blindUpdate).mem_iff
  intro l l' hl hl'
  rw [hmerge l hl, hmerge l' hl']

theorem keepsPositions_of_noBlindBda (hno : NoBlindBda reports) : KeepsPositions reports := by
  intro l hl td htd
  have hmem : td.target ∈ updatesFor td.targetId (l.map blindUpdate) :=
    (mem_updatesFor ..).2 ⟨List.mem_map.2 ⟨_, hl.mem_iff.2 htd, rfl⟩, rfl⟩
  obtain ⟨x, hx, hfirst⟩ := foldl_keepGreater Target.key _ (List.ne_nil_of_mem hmem)
  rw [reportAll_eq_mergeAll hno hl, mergeAll_get, hx]
  obtain ⟨hxl, hid⟩ := (mem_updatesFor ..).1 hfirst.mem
  obtain ⟨r, hr, hrx⟩ := List.mem_map.1 hxl
  have hr' := hl.mem_iff.1 hr
  cases r with
  | detection td' =>
    cases hrx
    exact ⟨td', hr', hid, rfl⟩
  | bda bda =>
    cases hrx
    refine ⟨td, htd, rfl, ?_⟩
    rw [hno bda td hr' htd hid.symm]
    rfl

theorem noBlindBda_of_converges (h : Converges reports) : NoBlindBda reports := by
  intro bda td hbda htd hid
  let bdas := reports.filter TargetReport.isBda
  let dets := reports.filter fun r => ¬ r.isBda
  have hbdas : ∀ r ∈ bdas, r.isBda := fun r hr => (List.mem_filter.1 hr).2
  have hbmem : .bda bda ∈ bdas := List.mem_filter.2 ⟨hbda, rfl⟩
  have hdmem : .detection td ∈ dets := List.mem_filter.2 ⟨htd, rfl⟩
  have hperm : (bdas ++ dets).Perm reports := by
    simpa [bdas, dets] using List.filter_append_perm TargetReport.isBda reports
  have hperm' : (.detection td :: (bdas ++ dets.erase (.detection td))).Perm reports := by
    refine List.Perm.trans ?_ hperm
    exact List.perm_middle.symm.trans ((List.perm_cons_erase hdmem).symm.append_left bdas)
  have hlast := foldl_bda_then_position bdas dets hbdas hbmem new
  have hfirst := foldl_bda_then_position bdas (dets.erase (.detection td)) hbdas hbmem
    (new.report (.detection td))
  have heq := congrArg (fun b => b.position bda.targetId) (h _ _ hperm' hperm)
  have hdet : (new.report (.detection td)).position bda.targetId = td.position := by
    have hget : (new.report (.detection td)).get bda.targetId = some td.target := by
      rw [TargetBoard.report, handleTargetDetection, merge_get]
      exact if_pos hid
    rw [TargetBoard.position, hget]
    rfl
  calc td.position = (new.report (.detection td)).position bda.targetId := hdet.symm
    _ = (reportAll (.detection td :: (bdas ++ dets.erase (.detection td)))).position
          bda.targetId := hfirst.symm
    _ = (reportAll (bdas ++ dets)).position bda.targetId := heq
    _ = unknownPosition := hlast

/-- Boards converge and keep known positions exactly when no damage report concerns a target
with a known position. -/
theorem reports_converge_iff (hts : (reports.map TargetReport.atMs).Nodup) :
    Converges reports ∧ KeepsPositions reports ↔ NoBlindBda reports := by
  constructor
  · intro h
    exact noBlindBda_of_converges h.1
  · intro h
    exact ⟨converges_of_noBlindBda hts h, keepsPositions_of_noBlindBda h⟩

def sighting : TargetDetection where
  targetId := 101
  kind := .vehicle
  lat := 0x42408000
  lon := 0x41390000
  detectedAtMs := 1000
  detector := 3

def strike : Bda where
  targetId := 101
  result := .destroyed
  atMs := 2000

theorem reports_converge_blind :
    Converges [.bda strike, .detection { sighting with targetId := 102 }] ∧
      KeepsPositions [.bda strike, .detection { sighting with targetId := 102 }] := by
  refine (reports_converge_iff (by decide)).2 ?_
  intro b td hb htd hid
  simp only [List.mem_cons, TargetReport.bda.injEq, TargetReport.detection.injEq,
    reduceCtorEq, List.not_mem_nil, or_false, false_or] at hb htd
  subst hb
  subst htd
  exact absurd hid (by decide)

/-- The damage report overtakes the detection: the position is lost on one of two nodes. -/
theorem bda_overtakes_detection :
    let reports : List TargetReport := [.detection sighting, .bda strike]
    (reports.map TargetReport.atMs).Nodup ∧ reports.reverse.Perm reports ∧
      reportAll reports ≠ reportAll reports.reverse ∧
      ((reportAll reports).get 101).map Target.position = some sighting.position ∧
      ((reportAll reports.reverse).get 101).map Target.position = some unknownPosition := by
  refine ⟨by decide, List.reverse_perm _, ?_, by decide, by decide⟩
  intro h
  have hget := congrArg (fun b => (b.get 101).map Target.position) h
  revert hget
  decide

end TargetBoard
end TacticalMesh
