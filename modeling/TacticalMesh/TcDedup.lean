import TacticalMesh.OlsrRoutes

namespace TacticalMesh
set_option autoImplicit true

/-- What duplicate detection takes for an old message: at most 99 steps behind, without a wrap. -/
def Stale (lastSeq seq : UInt16) : Prop := seq ≤ lastSeq ∧ lastSeq - seq < 100

instance (lastSeq seq : UInt16) : Decidable (Stale lastSeq seq) :=
  inferInstanceAs (Decidable (_ ∧ _))

theorem stale_iff {last seq : UInt16} :
    Stale last seq ↔ seq.toNat ≤ last.toNat ∧ last.toNat < seq.toNat + 100 := by
  rw [Stale, UInt16.le_iff_toNat_le, UInt16.lt_iff_toNat_lt]
  have hhundred : (100 : UInt16).toNat = 100 := rfl
  rw [hhundred]
  apply and_congr_right
  intro h
  rw [UInt16.toNat_sub_of_le _ _ (UInt16.le_iff_toNat_le.2 h)]
  omega

namespace OlsrState

def shouldForwardTc (s : OlsrState) (tc : Tc) : Bool :=
  if tc.sender = s.localId then false
  else
    let lastSeq := (s.lastTcSeq tc.sender).getD 0
    !(decide (tc.seq ≤ lastSeq) && decide (lastSeq - tc.seq < 100))

def advertised (localId : UInt8) (tc : Tc) : Table UInt8 LinkQuality :=
  tc.advertisedNeighbors.foldl (fun m e => if e.1 ≠ localId then m.insert e.1 e.2 else m) .empty

theorem shouldForwardTc_iff {s : OlsrState} {tc : Tc} :
    s.shouldForwardTc tc ↔
      tc.sender ≠ s.localId ∧ ¬ Stale ((s.lastTcSeq tc.sender).getD 0) tc.seq := by
  rw [shouldForwardTc]
  split
  next h => simp [h]
  next h =>
    simp only [Bool.not_eq_true', Bool.and_eq_false_iff, decide_eq_false_iff_not, Stale]
    tauto

theorem processTc_snd (s : OlsrState) (tc : Tc) (fromLink : UInt8) (order : IterOrder) :
    (s.processTc tc fromLink order).2 = s.shouldForwardTc tc := by
  rw [processTc, shouldForwardTc]
  split
  next => rfl
  next =>
    simp only
    split
    next h => simp [h]
    next h =>
      rw [eq_comm, Bool.not_eq_true', ← Bool.not_eq_true, Bool.and_eq_true, decide_eq_true_iff,
        decide_eq_true_iff]
      exact h

theorem processTc_of_new {s : OlsrState} (h : s.shouldForwardTc tc) :
    s.processTc tc fromLink order = (recomputeRoutes
      { s with
        lastTcSeq := s.lastTcSeq.insert tc.sender tc.seq
        topology := s.topology.insert tc.sender (advertised s.localId tc) } order, true) := by
  obtain ⟨hne, hnew⟩ := shouldForwardTc_iff.1 h
  rw [processTc, if_neg hne]
  exact if_neg hnew

theorem processTc_of_old {s : OlsrState} (h : ¬ s.shouldForwardTc tc) :
    s.processTc tc fromLink order = (s, false) := by
  rw [shouldForwardTc_iff, not_and_not_right] at h
  rw [processTc]
  split
  next => rfl
  next hne => exact if_pos (h hne)

theorem processTc_exact_of_new {s : OlsrState} (h : s.shouldForwardTc tc) :
    (s.processTc tc fromLink order).1.RoutesExact := by
  rw [processTc_of_new h]
  exact recomputeRoutes_exact _ _

/-- Only an accepted message changes what is remembered of its sender. In particular nothing is
forgotten when the sender times out. -/
theorem handle_lastTcSeq (s : OlsrState) (e : OlsrEvent) (x : UInt8) :
    (s.handle e).lastTcSeq x = s.lastTcSeq x ∨
      ∃ tc fromLink order, e = .tc tc fromLink order ∧ tc.sender = x ∧ s.shouldForwardTc tc ∧
        (s.handle e).lastTcSeq x = some tc.seq := by
  cases e with
  | hello hello fromLink rssiDbm now order =>
    left
    rw [handle, processHello]
    split <;> rfl
  | tc tc fromLink order =>
    by_cases h : s.shouldForwardTc tc
    · rw [handle, processTc_of_new h]
      by_cases hx : tc.sender = x
      · right
        refine ⟨tc, fromLink, order, rfl, hx, h, ?_⟩
        subst hx
        exact Table.insert_self ..
      · exact .inl (Table.insert_of_ne _ _ (Ne.symm hx))
    · rw [handle, processTc_of_old h]
      exact .inl rfl
  | aging now staleOrder order =>
    have hforget : ∀ (ids : List UInt8) (s : OlsrState),
        (ids.foldl forget s).lastTcSeq = s.lastTcSeq := by
      intro ids
      induction ids with
      | nil => exact fun _ => rfl
      | cons id ids ih => exact fun s => ih (s.forget id)
    left
    simp only [handle, agingTick]
    split
    · rw [hforget]
    · split
      · exact congrFun (hforget _ s) x
      · exact congrFun (hforget _ s) x

def accepts (s : OlsrState) : OlsrEvent → Option Tc
  | .tc tc fromLink order => if (s.processTc tc fromLink order).2 then some tc else none
  | .hello .. => none
  | .aging .. => none

def acceptedFrom (x : UInt8) : OlsrState → List OlsrEvent → List Tc
  | _, [] => []
  | s, e :: events =>
    ((s.accepts e).filter (·.sender = x)).toList ++ acceptedFrom x (s.handle e) events

theorem accepts_eq_some {s : OlsrState} :
    s.accepts e = some tc ↔
      ∃ fromLink order, e = .tc tc fromLink order ∧ s.shouldForwardTc tc := by
  cases e with
  | tc tc' fromLink order =>
    rw [accepts, processTc_snd]
    constructor
    · intro h
      obtain ⟨hnew, htc⟩ := Option.ite_none_right_eq_some.1 h
      cases htc
      exact ⟨_, _, rfl, hnew⟩
    · rintro ⟨_, _, he, hnew⟩
      cases he
      exact if_pos hnew
  | hello => exact iff_of_false nofun nofun
  | aging => exact iff_of_false nofun nofun

theorem handle_lastTcSeq_eq (s : OlsrState) (e : OlsrEvent) (x : UInt8) :
    (s.handle e).lastTcSeq x =
      (((s.accepts e).filter (·.sender = x)).map Tc.seq).or (s.lastTcSeq x) := by
  rcases hmsg : (s.accepts e).filter (·.sender = x) with _ | tc
  · rcases s.handle_lastTcSeq e x with hsame | ⟨tc, fromLink, order, rfl, hx, hnew, -⟩
    · rw [hmsg]
      exact hsame
    · have haccepts := accepts_eq_some.2 ⟨fromLink, order, rfl, hnew⟩
      rw [haccepts, Option.filter_some, if_pos (decide_eq_true hx)] at hmsg
      cases hmsg
  · obtain ⟨haccepts, hx⟩ := Option.filter_eq_some_iff.1 hmsg
    obtain ⟨fromLink, order, rfl, hnew⟩ := accepts_eq_some.1 haccepts
    rw [hmsg, handle, processTc_of_new hnew, ← of_decide_eq_true hx]
    exact Table.insert_self ..

/-- What a node remembers of another one is the last number that it has accepted in the run,
whatever has timed out since. -/
theorem run_lastTcSeq (s : OlsrState) (events : List OlsrEvent) (x : UInt8) :
    (s.run events).lastTcSeq x =
      ((s.acceptedFrom x events).getLast?.map Tc.seq).or (s.lastTcSeq x) := by
  induction events generalizing s with
  | nil => rfl
  | cons e events ih =>
    have hlast (a : Option Tc) : a.toList.getLast? = a := by cases a <;> rfl
    have hrun : s.run (e :: events) = (s.handle e).run events := rfl
    rw [hrun, ih, handle_lastTcSeq_eq, acceptedFrom, List.getLast?_append, hlast, Option.map_or,
      Option.or_assoc]

def lastAccepted (localId x : UInt8) (events : List OlsrEvent) : ℕ :=
  (((new localId).acceptedFrom x events).getLast?.map fun tc => tc.seq.toNat).getD 0

theorem lastAccepted_eq (localId x : UInt8) (events : List OlsrEvent) :
    lastAccepted localId x events = ((((new localId).run events).lastTcSeq x).getD 0).toNat := by
  rw [run_lastTcSeq, lastAccepted]
  cases ((new localId).acceptedFrom x events).getLast? <;> rfl

/-- A message that a node takes over into its tables and routes. -/
structure Installs (s : OlsrState) (tc : Tc) (fromLink : UInt8) (order : IterOrder) : Prop where
  accepted : (s.processTc tc fromLink order).2 = true
  topology : (s.processTc tc fromLink order).1.topology tc.sender =
    some (advertised s.localId tc)
  routes : (s.processTc tc fromLink order).1.RoutesExact

theorem installs_iff {s : OlsrState} :
    s.Installs tc fromLink order ↔ s.shouldForwardTc tc := by
  constructor
  · intro h
    have haccepted := h.accepted
    rwa [processTc_snd] at haccepted
  · intro h
    refine ⟨(processTc_snd ..).trans h, ?_, processTc_exact_of_new h⟩
    rw [processTc_of_new h]
    exact Table.insert_self ..

/-- All along a run, the next message of node `x` is installed whenever there is no entry for it. -/
def Relearns (localId x : UInt8) (events : List OlsrEvent) : Prop :=
  ∀ pre tc fromLink order, pre ++ [.tc tc fromLink order] <+: events → tc.sender = x →
    ((new localId).run pre).topology x = none →
    ((new localId).run pre).Installs tc fromLink order

/-- A node is relearned all along a run exactly if no message of it that comes while there is no
entry for it has the number of the last one accepted, or one up to 99 steps behind. -/
theorem relearned_iff (localId x : UInt8) (hx : x ≠ localId) (events : List OlsrEvent) :
    Relearns localId x events ↔
      ∀ pre tc fromLink order, pre ++ [.tc tc fromLink order] <+: events → tc.sender = x →
        ((new localId).run pre).topology x = none →
        lastAccepted localId x pre < tc.seq.toNat ∨
          tc.seq.toNat + 100 ≤ lastAccepted localId x pre := by
  refine forall₄_congr fun pre tc fromLink order => forall₃_congr fun _ hsender _ => ?_
  have hlocal : ((new localId).run pre).localId = localId := run_localId _ pre
  rw [installs_iff, shouldForwardTc_iff, stale_iff, hlocal, hsender, and_iff_right hx,
    lastAccepted_eq]
  omega

/-- Node 1 hears a HELLO and a TC of node 2, which then times out. -/
def outage : List OlsrEvent :=
  [.hello ⟨2, [], 0⟩ 2 (-40) 0 fun _ => byteOrder,
    .tc ⟨2, 5, [], 0⟩ 2 fun _ => byteOrder,
    .aging 4000 byteOrder fun _ => byteOrder]

def comeback (seq : UInt16) : List OlsrEvent :=
  outage ++ [.tc ⟨2, seq, [], 5000⟩ 2 fun _ => byteOrder]

theorem outage_topology : ((new 1).run outage).topology 2 = none := by
  have hgone : (((new 1).run outage).topology 2).isNone := by decide +kernel
  exact Option.isNone_iff_eq_none.1 hgone

theorem comeback_relearned :
    ((new 1).run outage).topology 2 = none ∧ Relearns 1 2 (comeback 6) := by
  refine ⟨outage_topology, (relearned_iff 1 2 (by decide) (comeback 6)).2 ?_⟩
  intro pre tc fromLink order hpre _ _
  have hfirst : lastAccepted 1 2 (outage.take 1) = 0 := by decide +kernel
  have hback : lastAccepted 1 2 outage = 5 := by decide +kernel
  rcases pre with _ | ⟨e₁, _ | ⟨e₂, _ | ⟨e₃, _ | ⟨e₄, rest⟩⟩⟩⟩ <;>
    simp only [comeback, outage, List.cons_append, List.nil_append, List.cons_prefix_cons,
      reduceCtorEq, false_and, and_false, OlsrEvent.tc.injEq] at hpre
  · obtain ⟨rfl, ⟨rfl, -⟩, -⟩ := hpre
    exact .inl (hfirst.trans_lt (by decide))
  · obtain ⟨rfl, rfl, rfl, ⟨rfl, -⟩, -⟩ := hpre
    exact .inl (hback.trans_lt (by decide))
  · simp at hpre

/-- Node 2 restarts at sequence number 1, and its message is dropped. -/
theorem reboot_ignored :
    ((new 1).run outage).topology 2 = none ∧ lastAccepted 1 2 outage = 5 ∧
      ((new 1).run (comeback 1)).topology 2 = none ∧ ¬ Relearns 1 2 (comeback 1) := by
  have hold : ¬ ((new 1).run outage).shouldForwardTc ⟨2, 1, [], 5000⟩ := by decide +kernel
  have hsame : (new 1).run (comeback 1) = (new 1).run outage :=
    (List.foldl_append ..).trans (congrArg Prod.fst (processTc_of_old hold))
  refine ⟨outage_topology, by decide +kernel, hsame ▸ outage_topology, fun h => hold ?_⟩
  exact installs_iff.1 (h outage _ _ _ (List.prefix_refl _) rfl outage_topology)

end OlsrState
end TacticalMesh
