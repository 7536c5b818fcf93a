import TacticalMesh.LinkQualities
import TacticalMesh.TcCoverage

namespace TacticalMesh
set_option autoImplicit true

def Tc.Lists (tc : Tc) (links : Table UInt8 LinkQuality) : Prop :=
  ∀ v q, (v, q) ∈ tc.advertisedNeighbors ↔ links v = some q

namespace OlsrState
variable {s : OlsrState}

def links (s : OlsrState) : Table UInt8 LinkQuality :=
  fun v => (s.neighbors v).map NeighborEntry.linkQuality

theorem mem_links (s : OlsrState) (order : KeyOrder UInt8) (v : UInt8) (q : LinkQuality) :
    (v, q) ∈ (s.neighbors.entries order).map (fun e => (e.1, e.2.linkQuality)) ↔
      s.links v = some q := by
  simp only [links, List.mem_map, Prod.exists, Table.mem_entries, Prod.mk.injEq,
    Option.map_eq_some_iff]
  constructor
  · rintro ⟨v, e, he, rfl, rfl⟩
    exact ⟨e, he, rfl⟩
  · rintro ⟨e, he, rfl⟩
    exact ⟨v, e, he, rfl, rfl⟩

theorem advertised_local (localId : UInt8) (tc : Tc) : advertised localId tc localId = none := by
  have hfold : ∀ (l : List (UInt8 × LinkQuality)) (m : Table UInt8 LinkQuality),
      m localId = none →
        l.foldl (fun m e => if e.1 ≠ localId then m.insert e.1 e.2 else m) m localId = none := by
    intro l
    induction l with
    | nil => exact fun m h => h
    | cons e l ih =>
      refine fun m h => ih _ ?_
      simp only
      split
      next hne => rw [Table.insert_of_ne _ _ (Ne.symm hne), h]
      next => exact h
  exact hfold tc.advertisedNeighbors .empty rfl

theorem advertised_isSome {localId : UInt8} (hv : v ≠ localId)
    (h : (v, q) ∈ tc.advertisedNeighbors) : (advertised localId tc v).isSome := by
  have hfold : ∀ (l : List (UInt8 × LinkQuality)) (m : Table UInt8 LinkQuality),
      ((v, q) ∈ l ∨ (m v).isSome) →
        (l.foldl (fun m e => if e.1 ≠ localId then m.insert e.1 e.2 else m) m v).isSome := by
    intro l
    induction l with
    | nil => exact fun m h => h.resolve_left List.not_mem_nil
    | cons e l ih =>
      intro m h
      apply ih
      rcases h with h | h
      · rcases List.mem_cons.1 h with rfl | h
        · simp [hv]
        · exact .inl h
      · right
        simp only
        split
        next => exact (Table.insert_isSome ..).2 (.inr h)
        next => exact h
  exact hfold tc.advertisedNeighbors .empty (.inl h)

theorem advertised_lists {localId : UInt8} (h : tc.Lists known) (v : UInt8) :
    advertised localId tc v = if v = localId then none else known v := by
  split
  next hv => rw [hv, advertised_local]
  next hv =>
    cases hrow : advertised localId tc v with
    | some q => exact ((h v q).1 (advertised_mem hrow)).symm
    | none =>
      cases hknown : known v with
      | none => rfl
      | some q =>
        have hsome := advertised_isSome hv ((h v q).2 hknown)
        rw [hrow] at hsome
        cases hsome

theorem foldl_forget_topology (ids : List UInt8) :
    (ids.foldl forget s).topology u = if u ∈ ids then none else s.topology u := by
  induction ids generalizing s with
  | nil => rfl
  | cons id ids ih =>
    simp only [List.foldl_cons, ih, forget, Table.remove_apply, List.mem_cons]
    by_cases hids : u ∈ ids
    · simp [hids]
    · simp [hids]

/-- A row of the topology stays, is replaced by a message that is new, or goes with a neighbor that
has timed out. -/
theorem handle_topology (s : OlsrState) (e : OlsrEvent) (u : UInt8) :
    (s.handle e).lastTcSeq u = s.lastTcSeq u ∧
        ((s.handle e).topology u = s.topology u ∨
          (s.handle e).topology u = none ∧
            ∃ now staleOrder order, e = .aging now staleOrder order ∧ s.TimedOut now u) ∨
      ∃ tc fromLink order, e = .tc tc fromLink order ∧ tc.sender = u ∧
        (s.handle e).lastTcSeq u = some tc.seq ∧
        (s.handle e).topology u = some (advertised s.localId tc) := by
  cases e with
  | hello hello fromLink rssiDbm now order =>
    left
    rw [handle, processHello]
    split <;> exact ⟨rfl, .inl rfl⟩
  | tc tc fromLink order =>
    by_cases hnew : s.shouldForwardTc tc
    · rw [handle, processTc_of_new hnew]
      by_cases hu : tc.sender = u
      · subst hu
        exact .inr ⟨tc, fromLink, order, rfl, rfl, Table.insert_self .., Table.insert_self ..⟩
      · exact .inl ⟨Table.insert_of_ne _ _ (Ne.symm hu),
          .inl (Table.insert_of_ne _ _ (Ne.symm hu))⟩
    · rw [handle, processTc_of_old hnew]
      exact .inl ⟨rfl, .inl rfl⟩
  | aging now staleOrder order =>
    left
    have hlast : (s.handle (.aging now staleOrder order)).lastTcSeq u = s.lastTcSeq u := by
      rcases s.handle_lastTcSeq (.aging now staleOrder order) u with hsame | ⟨_, _, _, he, _⟩
      · exact hsame
      · cases he
    have htopology : (s.handle (.aging now staleOrder order)).topology =
        ((s.stale now staleOrder).foldl forget s).topology := by
      simp only [handle, agingTick]
      split
      next => rfl
      next => split <;> rfl
    refine ⟨hlast, ?_⟩
    rw [htopology, foldl_forget_topology]
    split
    next hu =>
      exact .inr ⟨rfl, now, staleOrder, order, rfl, (mem_stale staleOrder).1 hu⟩
    next => exact .inl rfl

end OlsrState

/-- A frame whose topology message, if it carries one, is among those that were made. -/
def Sending.Quotes (codec : Codec) (tcs : List Tc) (t : Sending) : Prop :=
  t.msg.kind = .olsrTc → ∀ tc, codec.decodeTc t.msg.payload = some tc → tc ∈ tcs

namespace Sending
variable {codec : Codec} {tcs tcs' : List Tc} {t : Sending}

theorem Quotes.mono (h : t.Quotes codec tcs) (hsub : tcs ⊆ tcs') : t.Quotes codec tcs' :=
  fun hkind tc htc => hsub (h hkind tc htc)

theorem quotes_of_kind (h : t.msg.kind ≠ .olsrTc) : t.Quotes codec tcs :=
  fun hkind => absurd hkind h

theorem quotes_carries (codec : Codec) (radio : UInt8 → List UInt8) (tcs : List Tc) :
    Conveys codec radio (Quotes codec tcs) (Quotes codec tcs) fun _ => True where
  relay t _ ht _ _ _ _ u hu := by
    rw [Quotes, (next_src hu).2]
    exact ht
  msg _ _ _ _ _ := trivial
  forward _ _ ht _ _ hkind _ := fun _ => ht hkind

end Sending

/-- Every row of the topology is what a message says that was made, and the last one of its sender
that was accepted. -/
def OlsrState.Rowed (tcs : List Tc) (s : OlsrState) : Prop :=
  ∀ u row, s.topology u = some row →
    ∃ tc ∈ tcs, tc.sender = u ∧ s.lastTcSeq u = some tc.seq ∧ row = advertised s.localId tc

theorem OlsrState.Rowed.handle (h : Rowed tcs s) (hsub : tcs ⊆ tcs')
    (hmade : ∀ tc link order, e = .tc tc link order → tc ∈ tcs') : (s.handle e).Rowed tcs' := by
  intro u row hrow
  rw [s.handle_localId e]
  rcases s.handle_topology e u with ⟨hlast, hsame | ⟨hnone, -⟩⟩ |
    ⟨tc, link, order, he, hu, hlast, hnew⟩
  · rw [hsame] at hrow
    obtain ⟨tc, htc, hu, hseq, hrow⟩ := h u row hrow
    exact ⟨tc, hsub htc, hu, hlast.trans hseq, hrow⟩
  · rw [hnone] at hrow
    cases hrow
  · rw [hnew] at hrow
    cases hrow
    exact ⟨tc, hmade tc link order he, hu, hlast, rfl⟩

def Net.made {crypto : Crypto} (net : Net crypto) : Event → Option Tc
  | .tcTick n now order _ =>
    some (Node.tc { net.nodes n with tcSeq := (net.nodes n).tcSeq + 1 } now order)
  | _ => none

/-- The mesh with all topology messages that its nodes have made, the oldest first. -/
structure Announcing (crypto : Crypto) where
  net : Net crypto
  tcs : List Tc

namespace Announcing
variable {crypto : Crypto} (codec : Codec) (radio : UInt8 → List UInt8)

def start (fleet : Fleet crypto) (channel recorded : UInt8) : Announcing crypto :=
  ⟨.start fleet channel recorded, []⟩

def step (s : Announcing crypto) (e : Event) : Option (Announcing crypto) :=
  (s.net.step codec radio e).map fun net => ⟨net, s.tcs ++ (s.net.made e).toList⟩

def announced (s : Announcing crypto) (o : UInt8) : List Tc :=
  s.tcs.filter fun tc => tc.sender = o

variable {codec : Codec} {fleet : Fleet crypto} {radio : UInt8 → List UInt8}
variable {s s' : Announcing crypto}

theorem step_eq_some : s.step codec radio e = some s' ↔
    s.net.step codec radio e = some s'.net ∧ s'.tcs = s.tcs ++ (s.net.made e).toList := by
  rw [step, Option.map_eq_some_iff]
  constructor
  · rintro ⟨net, hnet, rfl⟩
    exact ⟨hnet, rfl⟩
  · rintro ⟨hnet, htcs⟩
    exact ⟨s'.net, hnet, by rw [← htcs]⟩

theorem run_net {events : List Event} (h : events.foldlM (step codec radio) s = some s') :
    events.foldlM (Net.step codec radio) s.net = some s'.net := by
  induction events generalizing s with
  | nil =>
    cases h
    rfl
  | cons e events ih =>
    rw [List.foldlM_cons, Option.bind_eq_bind, Option.bind_eq_some_iff] at h ⊢
    obtain ⟨next, hstep, hrest⟩ := h
    exact ⟨next.net, (step_eq_some.1 hstep).1, ih hrest⟩

/-- Nothing but what was made is on its way or installed. -/
structure Honest (codec : Codec) (fleet : Fleet crypto) (radio : UInt8 → List UInt8)
    (s : Announcing crypto) : Prop where
  held : s.net.Holds fleet radio (Sending.Quotes codec s.tcs) (Sending.Quotes codec s.tcs)
    fun _ => True
  rows : ∀ x, (s.net.nodes x).olsr.Rowed s.tcs

theorem start_honest (codec : Codec) (fleet : Fleet crypto) (radio : UInt8 → List UInt8)
    (channel recorded : UInt8) : (start fleet channel recorded).Honest codec fleet radio where
  held := Net.start_holds fleet channel recorded
  rows _ _ _ h := by cases h

theorem Honest.step (h : s.Honest codec fleet radio) (hstep : s.step codec radio e = some s') :
    s'.Honest codec fleet radio := by
  obtain ⟨hnet, htcs⟩ := step_eq_some.1 hstep
  have hsub : s.tcs ⊆ s'.tcs := htcs ▸ List.subset_append_left _ _
  have held := h.held.mono (fun _ ht => ht.mono hsub) (fun _ ht => ht.mono hsub) fun _ h => h
  constructor
  case held =>
    refine held.step_sending (Sending.quotes_carries codec radio s'.tcs) hnet ?_ ?_ ?_
      (fun _ _ _ hs _ _ _ => hs) fun _ _ _ => Sending.quotes_of_kind fun h => by cases h
    · exact fun _ _ _ _ _ => Sending.quotes_of_kind fun h => by cases h
    · rintro n now order draw rfl r - - - tc htc
      cases (codec.decodeTc_encodeOlsr _).symm.trans htc
      rw [htcs]
      exact List.mem_append_right _ (List.mem_singleton.2 rfl)
    · intro s m prio draw _ _ hs
      refine Sending.quotes_of_kind fun hkind => ?_
      rw [hs] at hkind
      cases hkind
  case rows =>
    intro x
    rcases held.step_olsr hnet x with hsame | ⟨ev, hprompts, hev⟩
    · rw [hsame]
      intro u row hrow
      obtain ⟨tc, htc, hrest⟩ := h.rows x u row hrow
      exact ⟨tc, hsub htc, hrest⟩
    · rw [hev]
      refine (h.rows x).handle hsub fun tc link order htc => ?_
      subst htc
      cases e with
      | deliver i env =>
        obtain ⟨t, ht, -, -, hkind, hdec⟩ := hprompts
        exact ht hkind tc (by rw [Codec.decodeTc, hdec])
      | agingTick n now staleOrder order => cases hprompts.2
      | helloTick | tcTick | outbound | transmit | runTask => exact hprompts.elim

theorem run_honest {events : List Event}
    (hrun : events.foldlM (step codec radio) (start fleet channel recorded) = some s) :
    s.Honest codec fleet radio := by
  have hleads : LeadsTo (step codec radio) (start fleet channel recorded) s := ⟨events, hrun⟩
  exact hleads.invariant (start_honest codec fleet radio channel recorded)
    fun _ _ _ h hstep => h.step hstep

end Announcing
end TacticalMesh
