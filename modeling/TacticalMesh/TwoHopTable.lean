import TacticalMesh.OlsrRoutes
import TacticalMesh.Runs

namespace TacticalMesh
set_option autoImplicit true

namespace OlsrState
variable {s : OlsrState} {n g id : UInt8}

/-- The neighbor `g` named `n` in its last HELLO. -/
def Lists (s : OlsrState) (g n : UInt8) : Prop :=
  ∃ e, s.neighbors g = some e ∧ n ∈ e.lastSeenNeighbors

/-- The node `n` is filed under the gateway `g`. -/
def Via (twoHop : Table UInt8 (Finset UInt8)) (n g : UInt8) : Prop :=
  ∃ gateways, twoHop n = some gateways ∧ g ∈ gateways

/-- The keys are the nodes that are not neighbors but named by some, and each one is filed under
all neighbors that name it. -/
structure TwoHopExact (s : OlsrState) : Prop where
  key : ∀ n, (s.twoHop n).isSome ↔ n ≠ s.localId ∧ s.neighbors n = none ∧ ∃ g, s.Lists g n
  gateways : ∀ n gateways, s.twoHop n = some gateways → ∀ g, g ∈ gateways ↔ s.Lists g n

/-- No key is without a gateway, and the node is no neighbor of its own. -/
structure WellKept (s : OlsrState) : Prop where
  nonempty : ∀ n gateways, s.twoHop n = some gateways → gateways.Nonempty
  local_absent : s.neighbors s.localId = none

theorem twoHopExact_iff (h : s.WellKept) :
    s.TwoHopExact ↔
      ∀ n g, Via s.twoHop n g ↔ n ≠ s.localId ∧ s.neighbors n = none ∧ s.Lists g n := by
  constructor
  · intro hexact n g
    constructor
    · rintro ⟨gateways, hn, hg⟩
      obtain ⟨hne, hnone, -⟩ := (hexact.key n).1 (Option.isSome_of_eq_some hn)
      exact ⟨hne, hnone, (hexact.gateways n gateways hn g).1 hg⟩
    · rintro ⟨hne, hnone, hg⟩
      obtain ⟨gateways, hn⟩ := Option.isSome_iff_exists.1 ((hexact.key n).2 ⟨hne, hnone, g, hg⟩)
      exact ⟨gateways, hn, (hexact.gateways n gateways hn g).2 hg⟩
  · intro hvia
    constructor
    case key =>
      intro n
      constructor
      · intro hn
        obtain ⟨gateways, hn⟩ := Option.isSome_iff_exists.1 hn
        obtain ⟨g, hg⟩ := h.nonempty n gateways hn
        obtain ⟨hne, hnone, hlists⟩ := (hvia n g).1 ⟨gateways, hn, hg⟩
        exact ⟨hne, hnone, g, hlists⟩
      · rintro ⟨hne, hnone, g, hg⟩
        obtain ⟨gateways, hn, -⟩ := (hvia n g).2 ⟨hne, hnone, hg⟩
        exact Option.isSome_of_eq_some hn
    case gateways =>
      intro n gateways hn g
      obtain ⟨g', hg'⟩ := h.nonempty n gateways hn
      obtain ⟨hne, hnone, -⟩ := (hvia n g').1 ⟨gateways, hn, hg'⟩
      constructor
      · intro hg
        exact ((hvia n g).1 ⟨gateways, hn, hg⟩).2.2
      · intro hg
        obtain ⟨gateways', hn', hg'⟩ := (hvia n g).2 ⟨hne, hnone, hg⟩
        cases hn.symm.trans hn'
        exact hg'

theorem via_dropGateway {twoHop : Table UInt8 (Finset UInt8)} :
    Via (dropGateway twoHop id) n g ↔ Via twoHop n g ∧ g ≠ id := by
  simp only [Via, dropGateway, Option.filter_eq_some_iff, Option.map_eq_some_iff]
  constructor
  · rintro ⟨_, ⟨⟨gateways, hn, rfl⟩, -⟩, hg⟩
    rw [Finset.mem_erase] at hg
    exact ⟨⟨gateways, hn, hg.2⟩, hg.1⟩
  · rintro ⟨⟨gateways, hn, hg⟩, hne⟩
    have herase : g ∈ gateways.erase id := Finset.mem_erase.2 ⟨hne, hg⟩
    exact ⟨_, ⟨⟨gateways, hn, rfl⟩, decide_eq_true (Finset.ne_empty_of_mem herase)⟩, herase⟩

theorem nonempty_dropGateway {twoHop : Table UInt8 (Finset UInt8)}
    (h : dropGateway twoHop id n = some gateways) : gateways.Nonempty := by
  rw [dropGateway, Option.filter_eq_some_iff] at h
  exact Finset.nonempty_of_ne_empty (of_decide_eq_true h.2)

/-- File the listed nodes that a condition lets through under `id`. -/
def addGateway (id : UInt8) (p : UInt8 → Prop) [DecidablePred p]
    (twoHop : Table UInt8 (Finset UInt8)) (e : UInt8 × LinkQuality) : Table UInt8 (Finset UInt8) :=
  if p e.1 then twoHop.insert e.1 (insert id ((twoHop e.1).getD ∅)) else twoHop

section
variable {p : UInt8 → Prop} [DecidablePred p] {twoHop : Table UInt8 (Finset UInt8)}

theorem via_addGateway :
    Via (addGateway id p twoHop e) n g ↔ Via twoHop n g ∨ g = id ∧ p n ∧ n = e.1 := by
  rw [addGateway]
  split
  next hp =>
    rw [Via, Table.insert_apply]
    by_cases hn : n = e.1
    · subst hn
      rw [if_pos rfl, Via]
      cases twoHop e.1 with
      | none => simp [hp]
      | some gateways => simp [hp, or_comm]
    · rw [if_neg hn, Via]
      simp [hn]
  next hp =>
    constructor
    · exact .inl
    · rintro (h | ⟨-, hn, rfl⟩)
      · exact h
      · exact absurd hn hp

theorem via_addGateways (listed : List (UInt8 × LinkQuality)) :
    Via (listed.foldl (addGateway id p) twoHop) n g ↔
      Via twoHop n g ∨ g = id ∧ p n ∧ n ∈ listed.map fun e => e.1 := by
  induction listed generalizing twoHop with
  | nil => simp
  | cons e listed ih =>
    rw [List.foldl_cons, ih, via_addGateway, List.map_cons, List.mem_cons]
    tauto

theorem nonempty_addGateways (listed : List (UInt8 × LinkQuality))
    (h : ∀ n gateways, twoHop n = some gateways → gateways.Nonempty) :
    ∀ n gateways, listed.foldl (addGateway id p) twoHop n = some gateways →
      gateways.Nonempty := by
  induction listed generalizing twoHop with
  | nil => exact h
  | cons e listed ih =>
    apply ih
    intro n gateways hn
    rw [addGateway] at hn
    split at hn
    next =>
      rw [Table.insert_apply] at hn
      split at hn
      next =>
        cases hn
        exact Finset.insert_nonempty _ _
      next => exact h n gateways hn
    next => exact h n gateways hn

end

section
variable {hello : Hello} {fromLink : UInt8} {rssiDbm : Int8} {now : ℕ} {order : IterOrder}

theorem processHello_twoHop (h : hello.sender ≠ s.localId) :
    (s.processHello hello fromLink rssiDbm now order).twoHop =
      hello.neighbors.foldl
        (addGateway hello.sender fun n =>
          n ≠ s.localId ∧
            ((s.processHello hello fromLink rssiDbm now order).neighbors n).isNone)
        (dropGateway s.twoHop hello.sender) := by
  rw [processHello, if_neg h]
  rfl

theorem processHello_neighbors_none (h : hello.sender ≠ s.localId) :
    (s.processHello hello fromLink rssiDbm now order).neighbors n = none ↔
      s.neighbors n = none ∧ n ≠ hello.sender := by
  rw [← Option.not_isSome_iff_eq_none, processHello_neighbors, not_or,
    Option.not_isSome_iff_eq_none]
  apply and_congr_right
  intro _
  constructor
  · rintro hn rfl
    exact hn ⟨rfl, h⟩
  · exact fun hn hsender => hn hsender.1

theorem processHello_lists (h : hello.sender ≠ s.localId) :
    (s.processHello hello fromLink rssiDbm now order).Lists g n ↔
      g = hello.sender ∧ (n ∈ hello.neighbors.map fun e => e.1) ∨
        g ≠ hello.sender ∧ s.Lists g n := by
  rw [processHello, if_neg h]
  simp only [Lists, recomputeRoutes, Table.insert_apply]
  split
  next hg => simp [hg]
  next hg => simp [hg]

end

theorem via_foldl_forget (ids : List UInt8) :
    Via (ids.foldl forget s).twoHop n g ↔ Via s.twoHop n g ∧ g ∉ ids := by
  induction ids generalizing s with
  | nil => simp
  | cons id ids ih =>
    rw [List.foldl_cons, ih, forget, via_dropGateway, List.mem_cons, not_or, and_assoc]

theorem nonempty_foldl_forget (ids : List UInt8)
    (h : ∀ n gateways, s.twoHop n = some gateways → gateways.Nonempty) :
    ∀ n gateways, (ids.foldl forget s).twoHop n = some gateways → gateways.Nonempty := by
  induction ids generalizing s with
  | nil => exact h
  | cons id ids ih =>
    apply ih
    intro n gateways hn
    exact nonempty_dropGateway hn

theorem agingTick_via :
    Via (s.agingTick now staleOrder order).twoHop n g ↔
      Via s.twoHop n g ∧ ¬ s.TimedOut now g := by
  rw [(s.agingTick_tables now staleOrder order).2, via_foldl_forget, mem_stale]

theorem agingTick_lists :
    (s.agingTick now staleOrder order).Lists g n ↔ s.Lists g n ∧ ¬ s.TimedOut now g := by
  rw [Lists, (s.agingTick_tables now staleOrder order).1, foldl_forget_neighbors,
    ← mem_stale staleOrder]
  split
  next hg => simp [hg]
  next hg => simp [hg, Lists]

theorem wellKept_new (localId : UInt8) : (new localId).WellKept where
  nonempty n gateways h := by cases h
  local_absent := rfl

theorem WellKept.handle (h : s.WellKept) (e : OlsrEvent) : (s.handle e).WellKept := by
  cases e with
  | hello hello fromLink rssiDbm now order =>
    by_cases hself : hello.sender = s.localId
    · rw [OlsrState.handle, processHello, if_pos hself]
      exact h
    · constructor
      case nonempty =>
        rw [OlsrState.handle, processHello_twoHop hself]
        apply nonempty_addGateways
        intro n gateways hn
        exact nonempty_dropGateway hn
      case local_absent =>
        rw [handle_localId, OlsrState.handle, processHello_neighbors_none hself]
        exact ⟨h.local_absent, Ne.symm hself⟩
  | tc tc fromLink order =>
    obtain ⟨hneighbors, htwoHop⟩ := s.processTc_tables tc fromLink order
    constructor
    case nonempty =>
      rw [OlsrState.handle, htwoHop]
      exact h.nonempty
    case local_absent =>
      rw [handle_localId, OlsrState.handle, hneighbors]
      exact h.local_absent
  | aging now staleOrder order =>
    constructor
    case nonempty =>
      rw [OlsrState.handle, (s.agingTick_tables now staleOrder order).2]
      exact nonempty_foldl_forget _ h.nonempty
    case local_absent =>
      rw [handle_localId, OlsrState.handle, agingTick_neighbors_none]
      exact .inl h.local_absent

theorem wellKept_run (localId : UInt8) (events : List OlsrEvent) :
    (events.foldl OlsrState.handle (new localId)).WellKept := by
  induction events using List.reverseRecOn with
  | nil => exact wellKept_new localId
  | append_singleton events e ih =>
    rw [List.foldl_append]
    exact ih.handle e

/-- A HELLO that does not turn a filed node into a neighbor, or a tick that removes no neighbor
which another one still names. -/
def Refiles (s : OlsrState) : OlsrEvent → Prop
  | .hello hello _ _ _ _ =>
    hello.sender = s.localId ∨ (s.neighbors hello.sender).isSome ∨ ∀ g, ¬ s.Lists g hello.sender
  | .tc _ _ _ => True
  | .aging now _ _ => ∀ n, s.TimedOut now n → ∀ g, s.Lists g n → s.TimedOut now g

theorem processHello_exact_iff (h : s.WellKept) (hexact : s.TwoHopExact)
    (hself : hello.sender ≠ s.localId) :
    (s.processHello hello fromLink rssiDbm now order).TwoHopExact ↔
      (s.neighbors hello.sender).isSome ∨ ∀ g, ¬ s.Lists g hello.sender := by
  have hkept := h.handle (.hello hello fromLink rssiDbm now order)
  have hlocal := handle_localId s (.hello hello fromLink rssiDbm now order)
  have hvia := (twoHopExact_iff h).1 hexact
  simp only [OlsrState.handle] at hkept hlocal
  rw [twoHopExact_iff hkept, hlocal]
  simp only [processHello_twoHop hself, via_addGateways, via_dropGateway, hvia,
    Option.isNone_iff_eq_none, processHello_neighbors_none hself, processHello_lists hself]
  constructor
  · intro hall
    rw [or_iff_not_imp_left, Option.not_isSome_iff_eq_none]
    intro hnone g hg
    have hne : g ≠ hello.sender := by
      rintro rfl
      obtain ⟨e, he, -⟩ := hg
      cases hnone.symm.trans he
    have hbad := (hall hello.sender g).1 (.inl ⟨⟨hself, hnone, hg⟩, hne⟩)
    exact hbad.2.1.2 rfl
  · intro hrefiles n g
    have hsender : s.neighbors n = none → s.Lists g n → n ≠ hello.sender := by
      rintro hnone hg rfl
      rcases hrefiles with hsome | hunnamed
      · rw [hnone] at hsome
        cases hsome
      · exact hunnamed g hg
    tauto

theorem agingTick_exact_iff (h : s.WellKept) (hexact : s.TwoHopExact) :
    (s.agingTick now staleOrder order).TwoHopExact ↔
      ∀ n, s.TimedOut now n → ∀ g, s.Lists g n → s.TimedOut now g := by
  have hkept := h.handle (.aging now staleOrder order)
  have hlocal := handle_localId s (.aging now staleOrder order)
  have hvia := (twoHopExact_iff h).1 hexact
  simp only [OlsrState.handle] at hkept hlocal
  rw [twoHopExact_iff hkept, hlocal]
  simp only [agingTick_via, hvia, agingTick_neighbors_none, agingTick_lists]
  constructor
  · intro hall n hn g hg
    by_contra hfresh
    obtain ⟨e, he, hlate⟩ := hn
    have hne : n ≠ s.localId := by
      rintro rfl
      cases h.local_absent.symm.trans he
    have hbad := (hall n g).2 ⟨hne, .inr ⟨e, he, hlate⟩, hg, hfresh⟩
    cases hbad.1.2.1.symm.trans he
  · intro hrefiles n g
    have hlost := hrefiles n
    constructor
    · rintro ⟨⟨hne, hnone, hg⟩, hfresh⟩
      exact ⟨hne, .inl hnone, hg, hfresh⟩
    · rintro ⟨hne, hnone | hn, hg, hfresh⟩
      · exact ⟨⟨hne, hnone, hg⟩, hfresh⟩
      · exact absurd (hlost hn g hg) hfresh

theorem handle_exact_iff (h : s.WellKept) (hexact : s.TwoHopExact) (e : OlsrEvent) :
    (s.handle e).TwoHopExact ↔ s.Refiles e := by
  cases e with
  | hello hello fromLink rssiDbm now order =>
    rw [handle, Refiles]
    by_cases hself : hello.sender = s.localId
    · rw [processHello, if_pos hself]
      exact ⟨fun _ => .inl hself, fun _ => hexact⟩
    · rw [processHello_exact_iff h hexact hself]
      exact ⟨.inr, fun hr => hr.resolve_left hself⟩
  | tc tc fromLink order =>
    have hkept := h.handle (.tc tc fromLink order)
    have hlocal := handle_localId s (.tc tc fromLink order)
    obtain ⟨hneighbors, htwoHop⟩ := s.processTc_tables tc fromLink order
    have hvia := (twoHopExact_iff h).1 hexact
    simp only [handle] at hkept hlocal
    rw [handle, twoHopExact_iff hkept, hlocal, htwoHop, hneighbors]
    simp only [Lists, hneighbors]
    exact ⟨fun _ => trivial, fun _ => hvia⟩
  | aging now staleOrder order => exact agingTick_exact_iff h hexact

theorem twoHopExact_new (localId : UInt8) : (new localId).TwoHopExact where
  key n := by simp [new, Lists]
  gateways n gateways h := by cases h

/-- The table stays exact along a run exactly if no step makes a filed node a neighbor and none
removes a neighbor that another one still names. -/
theorem twoHop_exact_iff (localId : UInt8) (events : List OlsrEvent) :
    (∀ pre, pre <+: events → ((new localId).run pre).TwoHopExact) ↔
      ∀ pre e, pre ++ [e] <+: events → ((new localId).run pre).Refiles e :=
  foldl_invariant_iff (twoHopExact_new localId) (wellKept_run localId)
    fun _ e hkept hexact => handle_exact_iff hkept hexact e

/-- Every gateway is a neighbor that names the node. -/
def Named (s : OlsrState) : Prop :=
  ∀ n g, Via s.twoHop n g → n ≠ s.localId ∧ s.Lists g n

theorem Named.handle (h : s.Named) (e : OlsrEvent) : (s.handle e).Named := by
  intro n g
  rw [handle_localId]
  cases e with
  | hello hello fromLink rssiDbm now order =>
    rw [OlsrState.handle]
    by_cases hself : hello.sender = s.localId
    · rw [processHello, if_pos hself]
      exact h n g
    · rw [processHello_twoHop hself, via_addGateways, via_dropGateway, processHello_lists hself]
      rintro (⟨hvia, hne⟩ | ⟨hg, ⟨hlocal, -⟩, hlisted⟩)
      · exact ⟨(h n g hvia).1, .inr ⟨hne, (h n g hvia).2⟩⟩
      · exact ⟨hlocal, .inl ⟨hg, hlisted⟩⟩
  | tc tc fromLink order =>
    obtain ⟨hneighbors, htwoHop⟩ := s.processTc_tables tc fromLink order
    rw [OlsrState.handle, htwoHop, Lists, hneighbors]
    exact h n g
  | aging now staleOrder order =>
    rw [OlsrState.handle, agingTick_via, agingTick_lists]
    rintro ⟨hvia, hfresh⟩
    exact ⟨(h n g hvia).1, (h n g hvia).2, hfresh⟩

/-- No gateway in the table has departed or has stopped naming the node. -/
theorem named_run (localId : UInt8) (events : List OlsrEvent) :
    ((new localId).run events).Named := by
  induction events using List.reverseRecOn with
  | nil =>
    rintro n g ⟨gateways, hn, -⟩
    cases hn
  | append_singleton events e ih =>
    rw [run, List.foldl_append]
    exact ih.handle e

def helloEvent (sender : UInt8) (listed : List UInt8) (now : ℕ) : OlsrEvent :=
  .hello ⟨sender, listed.map fun n => (n, ⟨-50, 0, 0⟩), now⟩ sender (-50) now fun _ => byteOrder

/-- Node 2 names node 3, and then node 1 hears node 3 itself. -/
def promotion : List OlsrEvent := [helloEvent 2 [3] 0, helloEvent 3 [] 1]

/-- Node 1 hears node 3, then node 2, which names it, and then no more from node 3. -/
def departure : List OlsrEvent :=
  [helloEvent 3 [] 0, helloEvent 2 [3] 3000, .aging 3001 byteOrder fun _ => byteOrder]

/-- Node 3 stays filed as a neighbor, and is not filed again when it is one no more. -/
theorem twoHop_stale_and_missing :
    ¬ ((new 1).run promotion).TwoHopExact ∧ ¬ ((new 1).run departure).TwoHopExact := by
  constructor
  · intro h
    have hfiled : (((new 1).run promotion).twoHop 3).isSome := rfl
    have hneighbor : (((new 1).run promotion).neighbors 3).isSome := rfl
    rw [((h.key 3).1 hfiled).2.1] at hneighbor
    cases hneighbor
  · intro h
    have hnamed : ((new 1).run departure).Lists 2 3 := ⟨_, rfl, List.mem_singleton_self 3⟩
    have hgone : ((new 1).run departure).neighbors 3 = none := rfl
    have hfiled := (h.key 3).2 ⟨by decide, hgone, 2, hnamed⟩
    have habsent : ((new 1).run departure).twoHop 3 = none := rfl
    rw [habsent] at hfiled
    cases hfiled

end OlsrState
end TacticalMesh
