import TacticalMesh.LazyDijkstra
import TacticalMesh.OlsrTypes

namespace TacticalMesh
set_option autoImplicit true

structure OlsrState where
  localId : UInt8
  neighbors : Table UInt8 NeighborEntry
  twoHop : Table UInt8 (Finset UInt8)
  topology : Table UInt8 (Table UInt8 LinkQuality)
  routes : Table UInt8 RouteEntry
  lastTcSeq : Table UInt8 UInt16

/-- For every vertex, the order in which its edge table happens to be iterated. -/
abbrev IterOrder := UInt8 → KeyOrder UInt8

def byteOrder : KeyOrder UInt8 where
  keys := (List.finRange 256).map UInt8.ofFin
  nodup := (List.nodup_finRange 256).map uint8_ofFin_bijective.1
  complete k := List.mem_map.2 ⟨k.toFin, List.mem_finRange _, rfl⟩

namespace OlsrState

def new (localId : UInt8) : OlsrState where
  localId := localId
  neighbors := .empty
  twoHop := .empty
  topology := .empty
  routes := .empty
  lastTcSeq := .empty

def edges (s : OlsrState) (order : IterOrder) (u : UInt8) : List (UInt8 × ℕ) :=
  if u = s.localId then
    (s.neighbors.entries (order u)).map fun e => (e.1, linkCost e.2.linkQuality)
  else
    match s.topology u with
    | some m => (m.entries (order u)).map fun e => (e.1, linkCost e.2)
    | none => []

/-- Queue entries are popped by cost, then by node id. -/
def heapLe (a b : ℕ × UInt8) : Prop := a.1 < b.1 ∨ a.1 = b.1 ∧ a.2 ≤ b.2

instance : DecidableRel heapLe := fun _ _ => inferInstanceAs (Decidable (_ ∨ _))

/-- The state of the main loop after at most the given number of rounds. -/
def search (s : OlsrState) (order : IterOrder) (rounds : ℕ) : Search UInt8 :=
  (Search.start s.localId).run u32Max heapLe (s.edges order) rounds

def searchRounds : ℕ := 1 + 256 * u32Max

/-- Walk the predecessors of `next` back towards the local node, for at most `left` steps. -/
def traceBack (prev : Table UInt8 UInt8) (localId : UInt8) :
    ℕ → UInt8 → ℕ → UInt8 × ℕ
  | 0, next, hopCount => (next, hopCount)
  | left + 1, next, hopCount =>
    match prev next with
    | none => (next, hopCount)
    | some p =>
      if p = localId then (next, hopCount + 1)
      else traceBack prev localId left p (hopCount + 1)

def recomputeRoutes (s : OlsrState) (order : IterOrder) : OlsrState :=
  let found := s.search order searchRounds
  let newRoutes : Table UInt8 RouteEntry := fun dest =>
    if dest = s.localId then none
    else (found.dist dest).map fun cost =>
      let walk := traceBack found.prev s.localId Olsr.maxHops dest 0
      { destination := dest, nextHop := walk.1, cost := cost, hopCount := walk.2 }
  { s with routes := newRoutes }

def routeTo (s : OlsrState) (dst : UInt8) : Option RouteEntry := s.routes dst

/-- Remove a gateway everywhere and drop the nodes that are left without one. -/
def dropGateway (twoHop : Table UInt8 (Finset UInt8)) (id : UInt8) :
    Table UInt8 (Finset UInt8) :=
  fun n => ((twoHop n).map fun gateways => gateways.erase id).filter (· ≠ ∅)

def processHello (s : OlsrState) (hello : Hello) (_fromLink : UInt8) (rssiDbm : Int8)
    (now : ℕ) (order : IterOrder) : OlsrState :=
  let nodeId := hello.sender
  if nodeId = s.localId then s
  else
    let mcs := match hello.neighbors.find? fun e => e.1 = s.localId with
      | some e => e.2.mcs
      | none => 0
    let neighbors := s.neighbors.insert nodeId
      { nodeId := nodeId
        linkQuality := { rssiDbm := rssiDbm, lossRateX100 := 0, mcs := mcs }
        lastHelloMs := now
        lastSeenNeighbors := hello.neighbors.map fun e => e.1 }
    let addGateway (twoHop : Table UInt8 (Finset UInt8)) (e : UInt8 × LinkQuality) :=
      if e.1 ≠ s.localId ∧ (neighbors e.1).isNone then
        twoHop.insert e.1 (insert nodeId ((twoHop e.1).getD ∅))
      else twoHop
    let twoHop := hello.neighbors.foldl addGateway (dropGateway s.twoHop nodeId)
    recomputeRoutes { s with neighbors := neighbors, twoHop := twoHop } order

/-- The Boolean says whether the message is new and should be forwarded. -/
def processTc (s : OlsrState) (tc : Tc) (_fromLink : UInt8) (order : IterOrder) :
    OlsrState × Bool :=
  if tc.sender = s.localId then (s, false)
  else
    let lastSeq := (s.lastTcSeq tc.sender).getD 0
    -- 16-bit subtraction wraps
    if tc.seq ≤ lastSeq ∧ lastSeq - tc.seq < 100 then (s, false)
    else
      let entry := tc.advertisedNeighbors.foldl
        (fun m e => if e.1 ≠ s.localId then m.insert e.1 e.2 else m) Table.empty
      (recomputeRoutes
        { s with
          lastTcSeq := s.lastTcSeq.insert tc.sender tc.seq
          topology := s.topology.insert tc.sender entry } order, true)

/-- What `aging_loop` does to one neighbor that timed out. -/
def forget (s : OlsrState) (id : UInt8) : OlsrState :=
  { s with
    neighbors := s.neighbors.remove id
    topology := s.topology.remove id
    twoHop := dropGateway s.twoHop id }

def agingTick (s : OlsrState) (now : ℕ) (staleOrder : KeyOrder UInt8) (order : IterOrder) :
    OlsrState :=
  let stale := ((s.neighbors.entries staleOrder).filter
    fun e => neighborTimeoutMs < now - e.2.lastHelloMs).map fun e => e.1
  let aged := stale.foldl forget s
  if stale.isEmpty then aged
  else if (aged.neighbors.entries staleOrder).isEmpty then { aged with routes := .empty }
  else aged.recomputeRoutes order

section
variable {s : OlsrState} {n : UInt8}

theorem processHello_neighbors (s : OlsrState) (hello : Hello) :
    ((s.processHello hello fromLink rssiDbm now order).neighbors y).isSome ↔
      (s.neighbors y).isSome ∨ y = hello.sender ∧ y ≠ s.localId := by
  simp only [processHello]
  split
  next hlocal =>
    constructor
    · exact .inl
    · rintro (h | ⟨rfl, hne⟩)
      · exact h
      · exact absurd hlocal hne
  next hne =>
    simp only [recomputeRoutes, Table.insert_isSome]
    constructor
    · rintro (rfl | h)
      · exact .inr ⟨rfl, hne⟩
      · exact .inl h
    · rintro (h | ⟨rfl, -⟩)
      · exact .inr h
      · exact .inl rfl

theorem processTc_tables (s : OlsrState) (tc : Tc) (fromLink : UInt8) (order : IterOrder) :
    (s.processTc tc fromLink order).1.neighbors = s.neighbors ∧
      (s.processTc tc fromLink order).1.twoHop = s.twoHop := by
  simp only [processTc]
  split
  next => exact ⟨rfl, rfl⟩
  next => split <;> exact ⟨rfl, rfl⟩

def TimedOut (s : OlsrState) (now : ℕ) (n : UInt8) : Prop :=
  ∃ e, s.neighbors n = some e ∧ neighborTimeoutMs < now - e.lastHelloMs

/-- The neighbors that a tick removes, in the order in which it does. -/
def stale (s : OlsrState) (now : ℕ) (staleOrder : KeyOrder UInt8) : List UInt8 :=
  ((s.neighbors.entries staleOrder).filter
    fun e => neighborTimeoutMs < now - e.2.lastHelloMs).map fun e => e.1

theorem mem_stale (staleOrder : KeyOrder UInt8) :
    n ∈ s.stale now staleOrder ↔ s.TimedOut now n := by
  simp only [stale, TimedOut, List.mem_map, List.mem_filter, Prod.exists, Table.mem_entries,
    decide_eq_true_eq]
  constructor
  · rintro ⟨n, e, ⟨hn, he⟩, rfl⟩
    exact ⟨e, hn, he⟩
  · rintro ⟨e, hn, he⟩
    exact ⟨n, e, ⟨hn, he⟩, rfl⟩

theorem agingTick_tables (s : OlsrState) (now : ℕ) (staleOrder : KeyOrder UInt8)
    (order : IterOrder) :
    (s.agingTick now staleOrder order).neighbors =
        ((s.stale now staleOrder).foldl forget s).neighbors ∧
      (s.agingTick now staleOrder order).twoHop =
        ((s.stale now staleOrder).foldl forget s).twoHop := by
  rw [agingTick]
  split
  next => exact ⟨rfl, rfl⟩
  next => split <;> exact ⟨rfl, rfl⟩

theorem foldl_forget_neighbors (ids : List UInt8) :
    (ids.foldl forget s).neighbors n = if n ∈ ids then none else s.neighbors n := by
  induction ids generalizing s with
  | nil => rfl
  | cons id ids ih =>
    simp only [List.foldl_cons, ih, forget, Table.remove_apply, List.mem_cons]
    by_cases hids : n ∈ ids
    · simp [hids]
    · simp [hids]

theorem agingTick_neighbors_none :
    (s.agingTick now staleOrder order).neighbors n = none ↔
      s.neighbors n = none ∨ s.TimedOut now n := by
  rw [(s.agingTick_tables now staleOrder order).1, foldl_forget_neighbors,
    ← mem_stale staleOrder]
  split
  next hn => simp [hn]
  next hn => simp [hn]

theorem agingTick_neighbors (s : OlsrState)
    (h : ((s.agingTick now staleOrder order).neighbors n).isSome) : (s.neighbors n).isSome := by
  by_contra hnone
  rw [Option.not_isSome_iff_eq_none] at hnone
  rw [agingTick_neighbors_none.2 (.inl hnone)] at h
  cases h

end

end OlsrState
end TacticalMesh
