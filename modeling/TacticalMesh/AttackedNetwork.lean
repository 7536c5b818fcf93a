import TacticalMesh.HeaderCodec
import TacticalMesh.NetContents
import TacticalMesh.Payloads

namespace TacticalMesh
set_option autoImplicit true

/-- A step of a net that is attacked: one of its own, or bytes that come from outside and that
node `r` is about to hear. -/
inductive AttackEvent where
  | own (e : Event)
  | inject (r : UInt8) (raw : Bytes)

/-- Every event but the deliveries, which depend on what is on air. -/
def Event.undelivered : Event → Option Event
  | deliver _ _ => none
  | e => some e

def AttackEvent.undelivered : AttackEvent → Option Event
  | own e => e.undelivered
  | inject _ _ => none

namespace Fleet
variable {crypto : Crypto} (fleet : Fleet crypto)

def genuine (raw : Bytes) : Bool :=
  match crypto.authenticate raw fleet.pubkeys with
  | .ok _ => true
  | .error _ => false

theorem genuine_frame (t : Sending) : fleet.genuine (fleet.frame t) = true := by
  rw [genuine, fleet.authenticate_frame]

theorem genuine_eq_false : fleet.genuine raw = false ↔
    ∃ e, crypto.authenticate raw fleet.pubkeys = .error e := by
  rw [genuine]
  cases h : crypto.authenticate raw fleet.pubkeys with
  | ok p => simp
  | error e => simp

end Fleet

namespace Node
variable {crypto : Crypto} (codec : Codec) (env : RxEnv) (k : ℕ)

def withBadSigs (n : Node crypto) : Node crypto := { n with badSigs := k }

theorem withBadSigs_withBadSigs (n : Node crypto) :
    (n.withBadSigs j).withBadSigs k = n.withBadSigs k := rfl

theorem relay_withBadSigs (parsed : ParsedFrame) (n : Node crypto) :
    (n.withBadSigs k).relay env parsed = (n.relay env parsed).withBadSigs k := by
  have hsame : crypto.relay (n.withBadSigs k).identity (n.withBadSigs k).olsr.routeTo parsed
      env.relayDraw = crypto.relay n.identity n.olsr.routeTo parsed env.relayDraw := rfl
  rw [relay, relay, hsame]
  split <;> rfl

theorem dispatch_withBadSigs (parsed : ParsedFrame) (n : Node crypto) :
    (n.withBadSigs k).dispatch codec env parsed =
      (n.dispatch codec env parsed).withBadSigs k := by
  have holsr : (n.withBadSigs k).olsr = n.olsr := rfl
  rw [dispatch, dispatch]
  simp only [holsr]
  split
  next => split <;> rfl
  next =>
    split
    next => split <;> rfl
    next => rfl
  next => split <;> rfl
  next => rfl
  next => rfl

theorem jamCheck_withBadSigs (n : Node crypto) :
    (n.withBadSigs k).jamCheck codec env = (n.jamCheck codec env).withBadSigs k := by
  have hreset (m : Node crypto) : (m.withBadSigs k).resetJam = m.resetJam.withBadSigs k := by
    have hflag : (m.withBadSigs k).jamDetected = m.jamDetected := rfl
    have hwindow : (m.withBadSigs k).jamWindow = m.jamWindow := rfl
    rw [resetJam, resetJam, hflag, hwindow]
    split <;> rfl
  have hdetects : (n.withBadSigs k).detects = n.detects := rfl
  rw [jamCheck, jamCheck, hdetects, ← hreset]
  split <;> rfl

theorem handleParsed_withBadSigs (parsed : ParsedFrame) (n : Node crypto) :
    (n.withBadSigs k).handleParsed codec env parsed =
      ((n.handleParsed codec env parsed).1.withBadSigs k,
        (n.handleParsed codec env parsed).2) := by
  have hrecord : (n.withBadSigs k).record env parsed = (n.record env parsed).withBadSigs k := rfl
  have hid : (n.withBadSigs k).identity = n.identity := rfl
  have hdetects (m : Node crypto) : (m.withBadSigs k).detects = m.detects := rfl
  simp only [handleParsed, hrecord, hid, relay_withBadSigs, dispatch_withBadSigs,
    jamCheck_withBadSigs, hdetects]
  split <;> rfl

theorem rxLoop_withBadSigs (raw : Bytes) (n : Node crypto) :
    ∃ j, (n.withBadSigs k).rxLoop codec env raw =
      ((n.rxLoop codec env raw).1.withBadSigs j, (n.rxLoop codec env raw).2) := by
  have hid : (n.withBadSigs k).identity = n.identity := rfl
  have hkeys : (n.withBadSigs k).pubkeys = n.pubkeys := rfl
  have hcache : (n.withBadSigs k).nonceCache = n.nonceCache := rfl
  rw [rxLoop, rxLoop, hid, hkeys, hcache]
  obtain ⟨cache, parsed⟩ := crypto.parseAndVerifyFrame raw n.pubkeys n.nonceCache env.now
    n.identity.sessionKey
  simp only
  split
  next parsed =>
    exact ⟨k, handleParsed_withBadSigs codec env k parsed { n with nonceCache := cache }⟩
  next => exact ⟨k + 1, rfl⟩
  next => exact ⟨k, rfl⟩
  next => exact ⟨k, rfl⟩
  next => exact ⟨k, rfl⟩

theorem rxLoop_forged {fleet : Fleet crypto} {n : Node crypto} (hkeys : n.pubkeys = fleet.pubkeys)
    (hforged : fleet.genuine raw = false) :
    ∃ j, n.rxLoop codec env raw = (n.withBadSigs j, false) := by
  obtain ⟨fault, he⟩ := fleet.genuine_eq_false.1 hforged
  rw [← hkeys] at he
  rw [rxLoop, crypto.parseAndVerifyFrame_of_error he]
  cases fault with
  | panic => exact ⟨n.badSigs, rfl⟩
  | error e =>
    rcases crypto.authenticate_errsIn raw n.pubkeys e he with rfl | rfl
    · exact ⟨n.badSigs, rfl⟩
    · exact ⟨n.badSigs + 1, rfl⟩

theorem hears_forged {fleet : Fleet crypto} {n : Node crypto} (hkeys : n.pubkeys = fleet.pubkeys)
    (hforged : fleet.genuine raw = false) : n.hears now raw = none := by
  obtain ⟨fault, he⟩ := fleet.genuine_eq_false.1 hforged
  rw [hears, hkeys, crypto.parseAndVerifyFrame_of_error he]

theorem outbound_withBadSigs (n : Node crypto) :
    (n.withBadSigs k).outbound codec msg dst prio draw =
      (n.outbound codec msg dst prio draw).withBadSigs k := by
  have hroute : (n.withBadSigs k).olsr.routeTo dst = n.olsr.routeTo dst := rfl
  rw [outbound, outbound, hroute]
  split
  next => rfl
  next => split <;> rfl

def afterTask (msg : AppMsg) (i : ℕ) (now : ℕ) (succeeds : Bool) (n : Node crypto) :
    Node crypto :=
  { n with
    toShared := n.toShared.handleTactical msg now succeeds
    spawned := n.spawned.eraseIdx i }

theorem afterTask_withBadSigs (n : Node crypto) {succeeds : Bool} :
    (n.withBadSigs k).afterTask msg i now succeeds =
      (n.afterTask msg i now succeeds).withBadSigs k := by
  cases msg with
  | chat chat =>
    have hid : (n.withBadSigs k).identity = n.identity := rfl
    simp only [afterTask, Shared.handleTactical, Shared.handleChat, hid]
    split <;> rfl
  | _ => rfl

end Node

theorem filter_eraseIdx_of_neg {p : α → Bool} {l : List α} (h : l[i]? = some a)
    (ha : p a = false) : (l.eraseIdx i).filter p = l.filter p := by
  induction l generalizing i with
  | nil => cases h
  | cons b l ih =>
    cases i with
    | zero =>
      cases h
      rw [List.eraseIdx_cons_zero, List.filter_cons_of_neg (ne_true_of_eq_false ha)]
    | succ i => rw [List.eraseIdx_cons_succ, List.filter_cons, List.filter_cons, ih h]

theorem filter_eraseIdx_of_pos {p : α → Bool} {l : List α} (h : l[i]? = some a) (ha : p a) :
    ∃ j, (l.filter p)[j]? = some a ∧ (l.eraseIdx i).filter p = (l.filter p).eraseIdx j := by
  induction l generalizing i with
  | nil => cases h
  | cons b l ih =>
    cases i with
    | zero =>
      cases h
      refine ⟨0, ?_, ?_⟩
      · rw [List.filter_cons_of_pos ha, List.getElem?_cons_zero]
      · rw [List.eraseIdx_cons_zero, List.filter_cons_of_pos ha, List.eraseIdx_cons_zero]
    | succ i =>
      obtain ⟨j, hj, herase⟩ := ih h
      rw [List.eraseIdx_cons_succ, List.filter_cons, List.filter_cons]
      split
      next =>
        refine ⟨j + 1, hj, ?_⟩
        rw [List.eraseIdx_cons_succ, herase]
      next => exact ⟨j, hj, herase⟩

namespace Net
variable {crypto : Crypto} (codec : Codec) (radio : UInt8 → List UInt8) (fleet : Fleet crypto)

/-- Who attacks has no key of a node: it cannot sign what it puts on air. -/
def attackedStep (net : Net crypto) : AttackEvent → Option (Net crypto)
  | .own e => net.step codec radio e
  | .inject r raw =>
    if fleet.genuine raw then none else some { net with air := net.air ++ [(r, raw)] }

/-- An attacked net beside one that is not: it differs in what its nodes have counted and in the
frames on air that no node has signed. -/
structure Withstands (net clean : Net crypto) : Prop where
  nodes : ∀ x, ∃ k, net.nodes x = (clean.nodes x).withBadSigs k
  air : clean.air = net.air.filter fun e => fleet.genuine e.2
  heard : net.heard = clean.heard
  detections : net.detections = clean.detections

variable {codec radio fleet} {net net' clean : Net crypto}

theorem Withstands.setNode (h : net.Withstands fleet clean) (node : Node crypto) (k : ℕ) :
    (net.setNode n (node.withBadSigs k)).Withstands fleet (clean.setNode n node) where
  nodes x := by
    rw [setNode_nodes, setNode_nodes]
    split
    next => exact ⟨k, rfl⟩
    next => exact h.nodes x
  air := h.air
  heard := h.heard
  detections := h.detections

theorem Withstands.channel (h : net.Withstands fleet clean) (x : UInt8) :
    (net.nodes x).link.channel = (clean.nodes x).link.channel := by
  obtain ⟨k, hx⟩ := h.nodes x
  rw [hx]
  rfl

theorem Withstands.send (h : net.Withstands fleet clean) (hraw : fleet.genuine raw = true) :
    (net.send radio n raw).Withstands fleet (clean.send radio n raw) where
  nodes := h.nodes
  air := by
    have hkept : ∀ e ∈ ((radio n).filter fun r =>
        (clean.nodes r).link.channel = (clean.nodes n).link.channel).map fun r => (r, raw),
        fleet.genuine e.2 = true := by
      intro e he
      obtain ⟨r, -, rfl⟩ := List.mem_map.1 he
      exact hraw
    simp only [Net.send, List.filter_append, h.channel, List.filter_eq_self.2 hkept, h.air]
  heard := h.heard
  detections := h.detections

abbrev Genuine (radio : UInt8 → List UInt8) (fleet : Fleet crypto) (net : Net crypto) : Prop :=
  net.Holds fleet radio (fun _ => True) (fun _ => True) fun _ => True

theorem genuine_policy : Policy codec radio (fun _ => True) (fun _ => True) fun _ => True where
  relay _ _ _ _ _ _ _ _ _ := trivial
  msg _ _ _ _ _ := trivial
  topology _ _ := ⟨trivial, trivial⟩
  hello _ _ _ _ := trivial
  operator _ _ _ _ := trivial

theorem Genuine.step (h : Genuine radio fleet net) (hstep : net.step codec radio e = some net') :
    Genuine radio fleet net' :=
  Holds.step h genuine_policy hstep (fun _ _ _ _ _ _ _ => trivial) fun _ _ _ => trivial

theorem Withstands.deliver_forged (h : net.Withstands fleet clean)
    (hclean : Genuine radio fleet clean) (hget : net.air[i]? = some (r, raw))
    (hforged : fleet.genuine raw = false) (codec : Codec) (env : RxEnv) :
    (net.deliver codec i r raw env).Withstands fleet clean := by
  have hair : clean.air = (net.air.eraseIdx i).filter fun e => fleet.genuine e.2 := by
    rw [filter_eraseIdx_of_neg hget hforged]
    exact h.air
  rw [Net.deliver]
  split
  next => exact ⟨h.nodes, hair, h.heard, h.detections⟩
  next =>
    obtain ⟨k, hnode⟩ := h.nodes r
    have hkeys : (net.nodes r).pubkeys = fleet.pubkeys := by
      rw [hnode]
      exact (hclean.nodes r).pubkeys
    obtain ⟨j, hrx⟩ := Node.rxLoop_forged codec env hkeys hforged
    rw [hnode, Node.withBadSigs_withBadSigs, ← hnode] at hrx
    simp only [hrx, Node.hears_forged hkeys hforged, Option.toList_none, List.map_nil,
      List.append_nil, if_neg Bool.false_ne_true]
    refine ⟨fun x => ?_, hair, h.heard, h.detections⟩
    by_cases hx : x = r
    · exact ⟨j, (Function.update_apply ..).trans ((if_pos hx).trans (by rw [hx]))⟩
    · obtain ⟨k', hk'⟩ := h.nodes x
      exact ⟨k', (Function.update_of_ne hx ..).trans hk'⟩

theorem Withstands.deliver_genuine (h : net.Withstands fleet clean)
    (hget : net.air[i]? = some (r, raw)) (hraw : fleet.genuine raw = true) (codec : Codec)
    (radio : UInt8 → List UInt8) (env : RxEnv) :
    ∃ j clean', clean.step codec radio (.deliver j env) = some clean' ∧
      (net.deliver codec i r raw env).Withstands fleet clean' := by
  obtain ⟨j, hj, herase⟩ := filter_eraseIdx_of_pos hget (p := fun e => fleet.genuine e.2) hraw
  rw [← h.air] at hj herase
  refine ⟨j, clean.deliver codec j r raw env, ?_, ?_⟩
  · simp only [Net.step, hj]
  · obtain ⟨k, hnode⟩ := h.nodes r
    rw [Net.deliver, Net.deliver]
    split
    next => exact ⟨h.nodes, herase.symm, h.heard, h.detections⟩
    next =>
      obtain ⟨j, hrx⟩ := Node.rxLoop_withBadSigs codec env k raw (clean.nodes r)
      rw [← hnode] at hrx
      have hhears : (net.nodes r).hears env.now raw = (clean.nodes r).hears env.now raw := by
        rw [hnode]
        rfl
      have h' := h.setNode (n := r) ((clean.nodes r).rxLoop codec env raw).1 j
      simp only [hrx, hhears]
      exact ⟨h'.nodes, herase.symm, congrArg (· ++ _) h.heard,
        congrArg (· ++ _) h.detections⟩

theorem Withstands.step (h : net.Withstands fleet clean) (hclean : Genuine radio fleet clean)
    (hown : e.undelivered = some e) (hstep : net.step codec radio e = some net') :
    ∃ clean', clean.step codec radio e = some clean' ∧ net'.Withstands fleet clean' := by
  cases e with
  | helloTick n now order draw =>
    cases hstep
    obtain ⟨k, hn⟩ := h.nodes n
    refine ⟨_, rfl, ?_⟩
    rw [hn]
    refine h.send ?_
    exact ((hclean.nodes n).own_frame ..).symm ▸ fleet.genuine_frame _
  | tcTick n now order draw =>
    cases hstep
    obtain ⟨k, hn⟩ := h.nodes n
    refine ⟨_, rfl, ?_⟩
    rw [hn]
    refine (h.setNode { clean.nodes n with tcSeq := (clean.nodes n).tcSeq + 1 } k).send ?_
    exact ((hclean.nodes n).own_frame ..).symm ▸ fleet.genuine_frame _
  | agingTick n now staleOrder order =>
    cases hstep
    obtain ⟨k, hn⟩ := h.nodes n
    refine ⟨_, rfl, ?_⟩
    rw [hn]
    exact h.setNode { clean.nodes n with
      olsr := (clean.nodes n).olsr.agingTick now staleOrder order } k
  | outbound n msg dst prio draw =>
    obtain ⟨hmsg, rfl⟩ := step_outbound hstep
    obtain ⟨k, hn⟩ := h.nodes n
    have hclean' : clean.step codec radio (.outbound n msg dst prio draw) =
        some (clean.setNode n ((clean.nodes n).outbound codec msg dst prio draw)) := by
      rw [Net.step, if_neg (ne_true_of_eq_false hmsg)]
    refine ⟨_, hclean', ?_⟩
    rw [hn, Node.outbound_withBadSigs]
    exact h.setNode _ k
  | transmit n =>
    obtain ⟨frame, prio, queues, hpop, rfl⟩ := step_transmit hstep
    obtain ⟨k, hn⟩ := h.nodes n
    have hpop' : (clean.nodes n).scheduler.popNext = some ((frame, prio), queues) := by
      rw [hn] at hpop
      exact hpop
    refine ⟨_, step_transmit_of codec radio hpop', ?_⟩
    rw [hn]
    refine (h.setNode { clean.nodes n with scheduler := queues } k).send ?_
    obtain ⟨rest, hrest, -⟩ := Queues.popNext_eq_some hpop'
    have hmem : frame ∈ (clean.nodes n).scheduler.inner prio := by
      rw [hrest]
      exact List.mem_cons_self
    obtain ⟨t, rfl, -, -⟩ := (hclean.nodes n).queued prio frame hmem
    exact fleet.genuine_frame t
  | deliver i env => cases hown
  | runTask n i now succeeds =>
    simp only [Net.step] at hstep
    split at hstep
    next msg hmsg =>
      cases hstep
      obtain ⟨k, hn⟩ := h.nodes n
      have hmsg' : (clean.nodes n).spawned[i]? = some msg := by
        rw [hn] at hmsg
        exact hmsg
      have hclean' : clean.step codec radio (.runTask n i now succeeds) =
          some (clean.setNode n ((clean.nodes n).afterTask msg i now succeeds)) := by
        simp only [Net.step, hmsg']
        rfl
      refine ⟨_, hclean', ?_⟩
      have hnode : (net.nodes n).afterTask msg i now succeeds =
          ((clean.nodes n).afterTask msg i now succeeds).withBadSigs k := by
        rw [hn, Node.afterTask_withBadSigs]
      have h' := h.setNode (n := n) ((clean.nodes n).afterTask msg i now succeeds) k
      rw [← hnode] at h'
      exact h'
    next => cases hstep

theorem Withstands.step_deliver (h : net.Withstands fleet clean)
    (hclean : Genuine radio fleet clean)
    (hstep : net.step codec radio (.deliver i env) = some net') :
    net'.Withstands fleet clean ∨ ∃ j clean',
      clean.step codec radio (.deliver j env) = some clean' ∧ net'.Withstands fleet clean' := by
  simp only [Net.step] at hstep
  split at hstep
  next r raw hget =>
    cases hstep
    cases hraw : fleet.genuine raw with
    | false => exact .inl (h.deliver_forged hclean hget hraw codec env)
    | true => exact .inr (h.deliver_genuine hget hraw codec radio env)
  next => cases hstep

theorem Withstands.inject (h : net.Withstands fleet clean)
    (hstep : net.attackedStep codec radio fleet (.inject r raw) = some net') :
    net'.Withstands fleet clean := by
  simp only [attackedStep] at hstep
  split at hstep
  next => cases hstep
  next hforged =>
    cases hstep
    have hnone : [(r, raw)].filter (fun e => fleet.genuine e.2) = [] :=
      List.filter_cons_of_neg hforged
    refine ⟨h.nodes, ?_, h.heard, h.detections⟩
    rw [List.filter_append, ← h.air, hnone, List.append_nil]

theorem Withstands.attackedStep (h : net.Withstands fleet clean)
    (hclean : Genuine radio fleet clean)
    (hstep : net.attackedStep codec radio fleet e = some net') :
    net'.Withstands fleet clean ∧ e.undelivered = none ∨ ∃ e' clean',
      clean.step codec radio e' = some clean' ∧ net'.Withstands fleet clean' ∧
        e'.undelivered = e.undelivered := by
  cases e with
  | inject r raw => exact .inl ⟨h.inject hstep, rfl⟩
  | own e =>
    by_cases hown : e.undelivered = some e
    · obtain ⟨clean', hclean', h'⟩ := h.step hclean hown hstep
      exact .inr ⟨e, clean', hclean', h', rfl⟩
    · cases e with
      | deliver i env =>
        rcases h.step_deliver hclean hstep with h' | ⟨j, clean', hclean', h'⟩
        · exact .inl ⟨h', rfl⟩
        · exact .inr ⟨.deliver j env, clean', hclean', h', rfl⟩
      | _ => exact absurd rfl hown

/-- Whatever is put on air by someone who has no key of a node: the nodes, their operators and
their clocks could have done the same without it, and would be where they are, but for the bad
signatures that were counted. -/
theorem attacked_withstands (fleet : Fleet crypto) (channel recorded : UInt8)
    {events : List AttackEvent}
    (h : events.foldlM (attackedStep codec radio fleet) (start fleet channel recorded) =
      some net) :
    ∃ (es : List Event) (clean : Net crypto),
      es.foldlM (step codec radio) (start fleet channel recorded) = some clean ∧
      es.filterMap Event.undelivered = events.filterMap AttackEvent.undelivered ∧
      Genuine radio fleet clean ∧ net.Withstands fleet clean := by
  induction events using List.reverseRecOn generalizing net with
  | nil =>
    cases h
    exact ⟨[], _, rfl, rfl, start_holds fleet channel recorded, fun x => ⟨_, rfl⟩, rfl, rfl, rfl⟩
  | append_singleton events e ih =>
    obtain ⟨before, hbefore, hstep⟩ := foldlM_concat.1 h
    obtain ⟨es, clean, hrun, hsame, hclean, hw⟩ := ih hbefore
    rw [List.filterMap_append, ← hsame]
    rcases hw.attackedStep hclean hstep with ⟨hw', hnone⟩ | ⟨e', clean', hclean', hw', he⟩
    · refine ⟨es, clean, hrun, ?_, hclean, hw'⟩
      rw [List.filterMap_cons_none hnone, List.filterMap_nil, List.append_nil]
    · refine ⟨es ++ [e'], clean', foldlM_concat.2 ⟨clean, hrun, hclean'⟩, ?_,
        Genuine.step hclean hclean', hw'⟩
      simp only [List.filterMap_append, List.filterMap_cons, he, List.filterMap_nil]

/-- A frame of ones is counted, and forgotten. -/
theorem ones_withstood : ∃ (es : List Event) (net clean : Net Crypto.toy),
    (net.nodes 2).badSigs = 1 ∧
    es.foldlM (step Codec.bincode fun _ => [1, 2]) (start Crypto.toyFleet 0 0) = some clean ∧
      es.filterMap Event.undelivered = [] ∧ net.Withstands Crypto.toyFleet clean := by
  let ones : List AttackEvent :=
    [.inject 2 (List.replicate 112 1), .own (.deliver 0 (.atMs 0))]
  have hsome : ∃ net, ones.foldlM (attackedStep Codec.bincode (fun _ => [1, 2]) Crypto.toyFleet)
      (start Crypto.toyFleet 0 0) = some net ∧ (net.nodes 2).badSigs = 1 := ⟨_, rfl, rfl⟩
  obtain ⟨net, hrun, hcount⟩ := hsome
  obtain ⟨es, clean, hclean, hsame, -, h⟩ := attacked_withstands Crypto.toyFleet 0 0 hrun
  exact ⟨es, net, clean, hcount, hclean, hsame, h⟩

end Net
end TacticalMesh
