import TacticalMesh.NeighborTables
import TacticalMesh.Payloads

namespace TacticalMesh
set_option autoImplicit true

namespace Net
variable {crypto : Crypto} {fleet : Fleet crypto} {codec : Codec} {radio : UInt8 → List UInt8}
variable {Q A : Sending → Prop} {L : AppMsg → Prop} {net net' : Net crypto}

/-- The neighbors of a node are nodes that it has heard and that it is in range of. -/
def Truthful (radio : UInt8 → List UInt8) (net : Net crypto) : Prop :=
  ∀ x y, (net.nodes x).lists y → (x, y) ∈ net.heard ∧ x ∈ radio y

/-- A HELLO comes from the node that it names or from one in range of that node. -/
def Near (codec : Codec) (radio : UInt8 → List UInt8) (t : Sending) : Prop :=
  ∀ y, t.greets codec y → t.src = y ∨ t.src ∈ radio y

/-- No node has another one two hops away, be it in range as well. -/
def NoTwoHops (radio : UInt8 → List UInt8) : Prop :=
  ∀ y r x, r ∈ radio y → x ∈ radio r → r = y ∨ x = r ∨ x = y

theorem NoTwoHops.policy (h : NoTwoHops radio) :
    Policy codec radio (Near codec radio) (Near codec radio) fun _ => True where
  relay t r ht hr hne routeTo draw u hu y hy := by
    obtain ⟨hsrc, hmsg⟩ := next_src hu
    rw [Sending.greets, hmsg] at hy
    rw [hsrc]
    rcases ht y hy with rfl | hrange
    · exact .inr hr
    · rcases h y t.src r hrange hr with hy | hy | hy
      · exact .inr (hy ▸ hr)
      · exact absurd hy hne
      · exact .inl hy
  msg _ _ _ _ _ := trivial
  topology s hs := by
    have hnot : ∀ y, ¬ s.greets codec y := by
      intro y hy
      rw [Sending.greets, hs] at hy
      cases hy.1
    exact ⟨fun y hy => absurd hy (hnot y), fun y hy => absurd hy (hnot y)⟩
  hello x h draw hx y hy := by
    obtain ⟨-, h', hdec, rfl⟩ := hy
    cases (codec.decode_encodeOlsr (.hello h)).symm.trans hdec
    exact .inl hx.symm
  operator s m hs _ y hy := by
    rw [Sending.greets, hs] at hy
    cases hy.1

theorem Truthful.setNode (h : net.Truthful radio)
    (hnode : ∀ y, node.lists y → (net.nodes n).lists y) :
    (net.setNode n node).Truthful radio := by
  intro x y hy
  rw [setNode_nodes] at hy
  split at hy
  next hx =>
    rw [hx]
    exact h n y (hnode y hy)
  next => exact h x y hy

theorem Truthful.taken (ht : net.Truthful radio) (h : net.Holds fleet radio Q A L)
    (hpairs : NoTwoHops radio) (hrange : r ∈ radio t.src) (hnear : Near codec radio t)
    (hown : t.src ≠ r) : (net.taken codec i r (fleet.frame t) env).Truthful radio := by
  intro x y hy
  have hheard : (net.taken codec i r (fleet.frame t) env).heard = net.heard ++
      ((net.nodes r).hears env.now (fleet.frame t)).toList.map fun src => (r, src) := rfl
  have hold : (net.nodes x).lists y →
      (x, y) ∈ (net.taken codec i r (fleet.frame t) env).heard ∧ x ∈ radio y := by
    intro hy
    obtain ⟨hmem, hr⟩ := ht x y hy
    rw [hheard]
    exact ⟨List.mem_append_left _ hmem, hr⟩
  rw [taken_nodes] at hy
  split at hy
  next hx =>
    rw [hx] at hold ⊢
    rcases (h.nodes r).rxLoop_lists hy with hy | ⟨hacc, hgreets, hne⟩
    · exact hold hy
    · have hsrc : t.src = y := by
        rcases hnear y hgreets with hsrc | hnear
        · exact hsrc
        · rcases hpairs y t.src r hnear hrange with hsrc | hr | hr
          · exact hsrc
          · exact absurd hr.symm hown
          · exact absurd hr.symm hne
      rw [hheard, (h.nodes r).hears_frame, if_pos hacc, ← hsrc]
      exact ⟨List.mem_append_right _ (List.mem_singleton.2 rfl), hrange⟩
  next => exact hold hy

theorem Truthful.step (ht : net.Truthful radio)
    (h : net.Holds fleet radio Q (Near codec radio) L) (hpairs : NoTwoHops radio)
    (hstep : net.step codec radio e = some net') : net'.Truthful radio := by
  cases e with
  | helloTick n now order draw =>
    cases hstep
    exact ht
  | tcTick n now order draw =>
    cases hstep
    exact ht.setNode fun _ hy => hy
  | agingTick n now staleOrder order =>
    cases hstep
    exact ht.setNode fun _ hy => (net.nodes n).olsr.agingTick_neighbors hy
  | outbound n msg dst prio draw =>
    obtain ⟨-, rfl⟩ := step_outbound hstep
    refine ht.setNode fun y hy => ?_
    rwa [Node.lists, Node.outbound_olsr] at hy
  | transmit n =>
    obtain ⟨frame, prio, queues, -, rfl⟩ := step_transmit hstep
    exact ht.setNode fun _ hy => hy
  | deliver i env =>
    obtain rfl | ⟨r, t, hrange, hown, hnear, rfl⟩ := h.step_deliver hstep
    · exact ht
    · exact ht.taken h hpairs hrange hnear hown
  | runTask n i now succeeds =>
    obtain ⟨msg, -, rfl⟩ := step_runTask hstep
    refine ht.setNode fun y hy => ?_
    obtain ⟨-, -, holsr, -⟩ := (net.nodes n).toShared.handleTactical_keeps
    exact (Node.lists_congr (congrArg OlsrState.neighbors holsr)).1 hy

theorem NoTwoHops.truthful (hpairs : NoTwoHops radio)
    (h : LeadsTo (step codec radio) (start fleet channel recorded) net) :
    net.Truthful radio := by
  let inv (net : Net crypto) : Prop :=
    net.Holds fleet radio (Near codec radio) (Near codec radio) (fun _ => True) ∧
      net.Truthful radio
  have hstart : inv (start fleet channel recorded) :=
    ⟨start_holds fleet channel recorded, fun x y hy => by cases hy⟩
  have hinv : inv net := by
    refine h.invariant hstart ?_
    rintro net e net' ⟨hholds, htruth⟩ hstep
    refine ⟨hholds.step hpairs.policy hstep (fun _ _ _ hs _ _ _ => hs) ?_,
      htruth.step hholds hpairs hstep⟩
    intro r env _ y hy
    cases hy.1
  exact hinv.2

theorem mem_heard_taken (h : (net.nodes r).Holds fleet Q L r)
    (hp : p ∈ (net.taken codec i r (fleet.frame t) env).heard) :
    p ∈ net.heard ∨ p = (r, t.src) := by
  rcases List.mem_append.1 hp with hp | hp
  · exact .inl hp
  · rw [h.hears_frame] at hp
    split at hp
    next => exact .inr (List.mem_singleton.1 hp)
    next => cases hp

theorem relayed_hello (codec : Codec) (fleet : Fleet crypto) (channel recorded : UInt8)
    (hr : r ∈ radio y) (hx : x ∈ radio r) (hry : r ≠ y) (hxr : x ≠ r) (hxy : x ≠ y) :
    ∃ net, LeadsTo (step codec radio) (start fleet channel recorded) net ∧
      (net.nodes x).lists y ∧ (x, y) ∉ net.heard := by
  let s := start fleet channel recorded
  let env := RxEnv.atMs 0
  let t : Sending := .own y .olsrHello
    (codec.encodeOlsr (.hello ((s.nodes y).hello 0 byteOrder))) .high (.atMs 0)
  let u : Sending := { t with src := r, lastHop := r, hopsTaken := 1 }
  have hs : s.Holds fleet radio (fun _ => True) (fun _ => True) (fun _ => True) :=
    start_holds fleet channel recorded
  have hgreets : t.greets codec y := ⟨rfl, _, codec.decode_encodeOlsr _, rfl⟩
  have hacc : ∀ v : Sending, v.draw = .atMs 0 → ∀ n,
      (s.nodes n).nonceCache.accepts (v.check 0) := by
    intro v hv n
    exact Sending.accepts_newest hv (by decide) fun key hkey => absurd rfl hkey
  -- node `r` hears the HELLO and queues it again
  have hsent : s.step codec radio (.helloTick y 0 byteOrder (.atMs 0)) =
      some (s.send radio y (fleet.frame t)) := rfl
  obtain ⟨i, -, hheard⟩ : ∃ i, (s.send radio y (fleet.frame t)).air[i]? = some (r, fleet.frame t) ∧
      (s.send radio y (fleet.frame t)).step codec radio (.deliver i env) =
        some ((s.send radio y (fleet.frame t)).taken codec i r (fleet.frame t) env) :=
    step_deliver_sent codec radio env hr hry rfl
  have haccr : (s.nodes r).nonceCache.accepts (t.check env.now) := hacc t rfl r
  obtain ⟨hquiet, hqueued⟩ := (hs.nodes r).rxLoop_floods codec haccr rfl rfl rfl
    (by decide : (0 : UInt8) < Wire.maxHops)
  obtain ⟨-, hlink⟩ := (hs.nodes r).rxLoop_app hquiet
  let held := (s.send radio y (fleet.frame t)).taken codec i r (fleet.frame t) env
  have hnode (n : UInt8) : held.nodes n =
      if n = r then ((s.nodes r).rxLoop codec env (fleet.frame t)).1 else s.nodes n :=
    taken_nodes ..
  have hpop : (held.nodes r).scheduler.popNext = some ((fleet.frame u, .high), .new) := by
    rw [hnode, if_pos rfl, hqueued]
    exact Queues.popNext_push_new
  -- node `x` hears it from `r`
  have hrelayed := step_transmit_of codec radio hpop
  let sent := (held.setNode r { held.nodes r with scheduler := .new }).send radio r
    (fleet.frame u)
  have hsentx : sent.nodes x = s.nodes x := by
    have hx : sent.nodes x = held.nodes x := (setNode_nodes ..).trans (if_neg hxr)
    rw [hx, hnode, if_neg hxr]
  have htuned : (sent.nodes x).link.channel = (sent.nodes r).link.channel := by
    have hself : sent.nodes r = { held.nodes r with scheduler := .new } :=
      (setNode_nodes ..).trans (if_pos rfl)
    rw [hsentx, hself, hnode, if_pos rfl, hlink]
    rfl
  obtain ⟨j, -, hlast⟩ : ∃ j, sent.air[j]? = some (x, fleet.frame u) ∧
      sent.step codec radio (.deliver j env) =
        some (sent.taken codec j x (fleet.frame u) env) :=
    step_deliver_sent codec radio env hx hxr htuned
  refine ⟨_, (((LeadsTo.refl _ s).tail hsent).tail hheard).tail hrelayed |>.tail hlast, ?_, ?_⟩
  · rw [taken_nodes, if_pos rfl]
    rw [hsentx]
    exact (hs.nodes x).rxLoop_greeted (hacc u rfl x) rfl hgreets hxy.symm
  · intro hmem
    have hsx : (sent.nodes x).Holds fleet (fun _ => True) (fun _ => True) x := by
      rw [hsentx]
      exact hs.nodes x
    rcases mem_heard_taken hsx hmem with hmem | hmem
    · have hheld : (x, y) ∈ held.heard := hmem
      have hsr : ((s.send radio y (fleet.frame t)).nodes r).Holds fleet (fun _ => True)
        (fun _ => True) r := hs.nodes r
      rcases mem_heard_taken hsr hheld with hmem | hmem
      · cases hmem
      · exact hxr (Prod.ext_iff.1 hmem).1
    · exact hry (Prod.ext_iff.1 hmem).2.symm

/-- The neighbor tables are truthful in all reachable states exactly when no node is two hops
away from another one. -/
theorem truthful_iff (codec : Codec) (radio : UInt8 → List UInt8) (fleet : Fleet crypto)
    (channel recorded : UInt8) :
    (∀ net, LeadsTo (step codec radio) (start fleet channel recorded) net →
        ∀ x y, ((net.nodes x).olsr.neighbors y).isSome → (x, y) ∈ net.heard ∧ x ∈ radio y) ↔
      ∀ y r x, r ∈ radio y → x ∈ radio r → r = y ∨ x = r ∨ x = y := by
  constructor
  · intro h y r x hr hx
    by_contra hne
    simp only [not_or] at hne
    obtain ⟨hry, hxr, hxy⟩ := hne
    obtain ⟨net, hnet, hlists, hheard⟩ :=
      relayed_hello codec fleet channel recorded hr hx hry hxr hxy
    exact hheard (h net hnet x y hlists).1
  · intro h net hnet
    exact NoTwoHops.truthful h hnet

def line (n : UInt8) : List UInt8 :=
  if n = 1 then [2] else if n = 2 then [1, 3] else if n = 3 then [2] else []

theorem line_lists_unheard :
    ∃ net, LeadsTo (step Codec.bincode line) (start Crypto.toyFleet 0 0) net ∧
      ((net.nodes 3).olsr.neighbors 1).isSome ∧ (3, 1) ∉ net.heard ∧ 3 ∉ line 1 := by
  have hr : 2 ∈ line 1 := by decide
  have hx : 3 ∈ line 2 := by decide
  obtain ⟨net, hnet, hlists, hheard⟩ := relayed_hello Codec.bincode Crypto.toyFleet 0 0 hr hx
    (by decide) (by decide) (by decide)
  exact ⟨net, hnet, hlists, hheard, by decide⟩

end Net
end TacticalMesh
