import TacticalMesh.EpochRotation
import TacticalMesh.Funnel
import TacticalMesh.RecvTimeout
import TacticalMesh.MeshNetwork
import TacticalMesh.Payloads

namespace TacticalMesh
set_option autoImplicit true

instance : Fintype Priority where
  elems := {.emergency, .critical, .high, .bulk}
  complete prio := by cases prio <;> decide

def rxDepths : Depths := ⟨2048, 2048⟩

/-- The datagram that `Tx::send` puts on the port of its stream. The number is one of its own, not
that of the adapter. -/
def sendDatagram (streamId seq : UInt32) (data : Bytes) : Bytes :=
  leBytes 4 streamId.toNat ++ (leBytes 4 seq.toNat ++ data)

/-- The frame that `recv_timeout` makes of a datagram, if it is one of its stream. -/
def datagramFrame (streamId : UInt32) (buf : Bytes) : Option RxFrame :=
  if 8 ≤ buf.length ∧ UInt32.ofNat (leValue (buf.take 4)) = streamId then
    some
      { data := buf.drop 8
        rssiDbm := -60
        streamId := streamId
        seq := .ofNat (leValue ((buf.drop 4).take 4)) }
  else none

theorem u32_leBytes (x : UInt32) : UInt32.ofNat (leValue (leBytes 4 x.toNat)) = x := by
  rw [leValue_leBytes, Nat.mod_eq_of_lt (by simpa using x.toNat_lt)]
  exact UInt32.ofNat_toNat

theorem leBytes_u32 (bs : Bytes) (h : bs.length = 4) :
    leBytes 4 (UInt32.ofNat (leValue bs)).toNat = bs := by
  have hlt := leValue_lt bs
  rw [h] at hlt
  rw [UInt32.toNat_ofNat', Nat.mod_eq_of_lt (by omega), ← h, leBytes_leValue]

theorem datagramFrame_sendDatagram (streamId seq : UInt32) (data : Bytes) :
    datagramFrame streamId (sendDatagram streamId seq data) = some ⟨data, -60, streamId, seq⟩ := by
  have hstream : (sendDatagram streamId seq data).take 4 = leBytes 4 streamId.toNat :=
    List.take_left' (length_leBytes 4 _)
  have hrest : (sendDatagram streamId seq data).drop 4 = leBytes 4 seq.toNat ++ data :=
    List.drop_left' (length_leBytes 4 _)
  have hseq : (leBytes 4 seq.toNat ++ data).take 4 = leBytes 4 seq.toNat :=
    List.take_left' (length_leBytes 4 _)
  have hdata : (sendDatagram streamId seq data).drop 8 = data := by
    rw [← List.drop_drop (i := 4) (j := 4), hrest]
    exact List.drop_left' (length_leBytes 4 _)
  have hlen : 8 ≤ (sendDatagram streamId seq data).length := by
    simp only [sendDatagram, List.length_append, length_leBytes]
    omega
  rw [datagramFrame, hstream, hrest, hseq, hdata, u32_leBytes, u32_leBytes, if_pos ⟨hlen, rfl⟩]

theorem datagramFrame_eq_some_iff :
    datagramFrame streamId buf = some frame ↔
      buf = sendDatagram streamId frame.seq frame.data ∧ frame.streamId = streamId ∧
        frame.rssiDbm = -60 := by
  constructor
  · intro h
    rw [datagramFrame] at h
    split at h
    next hbuf =>
      obtain rfl := Option.some.inj h
      refine ⟨?_, rfl, rfl⟩
      have hstream : leBytes 4 streamId.toNat = buf.take 4 := by
        rw [← hbuf.2]
        exact leBytes_u32 _ (by rw [List.length_take]; omega)
      have hseq := leBytes_u32 ((buf.drop 4).take 4)
        (by rw [List.length_take, List.length_drop]; omega)
      rw [sendDatagram, hstream, hseq, ← List.drop_drop (i := 4) (j := 4), List.take_append_drop,
        List.take_append_drop]
    next => cases h
  · rintro ⟨rfl, rfl, hrssi⟩
    rw [datagramFrame_sendDatagram, ← hrssi]

namespace PortTraffic
variable {t : PortTraffic}

theorem round_datagram (h : t.outcome i = .datagram buf) :
    t.round streamId timeout i = (datagramFrame streamId buf).map .frame := by
  rw [round, h, datagramFrame]
  by_cases hlen : 8 ≤ buf.length
  · by_cases hsid : UInt32.ofNat (leValue (buf.take 4)) = streamId
    · simp [hlen, hsid]
    · simp [hlen, hsid]
  · simp [hlen]

theorem round_eq_frame_iff :
    t.round streamId timeout i = some (.frame frame) ↔
      ∃ buf, t.outcome i = .datagram buf ∧ datagramFrame streamId buf = some frame := by
  cases hout : t.outcome i with
  | datagram buf =>
    rw [round_datagram hout]
    simp
  | wouldBlock =>
    rw [round, hout]
    simp
  | failed =>
    rw [round, hout]
    simp

theorem recvTimeout_eq_some_iff :
    t.recvTimeout streamId timeout calls = some result ↔
      ∃ i < calls, t.Calls streamId timeout i ∧ t.round streamId timeout i = some result := by
  induction calls with
  | zero => simp [recvTimeout]
  | succ calls ih =>
    rw [recvTimeout]
    cases hres : t.recvTimeout streamId timeout calls with
    | none =>
      rw [hres] at ih
      constructor
      · intro h
        exact ⟨calls, Nat.lt_succ_self _, hres, h⟩
      · rintro ⟨i, hi, hcalls, hround⟩
        rcases Nat.lt_succ_iff_lt_or_eq.1 hi with hlt | rfl
        · cases ih.2 ⟨i, hlt, hcalls, hround⟩
        · exact hround
    | some earlier =>
      rw [hres] at ih
      rw [ih]
      constructor
      · rintro ⟨i, hi, hrest⟩
        exact ⟨i, Nat.lt_succ_of_lt hi, hrest⟩
      · rintro ⟨i, hi, hcalls, hround⟩
        rcases Nat.lt_succ_iff_lt_or_eq.1 hi with hlt | rfl
        · exact ⟨i, hlt, hcalls, hround⟩
        -- the loop has returned and makes no further call
        · rw [Calls, hres] at hcalls
          cases hcalls

/-- A frame is returned exactly if a call is made that brings what `Tx::send` puts on the port for
the number and the data of the frame. The signal strength is not measured. -/
theorem recvTimeout_frame_iff (streamId : UInt32) (timeout : ℕ) (t : PortTraffic) (calls : ℕ)
    (frame : RxFrame) :
    t.recvTimeout streamId timeout calls = some (.frame frame) ↔
      frame.streamId = streamId ∧ frame.rssiDbm = -60 ∧
        ∃ i < calls, (∀ j < i, t.Foreign streamId j ∨ t.Early timeout j) ∧
          t.outcome i = .datagram (sendDatagram streamId frame.seq frame.data) := by
  rw [recvTimeout_eq_some_iff]
  constructor
  · rintro ⟨i, hi, hcalls, hround⟩
    obtain ⟨buf, hout, hframe⟩ := round_eq_frame_iff.1 hround
    obtain ⟨rfl, hstream, hrssi⟩ := datagramFrame_eq_some_iff.1 hframe
    exact ⟨hstream, hrssi, i, hi, calls_iff.1 hcalls, hout⟩
  · rintro ⟨hstream, hrssi, i, hi, hbefore, hout⟩
    have hframe := datagramFrame_eq_some_iff.2 ⟨rfl, hstream, hrssi⟩
    exact ⟨i, hi, calls_iff.2 hbefore, round_eq_frame_iff.2 ⟨_, hout, hframe⟩⟩

end PortTraffic

/-- The reader threads drop what does not come from a node of the list, if there is one. A frame
too short to tell its source passes. -/
def allows (allowList : Option (List UInt8)) (data : Bytes) : Bool :=
  match allowList, data[srcNodeOffset]? with
  | some list, some src => list.contains src
  | _, _ => true

/-- The receive path of a node: the list that its readers go by, what each reader has checked and
not sent on yet, the channels with the threads that carry frames over to `rx_loop`, and the rounds
that `rx_loop` has made. -/
structure RxPath (crypto : Crypto) where
  allowList : Option (List UInt8)
  checked : Priority → Option RxFrame
  funnel : Funnel Priority RxFrame
  node : Node crypto
  rounds : List ((Priority × RxFrame) × RxEnv)

inductive RxPathEvent where
  /-- The reader of a priority gets a datagram from its port and checks where it comes from. -/
  | datagram (prio : Priority) (buf : Bytes)
  /-- It puts what it has checked into the channel of its stream, if there is room. -/
  | trySend (prio : Priority)
  | setAllowList (nodes : Option (List UInt8))
  /-- The thread of a priority receives a frame from the channel of its stream. -/
  | take (prio : Priority)
  /-- It sends the frame on. -/
  | forward (prio : Priority)
  | handle (env : RxEnv)

namespace RxPath
variable {crypto : Crypto} (codec : Codec) (nodeId : UInt8) (streams : Priority → UInt32)

/-- The path as `LinkAdapter::new` and `main` build it. -/
def start (node : Node crypto) : RxPath crypto := ⟨none, fun _ => none, .new, node, []⟩

def round (node : Node crypto) (r : (Priority × RxFrame) × RxEnv) : Node crypto :=
  (node.rxLoop codec { r.2 with rssiDbm := r.1.2.rssiDbm } r.1.2.data).1

/-- The frame that a reader gets from its port and does not drop because of its source. -/
def admitted (prio : Priority) (allowList : Option (List UInt8)) (buf : Bytes) :
    Option RxFrame :=
  (datagramFrame (streams prio) buf).filter fun frame =>
    !ownFrame nodeId frame.data && allows allowList frame.data

def step (path : RxPath crypto) : RxPathEvent → Option (RxPath crypto)
  | .datagram prio buf =>
    match path.checked prio with
    | none =>
      let frame := admitted nodeId streams prio path.allowList buf
      some { path with checked := Function.update path.checked prio frame }
    | some _ => none
  | .trySend prio =>
    match path.checked prio with
    -- the list is no longer held, and may be another one by now
    | some frame =>
      some { path with
        checked := Function.update path.checked prio none
        funnel := path.funnel.offer rxDepths prio frame }
    | none => none
  | .setAllowList nodes => some { path with allowList := nodes }
  | .take prio => (path.funnel.step rxDepths (.take prio)).map fun f => { path with funnel := f }
  | .forward prio =>
    (path.funnel.step rxDepths (.forward prio)).map fun f => { path with funnel := f }
  | .handle env =>
    match path.funnel.queue with
    | [] => none
    | item :: _ =>
      (path.funnel.step rxDepths .serve).map fun f =>
        { path with
          funnel := f
          node := round codec path.node (item, env)
          rounds := path.rounds ++ [(item, env)] }

end RxPath

namespace RxPathEvent

/-- What goes on between the channels, if the event is of this kind. -/
def move : RxPathEvent → Option (FunnelMove Priority)
  | take prio => some (.take prio)
  | forward prio => some (.forward prio)
  | handle _ => some .serve
  | _ => none

def inside : RxPathEvent → Bool
  | datagram _ _ | setAllowList _ => false
  | _ => true

def sends (prio : Priority) : RxPathEvent → Bool
  | trySend p => p = prio
  | _ => false

def takes (prio : Priority) : RxPathEvent → Bool
  | take p => p = prio
  | _ => false

def listAfter (list : Option (List UInt8)) : RxPathEvent → Option (List UInt8)
  | setAllowList nodes => nodes
  | _ => list

/-- The frame of a priority that its reader gets in the event and lets through. -/
def admits (nodeId : UInt8) (streams : Priority → UInt32) (prio : Priority)
    (list : Option (List UInt8)) : RxPathEvent → Option RxFrame
  | datagram p buf => if p = prio then RxPath.admitted nodeId streams prio list buf else none
  | _ => none

end RxPathEvent

namespace RxPath
variable {crypto : Crypto} {codec : Codec} {nodeId : UInt8} {streams : Priority → UInt32}
  {path path' : RxPath crypto} {n : Node crypto} {e : RxPathEvent}

/-- The second path has made these rounds since the first. -/
structure Makes (codec : Codec) (path path' : RxPath crypto)
    (made : List ((Priority × RxFrame) × RxEnv)) : Prop where
  rounds_eq : path'.rounds = path.rounds ++ made
  served_eq : path'.funnel.served = path.funnel.served ++ made.map Prod.fst
  node_eq : path'.node = made.foldl (round codec) path.node

theorem Makes.trans (h : path.Makes codec path' made) (h' : path'.Makes codec path'' made') :
    path.Makes codec path'' (made ++ made') where
  rounds_eq := by rw [h'.rounds_eq, h.rounds_eq, List.append_assoc]
  served_eq := by rw [h'.served_eq, h.served_eq, List.map_append, List.append_assoc]
  node_eq := by rw [h'.node_eq, h.node_eq, List.foldl_append]

theorem Makes.of_eq (hrounds : path'.rounds = path.rounds)
    (hserved : path'.funnel.served = path.funnel.served) (hnode : path'.node = path.node) :
    path.Makes codec path' [] where
  rounds_eq := by rw [hrounds, List.append_nil]
  served_eq := by rw [hserved, List.map_nil, List.append_nil]
  node_eq := hnode

theorem step_datagram :
    path.step codec nodeId streams (.datagram prio buf) = some path' ↔
      path.checked prio = none ∧ path' = { path with
        checked := Function.update path.checked prio
          (admitted nodeId streams prio path.allowList buf) } := by
  rw [step]
  cases hchecked : path.checked prio with
  | none => simp [eq_comm]
  | some frame => simp

theorem step_trySend :
    path.step codec nodeId streams (.trySend prio) = some path' ↔
      ∃ frame, path.checked prio = some frame ∧ path' = { path with
        checked := Function.update path.checked prio none
        funnel := path.funnel.offer rxDepths prio frame } := by
  rw [step]
  cases hchecked : path.checked prio with
  | none => simp
  | some frame => simp [eq_comm]

theorem step_eq_none (hmove : e.move = some m) :
    path.step codec nodeId streams e = none ↔ path.funnel.step rxDepths m = none := by
  cases e with
  | datagram => cases hmove
  | trySend => cases hmove
  | setAllowList => cases hmove
  | take prio =>
    cases hmove
    exact Option.map_eq_none_iff
  | forward prio =>
    cases hmove
    exact Option.map_eq_none_iff
  | handle env =>
    cases hmove
    rw [step, Funnel.step]
    split
    next hqueue => simp [hqueue]
    next item rest hqueue => simp [hqueue]

theorem step_move (hmove : e.move = some m)
    (hstep : path.step codec nodeId streams e = some path') :
    path.funnel.step rxDepths m = some path'.funnel ∧ path'.checked = path.checked ∧
      path'.allowList = path.allowList ∧ ∃ made, path.Makes codec path' made := by
  cases e with
  | datagram => cases hmove
  | trySend => cases hmove
  | setAllowList => cases hmove
  | take prio =>
    cases hmove
    obtain ⟨f, hf, rfl⟩ := Option.map_eq_some_iff.1 hstep
    obtain ⟨-, a, rest, -, rfl⟩ := Funnel.step_take.1 hf
    exact ⟨hf, rfl, rfl, [], .of_eq rfl rfl rfl⟩
  | forward prio =>
    cases hmove
    obtain ⟨f, hf, rfl⟩ := Option.map_eq_some_iff.1 hstep
    obtain ⟨a, -, -, rfl⟩ := Funnel.step_forward.1 hf
    exact ⟨hf, rfl, rfl, [], .of_eq rfl rfl rfl⟩
  | handle env =>
    cases hmove
    rw [step] at hstep
    split at hstep
    next => cases hstep
    next item rest hqueue =>
      obtain ⟨f, hf, rfl⟩ := Option.map_eq_some_iff.1 hstep
      obtain ⟨item', rest', hqueue', rfl⟩ := Funnel.step_serve.1 hf
      cases hqueue.symm.trans hqueue'
      exact ⟨hf, rfl, rfl, [(item, env)], rfl, rfl, rfl⟩

theorem step_makes (hstep : path.step codec nodeId streams e = some path') :
    ∃ made, path.Makes codec path' made := by
  cases e with
  | datagram prio buf =>
    obtain ⟨-, rfl⟩ := step_datagram.1 hstep
    exact ⟨[], .of_eq rfl rfl rfl⟩
  | trySend prio =>
    obtain ⟨frame, -, rfl⟩ := step_trySend.1 hstep
    exact ⟨[], .of_eq rfl (path.funnel.offer_adds prio frame prio).1 rfl⟩
  | setAllowList nodes =>
    cases hstep
    exact ⟨[], .of_eq rfl rfl rfl⟩
  | take prio => exact (step_move rfl hstep).2.2.2
  | forward prio => exact (step_move rfl hstep).2.2.2
  | handle env => exact (step_move rfl hstep).2.2.2

theorem run_makes {events : List RxPathEvent}
    (hrun : events.foldlM (step codec nodeId streams) path = some path') :
    ∃ made, path.Makes codec path' made := by
  induction events generalizing path with
  | nil =>
    cases hrun
    exact ⟨[], .of_eq rfl rfl rfl⟩
  | cons e events ih =>
    rw [List.foldlM_cons, Option.bind_eq_bind, Option.bind_eq_some_iff] at hrun
    obtain ⟨next, hstep, hrest⟩ := hrun
    obtain ⟨made, hmade⟩ := step_makes hstep
    obtain ⟨later, hlater⟩ := ih hrest
    exact ⟨made ++ later, hmade.trans hlater⟩

/-- What the step lets into the channel of a priority, and what becomes of the frame that its
reader has checked. Only a full channel makes the reader drop it. -/
structure Passes (path path' : RxPath crypto) (prio : Priority) (admits : Option RxFrame)
    (added : List RxFrame) : Prop where
  accepted_eq : path'.funnel.accepted prio = path.funnel.accepted prio ++ added
  load_eq : ofLane prio path'.funnel.served ++ path'.funnel.backlog prio =
    ofLane prio path.funnel.served ++ path.funnel.backlog prio ++ added
  checked_prefix : added ++ (path'.checked prio).toList <+:
    (path.checked prio).toList ++ admits.toList

theorem Passes.of_eq (hfunnel : path'.funnel = path.funnel)
    (hchecked : (path'.checked prio).toList = (path.checked prio).toList ++ admits.toList) :
    path.Passes path' prio admits [] where
  accepted_eq := by rw [hfunnel, List.append_nil]
  load_eq := by rw [hfunnel, List.append_nil]
  checked_prefix := by
    rw [List.nil_append, hchecked]

theorem step_passes (hstep : path.step codec nodeId streams e = some path') (prio : Priority) :
    path'.allowList = e.listAfter path.allowList ∧
      ∃ added, path.Passes path' prio (e.admits nodeId streams prio path.allowList) added := by
  cases hmove : e.move with
  | some m =>
    obtain ⟨hfunnel, hchecked, hlist, -⟩ := step_move hmove hstep
    obtain ⟨haccepted, hload⟩ := Funnel.step_moves hfunnel prio
    have hadmits : e.admits nodeId streams prio path.allowList = none := by
      cases e <;> first | rfl | cases hmove
    have hafter : e.listAfter path.allowList = path.allowList := by
      cases e <;> first | rfl | cases hmove
    rw [hadmits, hafter]
    refine ⟨hlist, [], ?_, ?_, ?_⟩
    · rw [haccepted, List.append_nil]
    · rw [hload, List.append_nil]
    · rw [hchecked, Option.toList_none, List.append_nil, List.nil_append]
  | none =>
    cases e with
    | datagram p buf =>
      obtain ⟨hidle, rfl⟩ := step_datagram.1 hstep
      refine ⟨rfl, [], .of_eq rfl ?_⟩
      rw [RxPathEvent.admits]
      by_cases hp : p = prio
      · subst hp
        simp only [if_true, Function.update_self, hidle]
        rfl
      · simp only [if_neg hp, Function.update_of_ne (Ne.symm hp)]
        exact (List.append_nil _).symm
    | trySend p =>
      obtain ⟨frame, hchecked, rfl⟩ := step_trySend.1 hstep
      obtain ⟨hserved, haccepted, hbacklog, -⟩ :=
        path.funnel.offer_adds (d := rxDepths) p frame prio
      refine ⟨rfl, _, haccepted, ?_, ?_⟩
      · rw [hserved, hbacklog, List.append_assoc]
      · have hnone : (RxPathEvent.trySend p).admits nodeId streams prio path.allowList = none := rfl
        rw [hnone, Option.toList_none, List.append_nil, Funnel.offered]
        by_cases hp : prio = p
        · subst hp
          simp only [Function.update_self, hchecked, Option.toList_none, List.append_nil]
          split
          next => exact List.prefix_refl _
          next => exact List.nil_prefix
        · simp only [if_neg fun h => hp (And.left h), Function.update_of_ne hp]
          exact List.prefix_refl _
    | setAllowList nodes =>
      cases hstep
      exact ⟨rfl, [], .of_eq rfl (List.append_nil _).symm⟩
    | take p => cases hmove
    | forward p => cases hmove
    | handle env => cases hmove

/-- A path on which nothing is lost, made or overtaken between the readers and `rx_loop`. -/
structure Sound (codec : Codec) (n : Node crypto) (path : RxPath crypto) : Prop where
  makes : (start n).Makes codec path path.rounds
  conserves : path.funnel.Conserves
  within : path.funnel.Within rxDepths

theorem start_sound (n : Node crypto) : (start n).Sound codec n where
  makes := .of_eq rfl rfl rfl
  conserves := Funnel.conserves_new
  within := Funnel.within_new

theorem Sound.step (h : path.Sound codec n)
    (hstep : path.step codec nodeId streams e = some path') : path'.Sound codec n := by
  have hmakes : (start n).Makes codec path' path'.rounds := by
    obtain ⟨made, hmade⟩ := step_makes hstep
    rw [hmade.rounds_eq]
    exact h.makes.trans hmade
  cases hmove : e.move with
  | some m =>
    have hfunnel := (step_move hmove hstep).1
    exact ⟨hmakes, h.conserves.step hfunnel, h.within.step hfunnel⟩
  | none =>
    cases e with
    | datagram prio buf =>
      obtain ⟨-, rfl⟩ := step_datagram.1 hstep
      exact ⟨hmakes, h.conserves, h.within⟩
    | trySend prio =>
      obtain ⟨frame, -, rfl⟩ := step_trySend.1 hstep
      exact ⟨hmakes, h.conserves.offer prio frame, h.within.offer prio frame⟩
    | setAllowList nodes =>
      cases hstep
      exact ⟨hmakes, h.conserves, h.within⟩
    | take prio => cases hmove
    | forward prio => cases hmove
    | handle env => cases hmove

theorem run_sound {events : List RxPathEvent}
    (hrun : events.foldlM (step codec nodeId streams) (start n) = some path) :
    path.Sound codec n := by
  have hleads : LeadsTo (step codec nodeId streams) (start n) path := ⟨events, hrun⟩
  exact hleads.invariant (start_sound n) fun _ _ _ h hstep => h.step hstep

/-- The frames of a priority that its reader gets in a run and lets through, each by the list that
is in force then. -/
def admittedIn (nodeId : UInt8) (streams : Priority → UInt32) (prio : Priority) :
    Option (List UInt8) → List RxPathEvent → List RxFrame
  | _, [] => []
  | list, e :: events =>
    (e.admits nodeId streams prio list).toList ++
      admittedIn nodeId streams prio (e.listAfter list) events

theorem admittedIn_append {events events' : List RxPathEvent} :
    admittedIn nodeId streams prio list (events ++ events') =
      admittedIn nodeId streams prio list events ++
        admittedIn nodeId streams prio (events.foldl RxPathEvent.listAfter list) events' := by
  induction events generalizing list with
  | nil => rfl
  | cons e events ih =>
    rw [List.cons_append, admittedIn, admittedIn, ih, List.append_assoc, List.foldl_cons]

theorem admittedIn_inside {moves : List RxPathEvent} (hinside : ∀ e ∈ moves, e.inside) :
    admittedIn nodeId streams prio list moves = [] := by
  induction moves generalizing list with
  | nil => rfl
  | cons e moves ih =>
    have hnone : e.admits nodeId streams prio list = none := by
      have he := hinside e (List.mem_cons_self ..)
      cases e <;> first | rfl | cases he
    rw [admittedIn, hnone, ih fun e he => hinside e (List.mem_cons_of_mem _ he)]
    rfl

theorem admits_foreign (h : e.admits nodeId streams prio list = some frame) :
    ¬ ownFrame nodeId frame.data := by
  cases e with
  | datagram p buf =>
    rw [RxPathEvent.admits] at h
    split at h
    next =>
      have hpasses := (Option.filter_eq_some_iff.1 h).2
      simp only [Bool.and_eq_true, Bool.not_eq_true'] at hpasses
      rw [hpasses.1]
      exact Bool.false_ne_true
    next => cases h
  | _ => cases h

theorem admittedIn_foreign {events : List RxPathEvent}
    (h : frame ∈ admittedIn nodeId streams prio list events) : ¬ ownFrame nodeId frame.data := by
  induction events generalizing list with
  | nil => cases h
  | cons e events ih =>
    rcases List.mem_append.1 h with hnow | hlater
    · exact admits_foreign (Option.mem_toList.1 hnow)
    · exact ih hlater

theorem run_admitted {events : List RxPathEvent}
    (hrun : events.foldlM (step codec nodeId streams) (start n) = some path) (prio : Priority) :
    path.allowList = events.foldl RxPathEvent.listAfter none ∧
      (path.funnel.accepted prio ++ (path.checked prio).toList).Sublist
        (admittedIn nodeId streams prio none events) := by
  induction events using List.reverseRecOn generalizing path with
  | nil =>
    cases hrun
    exact ⟨rfl, List.nil_sublist _⟩
  | append_singleton events e ih =>
    obtain ⟨before, hbefore, hstep⟩ := foldlM_concat.1 hrun
    obtain ⟨hlist, hsub⟩ := ih hbefore
    obtain ⟨hafter, added, hpasses⟩ := step_passes hstep prio
    refine ⟨?_, ?_⟩
    · rw [hafter, hlist, List.foldl_append]
      rfl
    · have hheld := hpasses.checked_prefix.sublist
      rw [hpasses.accepted_eq, List.append_assoc, admittedIn_append, ← hlist]
      refine (hheld.append_left _).trans ?_
      rw [← List.append_assoc, admittedIn, admittedIn, List.append_nil]
      exact hsub.append_right _

/-- Whatever arrives on the four ports, whoever sets the list, and however the threads take turns:
`rx_loop` handles the frames of each priority one by one in the order of their arrival. Only frames
of other nodes that the list let in get that far, and what is not handled yet is still held, in
channels that keep their bounds. -/
theorem handled_in_order {events : List RxPathEvent}
    (hrun : events.foldlM (step codec nodeId streams) (start n) = some path) :
    path.node = path.rounds.foldl (round codec) n ∧
      path.funnel.Within rxDepths ∧
      ∀ prio,
        path.funnel.accepted prio =
          ofLane prio (path.rounds.map Prod.fst) ++ path.funnel.backlog prio ∧
        (path.funnel.accepted prio).Sublist (admittedIn nodeId streams prio none events) ∧
        ∀ frame ∈ path.funnel.accepted prio, ¬ ownFrame nodeId frame.data := by
  have h := run_sound hrun
  have hsub (prio : Priority) :
      (path.funnel.accepted prio).Sublist (admittedIn nodeId streams prio none events) :=
    (List.sublist_append_left ..).trans (run_admitted hrun prio).2
  refine ⟨h.makes.node_eq, h.within, fun prio => ⟨?_, hsub prio, fun frame hf => ?_⟩⟩
  · have hserved : path.funnel.served = path.rounds.map Prod.fst := h.makes.served_eq
    rw [h.conserves prio, hserved]
  · exact admittedIn_foreign ((hsub prio).subset hf)

theorem two_in_order : ∃ path : RxPath Crypto.toy,
    path.rounds.length = 1 ∧
    path.node = path.rounds.foldl (round Codec.bincode)
      ((Net.start Crypto.toyFleet 0 0).nodes 2) ∧
    path.funnel.Within rxDepths ∧
    (path.funnel.accepted .bulk).map RxFrame.data = [[1, 2, 3, 4, 5], [4]] ∧
    path.funnel.accepted .bulk =
      ofLane .bulk (path.rounds.map Prod.fst) ++ path.funnel.backlog .bulk := by
  let events : List RxPathEvent :=
    [.datagram .bulk (sendDatagram 0 0 [1, 2, 3, 4, 5]), .trySend .bulk,
      .datagram .bulk (sendDatagram 0 1 [4]), .take .bulk, .trySend .bulk, .forward .bulk,
      .handle (.atMs 0)]
  have hsome : ∃ path, events.foldlM (step Codec.bincode 2 fun _ => 0)
      (start ((Net.start Crypto.toyFleet 0 0).nodes 2)) = some path ∧ path.rounds.length = 1 ∧
        (path.funnel.accepted .bulk).map RxFrame.data = [[1, 2, 3, 4, 5], [4]] :=
    ⟨_, rfl, rfl, rfl⟩
  obtain ⟨path, hrun, hrounds, hframes⟩ := hsome
  obtain ⟨hnode, hwithin, hlanes⟩ := handled_in_order hrun
  exact ⟨path, hrounds, hnode, hwithin, hframes, (hlanes .bulk).1⟩

/-- The reader of each priority is never further ahead of the thread that receives from its channel
than the channel is deep. -/
def Paced (events : List RxPathEvent) : Prop :=
  ∀ prio pre, pre <+: events →
    pre.countP (RxPathEvent.sends prio) ≤ rxDepths.lane + pre.countP (RxPathEvent.takes prio)

/-- What was sent to a channel, was not dropped, and has not been taken off it is in it. -/
structure Kept (nodeId : UInt8) (streams : Priority → UInt32) (prio : Priority)
    (events : List RxPathEvent) (path : RxPath crypto) : Prop where
  admitted_eq : path.funnel.accepted prio ++ (path.checked prio).toList =
    admittedIn nodeId streams prio none events
  lane_eq : (path.funnel.lanes prio).length + events.countP (RxPathEvent.takes prio) =
    events.countP (RxPathEvent.sends prio)

theorem Kept.move (h : path.Kept nodeId streams prio events) (hmove : e.move = some m)
    (hstep : path.step codec nodeId streams e = some path') :
    path'.Kept nodeId streams prio (events ++ [e]) := by
  obtain ⟨hfunnel, hchecked, -⟩ := step_move hmove hstep
  constructor
  case admitted_eq =>
    have hinside : ∀ e' ∈ [e], e'.inside := by
      intro e' he'
      rw [List.mem_singleton.1 he']
      cases e <;> first | rfl | cases hmove
    rw [(Funnel.step_moves hfunnel prio).1, hchecked, admittedIn_append, admittedIn_inside hinside,
      List.append_nil]
    exact h.admitted_eq
  case lane_eq =>
    rw [List.countP_append, List.countP_append, ← h.lane_eq]
    cases e with
    | take p =>
      cases hmove
      obtain ⟨-, a, rest, hlane, hnext⟩ := Funnel.step_take.1 hfunnel
      rw [hnext, Funnel.taken]
      by_cases hp : p = prio
      · subst hp
        simp [RxPathEvent.takes, RxPathEvent.sends, hlane]
        omega
      · simp [RxPathEvent.takes, RxPathEvent.sends, hp, Function.update_of_ne (Ne.symm hp)]
    | forward p =>
      cases hmove
      obtain ⟨a, -, -, hnext⟩ := Funnel.step_forward.1 hfunnel
      rw [hnext]
      rfl
    | handle env =>
      cases hmove
      obtain ⟨item, rest, -, hnext⟩ := Funnel.step_serve.1 hfunnel
      rw [hnext]
      rfl
    | _ => cases hmove

theorem Kept.outside (h : path.Kept nodeId streams prio events) (hmove : e.move = none)
    (hlist : path.allowList = events.foldl RxPathEvent.listAfter none)
    (hroom : (events ++ [e]).countP (RxPathEvent.sends prio) ≤
      rxDepths.lane + (events ++ [e]).countP (RxPathEvent.takes prio))
    (hstep : path.step codec nodeId streams e = some path') :
    path'.Kept nodeId streams prio (events ++ [e]) := by
  have hlane := h.lane_eq
  have hadmitted := h.admitted_eq
  cases e with
  | datagram p buf =>
    obtain ⟨hidle, rfl⟩ := step_datagram.1 hstep
    refine ⟨?_, ?_⟩
    · rw [admittedIn_append, ← hlist, ← hadmitted, admittedIn, admittedIn, List.append_nil,
        RxPathEvent.admits]
      by_cases hp : p = prio
      · subst hp
        simp [hidle]
      · simp [hp, Function.update_of_ne (Ne.symm hp)]
    · rw [List.countP_append, List.countP_append, ← hlane]
      rfl
  | trySend p =>
    obtain ⟨frame, hchecked, rfl⟩ := step_trySend.1 hstep
    obtain ⟨-, haccepted, -, hlanes⟩ := path.funnel.offer_adds (d := rxDepths) p frame prio
    have hnone : admittedIn nodeId streams prio
        (events.foldl RxPathEvent.listAfter none) [.trySend p] = [] := rfl
    by_cases hp : prio = p
    · subst hp
      simp only [List.countP_append, List.countP_singleton, RxPathEvent.sends, RxPathEvent.takes,
        decide_true, if_true, Bool.false_eq_true, if_false, Nat.add_zero] at hroom
      have hfits : (path.funnel.lanes prio).length < rxDepths.lane := by omega
      have hoffered : path.funnel.offered rxDepths prio frame prio = [frame] :=
        if_pos ⟨rfl, hfits⟩
      constructor
      case admitted_eq =>
        simp only [haccepted, hoffered, Function.update_self, Option.toList_none, List.append_nil]
        rw [admittedIn_append, hnone, List.append_nil, ← hadmitted, hchecked]
        rfl
      case lane_eq =>
        simp only [hlanes, hoffered, List.length_append, List.length_singleton,
          List.countP_append, List.countP_singleton, RxPathEvent.sends, RxPathEvent.takes,
          decide_true, if_true, Bool.false_eq_true, if_false, Nat.add_zero]
        omega
    · have hoffered : path.funnel.offered rxDepths p frame prio = [] :=
        if_neg fun h => hp h.1
      constructor
      case admitted_eq =>
        simp only [haccepted, hoffered, Function.update_of_ne hp, List.append_nil]
        rw [admittedIn_append, hnone, List.append_nil, ← hadmitted]
      case lane_eq =>
        simp only [hlanes, hoffered, List.append_nil, List.countP_append, List.countP_singleton,
          RxPathEvent.sends, RxPathEvent.takes, decide_eq_true_eq, Ne.symm hp, if_false,
          Bool.false_eq_true, Nat.add_zero]
        exact hlane
  | setAllowList nodes =>
    cases hstep
    refine ⟨?_, ?_⟩
    · rw [admittedIn_append, ← hadmitted]
      exact (List.append_nil _).symm
    · rw [List.countP_append, List.countP_append, ← hlane]
      rfl
  | take p => cases hmove
  | forward p => cases hmove
  | handle env => cases hmove

theorem run_kept {events : List RxPathEvent}
    (hrun : events.foldlM (step codec nodeId streams) (start n) = some path)
    (hpaced : Paced events) (prio : Priority) : path.Kept nodeId streams prio events := by
  induction events using List.reverseRecOn generalizing path with
  | nil =>
    cases hrun
    exact ⟨rfl, rfl⟩
  | append_singleton events e ih =>
    obtain ⟨before, hbefore, hstep⟩ := foldlM_concat.1 hrun
    have h := ih hbefore fun p pre hpre => hpaced p pre (hpre.trans (List.prefix_append ..))
    have hlist := (run_admitted hbefore prio).1
    cases hmove : e.move with
    | some m => exact h.move hmove hstep
    | none => exact h.outside hmove hlist (hpaced prio _ (List.prefix_refl _)) hstep

def rank (path : RxPath crypto) : ℕ :=
  path.funnel.rank + ∑ prio, 4 * (path.checked prio).toList.length

theorem step_rank (hinside : e.inside) (hstep : path.step codec nodeId streams e = some path') :
    path'.rank + 1 ≤ path.rank := by
  cases hmove : e.move with
  | some m =>
    obtain ⟨hfunnel, hchecked, -⟩ := step_move hmove hstep
    rw [rank, rank, hchecked, ← Funnel.step_rank hfunnel]
    omega
  | none =>
    cases e with
    | trySend p =>
      obtain ⟨frame, hchecked, rfl⟩ := step_trySend.1 hstep
      have hoffer := path.funnel.offer_rank (d := rxDepths) p frame
      have hsum := sum_add_eq (ι := Priority) (j := p) (k := 4)
        (f := fun prio => 4 * (path.checked prio).toList.length)
        (g := fun prio => 4 * (Function.update path.checked p none prio).toList.length)
        (fun prio hp => by rw [Function.update_of_ne hp])
        (by rw [Function.update_self, hchecked]; rfl)
      simp only [rank]
      omega
    | datagram p buf => cases hinside
    | setAllowList nodes => cases hinside
    | take p => cases hmove
    | forward p => cases hmove
    | handle env => cases hmove

theorem run_rank {moves : List RxPathEvent} (hinside : ∀ e ∈ moves, e.inside)
    (hmoves : moves.foldlM (step codec nodeId streams) path = some path') :
    path'.rank + moves.length ≤ path.rank := by
  induction moves generalizing path with
  | nil =>
    cases hmoves
    exact le_rfl
  | cons e moves ih =>
    rw [List.foldlM_cons, Option.bind_eq_bind, Option.bind_eq_some_iff] at hmoves
    obtain ⟨next, hstep, hrest⟩ := hmoves
    have hfirst := step_rank (hinside e (List.mem_cons_self ..)) hstep
    have hlater := ih (fun e he => hinside e (List.mem_cons_of_mem _ he)) hrest
    rw [List.length_cons]
    omega

theorem drained_of_stuck
    (hstuck : ∀ e : RxPathEvent, e.inside → path.step codec nodeId streams e = none) :
    path.funnel.Drained ∧ ∀ prio, path.checked prio = none := by
  constructor
  · refine Funnel.drained_of_stuck (d := rxDepths) (by decide) fun m => ?_
    cases m with
    | take p => exact (step_eq_none rfl).1 (hstuck (.take p) rfl)
    | forward p => exact (step_eq_none rfl).1 (hstuck (.forward p) rfl)
    | serve => exact (step_eq_none rfl).1 (hstuck (.handle (.atMs 0)) rfl)
  · intro prio
    cases hchecked : path.checked prio with
    | none => rfl
    | some frame =>
      have hsends : path.step codec nodeId streams (.trySend prio) = some _ :=
        step_trySend.2 ⟨frame, hchecked, rfl⟩
      rw [hstuck (.trySend prio) rfl] at hsends
      cases hsends

/-- A node whose readers keep to this pace loses nothing: after any run the threads, in whatever
order they go on, come to rest within a bounded number of steps, and not before `rx_loop` has
handled every frame that its readers let through, those of each priority in the order of their
arrival. -/
theorem drains {events moves : List RxPathEvent}
    (hrun : events.foldlM (step codec nodeId streams) (start n) = some path)
    (hinside : ∀ e ∈ moves, e.inside)
    (hmoves : moves.foldlM (step codec nodeId streams) path = some path')
    (hpaced : Paced (events ++ moves)) :
    moves.length ≤ path.rank ∧
      ((∀ e : RxPathEvent, e.inside → path'.step codec nodeId streams e = none) →
        ∀ prio, ofLane prio (path'.rounds.map Prod.fst) =
          admittedIn nodeId streams prio none events) := by
  constructor
  · exact (Nat.le_add_left ..).trans (run_rank hinside hmoves)
  · intro hstuck prio
    have hall : (events ++ moves).foldlM (step codec nodeId streams) (start n) = some path' := by
      rw [List.foldlM_append, hrun]
      exact hmoves
    obtain ⟨hdrained, hnone⟩ := drained_of_stuck hstuck
    have hsound := run_sound hall
    have hserved : path'.funnel.served = path'.rounds.map Prod.fst := hsound.makes.served_eq
    have hkept := (run_kept hall hpaced prio).admitted_eq
    rw [hnone prio, Option.toList_none, List.append_nil, admittedIn_append,
      admittedIn_inside hinside, List.append_nil] at hkept
    rw [← hserved, hdrained.served hsound.conserves, hkept]

theorem one_drained : ∃ path : RxPath Crypto.toy,
    ofLane .bulk (path.rounds.map Prod.fst) = [⟨[1, 2, 3, 4, 5], -60, 0, 0⟩] := by
  let events : List RxPathEvent :=
    [.setAllowList (some [5]), .datagram .bulk (sendDatagram 0 0 [1, 2, 3, 4, 6]),
      .datagram .bulk (sendDatagram 0 0 [1, 2, 3, 4, 5]), .setAllowList (some [6])]
  let moves : List RxPathEvent := [.trySend .bulk, .take .bulk, .forward .bulk, .handle (.atMs 0)]
  have hsome : ∃ path path', events.foldlM (step Codec.bincode 2 fun _ => 0)
      (start ((Net.start Crypto.toyFleet 0 0).nodes 2)) = some path ∧
        moves.foldlM (step Codec.bincode 2 fun _ => 0) path = some path' ∧
        path'.rank = 0 := ⟨_, _, rfl, rfl, rfl⟩
  obtain ⟨path, path', hrun, hmoves, hrank⟩ := hsome
  have hpaced : Paced (events ++ moves) := fun prio pre hpre =>
    (List.countP_le_length.trans hpre.length_le).trans (Nat.le_add_right_of_le (by decide))
  have hinside : ∀ e ∈ moves, e.inside := by
    simp [moves, RxPathEvent.inside]
  obtain ⟨-, hall⟩ := drains hrun hinside hmoves hpaced
  refine ⟨path', (hall (fun e he => ?_) .bulk).trans rfl⟩
  cases hstep : path'.step Codec.bincode 2 (fun _ => 0) e with
  | none => rfl
  | some next => exact absurd (step_rank he hstep) (by omega)

theorem rxLoop_short {raw : Bytes} (h : raw.length < minFrameLen) (env : RxEnv) :
    n.rxLoop codec env raw = (n, false) := by
  have hauth : crypto.authenticate raw n.pubkeys = .error (.error .truncatedFrame) := if_pos h
  rw [Node.rxLoop, crypto.parseAndVerifyFrame_of_error hauth]

def Sourced (frame : RxFrame) : Bool := srcNodeOffset < frame.data.length

theorem round_unsourced (h : Sourced r.1.2 = false) : round codec n r = n := by
  have hshort : r.1.2.data.length ≤ srcNodeOffset := by simpa [Sourced] using h
  rw [round, rxLoop_short (hshort.trans_lt (by decide))]

theorem unsourced_of_blackout (h : e.admits nodeId streams prio (some [nodeId]) = some frame) :
    Sourced frame = false := by
  have hforeign := admits_foreign h
  cases e with
  | datagram p buf =>
    rw [RxPathEvent.admits] at h
    split at h
    next =>
      have hpasses := (Option.filter_eq_some_iff.1 h).2
      rw [Bool.and_eq_true] at hpasses
      rw [ownFrame, decide_eq_true_iff] at hforeign
      cases hsrc : frame.data[srcNodeOffset]? with
      | none => simpa [Sourced] using List.getElem?_eq_none_iff.1 hsrc
      | some src =>
        have hown : src = nodeId := by simpa [allows, hsrc] using hpasses.2
        rw [hsrc, hown] at hforeign
        exact absurd rfl hforeign
    next => cases h
  | _ => cases h

/-- The frames of a priority that are past the check of their reader, those handled first. -/
def past (path : RxPath crypto) (prio : Priority) : List RxFrame :=
  ofLane prio path.funnel.served ++ path.funnel.backlog prio ++ (path.checked prio).toList

theorem step_blackout (hlist : path.allowList = some [nodeId])
    (hkept : ∀ nodes, e ≠ .setAllowList nodes)
    (hstep : path.step codec nodeId streams e = some path') (prio : Priority) :
    path'.allowList = some [nodeId] ∧
      (path'.past prio).filter Sourced <+: (path.past prio).filter Sourced := by
  obtain ⟨hafter, added, hpasses⟩ := step_passes hstep prio
  constructor
  · rw [hafter, ← hlist]
    cases e with
    | setAllowList nodes => exact absurd rfl (hkept nodes)
    | _ => rfl
  · have hnone : (e.admits nodeId streams prio path.allowList).toList.filter Sourced = [] := by
      rw [List.filter_eq_nil_iff]
      intro frame hframe
      rw [hlist, Option.mem_toList] at hframe
      rw [unsourced_of_blackout hframe]
      exact Bool.false_ne_true
    have hheld := hpasses.checked_prefix.filter Sourced
    rw [List.filter_append (Option.toList _), hnone, List.append_nil] at hheld
    rw [past, past, hpasses.load_eq, List.append_assoc, List.filter_append,
      List.filter_append (_ ++ _)]
    exact List.prefix_append_right_inj _ |>.2 hheld

theorem run_blackout {events : List RxPathEvent}
    (hlist : path.allowList = some [nodeId]) (hkept : ∀ nodes, .setAllowList nodes ∉ events)
    (hrun : events.foldlM (step codec nodeId streams) path = some path') (prio : Priority) :
    (path'.past prio).filter Sourced <+: (path.past prio).filter Sourced := by
  induction events generalizing path with
  | nil =>
    cases hrun
    exact List.prefix_refl _
  | cons e events ih =>
    rw [List.foldlM_cons, Option.bind_eq_bind, Option.bind_eq_some_iff] at hrun
    obtain ⟨next, hstep, hrest⟩ := hrun
    have hother : ∀ nodes, e ≠ .setAllowList nodes := by
      rintro nodes rfl
      exact hkept nodes (List.mem_cons_self ..)
    obtain ⟨hlist', hfront⟩ := step_blackout hlist hother hstep prio
    exact (ih hlist' (fun nodes h => hkept nodes (List.mem_cons_of_mem _ h)) hrest).trans hfront

/-- In a blackout the readers let no frame of any other node through. `rx_loop` still handles the
frames that were past their check when the blackout began, each priority in its order, and nothing
else has any effect on the node: if there are none such, nothing has. -/
theorem blackout_total {events : List RxPathEvent}
    (hlist : path.allowList = some [nodeId]) (hkept : ∀ nodes, .setAllowList nodes ∉ events)
    (hrun : events.foldlM (step codec nodeId streams) path = some path') :
    ∃ made, path.Makes codec path' made ∧
      path'.node = (made.filter fun r => Sourced r.1.2).foldl (round codec) path.node ∧
      (∀ prio, (ofLane prio (made.map Prod.fst)).filter Sourced <+:
        (path.funnel.backlog prio ++ (path.checked prio).toList).filter Sourced) ∧
      ((∀ prio, path.funnel.backlog prio = [] ∧ path.checked prio = none) →
        path'.node = path.node) := by
  obtain ⟨made, hmade⟩ := run_makes hrun
  have hnode : path'.node = (made.filter fun r => Sourced r.1.2).foldl (round codec) path.node := by
    rw [hmade.node_eq, List.foldl_filter]
    refine List.foldl_ext _ _ _ fun n r _ => ?_
    split
    next => rfl
    next hr => exact round_unsourced (Bool.eq_false_iff.2 hr)
  have hfront (prio : Priority) : (ofLane prio (made.map Prod.fst)).filter Sourced <+:
      (path.funnel.backlog prio ++ (path.checked prio).toList).filter Sourced := by
    have hpast := run_blackout hlist hkept hrun prio
    rw [past, past, hmade.served_eq, ofLane_append, List.append_assoc, List.append_assoc,
      List.append_assoc, List.filter_append, List.filter_append (ofLane prio path.funnel.served),
      List.prefix_append_right_inj, List.filter_append] at hpast
    exact (List.prefix_append ..).trans hpast
  refine ⟨made, hmade, hnode, hfront, fun hempty => ?_⟩
  have hnone : (made.filter fun r => Sourced r.1.2) = [] := by
    rw [List.filter_eq_nil_iff]
    intro r hr hsourced
    have hmem : r.1.2 ∈ (ofLane r.1.1 (made.map Prod.fst)).filter Sourced :=
      List.mem_filter.2 ⟨mem_ofLane.2 (List.mem_map_of_mem hr), hsourced⟩
    have hin := (hfront r.1.1).subset hmem
    rw [(hempty r.1.1).1, (hempty r.1.1).2] at hin
    cases hin
  rw [hnode, hnone]
  rfl

/-- A frame that was past its check when the blackout began is still handled, the next one does not
get past its own. -/
theorem one_blacked_out : ∃ (path path' : RxPath Crypto.toy)
    (made : List ((Priority × RxFrame) × RxEnv)),
    path.allowList = some [2] ∧ path'.rounds.length = 1 ∧ path.Makes Codec.bincode path' made ∧
      (ofLane .bulk (made.map Prod.fst)).filter Sourced <+: [⟨[0, 0, 0, 0, 1], -60, 0, 0⟩] := by
  let before : List RxPathEvent :=
    [.datagram .bulk (sendDatagram 0 0 [0, 0, 0, 0, 1]), .setAllowList (some [2])]
  let events : List RxPathEvent :=
    [.trySend .bulk, .datagram .bulk (sendDatagram 0 1 [0, 0, 0, 0, 3]), .take .bulk,
      .forward .bulk, .handle (.atMs 0)]
  have hsome : ∃ path path', before.foldlM (step Codec.bincode 2 fun _ => 0)
      (start ((Net.start Crypto.toyFleet 0 0).nodes 2)) = some path ∧
        events.foldlM (step Codec.bincode 2 fun _ => 0) path = some path' ∧
        path.allowList = some [2] ∧ path'.rounds.length = 1 ∧
        (path.funnel.backlog .bulk ++ (path.checked .bulk).toList).filter Sourced =
          [⟨[0, 0, 0, 0, 1], -60, 0, 0⟩] := ⟨_, _, rfl, rfl, rfl, rfl, rfl⟩
  obtain ⟨path, path', -, hrun, hlist, hrounds, honPath⟩ := hsome
  obtain ⟨made, hmade, -, hfront, -⟩ := blackout_total hlist (by simp [events]) hrun
  exact ⟨path, path', made, hlist, hrounds, hmade, honPath ▸ hfront .bulk⟩

end RxPath
end TacticalMesh
