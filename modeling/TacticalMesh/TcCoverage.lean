import Mathlib.Logic.Relation
import TacticalMesh.NeighborTables
import TacticalMesh.TcFlooding

namespace TacticalMesh
set_option autoImplicit true

def Queues.Within (q q' : Queues) : Prop := ∀ p, q.inner p ⊆ q'.inner p

namespace Queues

theorem Within.refl (q : Queues) : q.Within q := fun _ => List.Subset.refl _

theorem Within.trans (h : Within q q') (h' : Within q' q'') : Within q q'' :=
  fun p => List.Subset.trans (h p) (h' p)

theorem within_push (q : Queues) (frame : Bytes) (prio : Priority) : q.Within (q.push frame prio) :=
  fun _ _ hf => mem_push.2 (.inl hf)

theorem mem_or_popped {q : Queues} (h : q.popNext = some ((frame, prio), q'))
    (hf : f ∈ q.inner p) : f ∈ q'.inner p ∨ f = frame := by
  obtain ⟨rest, hq, rfl⟩ := popNext_eq_some h
  simp only [Function.update_apply]
  split
  next hp =>
    rw [hp, hq] at hf
    rcases List.mem_cons.1 hf with hf | hf
    · exact .inr hf
    · exact .inl hf
  next => exact .inl hf

end Queues

def Event.ticking : Event → Option UInt8
  | tcTick n _ _ _ => some n
  | _ => none

/-- A frame that tells of node `o` at most up to this sequence number; topology messages go to
all. -/
structure Sending.UpTo (codec : Codec) (o : UInt8) (last : ℕ) (t : Sending) : Prop where
  all : t.msg.kind = .olsrTc → t.dst = broadcast
  le : ∀ seq, t.TellsOf codec (o, seq) → seq.toNat ≤ last

namespace Sending
variable {codec : Codec} {o : UInt8} {last last' : ℕ} {t : Sending}

theorem UpTo.mono (h : t.UpTo codec o last) (hle : last ≤ last') : t.UpTo codec o last' :=
  ⟨h.all, fun seq hseq => (h.le seq hseq).trans hle⟩

theorem upTo_of_kind (h : t.msg.kind ≠ .olsrTc) : t.UpTo codec o last :=
  ⟨fun hkind => absurd hkind h, fun _ htells => absurd htells.1 h⟩

theorem UpTo.next {draw : Draw} (h : t.UpTo codec o last)
    (hu : t.next r routeTo draw = some u) : u.UpTo codec o last := by
  obtain ⟨-, hmsg⟩ := next_src hu
  by_cases hkind : t.msg.kind = .olsrTc
  · have hdst := h.all hkind
    rw [Sending.next, if_pos hdst] at hu
    split at hu
    next =>
      cases hu
      exact ⟨fun _ => hdst, h.le⟩
    next => cases hu
  · exact upTo_of_kind (hmsg ▸ hkind)

theorem upTo_carries (codec : Codec) (radio : UInt8 → List UInt8) (o : UInt8) (last : ℕ) :
    Conveys codec radio (UpTo codec o last) (UpTo codec o last) fun _ => True where
  relay _ _ ht _ _ _ _ _ hu := ht.next hu
  msg _ _ _ _ _ := trivial
  forward _ _ ht _ _ hkind _ := ⟨fun _ => rfl, fun seq htells => ht.le seq ⟨hkind, htells.2⟩⟩

end Sending

namespace Node
variable {crypto : Crypto} {fleet : Fleet crypto} {codec : Codec} {env : RxEnv}
variable {Q : Sending → Prop} {L : AppMsg → Prop} {x : UInt8} {n : Node crypto}

theorem relay_within (parsed : ParsedFrame) :
    n.scheduler.Within (n.relay env parsed).scheduler := by
  rw [relay]
  split
  next => exact Queues.within_push _ _ _
  next => exact Queues.Within.refl _

theorem dispatch_within (parsed : ParsedFrame) :
    n.scheduler.Within (n.dispatch codec env parsed).scheduler := by
  rw [dispatch]
  simp only
  split
  next => split <;> exact Queues.Within.refl _
  next =>
    split
    next =>
      split
      next => exact Queues.within_push _ _ _
      next => exact Queues.Within.refl _
    next => exact Queues.Within.refl _
  next => split <;> exact Queues.Within.refl _
  next => exact Queues.Within.refl _
  next => exact Queues.Within.refl _

theorem jamCheck_within : n.scheduler.Within (n.jamCheck codec env).scheduler := by
  rw [jamCheck, (resetJam_keeps _).2.2.2]
  split
  next => exact Queues.within_push _ _ _
  next => exact Queues.Within.refl _

theorem handleParsed_within (parsed : ParsedFrame) :
    n.scheduler.Within (n.handleParsed codec env parsed).1.scheduler := by
  have hrelay : n.scheduler.Within ((n.record env parsed).relay env parsed).scheduler :=
    relay_within (n := n.record env parsed) parsed
  by_cases hlocal : parsed.deliverLocal n.identity.nodeId
  · rw [handleParsed_of_local codec env hlocal]
    exact (hrelay.trans (dispatch_within parsed)).trans jamCheck_within
  · rw [handleParsed_of_not_local codec env hlocal]
    exact hrelay

theorem Holds.rxLoop_within (h : n.Holds fleet Q L x) (t : Sending) :
    n.scheduler.Within (n.rxLoop codec env (fleet.frame t)).1.scheduler := by
  by_cases hacc : n.nonceCache.accepts (t.check env.now)
  · rw [rxLoop_of_accepts h hacc]
    exact handleParsed_within (n := n.remember t env.now) (fleet.parsed t)
  · obtain ⟨b, e, r, hr⟩ := h.rxLoop_of_rejected codec env hacc
    rw [hr]
    exact Queues.Within.refl _

theorem Holds.rxLoop_lastTcSeq (h : n.Holds fleet Q L x) (t : Sending) (o : UInt8) :
    (n.rxLoop codec env (fleet.frame t)).1.olsr.lastTcSeq o = n.olsr.lastTcSeq o ∨
      ∃ tc, t.TellsOf codec (o, tc.seq) ∧ tc.sender = o ∧ n.olsr.shouldForwardTc tc ∧
        (n.rxLoop codec env (fleet.frame t)).1.olsr.lastTcSeq o = some tc.seq := by
  rcases h.rxLoop_olsr t with hsame | ⟨e, hcarried, he⟩
  · rw [hsame]
    exact .inl rfl
  · rw [he]
    rcases n.olsr.handle_lastTcSeq e o with hsame | ⟨tc, link, order, rfl, ho, hnew, hlast⟩
    · exact .inl hsame
    · obtain ⟨hkind, hdec⟩ := hcarried
      refine .inr ⟨tc, ⟨hkind, tc, ?_, ?_⟩, ho, hnew, hlast⟩
      · rw [Codec.decodeTc, hdec]
      · rw [Tc.id, ho]

theorem Holds.rxLoop_new {t : Sending} {tc : Tc} (codec : Codec) (h : n.Holds fleet Q L x)
    (hacc : n.nonceCache.accepts (t.check env.now)) (hdst : t.dst = broadcast)
    (hkind : t.msg.kind = .olsrTc) (htc : codec.decodeTc t.msg.payload = some tc)
    (hnew : n.olsr.shouldForwardTc tc) :
    (n.rxLoop codec env (fleet.frame t)).1.olsr.lastTcSeq tc.sender = some tc.seq ∧
      fleet.frame (.own x .olsrTc t.msg.payload .high env.tcDraw) ∈
        (n.rxLoop codec env (fleet.frame t)).1.scheduler.inner .high := by
  rw [rxLoop_of_accepts h hacc]
  obtain ⟨routed, hrouted⟩ : ∃ m, m = ((n.remember t env.now).record env (fleet.parsed t)).relay env
      (fleet.parsed t) := ⟨_, rfl⟩
  have holsr : routed.olsr = n.olsr := by
    rw [hrouted]
    exact relay_record_olsr _
  have hid : routed.identity = fleet.identity x := by
    obtain ⟨_, hrelay⟩ := relay_changes env (fleet.parsed t)
      ((n.remember t env.now).record env (fleet.parsed t))
    rw [hrouted, hrelay]
    exact h.identity
  have hlocal : (fleet.parsed t).deliverLocal (n.remember t env.now).identity.nodeId := by
    rw [ParsedFrame.deliverLocal, Bool.or_eq_true]
    exact .inr (decide_eq_true hdst)
  have hauth : (fleet.parsed t).auth.msgKind = .olsrTc := hkind
  have hdec : codec.decodeOlsr (fleet.parsed t).plaintext = some (.tc tc) := by
    rw [Codec.decodeTc] at htc
    split at htc
    next tc' h' =>
      cases htc
      exact h'
    next => cases htc
  have hprocess : routed.olsr.processTc tc (fleet.parsed t).auth.srcNode env.order =
      (((routed.olsr.processTc tc (fleet.parsed t).auth.srcNode env.order).1), true) :=
    Prod.ext rfl (by rw [OlsrState.processTc_snd, holsr, hnew])
  have hdispatched : (n.remember t env.now).dispatched codec env (fleet.parsed t) =
      { routed with
        olsr := (routed.olsr.processTc tc (fleet.parsed t).auth.srcNode env.order).1
        scheduler := routed.scheduler.push
          (fleet.frame (.own x .olsrTc t.msg.payload .high env.tcDraw)) .high } := by
    rw [dispatched, ← hrouted, Node.dispatch, hauth]
    simp only [hdec]
    rw [hprocess, if_pos rfl, Node.enqueue, Shared.enqueue, hid]
    rfl
  rw [handleParsed_of_local codec env hlocal, hdispatched]
  constructor
  · rw [jamCheck_olsr, holsr, OlsrState.processTc_of_new hnew]
    exact Table.insert_self ..
  · exact jamCheck_within .high (Queues.mem_push.2 (.inr ⟨rfl, rfl⟩))

theorem outbound_changes (codec : Codec) (msg : AppMsg) (dst : UInt8) (prio : Priority)
    (draw : Draw) (n : Node crypto) : ∃ scheduler,
      n.outbound codec msg dst prio draw = { n with scheduler } ∧
        n.scheduler.Within scheduler := by
  rw [outbound]
  split
  next => exact ⟨_, rfl, Queues.within_push _ _ _⟩
  next =>
    split
    next => exact ⟨_, rfl, Queues.within_push _ _ _⟩
    next => exact ⟨n.scheduler, rfl, Queues.Within.refl _⟩

theorem rxLoop_tcSeq (codec : Codec) (env : RxEnv) (raw : Bytes) (n : Node crypto) :
    (n.rxLoop codec env raw).1.tcSeq = n.tcSeq := by
  have hjam (m : Node crypto) : (m.jamCheck codec env).tcSeq = m.tcSeq := by
    rw [jamCheck, resetJam]
    split <;> split <;> rfl
  have hhandle (parsed : ParsedFrame) (m : Node crypto) :
      (m.handleParsed codec env parsed).1.tcSeq = m.tcSeq := by
    obtain ⟨_, hrelay⟩ := relay_changes env parsed (m.record env parsed)
    obtain ⟨_, _, _, _, hdispatch⟩ :=
      dispatch_changes codec env parsed ((m.record env parsed).relay env parsed)
    by_cases hlocal : parsed.deliverLocal m.identity.nodeId
    · rw [handleParsed_of_local codec env hlocal, hjam, dispatched, hdispatch, hrelay]
      rfl
    · rw [handleParsed_of_not_local codec env hlocal, hrelay]
      rfl
  rw [rxLoop]
  simp only
  split
  next => exact hhandle _ _
  next => rfl
  next => rfl
  next => rfl
  next => rfl

end Node

namespace Net
variable {crypto : Crypto} {codec : Codec} {fleet : Fleet crypto} {radio : UInt8 → List UInt8}
variable {net net' : Net crypto} {o : UInt8}

def latest (net : Net crypto) (o : UInt8) : UInt16 := (net.nodes o).tcSeq

def Knows (net : Net crypto) (o x : UInt8) : Prop :=
  net.latest o ≠ 0 ∧ (x = o ∨ (net.nodes x).olsr.lastTcSeq o = some (net.latest o))

/-- The latest topology message of node `o` is on its way from node `x` to node `r`. -/
def Coming (codec : Codec) (fleet : Fleet crypto) (net : Net crypto) (o x r : UInt8) : Prop :=
  (∃ raw, (r, raw) ∈ net.air ∧ ownFrame r raw = false ∧
      fleet.carriedTc codec raw = some (o, net.latest o)) ∨
    ∃ p, ∃ raw ∈ (net.nodes x).scheduler.inner p,
      fleet.carriedTc codec raw = some (o, net.latest o)

/-- The frame that arrives, where, and when by the clock of the node. -/
def arriving (net : Net crypto) : Event → Option (UInt8 × Bytes × ℕ)
  | .deliver i env => net.air[i]?.map fun a => (a.1, a.2, env.now)
  | _ => none

/-- Steps that lose none of the messages of node `o`: all nodes are tuned to its channel, its
counter does not wrap, and its messages are heard in time, and not 100 messages late. -/
structure Timely (codec : Codec) (fleet : Fleet crypto) (o : UInt8) (net : Net crypto)
    (e : Event) : Prop where
  tuned : ∀ x, (net.nodes x).link.channel = (net.nodes o).link.channel
  unwrapped : e.ticking = some o → (net.latest o).toNat + 1 < 2 ^ 16
  heard : ∀ a ∈ net.arriving e, ownFrame a.1 a.2.1 = false →
    ∀ id ∈ fleet.carriedTc codec a.2.1, id.1 = o →
      ((net.nodes a.1).hears a.2.2 a.2.1).isSome ∧
        ∀ last ∈ (net.nodes a.1).olsr.lastTcSeq o, last.toNat < id.2.toNat + 100

instance (codec : Codec) (fleet : Fleet crypto) (o : UInt8) (net : Net crypto) (e : Event) :
    Decidable (Timely codec fleet o net e) :=
  -- What a node remembers is looked up, the numbers there are not run through.
  have (x : UInt8) (k : ℕ) :
      Decidable (∀ last ∈ (net.nodes x).olsr.lastTcSeq o, last.toNat < k) :=
    Option.decidableForallMem _
  have (a : UInt8 × Bytes × ℕ) : Decidable (∀ id ∈ fleet.carriedTc codec a.2.1, id.1 = o →
      ((net.nodes a.1).hears a.2.2 a.2.1).isSome ∧
        ∀ last ∈ (net.nodes a.1).olsr.lastTcSeq o, last.toNat < id.2.toNat + 100) :=
    Option.decidableForallMem _
  decidable_of_iff (_ ∧ _ ∧ _) ⟨fun h => ⟨h.1, h.2.1, h.2.2⟩, fun h => ⟨h.1, h.2, h.3⟩⟩

theorem Timely.hears (ht : Timely codec fleet o net (.deliver i env))
    (hget : net.air[i]? = some (r, raw)) (hown : ownFrame r raw = false)
    (htells : fleet.carriedTc codec raw = some (o, seq)) :
    ((net.nodes r).hears env.now raw).isSome ∧
      ∀ last, (net.nodes r).olsr.lastTcSeq o = some last → last.toNat < seq.toNat + 100 :=
  ht.heard (r, raw, env.now) (by rw [arriving, hget]; rfl) hown (o, seq) htells rfl

/-- Nobody is ahead of node `o`, and what somebody knows of it is on its way to whoever does not
know it yet and can hear it there. -/
structure Spreads (codec : Codec) (fleet : Fleet crypto) (radio : UInt8 → List UInt8) (o : UInt8)
    (net : Net crypto) : Prop where
  held : net.Holds fleet radio (Sending.UpTo codec o (net.latest o).toNat)
    (Sending.UpTo codec o (net.latest o).toNat) fun _ => True
  behind : ∀ x seq, (net.nodes x).olsr.lastTcSeq o = some seq →
    seq.toNat ≤ (net.latest o).toNat
  covers : ∀ x r, net.Knows o x → r ∈ radio x → r ≠ x → net.Knows o r ∨
    net.Coming codec fleet o x r

theorem start_spreads (codec : Codec) (fleet : Fleet crypto) (channel recorded : UInt8) :
    (start fleet channel recorded).Spreads codec fleet radio o where
  held := start_holds fleet channel recorded
  behind _ _ h := by cases h
  covers _ _ h := absurd rfl h.1

/-- A step after which all know what they knew before, and no frame is lost. -/
theorem Spreads.covers_of (h : net.Spreads codec fleet radio o)
    (hseq : net'.latest o = net.latest o)
    (hlast : ∀ x, (net'.nodes x).olsr.lastTcSeq o = (net.nodes x).olsr.lastTcSeq o)
    (hqueues : ∀ x, (net.nodes x).scheduler.Within (net'.nodes x).scheduler)
    (hair : net.air ⊆ net'.air) (x r : UInt8) (hx : net'.Knows o x) (hr : r ∈ radio x)
    (hne : r ≠ x) : net'.Knows o r ∨ net'.Coming codec fleet o x r := by
  have hknows (y : UInt8) : net'.Knows o y ↔ net.Knows o y := by
    rw [Knows, Knows, hseq, hlast]
  rw [hknows] at hx
  rw [hknows, Coming, hseq]
  rcases h.covers x r hx hr hne with hr | ⟨raw, hraw, hrest⟩ | ⟨p, raw, hraw, hrest⟩
  · exact .inl hr
  · exact .inr (.inl ⟨raw, hair hraw, hrest⟩)
  · exact .inr (.inr ⟨p, raw, hqueues x p hraw, hrest⟩)

theorem setNode_self (net : Net crypto) (n : UInt8) (node : Node crypto) :
    (net.setNode n node).nodes n = node := (setNode_nodes ..).trans (if_pos rfl)

theorem setNode_latest (hseq : node.tcSeq = (net.nodes n).tcSeq) :
    (net.setNode n node).latest o = net.latest o := by
  rw [latest, setNode_nodes]
  split
  next ho => rw [hseq, ← ho, latest]
  next => rfl

theorem step_latest (hstep : net.step codec radio e = some net') (o : UInt8) :
    e.ticking ≠ some o ∧ net'.latest o = net.latest o ∨
      ∃ now order draw, e = .tcTick o now order draw ∧ net'.latest o = net.latest o + 1 := by
  have hidle : (none : Option UInt8) ≠ some o := (Option.some_ne_none o).symm
  cases e with
  | helloTick n now order draw =>
    cases hstep
    exact .inl ⟨hidle, rfl⟩
  | tcTick n now order draw =>
    cases hstep
    by_cases ho : o = n
    · rw [ho]
      exact .inr ⟨now, order, draw, rfl,
        congrArg (fun m : Node crypto => m.tcSeq) (setNode_self net n _)⟩
    · exact .inl ⟨fun h => ho (Option.some.inj h).symm, congrArg (fun m : Node crypto => m.tcSeq)
        ((setNode_nodes net n _ o).trans (if_neg ho))⟩
  | agingTick n now staleOrder order =>
    cases hstep
    exact .inl ⟨hidle, setNode_latest rfl⟩
  | outbound n msg dst prio draw =>
    obtain ⟨-, rfl⟩ := step_outbound hstep
    refine .inl ⟨hidle, setNode_latest ?_⟩
    rw [Node.outbound]
    split
    next => rfl
    next => split <;> rfl
  | transmit n =>
    obtain ⟨frame, prio, queues, -, rfl⟩ := step_transmit hstep
    refine .inl ⟨hidle, ?_⟩
    change (net.setNode n _).latest o = net.latest o
    exact setNode_latest rfl
  | deliver i env =>
    simp only [step] at hstep
    split at hstep
    next r raw _ =>
      cases hstep
      rw [deliver]
      split
      next => exact .inl ⟨hidle, rfl⟩
      next =>
        refine .inl ⟨hidle, ?_⟩
        change (net.setNode r _).latest o = net.latest o
        exact setNode_latest (Node.rxLoop_tcSeq codec env raw _)
    next => cases hstep
  | runTask n i now succeeds =>
    obtain ⟨msg, -, rfl⟩ := step_runTask hstep
    exact .inl ⟨hidle, setNode_latest rfl⟩

theorem Timely.latest_le (ht : Timely codec fleet o net e)
    (hstep : net.step codec radio e = some net') :
    (net.latest o).toNat ≤ (net'.latest o).toNat := by
  rcases step_latest hstep o with ⟨-, hsame⟩ | ⟨now, order, draw, he, hnext⟩
  · rw [hsame]
  · have hlt := ht.unwrapped (by rw [he]; rfl)
    have hone : (1 : UInt16).toNat = 1 := rfl
    rw [hnext, UInt16.toNat_add, hone, Nat.mod_eq_of_lt hlt]
    exact Nat.le_succ _

theorem Spreads.held_step (h : net.Spreads codec fleet radio o)
    (ht : Timely codec fleet o net e) (hstep : net.step codec radio e = some net') :
    net'.Holds fleet radio (Sending.UpTo codec o (net'.latest o).toNat)
      (Sending.UpTo codec o (net'.latest o).toNat) fun _ => True := by
  have hle := ht.latest_le hstep
  have held := h.held.mono (fun s hs => hs.mono hle) (fun s hs => hs.mono hle) fun _ h => h
  refine held.step_sending (Sending.upTo_carries codec radio o _) hstep ?_ ?_ ?_
    (fun _ _ _ hs _ _ _ => hs) fun _ _ _ => Sending.upTo_of_kind nofun
  · exact fun _ _ _ _ _ => Sending.upTo_of_kind nofun
  · rintro n now order draw rfl r - -
    refine ⟨fun _ => rfl, fun seq htells => ?_⟩
    obtain ⟨-, tc, htc, hid⟩ := htells
    cases (codec.decodeTc_encodeOlsr _).symm.trans htc
    obtain ⟨hsender, rfl⟩ := Prod.ext_iff.1 hid
    have ho : n = o := ((h.held.nodes n).olsr.localId_eq).symm.trans hsender
    rw [ho]
    cases hstep
    have hself : ((net.setNode n { net.nodes n with tcSeq := (net.nodes n).tcSeq + 1 }).nodes
        o).tcSeq = (net.nodes o).tcSeq + 1 := by
      rw [← ho]
      exact congrArg (fun m : Node crypto => m.tcSeq) (setNode_self net n _)
    exact (congrArg UInt16.toNat hself).ge
  · intro s m prio draw he hm hs
    exact Sending.upTo_of_kind (by rw [hs]; nofun)

section Taken
variable {r : UInt8} {t : Sending} {env : RxEnv} {i : ℕ}

theorem taken_latest : (net.taken codec i r (fleet.frame t) env).latest o = net.latest o :=
  setNode_latest (Node.rxLoop_tcSeq codec env _ _)

theorem Spreads.knows_taken (h : net.Spreads codec fleet radio o)
    (ht : Timely codec fleet o net (.deliver i env))
    (hget : net.air[i]? = some (r, fleet.frame t)) (hown : t.src ≠ r)
    (hupTo : t.UpTo codec o (net.latest o).toNat) (hx : net.Knows o x) :
    (net.taken codec i r (fleet.frame t) env).Knows o x := by
  rw [Knows, taken_latest, taken_nodes]
  refine ⟨hx.1, hx.2.imp id fun hlast => ?_⟩
  split
  next hxr =>
    rw [hxr] at hlast
    rcases (h.held.nodes r).rxLoop_lastTcSeq t o with hsame | ⟨tc, htells, ho, hnew, -⟩
    · exact hsame.trans hlast
    · have hout : ownFrame r (fleet.frame t) = false :=
        Bool.eq_false_iff.2 fun h => hown ((ownFrame_frame fleet t).1 h)
      have hrecent := (ht.hears hget hout
        ((fleet.carriedTc_frame codec t).2 htells)).2 _ hlast
      have hstale := (OlsrState.shouldForwardTc_iff.1 hnew).2
      rw [ho, hlast, Option.getD_some, stale_iff] at hstale
      exact absurd ⟨hupTo.le _ htells, hrecent⟩ hstale
  next => exact hlast

theorem Spreads.told (h : net.Spreads codec fleet radio o)
    (ht : Timely codec fleet o net (.deliver i env))
    (hget : net.air[i]? = some (r, fleet.frame t)) (hown : t.src ≠ r)
    (hupTo : t.UpTo codec o (net.latest o).toNat) (hticked : net.latest o ≠ 0)
    (htells : t.TellsOf codec (o, net.latest o)) :
    net.Knows o r ∨ (net.taken codec i r (fleet.frame t) env).Knows o r ∧
      ∃ p, ∃ raw ∈ ((net.taken codec i r (fleet.frame t) env).nodes r).scheduler.inner p,
        fleet.carriedTc codec raw = some (o, net.latest o) := by
  have hout : ownFrame r (fleet.frame t) = false :=
    Bool.eq_false_iff.2 fun h => hown ((ownFrame_frame fleet t).1 h)
  have hheard := (ht.hears hget hout
    ((fleet.carriedTc_frame codec t).2 htells)).1
  rw [(h.held.nodes r).hears_frame, Option.isSome_ite] at hheard
  obtain ⟨hkind, tc, htc, hid⟩ := htells
  obtain ⟨ho, hseq⟩ := Prod.ext_iff.1 hid
  change tc.sender = o at ho
  change tc.seq = net.latest o at hseq
  by_cases hnew : (net.nodes r).olsr.shouldForwardTc tc
  · obtain ⟨hlast, hqueued⟩ :=
      (h.held.nodes r).rxLoop_new codec hheard (hupTo.all hkind) hkind htc hnew
    have hself : (net.taken codec i r (fleet.frame t) env).nodes r =
        ((net.nodes r).rxLoop codec env (fleet.frame t)).1 :=
      (taken_nodes ..).trans (if_pos rfl)
    refine .inr ⟨⟨?_, .inr ?_⟩, .high,
      fleet.frame (.own r .olsrTc t.msg.payload .high env.tcDraw), ?_, ?_⟩
    · rwa [taken_latest]
    · rw [hself, taken_latest, ← hseq, ← ho]
      exact hlast
    · rw [hself]
      exact hqueued
    · exact (fleet.carriedTc_frame codec _).2 ⟨rfl, tc, htc, hid⟩
  · refine .inl ⟨hticked, ?_⟩
    rw [OlsrState.shouldForwardTc_iff, not_and_not_right, (h.held.nodes r).olsr.localId_eq, ho,
      hseq, stale_iff] at hnew
    by_cases hro : r = o
    · exact .inl hro
    · obtain ⟨hle, -⟩ := hnew fun hor => hro hor.symm
      right
      cases hlast : (net.nodes r).olsr.lastTcSeq o with
      | none =>
        rw [hlast] at hle
        exact absurd (UInt16.toNat_inj.1 (Nat.le_zero.1 hle)) hticked
      | some last =>
        rw [hlast, Option.getD_some] at hle
        have heq := Nat.le_antisymm (h.behind r last hlast) hle
        rw [UInt16.toNat_inj.1 heq]

theorem Spreads.taken_covers (h : net.Spreads codec fleet radio o)
    (ht : Timely codec fleet o net (.deliver i env))
    (hget : net.air[i]? = some (r, fleet.frame t)) (hown : t.src ≠ r)
    (hupTo : t.UpTo codec o (net.latest o).toNat) (x y : UInt8)
    (hx : (net.taken codec i r (fleet.frame t) env).Knows o x) (hy : y ∈ radio x)
    (hne : y ≠ x) :
    (net.taken codec i r (fleet.frame t) env).Knows o y ∨
      (net.taken codec i r (fleet.frame t) env).Coming codec fleet o x y := by
  have hkeep (z : UInt8) := h.knows_taken (x := z) ht hget hown hupTo
  by_cases hknew : net.Knows o x
  · rcases h.covers x y hknew hy hne with hy | ⟨raw, hraw, hout, htells⟩ | ⟨p, raw, hraw, htells⟩
    · exact .inl (hkeep y hy)
    · by_cases hthis : (y, raw) = (r, fleet.frame t)
      · cases hthis
        rcases h.told ht hget hown hupTo hknew.1 ((fleet.carriedTc_frame codec t).1 htells) with
          hknows | ⟨hknows, -⟩
        · exact .inl (hkeep _ hknows)
        · exact .inl hknows
      · right
        left
        obtain ⟨j, hj⟩ := List.getElem?_of_mem hraw
        have hji : j ≠ i := by
          rintro rfl
          exact hthis (Option.some.inj (hj.symm.trans hget))
        refine ⟨raw, List.mem_eraseIdx_iff_getElem?.2 ⟨j, hji, hj⟩, hout, ?_⟩
        rw [taken_latest]
        exact htells
    · right
      right
      refine ⟨p, raw, ?_, ?_⟩
      · rw [taken_nodes]
        split
        next hxr =>
          rw [hxr] at hraw
          exact (h.held.nodes r).rxLoop_within t p hraw
        next => exact hraw
      · rw [taken_latest]
        exact htells
  · obtain ⟨hticked, hx⟩ := hx
    rw [taken_latest] at hticked hx
    rcases hx with hxo | hlast
    · exact absurd ⟨hticked, .inl hxo⟩ hknew
    · rw [taken_nodes] at hlast
      split at hlast
      next hxr =>
        rcases (h.held.nodes r).rxLoop_lastTcSeq t o with hsame | ⟨tc, htells, -, -, hset⟩
        · rw [hsame, ← hxr] at hlast
          exact absurd ⟨hticked, .inr hlast⟩ hknew
        · have hseq : tc.seq = net.latest o := Option.some.inj (hset.symm.trans hlast)
          rw [hseq] at htells
          rcases h.told ht hget hown hupTo hticked htells with hknows | ⟨-, p, raw, hraw, htold⟩
          · exact absurd (hxr ▸ hknows) hknew
          · refine .inr (.inr ⟨p, raw, hxr ▸ hraw, ?_⟩)
            rw [taken_latest]
            exact htold
      next => exact absurd ⟨hticked, .inr hlast⟩ hknew

end Taken

theorem Spreads.ticked (h : net.Spreads codec fleet radio o)
    (ht : Timely codec fleet o net (.tcTick o now order draw))
    (hstep : net.step codec radio (.tcTick o now order draw) = some net') (x r : UInt8)
    (hx : net'.Knows o x) (hr : r ∈ radio x) (hne : r ≠ x) :
    net'.Knows o r ∨ net'.Coming codec fleet o x r := by
  let node : Node crypto := { net.nodes o with tcSeq := (net.nodes o).tcSeq + 1 }
  let t : Sending := .own o .olsrTc (codec.encodeOlsr (.tc (node.tc now order))) .high draw
  have hframe : net' = (net.setNode o node).send radio o (fleet.frame t) := by
    cases hstep
    exact congrArg ((net.setNode o node).send radio o) ((h.held.nodes o).own_frame ..)
  have hself : (net.setNode o node).nodes o = node := setNode_self ..
  have hlatest : net'.latest o = net.latest o + 1 := by
    rw [hframe]
    exact congrArg (fun m : Node crypto => m.tcSeq) hself
  have hnext : (net'.latest o).toNat = (net.latest o).toNat + 1 := by
    have hone : (1 : UInt16).toNat = 1 := rfl
    rw [hlatest, UInt16.toNat_add, hone, Nat.mod_eq_of_lt (ht.unwrapped rfl)]
  have hxo : x = o := by
    refine hx.2.resolve_right fun hlast => ?_
    have hbefore : (net.nodes x).olsr.lastTcSeq o = some (net'.latest o) := by
      rw [← hlast, hframe]
      change _ = ((net.setNode o node).nodes x).olsr.lastTcSeq o
      rw [setNode_nodes]
      split
      next hxo => rw [hxo]
      next => rfl
    have hle := h.behind x _ hbefore
    omega
  rw [hxo] at hr hne ⊢
  refine .inr (.inl ⟨fleet.frame t, ?_, ?_, ?_⟩)
  · have hother : (net.setNode o node).nodes r = net.nodes r :=
      (setNode_nodes ..).trans (if_neg hne)
    rw [hframe, mem_send]
    refine .inr ⟨hr, ?_, rfl⟩
    rw [hother, hself]
    exact ht.tuned r
  · exact Bool.eq_false_iff.2 fun hown => hne ((ownFrame_frame fleet t).1 hown).symm
  · rw [fleet.carriedTc_frame, hlatest]
    refine ⟨rfl, _, codec.decodeTc_encodeOlsr _, ?_⟩
    exact Prod.ext (h.held.nodes o).olsr.localId_eq rfl

theorem Spreads.transmitted (h : net.Spreads codec fleet radio o)
    (ht : Timely codec fleet o net (.transmit n))
    (hstep : net.step codec radio (.transmit n) = some net') (x r : UInt8)
    (hx : net'.Knows o x) (hr : r ∈ radio x) (hne : r ≠ x) :
    net'.Knows o r ∨ net'.Coming codec fleet o x r := by
  obtain ⟨frame, prio, queues, hpop, rfl⟩ := step_transmit hstep
  let node : Node crypto := { net.nodes n with scheduler := queues }
  have hlatest : ((net.setNode n node).send radio n frame).latest o = net.latest o := by
    change (net.setNode n node).latest o = net.latest o
    exact setNode_latest rfl
  have hchannel (y : UInt8) :
      ((net.setNode n node).nodes y).link.channel = (net.nodes y).link.channel := by
    rw [setNode_nodes]
    split
    next hy => rw [hy]
    next => rfl
  have hknows (y : UInt8) :
      ((net.setNode n node).send radio n frame).Knows o y ↔ net.Knows o y := by
    have hlast : (((net.setNode n node).send radio n frame).nodes y).olsr.lastTcSeq o =
        (net.nodes y).olsr.lastTcSeq o := by
      change ((net.setNode n node).nodes y).olsr.lastTcSeq o = _
      rw [setNode_nodes]
      split
      next hy => rw [hy]
      next => rfl
    rw [Knows, Knows, hlatest, hlast]
  rw [hknows] at hx
  rw [hknows, Coming, hlatest]
  rcases h.covers x r hx hr hne with hr' | ⟨raw, hraw, hrest⟩ | ⟨p, raw, hraw, htells⟩
  · exact .inl hr'
  · exact .inr (.inl ⟨raw, mem_send.2 (.inl hraw), hrest⟩)
  · right
    by_cases hxn : x = n
    · subst hxn
      rcases Queues.mem_or_popped hpop hraw with hkept | rfl
      · refine .inr ⟨p, raw, ?_, htells⟩
        change raw ∈ ((net.setNode x node).nodes x).scheduler.inner p
        rw [setNode_self]
        exact hkept
      · obtain ⟨s, rfl, hsrc, -⟩ := (h.held.nodes x).queued p raw hraw
        refine .inl ⟨fleet.frame s, mem_send.2 (.inr ⟨hr, ?_, rfl⟩), ?_, htells⟩
        · rw [hchannel, hchannel]
          exact (ht.tuned r).trans (ht.tuned x).symm
        · refine Bool.eq_false_iff.2 fun hown => hne ?_
          exact ((ownFrame_frame fleet s).1 hown).symm.trans hsrc
    · refine .inr ⟨p, raw, ?_, htells⟩
      change raw ∈ ((net.setNode n node).nodes x).scheduler.inner p
      rw [setNode_nodes, if_neg hxn]
      exact hraw

theorem Spreads.of_kept (h : net.Spreads codec fleet radio o)
    (ht : Timely codec fleet o net e) (hstep : net.step codec radio e = some net')
    (hlast : ∀ x, (net'.nodes x).olsr.lastTcSeq o = (net.nodes x).olsr.lastTcSeq o)
    (hcovers : ∀ x r, net'.Knows o x → r ∈ radio x → r ≠ x → net'.Knows o r ∨
      net'.Coming codec fleet o x r) : net'.Spreads codec fleet radio o where
  held := h.held_step ht hstep
  behind x seq hseq := (h.behind x seq ((hlast x).symm.trans hseq)).trans (ht.latest_le hstep)
  covers := hcovers

theorem Spreads.set (h : net.Spreads codec fleet radio o) (ht : Timely codec fleet o net e)
    (hstep : net.step codec radio e = some net') (n : UInt8) (node : Node crypto)
    (hnodes : net'.nodes = (net.setNode n node).nodes)
    (hseq : node.tcSeq = (net.nodes n).tcSeq ∨ n ≠ o)
    (hlast : node.olsr.lastTcSeq = (net.nodes n).olsr.lastTcSeq)
    (hqueues : (net.nodes n).scheduler.Within node.scheduler) (hair : net.air ⊆ net'.air) :
    net'.Spreads codec fleet radio o := by
  have hlatest : net'.latest o = net.latest o := by
    rw [latest, hnodes, setNode_nodes]
    split
    next ho => rw [hseq.resolve_right fun hne => hne ho.symm, latest, ho]
    next => rfl
  have hsame (x : UInt8) :
      (net'.nodes x).olsr.lastTcSeq o = (net.nodes x).olsr.lastTcSeq o := by
    rw [hnodes, setNode_nodes]
    split
    next hx => rw [hlast, hx]
    next => rfl
  refine h.of_kept ht hstep hsame (h.covers_of hlatest hsame (fun x => ?_) hair)
  rw [hnodes, setNode_nodes]
  split
  next hx =>
    rw [hx]
    exact hqueues
  next => exact Queues.Within.refl _

theorem Spreads.delivered (h : net.Spreads codec fleet radio o)
    (ht : Timely codec fleet o net (.deliver i env))
    (hstep : net.step codec radio (.deliver i env) = some net') :
    net'.Spreads codec fleet radio o := by
  have hheld := h.held_step ht hstep
  cases hget : net.air[i]? with
  | none =>
    simp only [step, hget] at hstep
    cases hstep
  | some entry =>
    obtain ⟨r, raw⟩ := entry
    obtain ⟨t, rfl, hrange, hupTo⟩ := h.held.air r raw (List.mem_of_getElem? hget)
    by_cases hown : t.src = r
    · have hnet : net' = { net with air := net.air.eraseIdx i } := by
        simp only [step, hget, deliver, if_pos ((ownFrame_frame fleet t).2 hown)] at hstep
        exact (Option.some.inj hstep).symm
      rw [hnet] at hheld ⊢
      refine ⟨hheld, h.behind, fun x y hx hy hne => ?_⟩
      rcases h.covers x y hx hy hne with hy' | ⟨raw, hraw, hout, htells⟩ | hqueued
      · exact .inl hy'
      · obtain ⟨j, hj⟩ := List.getElem?_of_mem hraw
        have hji : j ≠ i := by
          rintro rfl
          cases hj.symm.trans hget
          rw [(ownFrame_frame fleet t).2 hown] at hout
          cases hout
        exact .inr (.inl ⟨raw, List.mem_eraseIdx_iff_getElem?.2 ⟨j, hji, hj⟩, hout, htells⟩)
      · exact .inr (.inr hqueued)
    · have hnet := Option.some.inj (hstep.symm.trans (step_deliver_of codec radio env hget hown))
      rw [hnet] at hheld ⊢
      have hup := hupTo (Ne.symm hown)
      refine ⟨hheld, fun x seq hseq => ?_, h.taken_covers ht hget hown hup⟩
      rw [taken_latest]
      rw [taken_nodes] at hseq
      split at hseq
      next =>
        rcases (h.held.nodes r).rxLoop_lastTcSeq t o with hsame | ⟨tc, htells, -, -, hset⟩
        · exact h.behind r seq (hsame.symm.trans hseq)
        · cases hset.symm.trans hseq
          exact hup.le _ htells
      next => exact h.behind x seq hseq

theorem Spreads.step (h : net.Spreads codec fleet radio o) (ht : Timely codec fleet o net e)
    (hstep : net.step codec radio e = some net') : net'.Spreads codec fleet radio o := by
  cases e with
  | helloTick n now order draw =>
    obtain rfl := Option.some.inj hstep
    exact h.of_kept ht hstep (fun _ => rfl) (h.covers_of rfl (fun _ => rfl)
      (fun _ => Queues.Within.refl _) (List.subset_append_left _ _))
  | tcTick n now order draw =>
    by_cases hn : n = o
    · rw [hn] at ht hstep
      refine h.of_kept ht hstep (fun x => ?_) (h.ticked ht hstep)
      obtain rfl := Option.some.inj hstep
      change ((net.setNode o _).nodes x).olsr.lastTcSeq o = _
      rw [setNode_nodes]
      split
      next hx => rw [hx]
      next => rfl
    · obtain rfl := Option.some.inj hstep
      exact h.set ht hstep n { net.nodes n with tcSeq := (net.nodes n).tcSeq + 1 } rfl (.inr hn)
        rfl (Queues.Within.refl _) (List.subset_append_left _ _)
  | agingTick n now staleOrder order =>
    obtain rfl := Option.some.inj hstep
    have hlast : ((net.nodes n).olsr.agingTick now staleOrder order).lastTcSeq =
        (net.nodes n).olsr.lastTcSeq := by
      funext x
      rcases (net.nodes n).olsr.handle_lastTcSeq (.aging now staleOrder order) x with
        hx | ⟨_, _, _, he, -⟩
      · exact hx
      · cases he
    exact h.set ht hstep n { net.nodes n with
        olsr := (net.nodes n).olsr.agingTick now staleOrder order }
      rfl (.inl rfl) hlast (Queues.Within.refl _) (List.Subset.refl _)
  | outbound n msg dst prio draw =>
    obtain ⟨-, rfl⟩ := step_outbound hstep
    obtain ⟨scheduler, hout, hwithin⟩ :=
      (net.nodes n).outbound_changes codec msg dst prio draw
    refine h.set ht hstep n _ rfl (.inl ?_) ?_ ?_ (List.Subset.refl _)
    · rw [hout]
    · rw [hout]
    · rw [hout]
      exact hwithin
  | transmit n =>
    refine h.of_kept ht hstep (fun x => ?_) (h.transmitted ht hstep)
    obtain ⟨frame, prio, queues, -, rfl⟩ := step_transmit hstep
    change ((net.setNode n _).nodes x).olsr.lastTcSeq o = _
    rw [setNode_nodes]
    split
    next hx => rw [hx]
    next => rfl
  | deliver i env => exact h.delivered ht hstep
  | runTask n i now succeeds =>
    obtain ⟨msg, -, rfl⟩ := step_runTask hstep
    obtain ⟨-, -, holsr, hqueues⟩ :
        _ ∧ _ ∧ ((net.nodes n).toShared.handleTactical msg now succeeds).olsr = _ ∧ _ :=
      (net.nodes n).toShared.handleTactical_keeps
    refine h.set ht hstep n _ rfl (.inl rfl) (congrArg OlsrState.lastTcSeq holsr) ?_
      (List.Subset.refl _)
    exact hqueues ▸ Queues.Within.refl _

/-- One node after the other hears the topology messages of node `o`. -/
def Linked (radio : UInt8 → List UInt8) : UInt8 → UInt8 → Prop :=
  Relation.ReflTransGen fun x r => r ∈ radio x ∧ r ≠ x

theorem Spreads.known (h : net.Spreads codec fleet radio o) (hair : net.air = [])
    (hqueues : ∀ x p, (net.nodes x).scheduler.inner p = []) (hticked : net.latest o ≠ 0)
    (hlinked : Linked radio o y) (hne : y ≠ o) :
    (net.nodes y).olsr.lastTcSeq o = some (net.latest o) := by
  have hquiet (x r : UInt8) : ¬ net.Coming codec fleet o x r := by
    rintro (⟨raw, hraw, -⟩ | ⟨p, raw, hraw, -⟩)
    · rw [hair] at hraw
      cases hraw
    · rw [hqueues] at hraw
      cases hraw
  have hknows : net.Knows o y := by
    induction hlinked with
    | refl => exact ⟨hticked, .inl rfl⟩
    | @tail x r _ hlink ih =>
      by_cases hx : x = o
      · rw [hx] at hlink
        exact (h.covers o r ⟨hticked, .inl rfl⟩ hlink.1 hlink.2).resolve_right (hquiet _ _)
      · exact (h.covers x r (ih hx) hlink.1 hlink.2).resolve_right (hquiet _ _)
  exact hknows.2.resolve_left hne

/-- When nothing is queued or on air any more, every node that is linked to node `o` remembers the
latest of its topology messages. -/
theorem linked_nodes_know (codec : Codec) (fleet : Fleet crypto) (radio : UInt8 → List UInt8)
    (channel recorded : UInt8) {events : List Event}
    (htimely : Along (step codec radio) (Timely codec fleet o) (start fleet channel recorded)
      events)
    (hrun : events.foldlM (step codec radio) (start fleet channel recorded) = some net)
    (hair : net.air = []) (hqueues : ∀ x p, (net.nodes x).scheduler.inner p = [])
    (hticked : net.latest o ≠ 0) (hlinked : Linked radio o y) (hne : y ≠ o) :
    (net.nodes y).olsr.lastTcSeq o = some (net.latest o) := by
  have h : net.Spreads codec fleet radio o :=
    htimely.invariant hrun (start_spreads codec fleet channel recorded)
      fun _ _ _ h ht hstep => h.step ht hstep
  exact h.known hair hqueues hticked hlinked hne

/-- Node 1 is heard by node 2, and node 2 by node 3. -/
def oneWay (n : UInt8) : List UInt8 := if n = 1 then [2] else if n = 2 then [3] else []

def oneWayRun : List Event :=
  let env : RxEnv := { RxEnv.atMs 0 with tcDraw := .atMs 1 }
  [.tcTick 1 0 byteOrder (.atMs 0), .deliver 0 env, .transmit 2, .transmit 2, .deliver 0 env,
    .deliver 0 env, .transmit 3, .transmit 3, .transmit 3]

theorem oneWay_known : ∃ net,
    oneWayRun.foldlM (step Codec.bincode oneWay) (start Crypto.toyFleet 0 0) = some net ∧
      net.latest 1 = 1 ∧ (net.nodes 3).olsr.lastTcSeq 1 = some (net.latest 1) := by
  have hends : ∃ net ∈ oneWayRun.foldlM (step Codec.bincode oneWay) (start Crypto.toyFleet 0 0),
      net.latest 1 = 1 ∧ net.air = [] ∧ ∀ x : UInt8, ∀ p ∈ Queues.order,
        (net.nodes x).scheduler.inner p = [] := by decide +kernel
  obtain ⟨net, hrun, hlatest, hair, hqueues⟩ := hends
  have htimely : Along (step Codec.bincode oneWay) (Timely Codec.bincode Crypto.toyFleet 1)
      (start Crypto.toyFleet 0 0) oneWayRun := by decide +kernel
  have hlinked : Linked oneWay 1 3 := by
    have hfirst : Linked oneWay 1 2 := Relation.ReflTransGen.single (by decide)
    exact hfirst.tail (by decide)
  have hempty (x : UInt8) (p : Priority) : (net.nodes x).scheduler.inner p = [] :=
    hqueues x p (by cases p <;> decide)
  exact ⟨net, hrun, hlatest, linked_nodes_know Codec.bincode Crypto.toyFleet oneWay 0 0 htimely hrun
    hair hempty (by rw [hlatest]; decide) hlinked (by decide)⟩

end Net
end TacticalMesh
