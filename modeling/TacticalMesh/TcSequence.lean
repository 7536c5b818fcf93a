import TacticalMesh.TcDedup

namespace TacticalMesh
set_option autoImplicit true

/-- The sequence number of the `e`th emission of `tc_loop`: a 16-bit counter that wraps. -/
@[irreducible] def emittedSeq (e : ℕ) : UInt16 := (fun seq => seq + 1)^[e] 0

theorem toNat_emittedSeq (e : ℕ) : (emittedSeq e).toNat = e % 2 ^ 16 := by
  induction e with
  | zero =>
    rw [emittedSeq]
    rfl
  | succ e ih =>
    rw [emittedSeq, Function.iterate_succ_apply', ← emittedSeq, UInt16.toNat_add, ih]
    exact Nat.mod_add_mod e (2 ^ 16) 1

/-- Whether the wrap of the counter goes unnoticed between the newest emission and the next one
that arrives: a late one must not come from before it, a new one must not look late. -/
def SeamFree (newest next : ℕ) : Prop :=
  (next ≤ newest → next / 2 ^ 16 = newest / 2 ^ 16) ∧
    (newest < next → newest % 2 ^ 16 < next % 2 ^ 16 ∨ next % 2 ^ 16 + 100 ≤ newest % 2 ^ 16)

theorem stale_emittedSeq_iff {newest next : ℕ} (hlate : newest < next + 100) :
    (¬ Stale (emittedSeq newest) (emittedSeq next) ↔ newest < next) ↔ SeamFree newest next := by
  rw [stale_iff, toNat_emittedSeq, toNat_emittedSeq, SeamFree]
  omega

structure TcArrival where
  emission : ℕ
  fromLink : UInt8
  order : IterOrder

structure TcSource where
  sender : UInt8
  neighbors : ℕ → List (UInt8 × LinkQuality)
  sentAtMs : ℕ → ℕ

namespace TcSource
variable (src : TcSource)

def tc (e : ℕ) : Tc := ⟨src.sender, emittedSeq e, src.neighbors e, src.sentAtMs e⟩

def arrive (s : OlsrState) (a : TcArrival) : OlsrState × Bool :=
  s.processTc (src.tc a.emission) a.fromLink a.order

def accept (s : OlsrState) (accepted : List ℕ) (a : TcArrival) : List ℕ :=
  if (src.arrive s a).2 then a.emission :: accepted else accepted

/-- Duplicate detection works for one message that arrives. -/
structure Recognises (s : OlsrState) (accepted : List ℕ) (a : TcArrival) : Prop where
  verdict : (src.arrive s a).2 = true ↔ ∀ e ∈ accepted, e < a.emission
  once : (src.accept s accepted a).Nodup
  newest : ∀ e ∈ src.accept s accepted a, (∀ e' ∈ src.accept s accepted a, e' ≤ e) →
    (src.arrive s a).1.topology src.sender = some (OlsrState.advertised s.localId (src.tc e))

def RecognisesAll : OlsrState → List ℕ → List TcArrival → Prop
  | _, _, [] => True
  | s, accepted, a :: as => src.Recognises s accepted a ∧
    RecognisesAll (src.arrive s a).1 (src.accept s accepted a) as

/-- Every message is fewer than 100 emissions older than the newest one that has arrived. -/
def Recent : ℕ → List TcArrival → Prop
  | _, [] => True
  | newest, a :: as => newest < a.emission + 100 ∧ Recent (max newest a.emission) as

def AllSeamFree : ℕ → List TcArrival → Prop
  | _, [] => True
  | newest, a :: as => SeamFree newest a.emission ∧ AllSeamFree (max newest a.emission) as

/-- What the node keeps of the sender while duplicate detection works. -/
structure Follows (s : OlsrState) (accepted : List ℕ) (newest : ℕ) : Prop where
  remote : src.sender ≠ s.localId
  last : s.lastTcSeq src.sender = some (emittedSeq newest)
  mem : newest ∈ accepted
  le : ∀ e ∈ accepted, e ≤ newest
  nodup : accepted.Nodup
  topology : s.topology src.sender = some (OlsrState.advertised s.localId (src.tc newest))

variable {src}

theorem arrive_localId (s : OlsrState) (a : TcArrival) :
    (src.arrive s a).1.localId = s.localId :=
  s.handle_localId (.tc (src.tc a.emission) a.fromLink a.order)

theorem Follows.installed (h : src.Follows s accepted newest) :
    accepted.Nodup ∧ ∀ e ∈ accepted, (∀ e' ∈ accepted, e' ≤ e) →
      s.topology src.sender = some (OlsrState.advertised s.localId (src.tc e)) := by
  refine ⟨h.nodup, fun e he hmax => ?_⟩
  have heq : e = newest := Nat.le_antisymm (h.le e he) (hmax newest h.mem)
  rw [heq]
  exact h.topology

theorem Follows.forward_iff (h : src.Follows s accepted newest) :
    s.shouldForwardTc (src.tc e) ↔ ¬ Stale (emittedSeq newest) (emittedSeq e) := by
  have hsender : (src.tc e).sender = src.sender := rfl
  rw [OlsrState.shouldForwardTc_iff, hsender, h.last, Option.getD_some, and_iff_right h.remote]
  rfl

theorem Follows.lt_iff (h : src.Follows s accepted newest) (e : ℕ) :
    (∀ e' ∈ accepted, e' < e) ↔ newest < e :=
  ⟨fun hlt => hlt newest h.mem, fun hlt e' he' => (h.le e' he').trans_lt hlt⟩

theorem follows_of_accepted (src : TcSource) (a : TcArrival) (accepted : List ℕ)
    (hnew : s.shouldForwardTc (src.tc a.emission))
    (hlt : ∀ e ∈ accepted, e < a.emission) (hnodup : accepted.Nodup) :
    src.Follows (src.arrive s a).1 (src.accept s accepted a) a.emission := by
  have hflag : (src.arrive s a).2 = true := (OlsrState.processTc_snd ..).trans hnew
  have harrive : (src.arrive s a).1 = (OlsrState.recomputeRoutes
      { s with
        lastTcSeq := s.lastTcSeq.insert src.sender (emittedSeq a.emission)
        topology := s.topology.insert src.sender
          (OlsrState.advertised s.localId (src.tc a.emission)) } a.order) :=
    congrArg Prod.fst (OlsrState.processTc_of_new hnew)
  rw [accept, if_pos hflag, harrive]
  constructor
  case remote => exact (OlsrState.shouldForwardTc_iff.1 hnew).1
  case last => exact Table.insert_self ..
  case mem => exact List.mem_cons_self
  case le =>
    intro e he
    rcases List.mem_cons.1 he with rfl | he
    · exact le_rfl
    · exact (hlt e he).le
  case nodup => exact List.nodup_cons.2 ⟨fun h => lt_irrefl _ (hlt _ h), hnodup⟩
  case topology => exact Table.insert_self ..

theorem Follows.arrive (h : src.Follows s accepted newest) (hlate : newest < a.emission + 100)
    (hfree : SeamFree newest a.emission) :
    src.Follows (src.arrive s a).1 (src.accept s accepted a) (max newest a.emission) := by
  have hiff := (stale_emittedSeq_iff hlate).2 hfree
  rw [← h.forward_iff] at hiff
  by_cases hnew : s.shouldForwardTc (src.tc a.emission)
  · have hlt := hiff.1 hnew
    rw [Nat.max_eq_right hlt.le]
    exact follows_of_accepted src a accepted hnew ((h.lt_iff _).2 hlt) h.nodup
  · have hle : a.emission ≤ newest := Nat.not_lt.1 fun hlt => hnew (hiff.2 hlt)
    have harrive : src.arrive s a = (s, false) := OlsrState.processTc_of_old hnew
    rw [Nat.max_eq_left hle, accept, harrive]
    exact h

/-- One message: duplicate detection is right exactly when the wrap goes unnoticed. -/
theorem Follows.recognises_iff (h : src.Follows s accepted newest)
    (hlate : newest < a.emission + 100) :
    src.Recognises s accepted a ↔ SeamFree newest a.emission := by
  have hflag : (src.arrive s a).2 = true ↔ s.shouldForwardTc (src.tc a.emission) := by
    rw [TcSource.arrive, OlsrState.processTc_snd]
  rw [← stale_emittedSeq_iff hlate, ← h.forward_iff, ← hflag, ← h.lt_iff]
  constructor
  · exact Recognises.verdict
  · intro hverdict
    have hfree := hverdict
    rw [hflag, h.forward_iff, h.lt_iff, stale_emittedSeq_iff hlate] at hfree
    obtain ⟨honce, hnewest⟩ := (h.arrive hlate hfree).installed
    rw [arrive_localId] at hnewest
    exact ⟨hverdict, honce, hnewest⟩

theorem Follows.recognisesAll_iff (h : src.Follows s accepted newest) (hrecent : Recent newest as) :
    src.RecognisesAll s accepted as ↔ AllSeamFree newest as := by
  induction as generalizing s accepted newest with
  | nil => exact Iff.rfl
  | cons a as ih =>
    obtain ⟨hlate, hrecent⟩ := hrecent
    rw [RecognisesAll, AllSeamFree, h.recognises_iff hlate]
    exact and_congr_right fun hfree => ih (h.arrive hlate hfree) hrecent

theorem first_recognised (src : TcSource) (s : OlsrState) (a : TcArrival)
    (hremote : src.sender ≠ s.localId) (hnone : s.lastTcSeq src.sender = none)
    (hfirst : emittedSeq a.emission ≠ 0) :
    src.Recognises s [] a ∧
      src.Follows (src.arrive s a).1 (src.accept s [] a) a.emission := by
  have hnew : s.shouldForwardTc (src.tc a.emission) := by
    have hsender : (src.tc a.emission).sender = src.sender := rfl
    have hseq : (src.tc a.emission).seq = emittedSeq a.emission := rfl
    rw [OlsrState.shouldForwardTc_iff, hsender, hnone, Option.getD_none, hseq]
    exact ⟨hremote, fun hstale => hfirst (UInt16.le_zero_iff.1 hstale.1)⟩
  have hfollows := follows_of_accepted src a [] hnew
    (fun e he => absurd he List.not_mem_nil) List.nodup_nil
  obtain ⟨honce, hnewest⟩ := hfollows.installed
  have hflag : (src.arrive s a).2 = true := (OlsrState.processTc_snd ..).trans hnew
  rw [arrive_localId] at hnewest
  exact ⟨⟨⟨fun _ e he => absurd he List.not_mem_nil, fun _ => hflag⟩, honce, hnewest⟩, hfollows⟩

/-- The messages of one sender are accepted once each, and only if newer than all accepted before,
exactly when no late one is from before a wrap of the counter and no new one is so far ahead that
it looks late. -/
theorem dedup_iff (src : TcSource) (s : OlsrState) (hremote : src.sender ≠ s.localId)
    (hnone : s.lastTcSeq src.sender = none) (first : TcArrival) (rest : List TcArrival)
    (hfirst : emittedSeq first.emission ≠ 0) (hrecent : Recent first.emission rest) :
    src.RecognisesAll s [] (first :: rest) ↔ AllSeamFree first.emission rest := by
  obtain ⟨hrec, hfollows⟩ := first_recognised src s first hremote hnone hfirst
  rw [RecognisesAll, hfollows.recognisesAll_iff hrecent, and_iff_right hrec]

def lonely : TcSource where
  sender := 2
  neighbors e := if e < 2 ^ 16 then [(3, ⟨-40, 0, 4⟩)] else []
  sentAtMs e := 2000 * e

def beforeSeam : TcArrival := ⟨65535, 2, fun _ => byteOrder⟩

def afterSeam : TcArrival := ⟨65537, 2, fun _ => byteOrder⟩

theorem seam_recent :
    emittedSeq beforeSeam.emission ≠ 0 ∧ Recent beforeSeam.emission [afterSeam, beforeSeam] := by
  constructor
  · intro h
    have hnat := congrArg UInt16.toNat h
    rw [toNat_emittedSeq] at hnat
    exact absurd hnat (by decide)
  · simp [beforeSeam, afterSeam, Recent]

theorem seam_dedup_iff :
    lonely.RecognisesAll (.new 1) [] [beforeSeam, afterSeam, beforeSeam] ↔
      AllSeamFree beforeSeam.emission [afterSeam, beforeSeam] :=
  dedup_iff lonely (.new 1) (by decide) rfl _ _ seam_recent.1 seam_recent.2

/-- The message from before the wrap is accepted a second time, and replaces the newer one. -/
theorem accepted_across_seam :
    let s := (lonely.arrive (lonely.arrive (.new 1) beforeSeam).1 afterSeam).1
    (lonely.arrive s beforeSeam).2 = true ∧
      (lonely.arrive s beforeSeam).1.topology lonely.sender =
        some (OlsrState.advertised 1 (lonely.tc beforeSeam.emission)) ∧
      ¬ lonely.RecognisesAll (.new 1) [] [beforeSeam, afterSeam, beforeSeam] := by
  intro s
  obtain ⟨hfirst, hrecent⟩ := seam_recent
  obtain ⟨-, hfollows⟩ := first_recognised lonely (.new 1) beforeSeam
    (by decide) rfl hfirst
  have hfree : SeamFree beforeSeam.emission afterSeam.emission := by
    unfold SeamFree
    decide
  have hsecond := hfollows.arrive hrecent.1 hfree
  have hnew : s.shouldForwardTc (lonely.tc beforeSeam.emission) := by
    rw [hsecond.forward_iff, stale_iff, toNat_emittedSeq, toNat_emittedSeq]
    decide
  refine ⟨(OlsrState.processTc_snd ..).trans hnew, ?_, ?_⟩
  · have hold := (follows_of_accepted lonely beforeSeam [] hnew
      (fun e he => absurd he List.not_mem_nil) List.nodup_nil).topology
    have hlocal : s.localId = 1 := (arrive_localId _ _).trans (arrive_localId _ _)
    rw [arrive_localId, hlocal] at hold
    exact hold
  · rintro ⟨-, hall⟩
    have hlate := ((hfollows.recognisesAll_iff hrecent).1 hall).2.1.1
    exact absurd (hlate (by decide)) (by decide)

end TcSource
end TacticalMesh
