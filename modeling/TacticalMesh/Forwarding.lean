import TacticalMesh.Fleet
import TacticalMesh.OlsrState

namespace TacticalMesh
set_option autoImplicit true

def srcNodeOffset : ℕ := 4

/-- The reader threads drop the frames that carry the id of their own node. -/
def ownFrame (nodeId : UInt8) (raw : Bytes) : Bool := raw[srcNodeOffset]? = some nodeId

namespace ParsedFrame

def deliverLocal (parsed : ParsedFrame) (localId : UInt8) : Bool :=
  parsed.auth.dstNode = localId || parsed.auth.dstNode = broadcast

/-- Only routing control frames are flooded. -/
def rebroadcast (parsed : ParsedFrame) : Bool :=
  parsed.auth.dstNode = broadcast && parsed.routed.hopsTaken < Wire.maxHops &&
    parsed.auth.msgKind ≠ .data

def forwardUnicast (parsed : ParsedFrame) (localId : UInt8) : Bool :=
  parsed.auth.dstNode ≠ localId && parsed.auth.dstNode ≠ broadcast

def message (parsed : ParsedFrame) : TacticalMessage := ⟨parsed.auth.msgKind, parsed.plaintext⟩

end ParsedFrame

def saturatingSucc (n : UInt8) : UInt8 := if n = 255 then 255 else n + 1

/-- The frame that the routing decision of `rx_loop` puts into the scheduler, if any. -/
def Crypto.relay (crypto : Crypto) (identity : Identity crypto)
    (routeTo : UInt8 → Option RouteEntry) (parsed : ParsedFrame) (draw : Draw) :
    Option (Bytes × Priority) :=
  let prio := parsed.auth.priority
  if parsed.rebroadcast then
    some (crypto.buildFrameForRebroadcast parsed.message prio identity
      (saturatingSucc parsed.routed.hopsTaken) draw, prio)
  else if parsed.forwardUnicast identity.nodeId then
    (routeTo parsed.auth.dstNode).map fun r =>
      (crypto.buildFrameForRoute parsed.message prio parsed.auth.dstNode identity r.nextHop draw,
        prio)
  else none

@[simp] theorem ownFrame_frame (fleet : Fleet crypto) (t : Sending) :
    ownFrame nodeId (fleet.frame t) ↔ t.src = nodeId := by
  have hsrc : (fleet.frame t)[4]? = some t.src := rfl
  rw [ownFrame, srcNodeOffset, hsrc, decide_eq_true_iff, Option.some.injEq]

def Sending.next (t : Sending) (r : UInt8) (routeTo : UInt8 → Option RouteEntry) (draw : Draw) :
    Option Sending :=
  if t.dst = broadcast then
    if t.hopsTaken < Wire.maxHops ∧ t.msg.kind ≠ .data then
      some { t with src := r, lastHop := r, hopsTaken := saturatingSucc t.hopsTaken, draw := draw }
    else none
  else if t.dst = r then none
  else (routeTo t.dst).map fun e =>
    { t with src := r, lastHop := e.nextHop, hopsTaken := 0, draw := draw }

theorem next_src (h : Sending.next t r routeTo draw = some u) : u.src = r ∧ u.msg = t.msg := by
  rw [Sending.next] at h
  split at h
  next =>
    split at h
    next =>
      cases h
      exact ⟨rfl, rfl⟩
    next => cases h
  next =>
    split at h
    next => cases h
    next =>
      obtain ⟨e, -, rfl⟩ := Option.map_eq_some_iff.1 h
      exact ⟨rfl, rfl⟩

theorem next_unicast {t : Sending} (hdst : t.dst ≠ broadcast) :
    t.next r routeTo draw = some u ↔ t.dst ≠ r ∧ ∃ e, routeTo t.dst = some e ∧
      { t with src := r, lastHop := e.nextHop, hopsTaken := 0, draw := draw } = u := by
  rw [Sending.next, if_neg hdst]
  split
  next h => simp [h]
  next h => simp [h]

theorem next_data {t : Sending} (hdst : t.dst = broadcast) (hkind : t.msg.kind = .data) :
    t.next r routeTo draw = none := by
  rw [Sending.next, if_pos hdst, if_neg fun h => h.2 hkind]

theorem relay_parsed (fleet : Fleet crypto) (t : Sending) :
    crypto.relay (fleet.identity r) routeTo (fleet.parsed t) draw =
      (t.next r routeTo draw).map fun u => (fleet.frame u, u.prio) := by
  have hre : (fleet.parsed t).rebroadcast ↔
      t.dst = broadcast ∧ t.hopsTaken < Wire.maxHops ∧ t.msg.kind ≠ .data := by
    simp only [ParsedFrame.rebroadcast, Bool.and_eq_true, decide_eq_true_iff, and_assoc]
    rfl
  have hfw : (fleet.parsed t).forwardUnicast r ↔ t.dst ≠ r ∧ t.dst ≠ broadcast := by
    simp only [ParsedFrame.forwardUnicast, Bool.and_eq_true, decide_eq_true_iff]
    rfl
  rw [Crypto.relay, Sending.next]
  by_cases hdst : t.dst = broadcast
  · rw [if_pos hdst]
    by_cases hflood : t.hopsTaken < Wire.maxHops ∧ t.msg.kind ≠ .data
    · rw [if_pos hflood]
      simp only [if_pos (hre.2 ⟨hdst, hflood⟩), Option.map_some]
      rw [Crypto.buildFrameForRebroadcast, Fleet.frame, hdst]
      rfl
    · rw [if_neg hflood]
      simp only [if_neg fun h => hflood (hre.1 h).2]
      exact if_neg fun h => (hfw.1 h).2 hdst
  · rw [if_neg hdst]
    simp only [if_neg fun h => hdst (hre.1 h).1]
    by_cases hr : t.dst = r
    · rw [if_pos hr]
      exact if_neg fun h => (hfw.1 h).1 hr
    · rw [if_neg hr]
      simp only [Option.map_map]
      exact if_pos (hfw.2 ⟨hr, hdst⟩)
end TacticalMesh
