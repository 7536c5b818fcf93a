import TacticalMesh.AppMessages
import TacticalMesh.Forwarding
import TacticalMesh.Node

namespace TacticalMesh
set_option autoImplicit true

/-- How messages become payloads. What was encoded can be decoded. -/
structure Codec where
  encodeOlsr : OlsrMessage → Bytes
  decodeOlsr : Bytes → Option OlsrMessage
  encodeApp : AppMsg → Bytes
  decodeApp : Bytes → Option AppMsg
  decode_encodeOlsr (m : OlsrMessage) : decodeOlsr (encodeOlsr m) = some m
  decode_encodeApp (m : AppMsg) : decodeApp (encodeApp m) = some m

/-- The times and priorities of the frames received of late, the oldest first. -/
structure JamWindow where
  entries : List (ℕ × Priority)

namespace JamWindow

def new : JamWindow := ⟨[]⟩

def evict (w : JamWindow) (now : ℕ) : JamWindow :=
  ⟨w.entries.dropWhile fun e => 500 < now - e.1⟩

def record (w : JamWindow) (prio : Priority) (now : ℕ) : JamWindow :=
  evict ⟨w.entries ++ [(now, prio)]⟩ now

/-- No frame of the priority of a HELLO in the window, and bulk frames at 300 a second. -/
def isJammed (w : JamWindow) : Bool :=
  let helloCount := w.entries.countP fun e => e.2 = .high
  let bulkCount := w.entries.countP fun e => e.2 = .bulk
  !w.entries.isEmpty && helloCount = 0 && 150 < bulkCount

theorem mem_record (w : JamWindow) : (now, prio) ∈ (w.record prio now).entries := by
  rw [record, evict, List.dropWhile_append]
  split
  next => simp
  next => exact List.mem_append_right _ (List.mem_singleton.2 rfl)

theorem record_high (w : JamWindow) : (w.record .high now).isJammed = false := by
  have hpos : 0 < (w.record .high now).entries.countP fun e => e.2 = .high :=
    List.countP_pos_iff.2 ⟨(now, .high), w.mem_record, rfl⟩
  simp [isJammed, hpos.ne']

end JamWindow

/-- A node: the shared state, the variables of `rx_loop` and `tc_loop`, and the tasks spawned
for messages that have not been handled yet. -/
structure Node (crypto : Crypto) extends Shared crypto where
  jamWindow : JamWindow
  jamDetected : Bool
  tcSeq : UInt16
  spawned : List AppMsg

structure RxEnv where
  now : ℕ
  helloNow : ℕ
  rssiDbm : Int8
  order : IterOrder
  relayDraw : Draw
  tcDraw : Draw
  alertDraw : Draw
  succeeds : Bool

def RxEnv.atMs (now : ℕ) : RxEnv where
  now := now
  helloNow := now
  rssiDbm := 0
  order _ := byteOrder
  relayDraw := .atMs now
  tcDraw := .atMs now
  alertDraw := .atMs now
  succeeds := true

namespace Node
variable {crypto : Crypto} (codec : Codec) (env : RxEnv)

def enqueue (n : Node crypto) (frame : Bytes) (prio : Priority) : Node crypto :=
  { n with toShared := n.toShared.enqueue frame prio }

def relay (parsed : ParsedFrame) (n : Node crypto) : Node crypto :=
  match crypto.relay n.identity n.olsr.routeTo parsed env.relayDraw with
  | some (frame, prio) => n.enqueue frame prio
  | none => n

def dispatch (parsed : ParsedFrame) (n : Node crypto) : Node crypto :=
  let src := parsed.auth.srcNode
  match parsed.auth.msgKind with
  | .olsrHello =>
    match codec.decodeOlsr parsed.plaintext with
    | some (.hello hello) =>
      { n with olsr := n.olsr.processHello hello src env.rssiDbm env.helloNow env.order }
    | _ => n
  | .olsrTc =>
    match codec.decodeOlsr parsed.plaintext with
    | some (.tc tc) =>
      let (olsr, forward) := n.olsr.processTc tc src env.order
      let n := { n with olsr := olsr }
      if forward then
        n.enqueue (crypto.buildFrame ⟨.olsrTc, parsed.plaintext⟩ .high broadcast n.identity
          env.tcDraw) .high
      else n
    | _ => n
  | .data =>
    match codec.decodeApp parsed.plaintext with
    | some msg => { n with spawned := n.spawned ++ [msg] }
    | none => n
  | .ack => n
  | .sessionKeyRotation => { n with streamRots := n.streamRots + 1 }

/-- The node hops first and then queues the alert. -/
def raiseAlarm (n : Node crypto) : Node crypto :=
  let ja : JamAlert :=
    { detectedBy := n.identity.nodeId, channel := n.app.channel, atMs := env.now }
  let n := { n with toShared := n.toShared.handleJamAlert ja env.succeeds, jamDetected := true }
  let n := n.enqueue (crypto.buildFrame ⟨.data, codec.encodeApp (.jamAlert ja)⟩ .emergency
    broadcast n.identity env.alertDraw) .emergency
  { n with toShared := n.toShared.pushLog "[WARN] Jam detected — broadcasting JamAlert" }

def detects (n : Node crypto) : Bool := !n.jamDetected && n.jamWindow.isJammed

/-- The flag is reset when the window clears. -/
def resetJam (n : Node crypto) : Node crypto :=
  if n.jamDetected && !n.jamWindow.isJammed then { n with jamDetected := false } else n

def jamCheck (n : Node crypto) : Node crypto :=
  (if n.detects then n.raiseAlarm codec env else n).resetJam

def record (parsed : ParsedFrame) (n : Node crypto) : Node crypto :=
  { n with jamWindow := n.jamWindow.record parsed.auth.priority env.now }

/-- What is done with a frame that was verified. The flag tells whether a jam was detected. -/
def handleParsed (parsed : ParsedFrame) (n : Node crypto) : Node crypto × Bool :=
  let routed := (n.record env parsed).relay env parsed
  if parsed.deliverLocal n.identity.nodeId then
    let dispatched := routed.dispatch codec env parsed
    (dispatched.jamCheck codec env, dispatched.detects)
  else (routed, false)

def rxLoop (raw : Bytes) (n : Node crypto) : Node crypto × Bool :=
  let (cache, parsed) := crypto.parseAndVerifyFrame raw n.pubkeys n.nonceCache env.now
    n.identity.sessionKey
  let n := { n with nonceCache := cache }
  match parsed with
  | .ok parsed => n.handleParsed codec env parsed
  | .error (.error .badSignature) => ({ n with badSigs := n.badSigs + 1 }, false)
  | .error (.error .timeWindowExpired) => ({ n with timeDrops := n.timeDrops + 1 }, false)
  | .error (.error .replayedNonce) => ({ n with replayDrops := n.replayDrops + 1 }, false)
  | .error _ => (n, false)

end Node
end TacticalMesh
