import TacticalMesh.RxLoop
import TacticalMesh.Runs

namespace TacticalMesh
set_option autoImplicit true

/-- All nodes, and the frames on air: each stands there once for every node that can hear it.
What was heard from whom, and who detected a jam, is written down as the run goes on. -/
structure Net (crypto : Crypto) where
  nodes : UInt8 → Node crypto
  air : List (UInt8 × Bytes)
  heard : List (UInt8 × UInt8)
  detections : List UInt8

inductive Event where
  | helloTick (n : UInt8) (now : ℕ) (order : KeyOrder UInt8) (draw : Draw)
  | tcTick (n : UInt8) (now : ℕ) (order : KeyOrder UInt8) (draw : Draw)
  | agingTick (n : UInt8) (now : ℕ) (staleOrder : KeyOrder UInt8) (order : IterOrder)
  | outbound (n : UInt8) (msg : AppMsg) (dst : UInt8) (prio : Priority) (draw : Draw)
  | transmit (n : UInt8)
  | deliver (i : ℕ) (env : RxEnv)
  | runTask (n : UInt8) (i : ℕ) (now : ℕ) (succeeds : Bool)

def Event.hopSucceeds : Event → Bool
  | deliver _ env => env.succeeds
  | runTask _ _ _ succeeds => succeeds
  | _ => true

/-- No operator command makes a node send the messages that change the channel. -/
def AppMsg.changesChannel : AppMsg → Bool
  | jamAlert _ | channelHop _ => true
  | _ => false

namespace Node
variable {crypto : Crypto}

def hello (n : Node crypto) (now : ℕ) (order : KeyOrder UInt8) : Hello where
  sender := n.olsr.localId
  neighbors := (n.olsr.neighbors.entries order).map fun e => (e.1, e.2.linkQuality)
  sentAtMs := now

def tc (n : Node crypto) (now : ℕ) (order : KeyOrder UInt8) : Tc where
  sender := n.olsr.localId
  seq := n.tcSeq
  advertisedNeighbors := (n.olsr.neighbors.entries order).map fun e => (e.1, e.2.linkQuality)
  sentAtMs := now

def outbound (codec : Codec) (msg : AppMsg) (dst : UInt8) (prio : Priority) (draw : Draw)
    (n : Node crypto) : Node crypto :=
  let wire : TacticalMessage := ⟨.data, codec.encodeApp msg⟩
  if dst = broadcast then
    n.enqueue (crypto.buildFrame wire prio broadcast n.identity draw) prio
  else
    match n.olsr.routeTo dst with
    | some r => n.enqueue (crypto.buildFrameForRoute wire prio dst n.identity r.nextHop draw) prio
    | none => n

def hears (n : Node crypto) (now : ℕ) (raw : Bytes) : Option UInt8 :=
  match (crypto.parseAndVerifyFrame raw n.pubkeys n.nonceCache now n.identity.sessionKey).2 with
  | .ok parsed => some parsed.auth.srcNode
  | .error _ => none

end Node

namespace Net
variable {crypto : Crypto} (codec : Codec) (radio : UInt8 → List UInt8)

def setNode (net : Net crypto) (n : UInt8) (node : Node crypto) : Net crypto :=
  { net with nodes := Function.update net.nodes n node }

/-- A frame is heard by the nodes in range that are tuned to the channel of the sender. -/
def send (net : Net crypto) (n : UInt8) (raw : Bytes) : Net crypto :=
  { net with air := net.air ++ ((radio n).filter fun r =>
      (net.nodes r).link.channel = (net.nodes n).link.channel).map fun r => (r, raw) }

def deliver (net : Net crypto) (i : ℕ) (r : UInt8) (raw : Bytes) (env : RxEnv) : Net crypto :=
  let net := { net with air := net.air.eraseIdx i }
  if ownFrame r raw then net
  else
    let node := net.nodes r
    let (node', detected) := node.rxLoop codec env raw
    { net.setNode r node' with
      heard := net.heard ++ (node.hears env.now raw).toList.map fun src => (r, src)
      detections := net.detections ++ if detected then [r] else [] }

def step (net : Net crypto) : Event → Option (Net crypto)
  | .helloTick n now order draw =>
    let node := net.nodes n
    let payload := codec.encodeOlsr (.hello (node.hello now order))
    some (net.send radio n
      (crypto.buildFrame ⟨.olsrHello, payload⟩ .high broadcast node.identity draw))
  | .tcTick n now order draw =>
    let node := { net.nodes n with tcSeq := (net.nodes n).tcSeq + 1 }
    let payload := codec.encodeOlsr (.tc (node.tc now order))
    some ((net.setNode n node).send radio n
      (crypto.buildFrame ⟨.olsrTc, payload⟩ .high broadcast node.identity draw))
  | .agingTick n now staleOrder order =>
    let node := net.nodes n
    some (net.setNode n { node with olsr := node.olsr.agingTick now staleOrder order })
  | .outbound n msg dst prio draw =>
    if msg.changesChannel then none
    else some (net.setNode n ((net.nodes n).outbound codec msg dst prio draw))
  | .transmit n =>
    match (net.nodes n).scheduler.popNext with
    | some ((frame, _), scheduler) =>
      some ((net.setNode n { net.nodes n with scheduler := scheduler }).send radio n frame)
    | none => none
  | .deliver i env =>
    match net.air[i]? with
    | some (r, raw) => some (net.deliver codec i r raw env)
    | none => none
  | .runTask n i now succeeds =>
    let node := net.nodes n
    match node.spawned[i]? with
    | some msg =>
      some (net.setNode n
        { node with
          toShared := node.toShared.handleTactical msg now succeeds
          spawned := node.spawned.eraseIdx i })
    | none => none

def tunedStep (net : Net crypto) (e : Event) :
    Option (Net crypto) := if e.hopSucceeds then net.step codec radio e else none

def channelOf (net : Net crypto) (x : UInt8) : UInt8 := (net.nodes x).link.channel

def recordedOf (net : Net crypto) (x : UInt8) : UInt8 := (net.nodes x).app.channel

/-- No frame is queued or on air, and no message waits to be handled. -/
def Settled (net : Net crypto) : Prop :=
  net.air = [] ∧ ∀ n, (∀ p, (net.nodes n).scheduler.inner p = []) ∧ (net.nodes n).spawned = []

def start (fleet : Fleet crypto) (channel recorded : UInt8) : Net crypto where
  nodes n :=
    { toShared := { Shared.new (fleet.identity n) fleet.pubkeys channel with
        app := ⟨recorded, []⟩ }
      jamWindow := .new
      jamDetected := false
      tcSeq := 0
      spawned := [] }
  air := []
  heard := []
  detections := []

end Net
end TacticalMesh
