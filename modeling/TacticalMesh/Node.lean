import TacticalMesh.BoardHandlers
import TacticalMesh.Fleet
import TacticalMesh.OlsrState
import TacticalMesh.Scheduler

namespace TacticalMesh
set_option autoImplicit true

structure AppState where
  channel : UInt8
  log : List String

namespace AppState

def logCapacity : ℕ := 200

def new : AppState := ⟨0, []⟩

def pushLog (app : AppState) (msg : String) : AppState :=
  { app with log := (if logCapacity ≤ app.log.length then app.log.tail else app.log) ++ [msg] }

end AppState

structure Link where
  epoch : UInt32
  channel : UInt8

/-- `iw` can fail, and then the radio stays where it is. -/
def Link.setChannel (link : Link) (channel : UInt8) (succeeds : Bool) : Link :=
  if succeeds then { link with channel := channel } else link

structure Shared (crypto : Crypto) where
  identity : Identity crypto
  pubkeys : PubkeyStore crypto
  olsr : OlsrState
  app : AppState
  targetBoard : TargetBoard
  nonceCache : NonceCache
  link : Link
  scheduler : Queues
  badSigs : ℕ
  timeDrops : ℕ
  replayDrops : ℕ
  channelHops : ℕ
  streamRots : ℕ

namespace Shared
variable {crypto : Crypto}

def new (identity : Identity crypto) (pubkeys : PubkeyStore crypto) (channel : UInt8) :
    Shared crypto where
  identity := identity
  pubkeys := pubkeys
  olsr := .new identity.nodeId
  app := .new
  targetBoard := .new
  nonceCache := .new
  link := ⟨0, channel⟩
  scheduler := .new
  badSigs := 0
  timeDrops := 0
  replayDrops := 0
  channelHops := 0
  streamRots := 0

def pushLog (s : Shared crypto) (msg : String) : Shared crypto :=
  { s with app := s.app.pushLog msg }

def enqueue (s : Shared crypto) (frame : Bytes) (prio : Priority) : Shared crypto :=
  { s with scheduler := s.scheduler.push frame prio }

/-- The recorded channel changes even when the radio's does not. -/
def handleChannelHop (ch : ChannelHop) (succeeds : Bool) (s : Shared crypto) : Shared crypto :=
  let s := { s with
    link := s.link.setChannel ch.newChannel succeeds
    streamRots := s.streamRots + 1
    channelHops := s.channelHops + 1
    app := { s.app with channel := ch.newChannel } }
  s.pushLog s!"[INFO] Hopped to ch{ch.newChannel}, epoch {ch.newEpoch}"

def fallbackChannel (channel : UInt8) : UInt8 := if channel = 36 then 40 else 36

def handleJamAlert (ja : JamAlert) (succeeds : Bool) (s : Shared crypto) : Shared crypto :=
  let s := s.pushLog
    s!"[WARN] JamAlert from NODE-{ja.detectedBy}: ch={ja.channel} at={ja.atMs}ms"
  let s := { s with channelHops := s.channelHops + 1 }
  let hop : ChannelHop :=
    { newChannel := fallbackChannel ja.channel
      newEpoch := s.link.epoch + 1
      initiatedBy := s.identity.nodeId }
  s.handleChannelHop hop succeeds

def handleStateReport (sr : StateReport) (s : Shared crypto) : Shared crypto :=
  s.pushLog s!"[INFO] StateReport from NODE-{sr.nodeId}: battery={sr.batteryPct}%"

def handleMayday (m : Mayday) (s : Shared crypto) : Shared crypto :=
  s.pushLog s!"[MAYDAY] NODE-{m.nodeId} at {m.atMs}ms — all units respond"

def twoDigits (n : ℕ) : String := if n < 10 then s!"0{n}" else s!"{n}"

def hms (now : ℕ) : String :=
  let secs := now / 1000
  twoDigits (secs / 3600 % 24) ++ ":" ++ twoDigits (secs / 60 % 60) ++ ":" ++ twoDigits (secs % 60)

/-- A node has logged its own lines when it sent them. -/
def handleChat (chat : ChatMessage) (now : ℕ) (s : Shared crypto) : Shared crypto :=
  if chat.sender = s.identity.nodeId then s
  else s.pushLog s!"[{hms now}] [CHAT] NODE-{chat.sender}: {chat.text}"

/-- Images are kept and served outside of this state: the shards that a request makes a node
send count as messages of its own. -/
def handleTactical (msg : AppMsg) (now : ℕ) (succeeds : Bool) (s : Shared crypto) :
    Shared crypto :=
  match msg with
  | .targetDetection td => { s with targetBoard := handleTargetDetection td s.targetBoard }
  | .bda bda => { s with targetBoard := handleBda bda s.targetBoard }
  | .command cmd => { s with targetBoard := handleCommand cmd now s.targetBoard }
  | .stateReport sr => s.handleStateReport sr
  | .jamAlert ja => s.handleJamAlert ja succeeds
  | .channelHop ch => s.handleChannelHop ch succeeds
  | .mayday m => s.handleMayday m
  | .chat chat => s.handleChat chat now
  | .imageShard _ | .requestImage _ | .ack _ | .olsr _ => s

end Shared
end TacticalMesh
