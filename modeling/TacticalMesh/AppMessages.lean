import Mathlib.Data.Nat.Notation

namespace TacticalMesh
set_option autoImplicit true

/-- A 32-bit float by its bit pattern: coordinates are stored and compared, never computed. -/
abbrev F32 := UInt32

inductive TargetKind where
  | vehicle
  | personnel
  | emplacement
  | unknown
  deriving DecidableEq, Repr

inductive CommandOp where
  | engage
  | abort
  | reassign
  deriving DecidableEq, Repr

inductive BdaResult where
  | destroyed
  | damaged
  | miss
  deriving DecidableEq, Repr

structure TargetDetection where
  targetId : UInt16
  kind : TargetKind
  lat : F32
  lon : F32
  detectedAtMs : ℕ
  detector : UInt8
  deriving DecidableEq, Repr

structure Command where
  targetId : UInt16
  op : CommandOp
  issuedBy : UInt8
  deriving DecidableEq, Repr

structure Bda where
  targetId : UInt16
  result : BdaResult
  atMs : ℕ
  deriving DecidableEq, Repr

structure StateReport where
  nodeId : UInt8
  batteryPct : UInt8
  lat : F32
  lon : F32
  deriving DecidableEq, Repr

structure ImageShard where
  targetId : UInt16
  totalBlocks : UInt8
  blockId : UInt8
  index : UInt8
  k : UInt8
  n : UInt8
  data : List UInt8
  deriving DecidableEq, Repr

structure RequestImage where
  targetId : UInt16
  requester : UInt8
  deriving DecidableEq, Repr

structure JamAlert where
  detectedBy : UInt8
  channel : UInt8
  atMs : ℕ
  deriving DecidableEq, Repr

structure ChannelHop where
  newChannel : UInt8
  newEpoch : UInt32
  initiatedBy : UInt8
  deriving DecidableEq, Repr

structure Mayday where
  nodeId : UInt8
  atMs : ℕ
  deriving DecidableEq, Repr

structure AckPayload where
  ackedSeq : ℕ
  deriving DecidableEq, Repr

structure ChatMessage where
  sender : UInt8
  text : String
  deriving DecidableEq, Repr

/-- The application message; the binary imports it as `AppMsg`. -/
inductive AppMsg where
  | targetDetection (td : TargetDetection)
  | command (cmd : Command)
  | bda (bda : Bda)
  | stateReport (sr : StateReport)
  | imageShard (shard : ImageShard)
  | requestImage (req : RequestImage)
  | jamAlert (ja : JamAlert)
  | channelHop (ch : ChannelHop)
  | mayday (m : Mayday)
  | olsr (payload : List UInt8)
  | ack (a : AckPayload)
  | chat (chat : ChatMessage)
  deriving DecidableEq, Repr

end TacticalMesh
