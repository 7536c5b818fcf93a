import TacticalMesh.Bincode
import TacticalMesh.RxLoop

namespace TacticalMesh
set_option autoImplicit true

open Bincode

section Formats

-- The program writes numbers and lengths as `u64`.
variable (number : Bincode ℕ)

def LinkQuality.bincode : Bincode LinkQuality :=
  (i8.pair (byte.pair byte)).map (fun q => (q.rssiDbm, q.lossRateX100, q.mcs))
    (fun (rssiDbm, lossRateX100, mcs) => ⟨rssiDbm, lossRateX100, mcs⟩) fun _ => rfl

def Hello.bincode : Bincode Hello :=
  (byte.pair ((list number (byte.pair LinkQuality.bincode)).pair number)).map
    (fun h => (h.sender, h.neighbors, h.sentAtMs))
    (fun (sender, neighbors, sentAtMs) => ⟨sender, neighbors, sentAtMs⟩) fun _ => rfl

def Tc.bincode : Bincode Tc :=
  (byte.pair (u16.pair ((list number (byte.pair LinkQuality.bincode)).pair number))).map
    (fun tc => (tc.sender, tc.seq, tc.advertisedNeighbors, tc.sentAtMs))
    (fun (sender, seq, advertised, sentAtMs) => ⟨sender, seq, advertised, sentAtMs⟩) fun _ => rfl

def OlsrMessage.variants : List (Variant OlsrMessage) :=
  [.tuple (Hello.bincode number) .hello fun | .hello x => some x | _ => none,
    .tuple (Tc.bincode number) .tc fun | .tc x => some x | _ => none]

def OlsrMessage.bincode : Bincode OlsrMessage :=
  enum (OlsrMessage.variants number) (by simp [variants])

def TargetKind.variants : List (Variant TargetKind) :=
  [.bare .vehicle, .bare .personnel, .bare .emplacement, .bare .unknown]

def TargetKind.bincode : Bincode TargetKind := enum TargetKind.variants (by decide)

def CommandOp.variants : List (Variant CommandOp) := [.bare .engage, .bare .abort, .bare .reassign]

def CommandOp.bincode : Bincode CommandOp := enum CommandOp.variants (by decide)

def BdaResult.variants : List (Variant BdaResult) :=
  [.bare .destroyed, .bare .damaged, .bare .miss]

def BdaResult.bincode : Bincode BdaResult := enum BdaResult.variants (by decide)

def TargetDetection.bincode : Bincode TargetDetection :=
  (u16.pair (TargetKind.bincode.pair (u32.pair (u32.pair (number.pair byte))))).map
    (fun td => (td.targetId, td.kind, td.lat, td.lon, td.detectedAtMs, td.detector))
    (fun (targetId, kind, lat, lon, detectedAtMs, detector) =>
      ⟨targetId, kind, lat, lon, detectedAtMs, detector⟩) fun _ => rfl

def Command.bincode : Bincode Command :=
  (u16.pair (CommandOp.bincode.pair byte)).map (fun cmd => (cmd.targetId, cmd.op, cmd.issuedBy))
    (fun (targetId, op, issuedBy) => ⟨targetId, op, issuedBy⟩) fun _ => rfl

def Bda.bincode : Bincode Bda :=
  (u16.pair (BdaResult.bincode.pair number)).map (fun bda => (bda.targetId, bda.result, bda.atMs))
    (fun (targetId, result, atMs) => ⟨targetId, result, atMs⟩) fun _ => rfl

def StateReport.bincode : Bincode StateReport :=
  (byte.pair (byte.pair (u32.pair u32))).map
    (fun sr => (sr.nodeId, sr.batteryPct, sr.lat, sr.lon))
    (fun (nodeId, batteryPct, lat, lon) => ⟨nodeId, batteryPct, lat, lon⟩) fun _ => rfl

def ImageShard.bincode : Bincode ImageShard :=
  (u16.pair (byte.pair (byte.pair (byte.pair (byte.pair (byte.pair (list number byte))))))).map
    (fun s => (s.targetId, s.totalBlocks, s.blockId, s.index, s.k, s.n, s.data))
    (fun (targetId, totalBlocks, blockId, index, k, n, data) =>
      ⟨targetId, totalBlocks, blockId, index, k, n, data⟩) fun _ => rfl

def RequestImage.bincode : Bincode RequestImage :=
  (u16.pair byte).map (fun req => (req.targetId, req.requester))
    (fun (targetId, requester) => ⟨targetId, requester⟩) fun _ => rfl

def JamAlert.bincode : Bincode JamAlert :=
  (byte.pair (byte.pair number)).map (fun ja => (ja.detectedBy, ja.channel, ja.atMs))
    (fun (detectedBy, channel, atMs) => ⟨detectedBy, channel, atMs⟩) fun _ => rfl

def ChannelHop.bincode : Bincode ChannelHop :=
  (byte.pair (u32.pair byte)).map (fun ch => (ch.newChannel, ch.newEpoch, ch.initiatedBy))
    (fun (newChannel, newEpoch, initiatedBy) => ⟨newChannel, newEpoch, initiatedBy⟩) fun _ => rfl

def Mayday.bincode : Bincode Mayday :=
  (byte.pair number).map (fun m => (m.nodeId, m.atMs)) (fun (nodeId, atMs) => ⟨nodeId, atMs⟩)
    fun _ => rfl

def AckPayload.bincode : Bincode AckPayload :=
  number.map (fun a => a.ackedSeq) (fun ackedSeq => ⟨ackedSeq⟩) fun _ => rfl

def ChatMessage.bincode : Bincode ChatMessage :=
  (byte.pair (string number)).map (fun chat => (chat.sender, chat.text))
    (fun (sender, text) => ⟨sender, text⟩) fun _ => rfl

def AppMsg.variants : List (Variant AppMsg) :=
  [.tuple (TargetDetection.bincode number) .targetDetection
      fun | .targetDetection x => some x | _ => none,
    .tuple Command.bincode .command fun | .command x => some x | _ => none,
    .tuple (Bda.bincode number) .bda fun | .bda x => some x | _ => none,
    .tuple StateReport.bincode .stateReport fun | .stateReport x => some x | _ => none,
    .tuple (ImageShard.bincode number) .imageShard fun | .imageShard x => some x | _ => none,
    .tuple RequestImage.bincode .requestImage fun | .requestImage x => some x | _ => none,
    .tuple (JamAlert.bincode number) .jamAlert fun | .jamAlert x => some x | _ => none,
    .tuple ChannelHop.bincode .channelHop fun | .channelHop x => some x | _ => none,
    .tuple (Mayday.bincode number) .mayday fun | .mayday x => some x | _ => none,
    .tuple (list number byte) .olsr fun | .olsr x => some x | _ => none,
    .tuple (AckPayload.bincode number) .ack fun | .ack x => some x | _ => none,
    .tuple (ChatMessage.bincode number) .chat fun | .chat x => some x | _ => none]

def AppMsg.bincode : Bincode AppMsg := enum (AppMsg.variants number) (by simp [variants])

end Formats

example : (AppMsg.bincode u64).serialize (.jamAlert ⟨1, 6, 9999⟩) =
    [6, 0, 0, 0, 1, 6, 15, 39, 0, 0, 0, 0, 0, 0] := by decide

theorem LinkQuality.total_bincode : LinkQuality.bincode.Total :=
  (total_i8.pair (total_byte.pair total_byte)).map _

theorem TargetKind.total_bincode : TargetKind.bincode.Total :=
  total_enum _ (by rintro (_ | _) <;> simp [variants, Variant.bare])
    (by simp [variants, Variant.total_bare])

theorem CommandOp.total_bincode : CommandOp.bincode.Total :=
  total_enum _ (by rintro (_ | _) <;> simp [variants, Variant.bare])
    (by simp [variants, Variant.total_bare])

theorem BdaResult.total_bincode : BdaResult.bincode.Total :=
  total_enum _ (by rintro (_ | _) <;> simp [variants, Variant.bare])
    (by simp [variants, Variant.total_bare])

theorem OlsrMessage.total_bincode (h : number.Total) : (OlsrMessage.bincode number).Total := by
  have hrows := h.list (total_byte.pair LinkQuality.total_bincode)
  have hhello : (Hello.bincode number).Total := (total_byte.pair (hrows.pair h)).map _
  have htc : (Tc.bincode number).Total := (total_byte.pair (total_u16.pair (hrows.pair h))).map _
  refine total_enum _ (by rintro (_ | _) <;> simp [variants, Variant.tuple]) ?_
  simp only [variants, List.forall_mem_cons]
  exact ⟨hhello, htc, List.forall_mem_nil _⟩

theorem AppMsg.total_bincode (h : number.Total) : (AppMsg.bincode number).Total := by
  have hdata := h.list total_byte
  have htext : (string number).Total := hdata.within _
  have hdetection : (TargetDetection.bincode number).Total :=
    (total_u16.pair (TargetKind.total_bincode.pair
      (total_u32.pair (total_u32.pair (h.pair total_byte))))).map _
  have hcommand : Command.bincode.Total :=
    (total_u16.pair (CommandOp.total_bincode.pair total_byte)).map _
  have hbda : (Bda.bincode number).Total := (total_u16.pair (BdaResult.total_bincode.pair h)).map _
  have hreport : StateReport.bincode.Total :=
    (total_byte.pair (total_byte.pair (total_u32.pair total_u32))).map _
  have hshard : (ImageShard.bincode number).Total :=
    (total_u16.pair (total_byte.pair (total_byte.pair (total_byte.pair (total_byte.pair
      (total_byte.pair hdata)))))).map _
  have hrequest : RequestImage.bincode.Total := (total_u16.pair total_byte).map _
  have halert : (JamAlert.bincode number).Total := (total_byte.pair (total_byte.pair h)).map _
  have hhop : ChannelHop.bincode.Total := (total_byte.pair (total_u32.pair total_byte)).map _
  have hmayday : (Mayday.bincode number).Total := (total_byte.pair h).map _
  have hack : (AckPayload.bincode number).Total := h.map _
  have hchat : (ChatMessage.bincode number).Total := (total_byte.pair htext).map _
  refine total_enum _ (by rintro (_ | _) <;> simp [variants, Variant.tuple]) ?_
  simp only [variants, List.forall_mem_cons]
  exact ⟨hdetection, hcommand, hbda, hreport, hshard, hrequest, halert, hhop, hmayday, hdata, hack,
    hchat, List.forall_mem_nil _⟩

/-- The payloads of the program. Bytes that follow the message are ignored. -/
def Codec.bincode : Codec where
  encodeOlsr := (OlsrMessage.bincode u64).withEscape (OlsrMessage.bincode unary)
  decodeOlsr := (OlsrMessage.bincode u64).readWithEscape (OlsrMessage.bincode unary)
  encodeApp := (AppMsg.bincode u64).withEscape (AppMsg.bincode unary)
  decodeApp := (AppMsg.bincode u64).readWithEscape (AppMsg.bincode unary)
  decode_encodeOlsr :=
    readWithEscape_withEscape (deserialize_noVariant _) (OlsrMessage.total_bincode total_unary)
  decode_encodeApp :=
    readWithEscape_withEscape (deserialize_noVariant _) (AppMsg.total_bincode total_unary)

end TacticalMesh
