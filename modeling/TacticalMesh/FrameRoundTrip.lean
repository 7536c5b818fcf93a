import TacticalMesh.Fleet
import TacticalMesh.SealedFrame

namespace TacticalMesh
set_option autoImplicit true

structure ShardDraws where
  blockId : UInt8
  nowMs : UInt64
  random : ℕ → Vector UInt8 5

def ShardDraws.draw (draws : ShardDraws) (idx : ℕ) : Draw := ⟨draws.nowMs, draws.random idx⟩

def Draw.nonce (draw : Draw) (nodeId : UInt8) : Nonce :=
  (buildNonce nodeId draw.nowMs draw.random).2

namespace Crypto
variable (crypto : Crypto)

def shardAuthHeader (msg : TacticalMessage) (prio : Priority) (dst : UInt8)
    (identity : Identity crypto) (draws : ShardDraws) (idx : ℕ) (shard : Bytes) : AuthHeader :=
  { srcNode := identity.nodeId
    dstNode := dst
    msgKind := msg.kind
    priority := prio
    timestampMs := draws.nowMs
    nonce := (buildNonce identity.nodeId draws.nowMs (draws.random idx)).2
    payloadHash := crypto.payloadHash12 shard
    epoch := 0
    payloadLen := .ofNat shard.length
    fecIndex := .ofNat idx
    fecK := (fecParams prio).1
    fecN := (fecParams prio).2
    fecBlockId := draws.blockId }

def shardFrame (msg : TacticalMessage) (prio : Priority) (dst : UInt8)
    (identity : Identity crypto) (draws : ShardDraws) (idx : ℕ) (shard : Bytes) : Bytes :=
  let nonce24 := (buildNonce identity.nodeId draws.nowMs (draws.random idx)).1
  let auth := crypto.shardAuthHeader msg prio dst identity draws idx shard
  let sig := crypto.signAuth auth.toBytes identity
  let ciphertext := crypto.applyKeystream identity.sessionKey nonce24 shard
  let routed : RoutedHeader :=
    { lastHopId := identity.nodeId, hopsTaken := 0, flags := 0, reserved := 0 }
  assembleFrame routed auth.toBytes sig ciphertext

/-- There is no result when the `expect` on the encoder fails. -/
def buildFrames (rs : ReedSolomon) (msg : TacticalMessage) (prio : Priority) (dst : UInt8)
    (identity : Identity crypto) (draws : ShardDraws) : Option (List Bytes) :=
  if msg.payload.length ≤ fecThresholdBytes then
    some [crypto.buildFrame msg prio dst identity (draws.draw 0)]
  else
    match fecEncode rs msg.payload prio with
    | .error _ => none
    | .ok shards => some (shards.mapIdx fun idx shard =>
        crypto.shardFrame msg prio dst identity draws idx shard)

def framePayloads (rs : ReedSolomon) (payload : Bytes) (prio : Priority) : List Bytes :=
  if payload.length ≤ fecThresholdBytes then [payload]
  else (fecEncode rs payload prio).toOption.getD []

end Crypto

structure Given where
  srcNode : UInt8
  dstNode : UInt8
  msgKind : MsgKind
  priority : Priority
  lastHopId : UInt8
  hopsTaken : UInt8
  plaintext : Bytes
  deriving DecidableEq, Repr

def ParsedFrame.given (frame : ParsedFrame) : Given where
  srcNode := frame.auth.srcNode
  dstNode := frame.auth.dstNode
  msgKind := frame.auth.msgKind
  priority := frame.auth.priority
  lastHopId := frame.routed.lastHopId
  hopsTaken := frame.routed.hopsTaken
  plaintext := frame.plaintext

inductive Built (crypto : Crypto) (rs : ReedSolomon) :
    Bytes → Identity crypto → Draw → Given → Prop where
  | frame (msg prio dst identity draw) :
      Built crypto rs (crypto.buildFrame msg prio dst identity draw) identity draw
        ⟨identity.nodeId, dst, msg.kind, prio, identity.nodeId, 0, msg.payload⟩
  | route (msg prio dst identity nextHop draw) :
      Built crypto rs (crypto.buildFrameForRoute msg prio dst identity nextHop draw) identity draw
        ⟨identity.nodeId, dst, msg.kind, prio, nextHop, 0, msg.payload⟩
  | rebroadcast (msg prio identity hopsTaken draw) :
      Built crypto rs (crypto.buildFrameForRebroadcast msg prio identity hopsTaken draw) identity
        draw
        ⟨identity.nodeId, broadcast, msg.kind, prio, identity.nodeId, hopsTaken, msg.payload⟩
  | shard (msg prio dst identity draws) (idx : ℕ) {frames raw part}
      (hframes : crypto.buildFrames rs msg prio dst identity draws = some frames)
      (hraw : frames[idx]? = some raw)
      (hpart : (Crypto.framePayloads rs msg.payload prio)[idx]? = some part) :
      Built crypto rs raw identity (draws.draw idx)
        ⟨identity.nodeId, dst, msg.kind, prio, identity.nodeId, 0, part⟩

/-- A frame of one of the builders is sealed over what the builder was given. -/
structure Seals (m : SealedFrame crypto) (identity : Identity crypto) (draw : Draw)
    (given : Given) : Prop where
  sender : m.identity = identity
  timestampMs : m.auth.timestampMs = draw.nowMs
  nonce : m.auth.nonce = draw.nonce identity.nodeId
  given : ParsedFrame.given
    { routed := m.routed, auth := m.auth, plaintext := m.payload, rssiDbm := 0 } = given

theorem seals_buildFrameInner (msg : TacticalMessage) (prio : Priority) (dst : UInt8)
    (identity : Identity crypto) (lastHop hopsTaken : UInt8) (draw : Draw) :
    ∃ m, m.raw = crypto.buildFrameInner msg prio dst identity lastHop hopsTaken draw ∧
      Seals m identity draw
        ⟨identity.nodeId, dst, msg.kind, prio, lastHop, hopsTaken, msg.payload⟩ :=
  ⟨⟨identity, ⟨lastHop, hopsTaken, 0, 0⟩, crypto.authHeader msg prio dst identity draw,
    msg.payload, rfl, rfl⟩, rfl, ⟨rfl, rfl, rfl, rfl⟩⟩

theorem seals_shardFrame (msg : TacticalMessage) (prio : Priority) (dst : UInt8)
    (identity : Identity crypto) (draws : ShardDraws) (idx : ℕ) (shard : Bytes) :
    ∃ m, m.raw = crypto.shardFrame msg prio dst identity draws idx shard ∧
      Seals m identity (draws.draw idx)
        ⟨identity.nodeId, dst, msg.kind, prio, identity.nodeId, 0, shard⟩ :=
  ⟨⟨identity, ⟨identity.nodeId, 0, 0, 0⟩,
    crypto.shardAuthHeader msg prio dst identity draws idx shard, shard, rfl, rfl⟩, rfl,
    ⟨rfl, rfl, rfl, rfl⟩⟩

theorem Built.seals (h : Built crypto rs raw identity draw given) :
    ∃ m, m.raw = raw ∧ Seals m identity draw given := by
  cases h with
  | frame msg prio dst identity draw => exact seals_buildFrameInner ..
  | route msg prio dst identity nextHop draw => exact seals_buildFrameInner ..
  | rebroadcast msg prio identity hopsTaken draw => exact seals_buildFrameInner ..
  | shard msg prio dst identity draws idx hframes hraw hpart =>
    rw [Crypto.buildFrames] at hframes
    rw [Crypto.framePayloads] at hpart
    split at hframes
    next hshort =>
      rw [if_pos hshort] at hpart
      cases hframes
      cases idx with
      | zero =>
        cases hraw
        cases hpart
        exact seals_buildFrameInner ..
      | succ idx => cases hraw
    next hlong =>
      rw [if_neg hlong] at hpart
      split at hframes
      next => cases hframes
      next shards hshards =>
        cases hframes
        rw [hshards] at hpart
        have hshard : shards[idx]? = some _ := hpart
        rw [List.getElem?_mapIdx, hshard] at hraw
        cases hraw
        exact seals_shardFrame ..

structure Delivery (crypto : Crypto) (rs : ReedSolomon) where
  raw : Bytes
  identity : Identity crypto
  draw : Draw
  given : Given
  built : Built crypto rs raw identity draw given
  localTimeMs : ℕ

def Delivery.nonce (d : Delivery crypto rs) : Nonce := d.draw.nonce d.identity.nodeId

def Crypto.parseAll (crypto : Crypto) (store : PubkeyStore crypto) (sessionKey : SessionKey) :
    NonceCache → List (Bytes × ℕ) → List (Parse ParsedFrame)
  | _, [] => []
  | cache, (raw, now) :: rest =>
    let parsed := crypto.parseAndVerifyFrame raw store cache now sessionKey
    parsed.2 :: crypto.parseAll store sessionKey parsed.1 rest

theorem parse_delivery {d : Delivery crypto rs} {store : PubkeyStore crypto} {cache : NonceCache}
    (hstore : store.get d.identity.nodeId = some d.identity.verifyingKey)
    (hkey : d.identity.sessionKey = sessionKey)
    (htime : NonceCache.absDiff d.localTimeMs d.draw.nowMs.toNat ≤ timeWindowMs)
    (hfresh : ∀ key, cache.seen key ≠ none → key.2.2 ≠ d.nonce) :
    (∃ parsed, (crypto.parseAndVerifyFrame d.raw store cache d.localTimeMs sessionKey).2 =
        .ok parsed ∧ parsed.given = d.given) ∧
      ∀ key, (crypto.parseAndVerifyFrame d.raw store cache d.localTimeMs sessionKey).1.seen key ≠
        none → cache.seen key ≠ none ∨ key.2.2 = d.nonce := by
  obtain ⟨m, hraw, hsender, htimestamp, hnonce, hgiven⟩ := d.built.seals
  have hacc : cache.accepts (Crypto.frameCheck m.auth d.localTimeMs) := by
    rw [NonceCache.accepts_iff]
    constructor
    · rw [NonceCache.Check.inWindow, Crypto.frameCheck, htimestamp]
      exact htime
    · by_contra hseen
      exact hfresh _ hseen hnonce
  rw [← hsender] at hstore hkey
  have hparse := m.parse_raw hstore hkey hacc
  rw [hraw] at hparse
  rw [hparse]
  refine ⟨⟨_, rfl, hgiven⟩, fun key hseen => ?_⟩
  obtain ⟨i, hi⟩ := Option.ne_none_iff_exists'.1 hseen
  rw [NonceCache.seen_after_accept hacc] at hi
  rcases hi with ⟨rfl, -⟩ | ⟨-, hold, -⟩
  · exact .inr hnonce
  · left
    rw [hold]
    exact Option.some_ne_none i

theorem parseAll_of_fresh {deliveries : List (Delivery crypto rs)} {store : PubkeyStore crypto}
    (hstore : ∀ d ∈ deliveries, store.get d.identity.nodeId = some d.identity.verifyingKey)
    (hkey : ∀ d ∈ deliveries, d.identity.sessionKey = sessionKey)
    (hnonce : (deliveries.map Delivery.nonce).Nodup)
    (htime : ∀ d ∈ deliveries,
      NonceCache.absDiff d.localTimeMs d.draw.nowMs.toNat ≤ timeWindowMs)
    (hfresh : ∀ key, cache.seen key ≠ none → key.2.2 ∉ deliveries.map Delivery.nonce) :
    List.Forall₂ (fun d result => ∃ parsed, result = .ok parsed ∧ parsed.given = d.given)
      deliveries
      (crypto.parseAll store sessionKey cache
        (deliveries.map fun d => (d.raw, d.localTimeMs))) := by
  induction deliveries generalizing cache with
  | nil => exact .nil
  | cons d rest ih =>
    rw [List.forall_mem_cons] at hstore hkey htime
    rw [List.map_cons, List.nodup_cons] at hnonce
    simp only [List.map_cons, List.mem_cons, not_or] at hfresh
    obtain ⟨hok, hseen⟩ := parse_delivery hstore.1 hkey.1 htime.1
      fun key h => (hfresh key h).1
    refine .cons hok (ih hstore.2 hkey.2 hnonce.2 htime.2 fun key h => ?_)
    rcases hseen key h with hold | hnew
    · exact (hfresh key hold).2
    · rw [hnew]
      exact hnonce.1

/-- Frames with different nonces that arrive in time are all read as they were built, whatever
their order. -/
theorem parseAll_built (rs : ReedSolomon) (store : PubkeyStore crypto) (sessionKey : SessionKey)
    (deliveries : List (Delivery crypto rs))
    (hstore : ∀ d ∈ deliveries, store.get d.identity.nodeId = some d.identity.verifyingKey)
    (hkey : ∀ d ∈ deliveries, d.identity.sessionKey = sessionKey)
    (hnonce : (deliveries.map Delivery.nonce).Nodup)
    (htime : ∀ d ∈ deliveries,
      NonceCache.absDiff d.localTimeMs d.draw.nowMs.toNat ≤ timeWindowMs) :
    List.Forall₂ (fun d result => ∃ parsed, result = .ok parsed ∧ parsed.given = d.given)
      deliveries
      (crypto.parseAll store sessionKey .new
        (deliveries.map fun d => (d.raw, d.localTimeMs))) :=
  parseAll_of_fresh hstore hkey hnonce htime fun _ h => absurd rfl h

def orderMsg : TacticalMessage := ⟨.data, [104, 105]⟩

def twoDeliveries : List (Delivery .toy .toy) :=
  [{ raw := _
     identity := Crypto.toyFleet.identity 2
     draw := .atMs 1000
     given := _
     built := .route orderMsg .critical 3 (Crypto.toyFleet.identity 2) 1 (.atMs 1000)
     localTimeMs := 1004 },
   { raw := _
     identity := Crypto.toyFleet.identity 1
     draw := .atMs 900
     given := _
     built := .frame orderMsg .bulk broadcast (Crypto.toyFleet.identity 1) (.atMs 900)
     localTimeMs := 1004 }]

theorem twoDeliveries_parsed :
    List.Forall₂ (fun d result => ∃ parsed, result = .ok parsed ∧ parsed.given = d.given)
      twoDeliveries
      (Crypto.toy.parseAll Crypto.toyFleet.pubkeys Crypto.toyFleet.sessionKey .new
        (twoDeliveries.map fun d => (d.raw, d.localTimeMs))) := by
  apply parseAll_built
  · simp [twoDeliveries, Fleet.pubkeys, PubkeyStore.get, Fleet.identity]
  · simp [twoDeliveries, Fleet.identity]
  · decide
  · decide

end TacticalMesh
