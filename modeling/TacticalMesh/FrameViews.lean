import TacticalMesh.FecDecode
import TacticalMesh.Sharding

namespace TacticalMesh
set_option autoImplicit true

/-- What a receiver has of a frame: the header and the plaintext. -/
abbrev View := AuthHeader × Bytes

/-- The view without the fields that are drawn for each frame. -/
def View.undrawn (view : View) : View :=
  ({ view.1 with timestampMs := 0, nonce := Vector.replicate 12 0, fecBlockId := 0 }, view.2)

theorem View.undrawn_fields {view view' : View} (h : view.undrawn = view'.undrawn) :
    view.2 = view'.2 ∧ view.1.priority = view'.1.priority ∧ view.1.fecIndex = view'.1.fecIndex ∧
      view.1.fecN = view'.1.fecN := by
  obtain ⟨hauth, hplain⟩ := Prod.ext_iff.1 h
  simp only [undrawn, AuthHeader.mk.injEq] at hauth
  exact ⟨hplain, hauth.2.2.2.1, hauth.2.2.2.2.2.2.2.2.2.1, hauth.2.2.2.2.2.2.2.2.2.2.2.1⟩

def Crypto.Reads (crypto : Crypto) (store : PubkeyStore crypto) (sessionKey : SessionKey)
    (raw : Bytes) (view : View) : Prop :=
  ∃ cache now parsed, (crypto.parseAndVerifyFrame raw store cache now sessionKey).2 = .ok parsed ∧
    view = (parsed.auth, parsed.plaintext)

theorem SealedFrame.reads_raw {crypto : Crypto} {store : PubkeyStore crypto}
    (m : SealedFrame crypto)
    (hstore : store.get m.identity.nodeId = some m.identity.verifyingKey) :
    crypto.Reads store m.identity.sessionKey m.raw view ↔ view = (m.auth, m.payload) := by
  constructor
  · rintro ⟨cache, now, parsed, hparse, rfl⟩
    by_cases hacc : cache.accepts (Crypto.frameCheck m.auth now)
    · rw [m.parse_raw hstore rfl hacc] at hparse
      cases hparse
      rfl
    · obtain ⟨e, he⟩ : ∃ e, crypto.parseAndVerifyFrame m.raw store cache now
          m.identity.sessionKey = (cache, .error (.error e)) :=
        crypto.parseAndVerifyFrame_of_rejected (m.authenticate_raw hstore) hacc
      rw [he] at hparse
      cases hparse
  · rintro rfl
    have hacc : NonceCache.new.accepts
        (Crypto.frameCheck m.auth m.auth.timestampMs.toNat) := by
      apply NonceCache.accepts_iff.2
      constructor
      · rw [NonceCache.Check.inWindow, Crypto.frameCheck, NonceCache.absDiff, max_self, min_self,
          Nat.sub_self]
        exact Nat.zero_le _
      · rfl
    exact ⟨_, _, _, congrArg Prod.snd (m.parse_raw hstore rfl hacc), rfl⟩

/-- What stands in a frame: the whole payload at index 0, or a shard at its index. -/
inductive PartAt (rs : ReedSolomon) (prio : Priority) (payload : Bytes) : ℕ → Bytes → Prop where
  | whole : PartAt rs prio payload 0 payload
  | shard (henc : fecEncode rs payload prio = .ok shards) (hpart : shards[idx]? = some part) :
      PartAt rs prio payload idx part

theorem PartAt.lt (h : PartAt rs prio payload idx part) : idx < 256 := by
  cases h with
  | whole => exact Nat.zero_lt_succ _
  | shard henc hpart =>
    obtain ⟨hidx, -⟩ := List.getElem?_eq_some_iff.1 hpart
    rw [(fecEncode_eq_ok henc).1] at hidx
    exact hidx.trans (fecParams prio).2.toNat_lt

theorem PartAt.restored {dec : RsDecoder} (hmds : ∀ recovery, dec.Restores rs 1 recovery)
    (hk : (fecParams prio).1 = 1) (h : PartAt rs prio payload idx part) :
    idx = 0 ∧ part = payload ∨ 0 < idx ∧ ∃ restored, restored 0 = some payload ∧
      dec.restore 1 ((fecParams prio).2.toNat - 1) part.length [] [(idx - 1, part)] =
        .ok restored := by
  cases h with
  | whole => exact .inl ⟨rfl, rfl⟩
  | shard henc hpart =>
    obtain ⟨hdata, recovered, rfl, hrs⟩ := fecEncode_split henc
    rw [originalShards_single hk hdata] at hpart hrs
    rw [hk] at hrs
    cases idx with
    | zero => exact .inl ⟨rfl, (Option.some.inj hpart).symm⟩
    | succ idx =>
      have hrec : recovered[idx]? = some part := hpart
      have hsize : part.length = payload.length :=
        rs.length_shard hrs (.head _) (List.mem_of_getElem? hrec)
      have hparts : PartOf [(idx, part)] recovered := by
        constructor
        case nodup => exact List.nodup_singleton _
        case get => exact List.forall_mem_singleton.2 hrec
      obtain ⟨restored, hrestored, hget⟩ := hmds _ [payload] recovered payload.length hrs rfl
        (List.forall_mem_singleton.2 rfl) [] [(idx, part)]
        ⟨List.nodup_nil, fun _ h => absurd h List.not_mem_nil⟩ hparts (Nat.le_refl 1)
      rw [← hsize] at hrestored
      exact .inr ⟨Nat.succ_pos idx, restored, hget 0 List.not_mem_nil payload rfl, hrestored⟩

theorem PartAt.payload_eq {dec : RsDecoder} (hmds : ∀ recovery, dec.Restores rs 1 recovery)
    (hk : (fecParams prio).1 = 1) (h : PartAt rs prio payload idx part)
    (h' : PartAt rs prio payload' idx part) : payload' = payload := by
  rcases h.restored hmds hk with ⟨rfl, rfl⟩ | ⟨hpos, restored, hget, hdec⟩
  · rcases h'.restored hmds hk with ⟨-, rfl⟩ | ⟨hpos, -⟩
    · rfl
    · exact absurd hpos (Nat.lt_irrefl 0)
  · rcases h'.restored hmds hk with ⟨rfl, -⟩ | ⟨-, restored', hget', hdec'⟩
    · exact absurd hpos (Nat.lt_irrefl 0)
    · cases hdec.symm.trans hdec'
      exact Option.some.inj (hget'.symm.trans hget)

/-- A payload that is cut into several shards is not of even length, nor are its shards. -/
def OddBulk (prio : Priority) (payload : Bytes) : Prop :=
  prio = .bulk → fecThresholdBytes < payload.length →
    payload.length % 2 = 1 ∧ chunkCount (fecParams .bulk).1.toNat payload.length % 2 = 1

theorem fecParams_single (h : prio ≠ .bulk) : (fecParams prio).1 = 1 := by
  cases prio with
  | bulk => exact absurd rfl h
  | _ => rfl

/-- A sender, a receiver that knows its keys, and all of a frame but its priority and payload. -/
structure Peers (crypto : Crypto) where
  identity : Identity crypto
  store : PubkeyStore crypto
  known : store.get identity.nodeId = some identity.verifyingKey
  kind : MsgKind
  dst : UInt8
  draws : ShardDraws

namespace Peers
variable {crypto : Crypto} {rs : ReedSolomon} (peers : Peers crypto)

def frame (prio : Priority) (payload : Bytes) : Bytes :=
  crypto.buildFrame ⟨peers.kind, payload⟩ prio peers.dst peers.identity (peers.draws.draw 0)

def frames (rs : ReedSolomon) (prio : Priority) (payload : Bytes) : Option (List Bytes) :=
  crypto.buildFrames rs ⟨peers.kind, payload⟩ prio peers.dst peers.identity peers.draws

def Reads (raw : Bytes) (view : View) : Prop :=
  crypto.Reads peers.store peers.identity.sessionKey raw view

def shardFrame (prio : Priority) (payload : Bytes) (idx : ℕ) (part : Bytes) : Bytes :=
  crypto.shardFrame ⟨peers.kind, payload⟩ prio peers.dst peers.identity peers.draws idx part

def sealedFrame (prio : Priority) (payload : Bytes) : SealedFrame crypto where
  identity := peers.identity
  routed := ⟨peers.identity.nodeId, 0, 0, 0⟩
  auth := crypto.authHeader ⟨peers.kind, payload⟩ prio peers.dst peers.identity
    (peers.draws.draw 0)
  payload := payload
  srcNode_eq := rfl
  payloadHash_eq := rfl

def sealedShard (prio : Priority) (payload : Bytes) (idx : ℕ) (part : Bytes) :
    SealedFrame crypto where
  identity := peers.identity
  routed := ⟨peers.identity.nodeId, 0, 0, 0⟩
  auth := crypto.shardAuthHeader ⟨peers.kind, payload⟩ prio peers.dst peers.identity peers.draws
    idx part
  payload := part
  srcNode_eq := rfl
  payloadHash_eq := rfl

def whole (prio : Priority) (payload : Bytes) : View :=
  ((peers.sealedFrame prio payload).auth, payload)

def shard (prio : Priority) (payload : Bytes) (idx : ℕ) (part : Bytes) : View :=
  ((peers.sealedShard prio payload idx part).auth, part)

theorem reads_frame :
    peers.Reads (peers.frame prio payload) view ↔ view = peers.whole prio payload :=
  (peers.sealedFrame prio payload).reads_raw peers.known

theorem reads_shardFrame : peers.Reads (peers.shardFrame prio payload idx part) view ↔
    view = peers.shard prio payload idx part :=
  (peers.sealedShard prio payload idx part).reads_raw peers.known

def OneOf (rs : ReedSolomon) (prio : Priority) (payload : Bytes) (view : View) : Prop :=
  ∃ frames, peers.frames rs prio payload = some frames ∧ ∃ raw ∈ frames, peers.Reads raw view

theorem oneOf_short (hshort : payload.length ≤ fecThresholdBytes) :
    peers.OneOf rs prio payload view ↔ view = peers.whole prio payload := by
  rw [OneOf, frames, Crypto.buildFrames, if_pos hshort]
  constructor
  · rintro ⟨_, heq, raw, hraw, hread⟩
    cases heq
    obtain rfl := List.mem_singleton.1 hraw
    exact peers.reads_frame.1 hread
  · intro hview
    exact ⟨_, rfl, _, .head _, peers.reads_frame.2 hview⟩

theorem frames_long {frames : List Bytes} (hlong : fecThresholdBytes < payload.length) :
    peers.frames rs prio payload = some frames ↔
      ∃ shards, fecEncode rs payload prio = .ok shards ∧
        frames = shards.mapIdx (peers.shardFrame prio payload) := by
  rw [Peers.frames, Crypto.buildFrames, if_neg (Nat.not_le.2 hlong)]
  constructor
  · intro h
    split at h
    next => cases h
    next shards henc =>
      cases h
      exact ⟨shards, henc, rfl⟩
  · rintro ⟨shards, henc, rfl⟩
    simp only [henc]
    rfl

theorem oneOf_long (hlong : fecThresholdBytes < payload.length) :
    peers.OneOf rs prio payload view ↔ ∃ shards idx part, fecEncode rs payload prio = .ok shards ∧
      shards[idx]? = some part ∧ view = peers.shard prio payload idx part := by
  constructor
  · rintro ⟨frames, hframes, raw, hraw, hread⟩
    obtain ⟨shards, henc, rfl⟩ := (peers.frames_long hlong).1 hframes
    obtain ⟨idx, hidx⟩ := List.mem_iff_getElem?.1 hraw
    rw [List.getElem?_mapIdx] at hidx
    obtain ⟨part, hpart, rfl⟩ := Option.map_eq_some_iff.1 hidx
    exact ⟨shards, idx, part, henc, hpart, peers.reads_shardFrame.1 hread⟩
  · rintro ⟨shards, idx, part, henc, hpart, rfl⟩
    refine ⟨_, (peers.frames_long hlong).2 ⟨shards, henc, rfl⟩, _, ?_,
      peers.reads_shardFrame.2 rfl⟩
    apply List.mem_iff_getElem?.2
    exact ⟨idx, by rw [List.getElem?_mapIdx, hpart, Option.map_some]⟩

/-- How many of the frames of `build_frames` are to be enough. -/
def needed (prio : Priority) (payload : Bytes) : ℕ :=
  if payload.length ≤ fecThresholdBytes then 1 else (fecParams prio).1.toNat

/-- What a payload is to be recovered from: the frame of `build_frame`, or enough frames of
`build_frames`. -/
inductive Sent (rs : ReedSolomon) (prio : Priority) (payload : Bytes) : List View → Prop where
  | whole {view} (hread : peers.Reads (peers.frame prio payload) view) : Sent rs prio payload [view]
  | part {frames part views} (hframes : peers.frames rs prio payload = some frames)
      (hpart : part.Subperm frames) (hlen : part.length = needed prio payload)
      (hread : List.Forall₂ peers.Reads part views) : Sent rs prio payload views

theorem Sent.cases {peers : Peers crypto} {views : List View}
    (h : peers.Sent rs prio payload views) :
    views = [peers.whole prio payload] ∨
      fecThresholdBytes < payload.length ∧ views.length = (fecParams prio).1.toNat ∧
        ∀ view ∈ views, peers.OneOf rs prio payload view := by
  cases h with
  | whole hread => exact .inl (congrArg (List.cons · []) (peers.reads_frame.1 hread))
  | @part frames part _ hframes hpart hlen hread =>
    have hone : ∀ view ∈ views, peers.OneOf rs prio payload view := by
      intro view hview
      obtain ⟨i, hi, rfl⟩ := List.mem_iff_getElem.1 hview
      have hi' := hi.trans_eq hread.length_eq.symm
      exact ⟨frames, hframes, _, hpart.subset (List.getElem_mem hi'), hread.get hi' hi⟩
    rw [hread.length_eq, needed] at hlen
    split at hlen
    next hshort =>
      obtain ⟨view, rfl⟩ := List.length_eq_one_iff.1 hlen
      exact .inl (congrArg (List.cons · []) ((peers.oneOf_short hshort).1 (hone view (.head _))))
    next hlong => exact .inr ⟨Nat.not_le.1 hlong, hlen, hone⟩

def FrameOf (rs : ReedSolomon) (prio : Priority) (payload : Bytes) (view : View) : Prop :=
  peers.Reads (peers.frame prio payload) view ∨ peers.OneOf rs prio payload view

theorem FrameOf.partAt {peers : Peers crypto} (h : peers.FrameOf rs prio payload view) :
    view.1.priority = prio ∧
      ∃ idx, view.1.fecIndex = .ofNat idx ∧ PartAt rs prio payload idx view.2 := by
  have hwhole : ∀ view, view = peers.whole prio payload → view.1.priority = prio ∧
      ∃ idx, view.1.fecIndex = .ofNat idx ∧ PartAt rs prio payload idx view.2 := by
    rintro _ rfl
    exact ⟨rfl, 0, rfl, .whole⟩
  rcases h with hread | hone
  · exact hwhole view (peers.reads_frame.1 hread)
  · rcases Nat.lt_or_ge fecThresholdBytes payload.length with hlong | hshort
    · obtain ⟨shards, idx, part, henc, hpart, rfl⟩ := (peers.oneOf_long hlong).1 hone
      exact ⟨rfl, idx, rfl, .shard henc hpart⟩
    · exact hwhole view ((peers.oneOf_short hshort).1 hone)

theorem FrameOf.payload_eq {dec : RsDecoder} {peers peers' : Peers crypto}
    (hmds : ∀ recovery, dec.Restores rs 1 recovery) (hk : (fecParams prio).1 = 1)
    (h : peers.FrameOf rs prio payload view) (h' : peers'.FrameOf rs prio' payload' view')
    (heq : view.undrawn = view'.undrawn) : payload' = payload := by
  obtain ⟨hplain, hprio, hidx, -⟩ := View.undrawn_fields heq
  obtain ⟨rfl, idx, hat, hpart⟩ := h.partAt
  obtain ⟨rfl, idx', hat', hpart'⟩ := h'.partAt
  have hsame : idx = idx' := by
    have hmod := congrArg UInt8.toNat (hat.symm.trans (hidx.trans hat'))
    rw [UInt8.toNat_ofNat', UInt8.toNat_ofNat', Nat.mod_eq_of_lt hpart.lt,
      Nat.mod_eq_of_lt hpart'.lt] at hmod
    exact hmod
  rw [← hsame, ← hplain, ← hprio] at hpart'
  exact hpart.payload_eq hmds hk hpart'

/-- No other payload is sent in frames that look the same, and none is sent as shards or as a
whole where this one is not. -/
structure Unmistakable (rs : ReedSolomon) (prio : Priority) (payload : Bytes) : Prop where
  recoverable : ∀ (peers' : Peers crypto) prio' payload' views views',
    peers.Sent rs prio payload views → peers'.Sent rs prio' payload' views' →
      views.map View.undrawn = views'.map View.undrawn → payload' = payload
  whole : ∀ (peers' : Peers crypto) prio' payload' view view',
    peers.Reads (peers.frame prio payload) view → peers'.OneOf rs prio' payload' view' →
      view.undrawn = view'.undrawn → payload' = payload
  part : ∀ (peers' : Peers crypto) prio' payload' view view',
    peers.OneOf rs prio payload view → peers'.Reads (peers'.frame prio' payload') view' →
      view.undrawn = view'.undrawn → payload' = payload

theorem Sent.frameOf {peers : Peers crypto} {views : List View}
    (h : peers.Sent rs prio payload views) :
    ∃ view rest, views = view :: rest ∧ peers.FrameOf rs prio payload view := by
  have hpos := fecParams_fst_pos prio
  rcases h.cases with rfl | ⟨-, hlen, hone⟩
  · exact ⟨_, [], rfl, .inl (peers.reads_frame.2 rfl)⟩
  · cases views with
    | nil =>
      rw [← hlen] at hpos
      cases hpos
    | cons view rest => exact ⟨view, rest, rfl, .inr (hone view (.head _))⟩

end Peers

namespace OddBulk
variable {crypto : Crypto} {rs : ReedSolomon} {dec : RsDecoder} {peers peers' : Peers crypto}

theorem not_oneOf (hrs : rs.NeedsEvenSize) (hodd : OddBulk .bulk payload)
    (hlong : fecThresholdBytes < payload.length) : ¬ peers.OneOf rs .bulk payload view := by
  intro hone
  obtain ⟨shards, -, -, henc, -⟩ := (peers.oneOf_long hlong).1 hone
  have hdata : payload ≠ [] := List.ne_nil_of_length_pos (Nat.zero_lt_of_lt hlong)
  have heven := (fecEncode_isOk hrs hdata .bulk).1 ⟨shards, henc⟩
  have hone := (hodd rfl hlong).2
  omega

theorem recoverable {views views' : List View}
    (hrs : rs.NeedsEvenSize) (hmds : ∀ recovery, dec.Restores rs 1 recovery)
    (hodd : OddBulk prio payload) (h : peers.Sent rs prio payload views)
    (h' : peers'.Sent rs prio' payload' views')
    (heq : views.map View.undrawn = views'.map View.undrawn) : payload' = payload := by
  obtain ⟨view, rest, hview, hframe⟩ := h.frameOf
  obtain ⟨view', rest', hview', hframe'⟩ := h'.frameOf
  have hhead : view.undrawn = view'.undrawn := by
    rw [hview, hview', List.map_cons, List.map_cons] at heq
    exact (List.cons.inj heq).1
  obtain ⟨hplain, hprio, -⟩ := View.undrawn_fields hhead
  rw [hframe.partAt.1, hframe'.partAt.1] at hprio
  subst hprio
  by_cases hbulk : prio = .bulk
  · subst hbulk
    rcases h.cases with hone | ⟨hlong, -, hall⟩
    · have hlen := congrArg List.length heq
      rw [List.length_map, List.length_map, hone] at hlen
      rcases h'.cases with hone' | ⟨-, hlen', -⟩
      · rw [hone] at hview
        rw [hone'] at hview'
        rw [← (List.cons.inj hview).1, ← (List.cons.inj hview').1] at hplain
        exact hplain.symm
      · rw [hlen'] at hlen
        cases hlen
    · exact absurd (hall view (hview ▸ .head _)) (hodd.not_oneOf hrs hlong)
  · exact hframe.payload_eq hmds (fecParams_single hbulk) hframe' hhead

theorem whole (hrs : rs.NeedsEvenSize)
    (hmds : ∀ recovery, dec.Restores rs 1 recovery) (hodd : OddBulk prio payload)
    (h : peers.Reads (peers.frame prio payload) view) (h' : peers'.OneOf rs prio' payload' view')
    (heq : view.undrawn = view'.undrawn) : payload' = payload := by
  by_cases hbulk : prio = .bulk
  · subst hbulk
    obtain ⟨hplain, hprio, -, hn⟩ := View.undrawn_fields heq
    have hframe : peers.FrameOf rs .bulk payload view := .inl h
    have hframe' : peers'.FrameOf rs prio' payload' view' := .inr h'
    rw [hframe.partAt.1, hframe'.partAt.1] at hprio
    subst hprio
    obtain rfl := peers.reads_frame.1 h
    rcases Nat.lt_or_ge fecThresholdBytes payload'.length with hlong' | hshort'
    · obtain ⟨shards, idx, part, henc, hpart, rfl⟩ := (peers'.oneOf_long hlong').1 h'
      by_cases hlong : fecThresholdBytes < payload.length
      · -- the shard is of even size, the payload is not
        have hdata : payload' ≠ [] := List.ne_nil_of_length_pos (Nat.zero_lt_of_lt hlong')
        have heven := (fecEncode_isOk hrs hdata .bulk).1 ⟨shards, henc⟩
        have hsize := (fecEncode_eq_ok henc).2.1 part (List.mem_of_getElem? hpart)
        have hlen : payload.length = part.length := congrArg List.length hplain
        have hoddLen := (hodd rfl hlong).1
        omega
      · -- a short message is not marked as cut
        have hone : (1 : UInt8) = (fecParams .bulk).2 := by
          simp only [Peers.whole, Peers.sealedFrame, Crypto.authHeader, if_neg hlong] at hn
          exact hn
        cases hone
    · obtain rfl := (peers'.oneOf_short hshort').1 h'
      exact hplain.symm
  · exact Peers.FrameOf.payload_eq hmds (fecParams_single hbulk) (.inl h) (.inr h') heq

theorem part (hrs : rs.NeedsEvenSize)
    (hmds : ∀ recovery, dec.Restores rs 1 recovery) (hodd : OddBulk prio payload)
    (h : peers.OneOf rs prio payload view) (h' : peers'.Reads (peers'.frame prio' payload') view')
    (heq : view.undrawn = view'.undrawn) : payload' = payload := by
  by_cases hbulk : prio = .bulk
  · subst hbulk
    rcases Nat.lt_or_ge fecThresholdBytes payload.length with hlong | hshort
    · exact absurd h (hodd.not_oneOf hrs hlong)
    · obtain rfl := (peers.oneOf_short hshort).1 h
      obtain rfl := peers'.reads_frame.1 h'
      exact (View.undrawn_fields heq).1.symm
  · exact Peers.FrameOf.payload_eq hmds (fecParams_single hbulk) (.inr h) (.inl h') heq

end OddBulk

theorem fecEncode_append_zero (rs : ReedSolomon) (hdata : data ≠ [])
    (h : chunkCount (fecParams prio).1.toNat (data.length + 1) =
      chunkCount (fecParams prio).1.toNat data.length) :
    fecEncode rs (data ++ [0]) prio = fecEncode rs data prio := by
  have hpos := fecParams_fst_pos prio
  have hlen : (data ++ [0]).length = data.length + 1 := List.length_append
  have hroom := le_chunkCount_mul hpos (data.length + 1)
  have hpadded : fecPadded (data ++ [0]) (fecParams prio).1.toNat =
      fecPadded data (fecParams prio).1.toNat := by
    rw [h] at hroom
    rw [fecPadded, fecPadded, hlen, h, List.append_assoc, List.singleton_append,
      ← List.replicate_succ]
    congr 2
    omega
  have hsame : originalShards (data ++ [0]) prio = originalShards data prio := by
    simp only [originalShards, hpadded, hlen, h]
  rw [fecEncode_of_ne_nil rs (List.append_ne_nil_of_right_ne_nil _ (List.cons_ne_nil _ _)),
    fecEncode_of_ne_nil rs hdata, hsame]

namespace Peers
variable {crypto : Crypto} {rs : ReedSolomon} (peers : Peers crypto)

theorem sent_shards (hlong : fecThresholdBytes < payload.length)
    (henc : fecEncode rs payload prio = .ok shards) :
    peers.Sent rs prio payload
      ((shards.mapIdx (peers.shard prio payload)).take (fecParams prio).1.toNat) := by
  have hread : List.Forall₂ peers.Reads
      (shards.mapIdx (peers.shardFrame prio payload))
      (shards.mapIdx (peers.shard prio payload)) := by
    apply List.forall₂_iff_get.2
    constructor
    · rw [List.length_mapIdx, List.length_mapIdx]
    · intro i hi hi'
      simp only [List.get_eq_getElem, List.getElem_mapIdx]
      exact peers.reads_shardFrame.2 rfl
  apply Sent.part ((peers.frames_long hlong).2 ⟨shards, henc, rfl⟩)
    (List.take_sublist (fecParams prio).1.toNat _).subperm _ (List.forall₂_take _ hread)
  rw [List.length_take, List.length_mapIdx, (fecEncode_eq_ok henc).1, needed,
    if_neg (Nat.not_le.2 hlong)]
  exact Nat.min_eq_left (fecParams_le prio)

/-- An odd payload and the one with a zero more are sent in the same shards. -/
theorem sent_append_zero (hrs : rs.NeedsEvenSize) (hlong : fecThresholdBytes < payload.length)
    (hodd : payload.length % 2 = 1)
    (heven : chunkCount (fecParams .bulk).1.toNat payload.length % 2 = 0) :
    ∃ views, peers.Sent rs .bulk payload views ∧ peers.Sent rs .bulk (payload ++ [0]) views := by
  have hdata : payload ≠ [] := List.ne_nil_of_length_pos (Nat.zero_lt_of_lt hlong)
  obtain ⟨shards, henc⟩ := (fecEncode_isOk hrs hdata .bulk).2 heven
  have hroom : chunkCount (fecParams .bulk).1.toNat (payload.length + 1) =
      chunkCount (fecParams .bulk).1.toNat payload.length := by
    change (payload.length + 1 + 8 - 1) / 8 = (payload.length + 8 - 1) / 8
    omega
  have hlong' : fecThresholdBytes < (payload ++ [0]).length := by
    rw [List.length_append]
    exact Nat.lt_add_right _ hlong
  have henc' : fecEncode rs (payload ++ [0]) .bulk = .ok shards :=
    (fecEncode_append_zero rs hdata hroom).trans henc
  exact ⟨_, peers.sent_shards hlong henc, peers.sent_shards hlong' henc'⟩

/-- The payload that is cut into this one and seven shards of zeros. -/
def eightfold (payload : Bytes) : Bytes := payload ++ List.replicate (7 * payload.length) 0

theorem length_eightfold (payload : Bytes) :
    (eightfold payload).length = payload.length * 8 := by
  rw [eightfold, List.length_append, List.length_replicate]
  omega

theorem originalShards_eightfold (hpos : 0 < payload.length) :
    (originalShards (eightfold payload) .bulk)[0]? = some payload := by
  have hcount : chunkCount 8 (eightfold payload).length = payload.length := by
    rw [length_eightfold, chunkCount_mul (Nat.zero_lt_succ 7)]
  have hpadded : fecPadded (eightfold payload) 8 = eightfold payload := by
    rw [fecPadded, hcount, length_eightfold, Nat.sub_self, List.replicate_zero, List.append_nil]
  have hshards : originalShards (eightfold payload) .bulk =
      chunks payload.length (eightfold payload) := by
    change chunks (chunkCount 8 _) (fecPadded _ 8) = _
    rw [hcount, hpadded]
  have hlt : 0 < (chunks payload.length (eightfold payload)).length := by
    rw [length_chunks, chunkCount_pos hpos, length_eightfold]
    omega
  rw [hshards, List.getElem?_eq_getElem hlt, getElem_chunks, chunk, Nat.zero_mul, List.drop_zero,
    eightfold, List.take_left' rfl]

/-- A payload of even length looks like the first shard of one that is eight times as long. -/
theorem oneOf_eightfold (hrs : rs.NeedsEvenSize) (hlong : fecThresholdBytes < payload.length)
    (heven : payload.length % 2 = 0) :
    peers.OneOf rs .bulk (eightfold payload) (peers.shard .bulk payload 0 payload) := by
  have hpos : 0 < payload.length := Nat.zero_lt_of_lt hlong
  have hlen := length_eightfold payload
  have hdata : eightfold payload ≠ [] := List.ne_nil_of_length_pos (by omega)
  obtain ⟨shards, henc⟩ : ∃ shards, fecEncode rs (eightfold payload) .bulk = .ok shards := by
    apply (fecEncode_isOk hrs hdata .bulk).2
    rw [hlen]
    exact (congrArg (· % 2) (chunkCount_mul (Nat.zero_lt_succ 7) _)).trans heven
  obtain ⟨-, recovered, rfl, -⟩ := fecEncode_split henc
  have hfirst := originalShards_eightfold hpos
  apply (peers.oneOf_long (by omega)).2
  refine ⟨_, 0, payload, henc, ?_, rfl⟩
  rw [List.getElem?_append_left (List.getElem?_eq_some_iff.1 hfirst).1, hfirst]

theorem Unmistakable.oddBulk (hrs : rs.NeedsEvenSize) (h : peers.Unmistakable rs prio payload) :
    OddBulk prio payload := by
  rintro rfl hlong
  have hodd : payload.length % 2 = 1 := by
    by_contra heven
    have hsame : (peers.whole .bulk payload).undrawn =
        (peers.shard .bulk payload 0 payload).undrawn := by
      simp only [Peers.whole, Peers.sealedFrame, Crypto.authHeader, if_pos hlong]
      rfl
    have heq := h.whole peers .bulk _ _ _ (peers.reads_frame.2 rfl)
      (peers.oneOf_eightfold hrs hlong (by omega)) hsame
    have hlen := congrArg List.length heq
    rw [length_eightfold] at hlen
    omega
  refine ⟨hodd, ?_⟩
  by_contra heven
  obtain ⟨views, hsent, hsent'⟩ := peers.sent_append_zero hrs hlong hodd (by omega)
  have heq := h.recoverable peers .bulk _ views views hsent hsent' rfl
  have hlen := congrArg List.length heq
  rw [List.length_append, List.length_singleton] at hlen
  omega

end Peers

/-- What is sent can be told from everything else that is sent exactly if it is not cut into
several shards, and a receiver can be written that recovers all payloads of this kind. -/
theorem unmistakable_iff (rs : ReedSolomon) (dec : RsDecoder) (hrs : rs.NeedsEvenSize)
    (hmds : ∀ recovery, dec.Restores rs 1 recovery) (peers : Peers crypto) :
    (∀ prio payload, peers.Unmistakable rs prio payload ↔ OddBulk prio payload) ∧
      ∃ recover : List View → Bytes, ∀ (peers' : Peers crypto) prio payload views,
        OddBulk prio payload → peers'.Sent rs prio payload views → recover views = payload := by
  constructor
  · intro prio payload
    constructor
    case mp => exact fun h => h.oddBulk peers hrs
    case mpr =>
      intro hodd
      constructor
      case recoverable =>
        exact fun _ _ _ _ _ h h' heq => hodd.recoverable hrs hmds h h' heq
      case whole => exact fun _ _ _ _ _ h h' heq => hodd.whole hrs hmds h h' heq
      case part => exact fun _ _ _ _ _ h h' heq => hodd.part hrs hmds h h' heq
  · have hdetermined : ∀ views, ∃ payload, ∀ (peers' : Peers crypto) prio payload',
        OddBulk prio payload' → peers'.Sent rs prio payload' views → payload = payload' := by
      intro views
      by_cases hsource : ∃ (peers' : Peers crypto) (prio : Priority) (payload : Bytes),
          peers'.Sent rs prio payload views
      · obtain ⟨peers₁, prio₁, payload, hsent⟩ := hsource
        exact ⟨payload, fun _ _ _ hodd hsent' => hodd.recoverable hrs hmds hsent' hsent rfl⟩
      · exact ⟨[], fun peers' prio payload' _ hsent =>
          absurd ⟨peers', prio, payload', hsent⟩ hsource⟩
    choose recover hrecover using hdetermined
    exact ⟨recover, fun peers' prio payload views => hrecover views peers' prio payload⟩

def toyPeers : Peers .toy where
  identity := Crypto.toyFleet.identity 1
  store := Crypto.toyFleet.pubkeys
  known := rfl
  kind := .data
  dst := broadcast
  draws := zeroDraws

theorem short_bulk_unmistakable : toyPeers.Unmistakable .toy .bulk [104, 105] :=
  ((unmistakable_iff .toy ReedSolomon.toyDecoder toy_needsEvenSize
    ReedSolomon.toyDecoder_restores toyPeers).1 .bulk [104, 105]).2
      fun _ hlong => absurd hlong (by decide)

/-- Of 1039 and of 1040 zero bytes the same eight shards are sent. -/
theorem zeros_mistaken : (∃ views, toyPeers.Sent .toy .bulk (List.replicate 1039 0) views ∧
      toyPeers.Sent .toy .bulk (List.replicate 1040 0) views) ∧
    ¬ ∃ recover : List View → Bytes, ∀ (peers : Peers .toy) prio payload views,
      peers.Sent .toy prio payload views → recover views = payload := by
  have hlen : (List.replicate 1039 (0 : UInt8)).length = 1039 := List.length_replicate
  have hsent : ∃ views, toyPeers.Sent .toy .bulk (List.replicate 1039 0) views ∧
      toyPeers.Sent .toy .bulk (List.replicate 1040 0) views := by
    rw [List.replicate_succ' (n := 1039)]
    apply toyPeers.sent_append_zero toy_needsEvenSize
    · rw [hlen]
      decide
    · rw [hlen]
    · rw [hlen]
      decide
  refine ⟨hsent, ?_⟩
  rintro ⟨recover, hrecover⟩
  obtain ⟨views, h, h'⟩ := hsent
  have heq := congrArg List.length ((hrecover _ _ _ _ h).symm.trans (hrecover _ _ _ _ h'))
  rw [hlen, List.length_replicate] at heq
  cases heq

end TacticalMesh
