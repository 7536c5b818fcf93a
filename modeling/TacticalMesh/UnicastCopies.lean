import TacticalMesh.RelayNetwork
import TacticalMesh.RxLoop

namespace TacticalMesh
set_option autoImplicit true

/-- A frame that is queued or on air, and the nodes that can still hear it. If it carries the
message that is being followed, it also has the nodes it came through, the latest first. -/
structure Copy where
  sender : UInt8
  raw : Bytes
  path : Option (List UInt8)
  pending : List UInt8

/-- All copies, and the paths of those whose message was handed over at the destination. -/
structure CopyNet where
  caches : UInt8 → NonceCache
  copies : List Copy
  handed : List (List UInt8)

namespace RelayMesh
variable {crypto : Crypto} (codec : Codec) (mesh : RelayMesh) (fleet : Fleet crypto)

/-- The message that the `rx_loop` of node `n` hands to `handle_tactical` for a frame. -/
def handOver (n : UInt8) (cache : NonceCache) (raw : Bytes) (now : ℕ) : Option (AppMsg × UInt8) :=
  if ownFrame n raw then none
  else
    match (crypto.parseAndVerifyFrame raw fleet.pubkeys cache now fleet.sessionKey).2 with
    | .error _ => none
    | .ok parsed =>
      if parsed.deliverLocal n ∧ parsed.auth.msgKind = .data then
        (codec.decodeApp parsed.plaintext).map fun msg => (msg, parsed.auth.srcNode)
      else none

def copyHeard (dst : UInt8) (net : CopyNet) (i : ℕ) (f : Copy) (r : UInt8)
    (got : NonceCache × Option Bytes) (handed : Option (AppMsg × UInt8)) : CopyNet where
  caches := Function.update net.caches r got.1
  copies := net.copies.set i { f with pending := f.pending.erase r } ++
    got.2.toList.map fun raw =>
      { sender := r, raw := raw, path := f.path.map (r :: ·), pending := (mesh.radio r).dedup }
  handed := net.handed ++ if r = dst ∧ handed.isSome then f.path.toList else []

def copyStep (dst : UInt8) (net : CopyNet) : RelayEvent → Option CopyNet
  | .hear i r now draw =>
    match net.copies[i]? with
    | none => none
    | some f =>
      if r ∈ f.pending then
        some (mesh.copyHeard dst net i f r (mesh.receive fleet r (net.caches r) f.raw now draw)
          (handOver codec fleet r (net.caches r) f.raw now))
      else none
  | .other s raw =>
    some { net with copies := net.copies ++ [⟨s, raw, none, (mesh.radio s).dedup⟩] }

def originate (origin : UInt8) (raw : Bytes) : CopyNet where
  caches _ := .new
  copies := [⟨origin, raw, some [origin], (mesh.radio origin).dedup⟩]
  handed := []

/-- A path that the message can come along when every node on it relays it. -/
inductive Chain (origin dst : UInt8) : List UInt8 → Prop
  | sent : Chain origin dst [origin]
  | relay : Chain origin dst (s :: rest) → r ∈ mesh.radio s → r ≠ s → r ≠ dst →
      (mesh.routeTo r dst).isSome → Chain origin dst (r :: s :: rest)

/-- A path from whose end the destination hears the message. -/
def Delivers (origin dst : UInt8) : List UInt8 → Prop
  | [] => False
  | s :: rest => mesh.Chain origin dst (s :: rest) ∧ dst ∈ mesh.radio s ∧ s ≠ dst

theorem handOver_frame (t : Sending) :
    handOver codec fleet n cache (fleet.frame t) now =
      if t.src ≠ n ∧ cache.accepts (t.check now) ∧ (t.dst = n ∨ t.dst = broadcast) ∧
          t.msg.kind = .data then
        (codec.decodeApp t.msg.payload).map fun msg => (msg, t.src)
      else none := by
  have hlocal : (fleet.parsed t).deliverLocal n ↔ t.dst = n ∨ t.dst = broadcast := by
    rw [ParsedFrame.deliverLocal, Bool.or_eq_true, decide_eq_true_iff, decide_eq_true_iff]
    rfl
  rw [handOver]
  by_cases hsrc : t.src = n
  · have hnot : ¬ (t.src ≠ n ∧ cache.accepts (t.check now) ∧ (t.dst = n ∨ t.dst = broadcast) ∧
        t.msg.kind = .data) := fun h => h.1 hsrc
    rw [if_neg hnot]
    exact if_pos ((ownFrame_frame fleet t).2 hsrc)
  · rw [if_neg fun h => hsrc ((ownFrame_frame fleet t).1 h)]
    by_cases hacc : cache.accepts (t.check now)
    · rw [fleet.parse_of_accepts hacc]
      simp only [hlocal, ne_eq, hsrc, not_false_eq_true, hacc, true_and]
      rfl
    · obtain ⟨e, he⟩ := fleet.parse_of_rejected hacc
      have hnot : ¬ (t.src ≠ n ∧ cache.accepts (t.check now) ∧
          (t.dst = n ∨ t.dst = broadcast) ∧ t.msg.kind = .data) := fun h => hacc h.2.1
      rw [he, if_neg hnot]

end RelayMesh

namespace CopyNet

def paths (net : CopyNet) : List (List UInt8) := net.copies.filterMap Copy.path

/-- A copy with this path is there, and node `r` will not hear it again. -/
def HeardAt (net : CopyNet) (r : UInt8) (p : List UInt8) : Prop :=
  ∃ f ∈ net.copies, f.path = some p ∧ r ∉ f.pending

def NotWaiting (net : CopyNet) (n : UInt8) (i : ℕ) : Prop :=
  ∃ f, net.copies[i]? = some f ∧ n ∉ f.pending

theorem mem_paths {net : CopyNet} : p ∈ net.paths ↔ ∃ f ∈ net.copies, f.path = some p :=
  List.mem_filterMap

theorem eq_of_path {net : CopyNet} (h : net.paths.Nodup) (hf : f ∈ net.copies)
    (hg : g ∈ net.copies) (hfp : f.path = some p) (hgp : g.path = some p) : f = g := by
  by_contra hne
  have hapart : net.copies.Pairwise fun f g => ∀ p, f.path = some p → g.path ≠ some p := by
    rw [paths, List.Nodup, List.pairwise_filterMap] at h
    exact h.imp fun hfg p hfp hgp => hfg p hfp p hgp rfl
  have hsymm : Std.Symm fun f g : Copy => ∀ p, f.path = some p → g.path ≠ some p :=
    ⟨fun _ _ hfg p hgp hfp => hfg p hfp hgp⟩
  exact hapart.forall hf hg hne p hfp hgp

end CopyNet

namespace RelayMesh
variable {crypto : Crypto} {codec : Codec} {mesh : RelayMesh} {fleet : Fleet crypto}
variable {net net' : CopyNet} {origin dst : UInt8}

theorem copyStep_hear (codec : Codec) (mesh : RelayMesh) (fleet : Fleet crypto) (dst : UInt8)
    (now : ℕ) (draw : Draw) (hf : net.copies[i]? = some f) (hr : r ∈ f.pending) :
    mesh.copyStep codec fleet dst net (.hear i r now draw) =
      some (mesh.copyHeard dst net i f r (mesh.receive fleet r (net.caches r) f.raw now draw)
        (handOver codec fleet r (net.caches r) f.raw now)) := by
  simp only [copyStep, hf]
  exact if_pos hr

theorem copyStep_hear_inv
    (h : mesh.copyStep codec fleet dst net (.hear i r now draw) = some net') :
    ∃ f, net.copies[i]? = some f ∧ r ∈ f.pending ∧
      net' = mesh.copyHeard dst net i f r (mesh.receive fleet r (net.caches r) f.raw now draw)
        (handOver codec fleet r (net.caches r) f.raw now) := by
  rw [copyStep] at h
  split at h
  next => cases h
  next f hf =>
    split at h
    next hr => exact ⟨f, hf, hr, (Option.some.inj h).symm⟩
    next => cases h

theorem copyHeard_copies (hf : net.copies[i]? = some f)
    (hg : (mesh.copyHeard dst net i f r got handed).copies[j]? = some g) :
    (j = i ∧ g = { f with pending := f.pending.erase r }) ∨ (j ≠ i ∧ net.copies[j]? = some g) ∨
      (j = net.copies.length ∧ ∃ raw, got.2 = some raw ∧
        g = ⟨r, raw, f.path.map (r :: ·), (mesh.radio r).dedup⟩) := by
  rw [copyHeard] at hg
  simp only at hg
  have hi : i < net.copies.length := (List.getElem?_eq_some_iff.1 hf).1
  by_cases hj : j < net.copies.length
  · rw [List.getElem?_append_left (by rwa [List.length_set])] at hg
    by_cases hji : j = i
    · rw [hji, List.getElem?_set_self hi] at hg
      exact .inl ⟨hji, (Option.some.inj hg).symm⟩
    · rw [List.getElem?_set_ne (Ne.symm hji)] at hg
      exact .inr (.inl ⟨hji, hg⟩)
  · rw [List.getElem?_append_right (by rw [List.length_set]; omega), List.length_set] at hg
    cases hgot : got.2 with
    | none =>
      rw [hgot] at hg
      cases hg
    | some raw =>
      rw [hgot] at hg
      cases hlast : j - net.copies.length with
      | zero =>
        rw [hlast] at hg
        exact .inr (.inr ⟨by omega, raw, rfl, (Option.some.inj hg).symm⟩)
      | succ k =>
        rw [hlast] at hg
        cases hg

theorem copyHeard_handed : (mesh.copyHeard dst net i f r got handed).handed =
    net.handed ++ if r = dst ∧ handed.isSome then f.path.toList else [] := rfl

theorem copyHeard_paths (hf : net.copies[i]? = some f) :
    (mesh.copyHeard dst net i f r got handed).paths =
      net.paths ++ if got.2.isSome then (f.path.map (r :: ·)).toList else [] := by
  obtain ⟨hi, -⟩ := List.getElem?_eq_some_iff.1 hf
  have hset : (net.copies.set i { f with pending := f.pending.erase r }).map Copy.path =
      net.copies.map Copy.path := by
    rw [List.map_set]
    apply List.ext_getElem?
    intro j
    by_cases hij : i = j
    · rw [← hij, List.getElem?_set_self (by rwa [List.length_map]), List.getElem?_map, hf]
      rfl
    · rw [List.getElem?_set_ne hij]
  rw [CopyNet.paths, CopyNet.paths, copyHeard, List.filterMap_append]
  congr 1
  · calc (net.copies.set i { f with pending := f.pending.erase r }).filterMap Copy.path
        = ((net.copies.set i { f with pending := f.pending.erase r }).map
            Copy.path).filterMap id := by
          rw [List.filterMap_map]
          rfl
      _ = (net.copies.map Copy.path).filterMap id := by rw [hset]
      _ = net.copies.filterMap Copy.path := List.filterMap_map
  · cases got.2 with
    | none => rfl
    | some raw => cases f.path <;> rfl

theorem copyHeard_self (hf : net.copies[i]? = some f) :
    (mesh.copyHeard dst net i f r got handed).copies[i]? =
      some { f with pending := f.pending.erase r } := by
  obtain ⟨hlt, -⟩ := List.getElem?_eq_some_iff.1 hf
  rw [copyHeard, List.getElem?_append_left (by rwa [List.length_set])]
  exact List.getElem?_set_self hlt

theorem copyHeard_kept (hg : net.copies[j]? = some g) (hne : i ≠ j) :
    (mesh.copyHeard dst net i f r got handed).copies[j]? = some g := by
  obtain ⟨hlt, -⟩ := List.getElem?_eq_some_iff.1 hg
  rw [copyHeard, List.getElem?_append_left (by rwa [List.length_set]), List.getElem?_set_ne hne]
  exact hg

theorem HeardAt.copyHeard (h : net.HeardAt n p) (hf : net.copies[i]? = some f) :
    (mesh.copyHeard dst net i f r got handed).HeardAt n p := by
  obtain ⟨g, hg, hgp, hn⟩ := h
  obtain ⟨j, hj⟩ := List.getElem?_of_mem hg
  by_cases hij : i = j
  · subst hij
    cases hf.symm.trans hj
    exact ⟨_, List.mem_of_getElem? (copyHeard_self hf), hgp, fun h => hn (List.mem_of_mem_erase h)⟩
  · exact ⟨g, List.mem_of_getElem? (copyHeard_kept hj hij), hgp, hn⟩

theorem heardAt_copyHeard (hf : net.copies[i]? = some f) (hp : f.path = some p)
    (hnodup : f.pending.Nodup) : (mesh.copyHeard dst net i f r got handed).HeardAt r p :=
  ⟨_, List.mem_of_getElem? (copyHeard_self hf), hp, hnodup.not_mem_erase⟩

variable (mesh) (fleet)

structure Traced (origin dst : UInt8) (f : Copy) : Prop where
  carried : ∀ p, f.path = some p →
    (∃ t : Sending, f.raw = fleet.frame t ∧ t.src = f.sender ∧ t.dst = dst) ∧
      mesh.Chain origin dst p ∧ ∃ rest, p = f.sender :: rest
  pending : f.pending.Nodup
  heard : ∀ r ∈ f.pending, r ∈ mesh.radio f.sender

/-- No two copies came the same way, and none was handed over twice. -/
structure TracedNet (origin dst : UInt8) (net : CopyNet) : Prop where
  copies : ∀ f ∈ net.copies, mesh.Traced fleet origin dst f
  paths : net.paths.Nodup
  parents : ∀ r s rest, r :: s :: rest ∈ net.paths → net.HeardAt r (s :: rest)
  once : net.handed.Nodup
  delivered : ∀ p ∈ net.handed, mesh.Delivers origin dst p ∧ net.HeardAt dst p

variable {mesh} {fleet}

theorem Traced.relay (hdst : dst ≠ broadcast) (hf : mesh.Traced fleet origin dst f)
    (hr : r ∈ f.pending) (hraw : (mesh.receive fleet r cache f.raw now draw).2 = some raw) :
    mesh.Traced fleet origin dst ⟨r, raw, f.path.map (r :: ·), (mesh.radio r).dedup⟩ := by
  refine ⟨fun p hp => ?_, List.nodup_dedup _, fun n hn => List.mem_dedup.1 hn⟩
  obtain ⟨q, hq, rfl⟩ := Option.map_eq_some_iff.1 hp
  obtain ⟨⟨t, ht, hsrc, htdst⟩, hchain, rest, rfl⟩ := hf.carried q hq
  rw [ht, receive_unicast mesh fleet (htdst ▸ hdst)] at hraw
  obtain ⟨⟨hother, -⟩, hne, e, he, rfl⟩ := hraw
  rw [htdst] at hne he
  have hsender : r ≠ f.sender := fun h => hother (hsrc.trans h.symm)
  have hrelay := hchain.relay (hf.heard r hr) hsender hne.symm (Option.isSome_of_eq_some he)
  exact ⟨⟨_, rfl, rfl, htdst⟩, hrelay, _, rfl⟩

theorem Traced.delivers (hf : mesh.Traced fleet origin dst f) (hp : f.path = some p)
    (hr : dst ∈ f.pending) (h : (handOver codec fleet dst cache f.raw now).isSome) :
    mesh.Delivers origin dst p := by
  obtain ⟨⟨t, ht, hsrc, -⟩, hchain, rest, rfl⟩ := hf.carried p hp
  rw [ht, handOver_frame] at h
  split at h
  next hcond => exact ⟨hchain, hf.heard dst hr, hsrc ▸ hcond.1⟩
  next => cases h

theorem TracedNet.not_heardAt (h : mesh.TracedNet fleet origin dst net) (hf : f ∈ net.copies)
    (hp : f.path = some p) (hr : r ∈ f.pending) : ¬ net.HeardAt r p := by
  rintro ⟨g, hg, hgp, hn⟩
  rw [CopyNet.eq_of_path h.paths hf hg hp hgp] at hr
  exact hn hr

theorem TracedNet.fresh (h : mesh.TracedNet fleet origin dst net) (hf : f ∈ net.copies)
    (hp : f.path = some p) (hr : r ∈ f.pending) : r :: p ∉ net.paths := by
  intro hmem
  obtain ⟨-, -, rest, rfl⟩ := (h.copies f hf).carried p hp
  exact h.not_heardAt hf hp hr (h.parents _ _ _ hmem)

theorem TracedNet.paths_copyHeard (h : mesh.TracedNet fleet origin dst net)
    (hf : net.copies[i]? = some f) (hr : r ∈ f.pending) :
    (mesh.copyHeard dst net i f r got handed).paths.Nodup := by
  rw [copyHeard_paths hf]
  split
  next =>
    cases hp : f.path with
    | none =>
      rw [Option.map_none, Option.toList_none, List.append_nil]
      exact h.paths
    | some p =>
      have hnew := h.fresh (List.mem_of_getElem? hf) hp hr
      rw [Option.map_some, Option.toList_some]
      exact h.paths.append (List.nodup_singleton _) (List.disjoint_singleton.2 hnew)
  next =>
    rw [List.append_nil]
    exact h.paths

theorem TracedNet.parents_copyHeard (h : mesh.TracedNet fleet origin dst net)
    (hf : net.copies[i]? = some f)
    (hmem : n :: s :: rest ∈ (mesh.copyHeard dst net i f r got handed).paths) :
    (mesh.copyHeard dst net i f r got handed).HeardAt n (s :: rest) := by
  rw [copyHeard_paths hf, List.mem_append] at hmem
  rcases hmem with hmem | hmem
  · exact HeardAt.copyHeard (h.parents n s rest hmem) hf
  · split at hmem
    next =>
      obtain ⟨p, hp, hcons⟩ := Option.map_eq_some_iff.1 (Option.mem_toList.1 hmem)
      cases hcons
      exact heardAt_copyHeard hf hp (h.copies f (List.mem_of_getElem? hf)).pending
    next => cases hmem

theorem TracedNet.once_copyHeard (h : mesh.TracedNet fleet origin dst net)
    (hf : net.copies[i]? = some f) (hr : r ∈ f.pending) :
    (mesh.copyHeard dst net i f r got handed).handed.Nodup := by
  rw [copyHeard_handed]
  split
  next hto =>
    cases hp : f.path with
    | none =>
      rw [Option.toList_none, List.append_nil]
      exact h.once
    | some p =>
      rw [Option.toList_some]
      refine h.once.append (List.nodup_singleton _) (List.disjoint_singleton.2 fun hmem => ?_)
      exact h.not_heardAt (List.mem_of_getElem? hf) hp hr (hto.1 ▸ (h.delivered p hmem).2)
  next =>
    rw [List.append_nil]
    exact h.once

theorem TracedNet.hear (hdst : dst ≠ broadcast) (h : mesh.TracedNet fleet origin dst net)
    (hf : net.copies[i]? = some f) (hr : r ∈ f.pending) :
    mesh.TracedNet fleet origin dst (mesh.copyHeard dst net i f r
      (mesh.receive fleet r (net.caches r) f.raw now draw)
      (handOver codec fleet r (net.caches r) f.raw now)) := by
  have hfinv := h.copies f (List.mem_of_getElem? hf)
  constructor
  case copies =>
    intro g hg
    rcases List.mem_append.1 hg with hg | hg
    · rcases List.mem_or_eq_of_mem_set hg with hg | rfl
      · exact h.copies g hg
      · exact ⟨hfinv.carried, hfinv.pending.erase r,
          fun n hn => hfinv.heard n (List.mem_of_mem_erase hn)⟩
    · obtain ⟨raw, hraw, rfl⟩ := List.mem_map.1 hg
      exact hfinv.relay hdst hr (Option.mem_toList.1 hraw)
  case paths => exact h.paths_copyHeard hf hr
  case parents => exact fun n s rest hmem => h.parents_copyHeard hf hmem
  case once => exact h.once_copyHeard hf hr
  case delivered =>
    intro p hp
    rw [copyHeard_handed, List.mem_append] at hp
    rcases hp with hp | hp
    · exact ⟨(h.delivered p hp).1, HeardAt.copyHeard (h.delivered p hp).2 hf⟩
    · split at hp
      next hto =>
        obtain ⟨rfl, hsome⟩ := hto
        have hfp := Option.mem_toList.1 hp
        exact ⟨hfinv.delivers hfp hr hsome, heardAt_copyHeard hf hfp hfinv.pending⟩
      next => cases hp

theorem TracedNet.step (hdst : dst ≠ broadcast) (h : mesh.TracedNet fleet origin dst net)
    (hstep : mesh.copyStep codec fleet dst net e = some net') :
    mesh.TracedNet fleet origin dst net' := by
  cases e with
  | hear i r now draw =>
    obtain ⟨f, hf, hr, rfl⟩ := copyStep_hear_inv hstep
    exact h.hear hdst hf hr
  | other s raw =>
    cases hstep
    have hpaths : CopyNet.paths { net with copies := net.copies ++
        [⟨s, raw, none, (mesh.radio s).dedup⟩] } = net.paths := by
      rw [CopyNet.paths, List.filterMap_append, CopyNet.paths]
      exact List.append_nil _
    have hkept (n p) (hheard : net.HeardAt n p) : CopyNet.HeardAt { net with copies :=
        net.copies ++ [⟨s, raw, none, (mesh.radio s).dedup⟩] } n p := by
      obtain ⟨f, hf, hfp⟩ := hheard
      exact ⟨f, List.mem_append_left _ hf, hfp⟩
    constructor
    case copies =>
      intro f hf
      rcases List.mem_append.1 hf with hf | hf
      · exact h.copies f hf
      · rw [List.mem_singleton.1 hf]
        exact ⟨nofun, List.nodup_dedup _, fun n hn => List.mem_dedup.1 hn⟩
    case paths =>
      rw [hpaths]
      exact h.paths
    case parents =>
      intro n s rest hmem
      rw [hpaths] at hmem
      exact hkept n _ (h.parents n s rest hmem)
    case once => exact h.once
    case delivered =>
      exact fun p hp => ⟨(h.delivered p hp).1, hkept dst p (h.delivered p hp).2⟩

theorem tracedNet_originate (msg : TacticalMessage) (prio : Priority) (nextHop : UInt8)
    (draw : Draw) :
    mesh.TracedNet fleet origin dst (mesh.originate origin
      (crypto.buildFrameForRoute msg prio dst (fleet.identity origin) nextHop draw)) where
  copies f hf := by
    rw [List.mem_singleton.1 hf]
    refine ⟨fun p hp => ?_, List.nodup_dedup _, fun n hn => List.mem_dedup.1 hn⟩
    cases hp
    exact ⟨⟨⟨origin, msg, prio, dst, nextHop, 0, draw⟩, rfl, rfl, rfl⟩, .sent, [], rfl⟩
  paths := List.nodup_singleton _
  parents r s rest hmem := by
    cases List.mem_singleton.1 hmem
  once := List.nodup_nil
  delivered p hp := by cases hp

/-- The message is handed over at most once for every path that delivers it. -/
theorem handed_of_leadsTo (hdst : dst ≠ broadcast)
    (hrun : LeadsTo (mesh.copyStep codec fleet dst) (mesh.originate origin
      (crypto.buildFrameForRoute msg prio dst (fleet.identity origin) nextHop draw)) net) :
    net.handed.Nodup ∧ ∀ p ∈ net.handed, mesh.Delivers origin dst p := by
  have hinv : mesh.TracedNet fleet origin dst net :=
    hrun.invariant (tracedNet_originate msg prio nextHop draw)
      fun _ _ _ hnet hstep => hnet.step hdst hstep
  exact ⟨hinv.once, fun p hp => (hinv.delivered p hp).1⟩

end RelayMesh
end TacticalMesh
