import Mathlib.Data.List.Duplicate
import TacticalMesh.Payloads
import TacticalMesh.UnicastCopies

namespace TacticalMesh
set_option autoImplicit true

theorem exists_split_of_duplicate (h : List.Duplicate x l) :
    ∃ a b c, l = a ++ x :: (b ++ x :: c) := by
  induction h with
  | cons_mem hmem =>
    obtain ⟨b, c, rfl⟩ := List.append_of_mem hmem
    exact ⟨[], b, c, rfl⟩
  | @cons_duplicate y l _ ih =>
    obtain ⟨a, b, c, rfl⟩ := ih
    exact ⟨y :: a, b, c, rfl⟩

namespace RelayMesh
variable {crypto : Crypto} {codec : Codec} {mesh : RelayMesh} {fleet : Fleet crypto}
variable {net net' : CopyNet} {origin dst : UInt8} {i : ℕ} {f : Copy}

theorem Chain.of_cons (h : mesh.Chain origin dst (y :: x :: a)) :
    mesh.Chain origin dst (x :: a) ∧
      ∀ c, mesh.Chain origin dst (x :: c) → mesh.Chain origin dst (y :: x :: c) := by
  cases h with
  | relay hs hr hne hdst hroute => exact ⟨hs, fun c hc => hc.relay hr hne hdst hroute⟩

theorem Chain.suffix (h : mesh.Chain origin dst (a ++ x :: b)) :
    mesh.Chain origin dst (x :: b) := by
  induction a with
  | nil => exact h
  | cons y a ih =>
    cases a with
    | nil => exact h.of_cons.1
    | cons z a => exact ih h.of_cons.1

theorem Chain.cut (h : mesh.Chain origin dst (a ++ x :: b))
    (hc : mesh.Chain origin dst (x :: c)) : mesh.Chain origin dst (a ++ x :: c) := by
  induction a with
  | nil => exact hc
  | cons y a ih =>
    cases a with
    | nil => exact h.of_cons.2 c hc
    | cons z a => exact h.of_cons.2 _ (ih h.of_cons.1)

/-- A long path goes through some node twice, and the message can also come without the loop. -/
theorem Delivers.shorter (h : mesh.Delivers origin dst p) (hlen : 256 < p.length) :
    ∃ q, mesh.Delivers origin dst q ∧ q.length < p.length ∧ p.length ≤ q.length + 256 := by
  have hdup : ¬ (p.take 257).Nodup := by
    intro hnodup
    have hcard := hnodup.length_le_card
    rw [List.length_take, card_uint8] at hcard
    omega
  obtain ⟨x, hx⟩ := List.exists_duplicate_iff_not_nodup.2 hdup
  obtain ⟨a, b, c, habc⟩ := exists_split_of_duplicate hx
  have htake : (p.take 257).length ≤ 257 := List.length_take_le ..
  rw [habc, List.length_append, List.length_cons, List.length_append, List.length_cons] at htake
  have hp : p = a ++ x :: (b ++ x :: (c ++ p.drop 257)) := by
    calc p = p.take 257 ++ p.drop 257 := (List.take_append_drop ..).symm
      _ = _ := by
        rw [habc]
        simp only [List.append_assoc, List.cons_append]
  generalize p.drop 257 = d at hp
  refine ⟨a ++ x :: (c ++ d), ?_, ?_, ?_⟩
  · cases a with
    | nil =>
      subst hp
      obtain ⟨hchain, hhears⟩ := h
      have hloop : mesh.Chain origin dst (x :: (c ++ d)) :=
        Chain.suffix (a := x :: b) hchain
      exact ⟨hloop, hhears⟩
    | cons y a =>
      subst hp
      obtain ⟨hchain, hhears⟩ := h
      have hloop : mesh.Chain origin dst (x :: (c ++ d)) :=
        Chain.suffix (a := y :: a ++ x :: b) (by simpa using hchain)
      exact ⟨Chain.cut (a := y :: a) hchain hloop, hhears⟩
  · rw [hp]
    simp only [List.length_append, List.length_cons]
    omega
  · rw [hp]
    simp only [List.length_append, List.length_cons]
    omega

theorem Delivers.exists_short (h : mesh.Delivers origin dst p) :
    ∃ q, mesh.Delivers origin dst q ∧ q.length ≤ 256 := by
  induction hn : p.length using Nat.strong_induction_on generalizing p with
  | _ n ih =>
    by_cases hlen : p.length ≤ 256
    · exact ⟨p, h, hlen⟩
    · obtain ⟨q, hq, hlt, -⟩ := h.shorter (Nat.not_le.1 hlen)
      exact ih q.length (hn ▸ hlt) hq rfl

theorem Delivers.exists_other (h : mesh.Delivers origin dst q) (hp : p.length ≤ 256)
    (hne : q ≠ p) : ∃ q', mesh.Delivers origin dst q' ∧ q' ≠ p ∧ q'.length ≤ 512 := by
  induction hn : q.length using Nat.strong_induction_on generalizing q with
  | _ n ih =>
    by_cases hlen : q.length ≤ 512
    · exact ⟨q, h, hne, hlen⟩
    · obtain ⟨q', hq', hlt, hle⟩ := h.shorter (by omega)
      have hlong : q' ≠ p := by
        rintro rfl
        omega
      exact ih q'.length (hn ▸ hlt) hq' hlong rfl

variable (fleet) in
/-- The copies are stamped with their numbers, and who waits for one has not seen its stamp. -/
structure Stamped (msg : TacticalMessage) (dst : UInt8) (net : CopyNet) : Prop where
  sent : ∀ j f, net.copies[j]? = some f → ∃ t : Sending, f.raw = fleet.frame t ∧
    t.src = f.sender ∧ t.msg = msg ∧ t.dst = dst ∧ t.draw = .atMs j
  seen : ∀ n key, (net.caches n).seen key ≠ none → net.NotWaiting n key.2.1

theorem Stamped.accepts (h : Stamped fleet msg dst net) (hf : net.copies[i]? = some f)
    (hr : r ∈ f.pending) (hlen : net.copies.length ≤ timeWindowMs) {t : Sending}
    (ht : t.draw = .atMs i) : (net.caches r).accepts (t.check net.copies.length) := by
  obtain ⟨hi, -⟩ := List.getElem?_eq_some_iff.1 hf
  have hstamp : (t.check net.copies.length).key.2.1 = i :=
    Sending.check_atMs ht ((hi.trans_le hlen).trans (by decide))
  rw [NonceCache.accepts_iff]
  constructor
  · rw [NonceCache.Check.inWindow, hstamp, NonceCache.absDiff]
    exact (Nat.sub_le _ _).trans (max_le hlen (hi.le.trans hlen))
  · by_contra hseen
    obtain ⟨g, hg, hnot⟩ := h.seen r _ hseen
    rw [hstamp, hf] at hg
    cases hg
    exact hnot hr

theorem Stamped.receive (h : Stamped fleet msg dst net) (hdst : dst ≠ broadcast)
    (hf : net.copies[i]? = some f) (hr : r ∈ f.pending) (hne : r ≠ f.sender) (hrdst : r ≠ dst)
    (hroute : (mesh.routeTo r dst).isSome) (hlen : net.copies.length ≤ timeWindowMs)
    (draw : Draw) :
    (mesh.receive fleet r (net.caches r) f.raw net.copies.length draw).2.isSome := by
  obtain ⟨t, ht, hsrc, -, htdst, hdraw⟩ := h.sent i f hf
  obtain ⟨e, he⟩ := Option.isSome_iff_exists.1 hroute
  have hacc := h.accepts hf hr hlen hdraw
  rw [ht, Option.isSome_iff_exists]
  exact ⟨_, (receive_unicast mesh fleet (htdst ▸ hdst)).2
    ⟨⟨hsrc ▸ hne.symm, hacc⟩, htdst ▸ hrdst.symm, e, htdst ▸ he, rfl⟩⟩

theorem Stamped.handOver (h : Stamped fleet ⟨.data, codec.encodeApp m⟩ dst net)
    (hf : net.copies[i]? = some f) (hr : dst ∈ f.pending) (hne : f.sender ≠ dst)
    (hlen : net.copies.length ≤ timeWindowMs) :
    handOver codec fleet dst (net.caches dst) f.raw net.copies.length = some (m, f.sender) := by
  obtain ⟨t, ht, hsrc, hmsg, htdst, hdraw⟩ := h.sent i f hf
  have hacc := h.accepts hf hr hlen hdraw
  have hkind : t.msg.kind = .data := by rw [hmsg]
  rw [ht, handOver_frame, if_pos ⟨hsrc ▸ hne, hacc, .inl htdst, hkind⟩, hmsg,
    codec.decode_encodeApp, hsrc]
  rfl

theorem NotWaiting.copyHeard (h : net.NotWaiting n j) (hf : net.copies[i]? = some f) :
    (mesh.copyHeard dst net i f r got handed).NotWaiting n j := by
  obtain ⟨g, hg, hn⟩ := h
  by_cases hij : i = j
  · subst hij
    cases hf.symm.trans hg
    exact ⟨_, copyHeard_self hf, fun h => hn (List.mem_of_mem_erase h)⟩
  · exact ⟨g, copyHeard_kept hg hij, hn⟩

theorem Stamped.sent_copyHeard (h : Stamped fleet msg dst net) (hdst : dst ≠ broadcast)
    (hf : net.copies[i]? = some f)
    (hgot : mesh.receive fleet r (net.caches r) f.raw now (.atMs net.copies.length) = got)
    (hg : (mesh.copyHeard dst net i f r got handed).copies[j]? = some g) :
    ∃ t : Sending, g.raw = fleet.frame t ∧ t.src = g.sender ∧ t.msg = msg ∧ t.dst = dst ∧
      t.draw = .atMs j := by
  rcases copyHeard_copies hf hg with ⟨rfl, rfl⟩ | ⟨-, hg⟩ | ⟨rfl, raw, hraw, rfl⟩
  · exact h.sent j f hf
  · exact h.sent j g hg
  · obtain ⟨t, ht, -, hmsg, htdst, -⟩ := h.sent i f hf
    rw [← hgot, ht, receive_unicast mesh fleet (htdst ▸ hdst)] at hraw
    obtain ⟨-, -, e, -, rfl⟩ := hraw
    exact ⟨_, rfl, rfl, hmsg, htdst, rfl⟩

theorem Stamped.hear (h : Stamped fleet msg dst net) (hdst : dst ≠ broadcast)
    (hf : net.copies[i]? = some f) (hnodup : f.pending.Nodup)
    (hlen : net.copies.length ≤ timeWindowMs)
    (hgot : mesh.receive fleet r (net.caches r) f.raw now (.atMs net.copies.length) = got) :
    Stamped fleet msg dst (mesh.copyHeard dst net i f r got handed) := by
  refine ⟨fun j g hg => h.sent_copyHeard hdst hf hgot hg, fun n key hkey => ?_⟩
  obtain ⟨hi, -⟩ := List.getElem?_eq_some_iff.1 hf
  obtain ⟨t, ht, -, -, -, hdraw⟩ := h.sent i f hf
  have hcaches : (mesh.copyHeard dst net i f r got handed).caches n =
      if n = r then got.1 else net.caches n := Function.update_apply ..
  rw [hcaches] at hkey
  split at hkey
  next hn =>
    subst hn
    rw [← hgot, ht, receive_frame] at hkey
    split at hkey
    next hcond =>
      obtain ⟨k, hk⟩ := Option.ne_none_iff_exists'.1 hkey
      rw [NonceCache.seen_after_accept hcond.2] at hk
      rcases hk with ⟨rfl, -⟩ | ⟨-, hseen, -⟩
      · have hstamp : (t.check now).key.2.1 = i :=
          Sending.check_atMs hdraw ((hi.trans_le hlen).trans (by decide))
        rw [hstamp]
        exact ⟨_, copyHeard_self hf, hnodup.not_mem_erase⟩
      · apply NotWaiting.copyHeard (h.seen n key ?_) hf
        rw [hseen]
        exact Option.some_ne_none k
    next => exact NotWaiting.copyHeard (h.seen n key hkey) hf
  next => exact NotWaiting.copyHeard (h.seen n key hkey) hf

/-- A net in which nodes other than the destination have heard copies, and have relayed them. -/
structure Ready (codec : Codec) (mesh : RelayMesh) (fleet : Fleet crypto) (m : AppMsg)
    (origin dst : UInt8) (net : CopyNet) : Prop where
  traced : mesh.TracedNet fleet origin dst net
  stamped : Stamped fleet ⟨.data, codec.encodeApp m⟩ dst net
  started : [origin] ∈ net.paths
  relayed : ∀ f ∈ net.copies, ∀ p, f.path = some p → ∀ r ∈ mesh.radio f.sender,
    r ∈ f.pending ∨ r ≠ dst ∧ r :: p ∈ net.paths
  quiet : net.handed = []

theorem Ready.relayed_copyHeard (h : Ready codec mesh fleet m origin dst net)
    (hf : net.copies[i]? = some f) (hp : f.path = some p) (hrdst : r ≠ dst)
    (hpaths : (mesh.copyHeard dst net i f r got handed).paths = net.paths ++ [r :: p])
    (hg : g ∈ (mesh.copyHeard dst net i f r got handed).copies) (hq : g.path = some q)
    (hn : n ∈ mesh.radio g.sender) :
    n ∈ g.pending ∨ n ≠ dst ∧ n :: q ∈ (mesh.copyHeard dst net i f r got handed).paths := by
  obtain ⟨j, hj⟩ := List.getElem?_of_mem hg
  rw [hpaths]
  rcases copyHeard_copies hf hj with ⟨-, rfl⟩ | ⟨-, hg⟩ | ⟨-, raw, -, rfl⟩
  · by_cases hnr : n = r
    · subst hnr
      cases hp.symm.trans hq
      exact .inr ⟨hrdst, List.mem_append_right _ (List.mem_singleton.2 rfl)⟩
    · rcases h.relayed f (List.mem_of_getElem? hf) q hq n hn with hpend | ⟨hndst, hmem⟩
      · exact .inl ((List.mem_erase_of_ne hnr).2 hpend)
      · exact .inr ⟨hndst, List.mem_append_left _ hmem⟩
  · rcases h.relayed g (List.mem_of_getElem? hg) q hq n hn with hpend | ⟨hndst, hmem⟩
    · exact .inl hpend
    · exact .inr ⟨hndst, List.mem_append_left _ hmem⟩
  · exact .inl (List.mem_dedup.2 hn)

theorem Ready.relay (h : Ready codec mesh fleet m origin dst net) (hdst : dst ≠ broadcast)
    (hf : net.copies[i]? = some f) (hp : f.path = some p) (hr : r ∈ f.pending)
    (hne : r ≠ f.sender) (hrdst : r ≠ dst) (hroute : (mesh.routeTo r dst).isSome)
    (hlen : net.copies.length ≤ timeWindowMs) :
    ∃ net', LeadsTo (mesh.copyStep codec fleet dst) net net' ∧
      Ready codec mesh fleet m origin dst net' ∧ net'.paths = net.paths ++ [r :: p] ∧
      net'.copies.length = net.copies.length + 1 := by
  have hnodup := (h.traced.copies f (List.mem_of_getElem? hf)).pending
  have hsome := h.stamped.receive hdst hf hr hne hrdst hroute hlen (.atMs net.copies.length)
  have hstep := copyStep_hear codec mesh fleet dst net.copies.length (.atMs net.copies.length) hf hr
  have htraced := h.traced.step hdst hstep
  generalize hgot : mesh.receive fleet r (net.caches r) f.raw net.copies.length
    (.atMs net.copies.length) = got at hsome hstep htraced
  have hpaths (handed) :
      (mesh.copyHeard dst net i f r got handed).paths = net.paths ++ [r :: p] := by
    rw [copyHeard_paths hf, if_pos hsome, hp]
    rfl
  refine ⟨_, (LeadsTo.refl _ net).tail hstep, ?_, hpaths _, ?_⟩
  · constructor
    case traced => exact htraced
    case stamped => exact h.stamped.hear hdst hf hnodup hlen hgot
    case started =>
      rw [hpaths]
      exact List.mem_append_left _ h.started
    case relayed => exact fun g hg q hq n hn => h.relayed_copyHeard hf hp hrdst (hpaths _) hg hq hn
    case quiet =>
      rw [copyHeard_handed, if_neg fun hto => hrdst hto.1, h.quiet]
      rfl
  · obtain ⟨raw, hraw⟩ := Option.isSome_iff_exists.1 hsome
    rw [copyHeard, hraw, List.length_append, List.length_set]
    rfl

theorem Chain.relayed (h : mesh.Chain origin dst p) (hdst : dst ≠ broadcast)
    (hready : Ready codec mesh fleet m origin dst net)
    (hlen : net.copies.length + p.length ≤ timeWindowMs) :
    ∃ net', LeadsTo (mesh.copyStep codec fleet dst) net net' ∧
      Ready codec mesh fleet m origin dst net' ∧ net.paths ⊆ net'.paths ∧ p ∈ net'.paths ∧
      net'.copies.length ≤ net.copies.length + p.length := by
  induction h with
  | sent => exact ⟨net, .refl _ _, hready, List.Subset.refl _, hready.started, Nat.le_add_right _ _⟩
  | @relay s rest r _ hr hne hrdst hroute ih =>
    rw [List.length_cons] at hlen ⊢
    obtain ⟨net₁, hrun, hready₁, hsub, hmem, hle⟩ := ih (by omega)
    obtain ⟨f, hf, hp⟩ := CopyNet.mem_paths.1 hmem
    obtain ⟨-, -, rest', hcons⟩ := (hready₁.traced.copies f hf).carried _ hp
    cases hcons
    rcases hready₁.relayed f hf _ hp r hr with hpend | ⟨-, hdone⟩
    · obtain ⟨i, hi⟩ := List.getElem?_of_mem hf
      obtain ⟨net₂, hrun₂, hready₂, hpaths, hcount⟩ :=
        hready₁.relay hdst hi hp hpend hne hrdst hroute (by omega)
      refine ⟨net₂, hrun.trans hrun₂, hready₂, ?_, ?_, by omega⟩
      · rw [hpaths]
        exact List.Subset.trans hsub (List.subset_append_left _ _)
      · rw [hpaths]
        exact List.mem_append_right _ (List.mem_singleton.2 rfl)
    · exact ⟨net₁, hrun, hready₁, hsub, hdone, by omega⟩

theorem ready_originate (prio : Priority) (nextHop : UInt8) :
    Ready codec mesh fleet m origin dst (mesh.originate origin (crypto.buildFrameForRoute
      ⟨.data, codec.encodeApp m⟩ prio dst (fleet.identity origin) nextHop (.atMs 0))) where
  traced := tracedNet_originate _ prio nextHop _
  stamped := by
    constructor
    case sent =>
      intro j f hf
      cases j with
      | zero =>
        cases hf
        exact ⟨⟨origin, _, prio, dst, nextHop, 0, .atMs 0⟩, rfl, rfl, rfl, rfl, rfl⟩
      | succ j => cases hf
    case seen => exact fun n key hkey => absurd rfl hkey
  started := List.mem_singleton.2 rfl
  relayed f hf p hp r hr := by
    rw [List.mem_singleton.1 hf] at hr ⊢
    exact .inl (List.mem_dedup.2 hr)
  quiet := rfl

theorem Ready.waiting (h : Ready codec mesh fleet m origin dst net) (hp : p ∈ net.paths)
    (hpd : mesh.Delivers origin dst p) :
    ∃ (i : ℕ) (f : Copy), net.copies[i]? = some f ∧ f.path = some p ∧ dst ∈ f.pending ∧
      f.sender ≠ dst := by
  obtain ⟨f, hf, hfp⟩ := CopyNet.mem_paths.1 hp
  obtain ⟨i, hi⟩ := List.getElem?_of_mem hf
  obtain ⟨-, -, rest, rfl⟩ := (h.traced.copies f hf).carried p hfp
  obtain ⟨-, hhears, hne⟩ := hpd
  rcases h.relayed f hf _ hfp dst hhears with hpend | ⟨hself, -⟩
  · exact ⟨i, f, hi, hfp, hpend, hne⟩
  · exact absurd rfl hself

theorem Stamped.hand (h : Stamped fleet ⟨.data, codec.encodeApp m⟩ dst net)
    (hdst : dst ≠ broadcast) (hf : net.copies[i]? = some f) (hp : f.path = some p)
    (hnodup : f.pending.Nodup) (hpend : dst ∈ f.pending) (hne : f.sender ≠ dst)
    (hlen : net.copies.length ≤ timeWindowMs) :
    ∃ net', LeadsTo (mesh.copyStep codec fleet dst) net net' ∧
      Stamped fleet ⟨.data, codec.encodeApp m⟩ dst net' ∧ net'.handed = net.handed ++ [p] ∧
      net'.copies.length ≤ net.copies.length + 1 ∧
      ∀ j g, i ≠ j → net.copies[j]? = some g → net'.copies[j]? = some g := by
  have hstep := copyStep_hear codec mesh fleet dst net.copies.length (.atMs net.copies.length) hf
    hpend
  rw [h.handOver hf hpend hne hlen] at hstep
  generalize hgot : mesh.receive fleet dst (net.caches dst) f.raw net.copies.length
    (.atMs net.copies.length) = got at hstep
  refine ⟨_, (LeadsTo.refl _ net).tail hstep, h.hear hdst hf hnodup hlen hgot, ?_, ?_, ?_⟩
  · rw [copyHeard_handed, if_pos ⟨rfl, rfl⟩, hp]
    rfl
  · have hone : got.2.toList.length ≤ 1 := by cases got.2 <;> simp
    rw [copyHeard, List.length_append, List.length_set, List.length_map]
    omega
  · exact fun j g hij hg => copyHeard_kept hg hij

theorem Ready.handed_twice (h : Ready codec mesh fleet m origin dst net) (hdst : dst ≠ broadcast)
    (hp : p ∈ net.paths) (hq : q ∈ net.paths) (hpd : mesh.Delivers origin dst p)
    (hqd : mesh.Delivers origin dst q) (hne : p ≠ q) (hlen : net.copies.length < timeWindowMs) :
    ∃ net', LeadsTo (mesh.copyStep codec fleet dst) net net' ∧ net'.handed = [p, q] := by
  obtain ⟨i, f, hf, hfp, hfpend, hfne⟩ := h.waiting hp hpd
  obtain ⟨j, g, hg, hgq, hgpend, hgne⟩ := h.waiting hq hqd
  have hij : i ≠ j := by
    rintro rfl
    cases hf.symm.trans hg
    exact hne (Option.some.inj (hfp.symm.trans hgq))
  have hfnodup := (h.traced.copies f (List.mem_of_getElem? hf)).pending
  have hgnodup := (h.traced.copies g (List.mem_of_getElem? hg)).pending
  obtain ⟨net₁, hrun₁, hstamped, hhanded₁, hlen₁, hkept⟩ :=
    h.stamped.hand hdst hf hfp hfnodup hfpend hfne hlen.le
  obtain ⟨net₂, hrun₂, -, hhanded₂, -, -⟩ :=
    hstamped.hand hdst (hkept j g hij hg) hgq hgnodup hgpend hgne (by omega)
  refine ⟨net₂, hrun₁.trans hrun₂, ?_⟩
  rw [hhanded₂, hhanded₁, h.quiet]
  rfl

/-- Two ways to the destination that are not too long make it hand the message over twice. -/
theorem handed_twice (codec : Codec) (fleet : Fleet crypto) (m : AppMsg) (prio : Priority)
    (nextHop : UInt8) (hdst : dst ≠ broadcast) (hp : mesh.Delivers origin dst p)
    (hq : mesh.Delivers origin dst q) (hne : p ≠ q)
    (hlen : p.length + q.length + 1 < timeWindowMs) :
    ∃ net, LeadsTo (mesh.copyStep codec fleet dst) (mesh.originate origin
      (crypto.buildFrameForRoute ⟨.data, codec.encodeApp m⟩ prio dst (fleet.identity origin)
        nextHop (.atMs 0))) net ∧ net.handed = [p, q] := by
  have hchain {l} (h : mesh.Delivers origin dst l) : mesh.Chain origin dst l := by
    cases l with
    | nil => exact h.elim
    | cons s rest => exact h.1
  let net₀ := mesh.originate origin (crypto.buildFrameForRoute ⟨.data, codec.encodeApp m⟩ prio
    dst (fleet.identity origin) nextHop (.atMs 0))
  have hstart : Ready codec mesh fleet m origin dst net₀ := ready_originate prio nextHop
  have hone : net₀.copies.length = 1 := rfl
  obtain ⟨net₁, hrun₁, hready₁, -, hp₁, hle₁⟩ := (hchain hp).relayed hdst hstart (by omega)
  obtain ⟨net₂, hrun₂, hready₂, hsub, hq₂, hle₂⟩ := (hchain hq).relayed hdst hready₁ (by omega)
  obtain ⟨net₃, hrun₃, hhanded⟩ :=
    hready₂.handed_twice hdst (hsub hp₁) hq₂ hp hq hne (by omega)
  exact ⟨net₃, (hrun₁.trans hrun₂).trans hrun₃, hhanded⟩

/-- A unicast message is handed over at most once in any run, exactly when there is only one
way along which it can come to its destination. -/
theorem delivered_once_iff (codec : Codec) (fleet : Fleet crypto) (mesh : RelayMesh)
    (origin dst nextHop : UInt8) (m : AppMsg) (prio : Priority) (hdst : dst ≠ broadcast) :
    (∀ draw net, LeadsTo (mesh.copyStep codec fleet dst) (mesh.originate origin
        (crypto.buildFrameForRoute ⟨.data, codec.encodeApp m⟩ prio dst (fleet.identity origin)
          nextHop draw)) net → net.handed.length ≤ 1) ↔
      ∀ p q, mesh.Delivers origin dst p → mesh.Delivers origin dst q → p = q := by
  constructor
  · intro h p q hp hq
    by_contra hne
    obtain ⟨p₀, hp₀, hshort⟩ := hp.exists_short
    obtain ⟨q₀, hq₀, hne₀, hlen⟩ : ∃ q₀, mesh.Delivers origin dst q₀ ∧ q₀ ≠ p₀ ∧
        q₀.length ≤ 512 := by
      by_cases hpp : p = p₀
      · exact hq.exists_other hshort fun hqp => hne (hpp.trans hqp.symm)
      · exact hp.exists_other hshort hpp
    have hwindow : p₀.length + q₀.length + 1 < timeWindowMs := by
      rw [timeWindowMs]
      omega
    obtain ⟨net, hrun, hhanded⟩ :=
      handed_twice codec fleet m prio nextHop hdst hp₀ hq₀ hne₀.symm hwindow
    have hle := h _ net hrun
    rw [hhanded] at hle
    exact absurd hle (by simp)
  · intro h draw net hrun
    obtain ⟨hnodup, hall⟩ := handed_of_leadsTo hdst hrun
    cases hl : net.handed with
    | nil => exact Nat.zero_le _
    | cons p rest =>
      cases rest with
      | nil => exact le_refl _
      | cons q rest =>
        rw [hl] at hnodup hall
        have hpq := h p q (hall p List.mem_cons_self)
          (hall q (List.mem_cons_of_mem _ List.mem_cons_self))
        rw [hpq] at hnodup
        exact absurd List.mem_cons_self (List.nodup_cons.1 hnodup).1

/-- Three nodes that hear each other, two of which have a route to the third. -/
def triangle : RelayMesh where
  radio n := if n = 1 then [2, 3] else if n = 2 then [1, 3] else if n = 3 then [1, 2] else []
  routeTo n dst := if dst = 3 ∧ (n = 1 ∨ n = 2) then some ⟨3, 3, 100, 1⟩ else none

def triangleStart (draw : Draw) : CopyNet :=
  triangle.originate 1 (Crypto.toy.buildFrameForRoute
    ⟨.data, Codec.bincode.encodeApp (.requestImage ⟨7, 1⟩)⟩ .high 3 (Crypto.toyFleet.identity 1) 3
    draw)

theorem triangle_delivered_once_iff :
    (3 : UInt8) ≠ broadcast ∧
      ((∀ draw net, LeadsTo (triangle.copyStep Codec.bincode Crypto.toyFleet 3)
          (triangleStart draw) net → net.handed.length ≤ 1) ↔
        ∀ p q, triangle.Delivers 1 3 p → triangle.Delivers 1 3 q → p = q) :=
  ⟨by decide, delivered_once_iff Codec.bincode Crypto.toyFleet triangle 1 3 3 _ _ (by decide)⟩

theorem triangle_delivered_twice :
    ∃ net, LeadsTo (triangle.copyStep Codec.bincode Crypto.toyFleet 3) (triangleStart (.atMs 0))
      net ∧ net.handed = [[1], [2, 1]] := by
  have hrelay : triangle.Chain 1 3 [2, 1] :=
    Chain.sent.relay (by decide) (by decide) (by decide) (by decide)
  have hdirect : triangle.Delivers 1 3 [1] := ⟨.sent, by decide, by decide⟩
  have hindirect : triangle.Delivers 1 3 [2, 1] := ⟨hrelay, by decide, by decide⟩
  exact handed_twice Codec.bincode Crypto.toyFleet _ .high 3 (by decide) hdirect hindirect
    (by decide) (by decide)

end RelayMesh
end TacticalMesh
