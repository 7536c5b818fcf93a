import Mathlib.Data.List.Nodup
import TacticalMesh.InterpolatingCode

namespace TacticalMesh
set_option autoImplicit true

def provided (shards : List (Option Bytes)) : List (ℕ × Bytes) :=
  shards.zipIdx.filterMap fun e => e.1.map fun s => (e.2, s)

def rebuilt (shards : List (Option Bytes)) (restored : ℕ → Option Bytes) (i : ℕ) : Parse Bytes :=
  match shards[i]? with
  | none => .error .panic
  | some (some s) => .ok s
  | some none => okOr (.fecError s!"shard {i} not restored") (restored i)

def fecDecode (dec : RsDecoder) (shards : List (Option Bytes)) (k n originalLen : ℕ) :
    Parse Bytes :=
  -- `n - k` is a subtraction of unsigned numbers
  if n < k then .error .panic
  else
    match shards.findSome? id with
    | none => .error (.error (.fecError "all shards missing"))
    | some first =>
      let originalProvided := (provided shards).filter fun e => e.1 < k
      let recoveryProvided :=
        ((provided shards).filter fun e => ¬ e.1 < k).map fun e => (e.1 - k, e.2)
      -- without the code if all data shards are there
      if originalProvided.length = k then
        .ok ((originalProvided.flatMap Prod.snd).take originalLen)
      else
        match dec.restore k (n - k) first.length originalProvided recoveryProvided with
        | .error e => .error (.error (.fecError e))
        | .ok restored =>
          match (List.range k).mapM (rebuilt shards restored) with
          | .error e => .error e
          | .ok parts => .ok (parts.flatten.take originalLen)

inductive Erases : List (Option Bytes) → List Bytes → Prop where
  | nil : Erases [] []
  | kept : Erases pattern shards → Erases (some s :: pattern) (s :: shards)
  | lost : Erases pattern shards → Erases (none :: pattern) (s :: shards)

theorem mem_provided : (i, s) ∈ provided pattern ↔ pattern[i]? = some (some s) := by
  simp only [provided, List.mem_filterMap, Option.map_eq_some_iff, Prod.mk.injEq]
  constructor
  · rintro ⟨⟨o, j⟩, hmem, s', ho, rfl, rfl⟩
    rw [List.mk_mem_zipIdx_iff_getElem?] at hmem
    rw [hmem, ← ho]
  · intro h
    exact ⟨(some s, i), List.mk_mem_zipIdx_iff_getElem?.2 h, s, rfl, rfl, rfl⟩

theorem nodup_provided (pattern : List (Option Bytes)) :
    ((provided pattern).map Prod.fst).Nodup := by
  have hsub : ∀ l : List (Option Bytes × ℕ),
      ((l.filterMap fun e => e.1.map fun s => (e.2, s)).map Prod.fst).Sublist (l.map Prod.snd) := by
    intro l
    induction l with
    | nil => exact .slnil
    | cons e l ih =>
      rw [List.filterMap_cons]
      cases he : e.1 with
      | none => exact .cons _ ih
      | some s => exact .cons_cons _ ih
  apply (hsub pattern.zipIdx).nodup
  rw [List.zipIdx_map_snd]
  exact List.nodup_range'

theorem length_provided (pattern : List (Option Bytes)) :
    (provided pattern).length + pattern.count none = pattern.length := by
  have hcount : ∀ start, (List.filterMap (fun e : Option Bytes × ℕ => e.1.map fun s => (e.2, s))
      (pattern.zipIdx start)).length + pattern.count none = pattern.length := by
    induction pattern with
    | nil => exact fun _ => rfl
    | cons o pattern ih =>
      intro start
      have hrest := ih (start + 1)
      rw [List.zipIdx_cons, List.filterMap_cons]
      cases o with
      | none =>
        simp only [Option.map_none, List.count_cons_self, List.length_cons]
        omega
      | some s =>
        have hne : (some s : Option Bytes) ≠ none := Option.some_ne_none s
        simp only [Option.map_some, List.length_cons, List.count_cons_of_ne hne]
        omega
  exact hcount 0

theorem filter_provided (pattern : List (Option Bytes)) (k : ℕ) :
    ((provided pattern).filter fun e => e.1 < k) = provided (pattern.take k) := by
  have hlast : (((pattern.drop k).zipIdx (pattern.take k).length).filterMap
      fun e => e.1.map fun s => (e.2, s)).filter (fun e => e.1 < k) = [] := by
    apply List.filter_eq_nil_iff.2
    rintro ⟨i, s⟩ hmem
    obtain ⟨⟨o, j⟩, hj, ho⟩ := List.mem_filterMap.1 hmem
    obtain ⟨s', -, heq⟩ := Option.map_eq_some_iff.1 ho
    cases heq
    have hle := List.le_snd_of_mem_zipIdx hj
    have hlt := List.snd_lt_add_of_mem_zipIdx hj
    rw [List.length_take] at hle hlt
    rw [List.length_drop] at hlt
    simp only [decide_eq_true_eq]
    omega
  have hfirst : (provided (pattern.take k)).filter (fun e => e.1 < k) =
      provided (pattern.take k) := by
    apply List.filter_eq_self.2
    rintro ⟨i, s⟩ hmem
    obtain ⟨hi, -⟩ := List.getElem?_eq_some_iff.1 (mem_provided.1 hmem)
    rw [List.length_take] at hi
    simp only [decide_eq_true_eq]
    omega
  have hsplit : provided pattern = provided (pattern.take k) ++
      ((pattern.drop k).zipIdx (pattern.take k).length).filterMap
        (fun e => e.1.map fun s => (e.2, s)) := by
    have happend : (pattern.take k ++ pattern.drop k).zipIdx = (pattern.take k).zipIdx ++
        (pattern.drop k).zipIdx (0 + (pattern.take k).length) := List.zipIdx_append
    rw [List.take_append_drop, Nat.zero_add] at happend
    rw [provided, happend, List.filterMap_append]
    rfl
  rw [hsplit, List.filter_append, hfirst, hlast, List.append_nil]

theorem flatMap_provided (shards : List Bytes) :
    (provided (shards.map some)).flatMap Prod.snd = shards.flatten := by
  have hstart : ∀ start, (List.filterMap (fun e : Option Bytes × ℕ => e.1.map fun s => (e.2, s))
      ((shards.map some).zipIdx start)).flatMap Prod.snd = shards.flatten := by
    induction shards with
    | nil => exact fun _ => rfl
    | cons s shards ih =>
      intro start
      rw [List.map_cons, List.zipIdx_cons, List.filterMap_cons]
      simp only [Option.map_some, List.flatMap_cons, ih, List.flatten_cons]
  exact hstart 0

namespace Erases

theorem get (h : Erases pattern shards) {i : ℕ} (hi : pattern[i]? = some (some s)) :
    shards[i]? = some s := by
  induction h generalizing i with
  | nil => cases hi
  | kept _ ih =>
    cases i with
    | zero =>
      cases hi
      rfl
    | succ i => exact ih hi
  | lost _ ih =>
    cases i with
    | zero => cases hi
    | succ i => exact ih hi

theorem length_eq (h : Erases pattern shards) : pattern.length = shards.length := by
  induction h with
  | nil => rfl
  | kept _ ih => rw [List.length_cons, List.length_cons, ih]
  | lost _ ih => rw [List.length_cons, List.length_cons, ih]

theorem take (h : Erases pattern shards) (k : ℕ) : Erases (pattern.take k) (shards.take k) := by
  induction h generalizing k with
  | nil =>
    rw [List.take_nil, List.take_nil]
    exact .nil
  | kept _ ih =>
    cases k with
    | zero => exact .nil
    | succ k => exact .kept (ih k)
  | lost _ ih =>
    cases k with
    | zero => exact .nil
    | succ k => exact .lost (ih k)

theorem eq_map_some (h : Erases pattern shards) (hall : pattern.count none = 0) :
    pattern = shards.map some := by
  induction h with
  | nil => rfl
  | @kept _ _ s _ ih =>
    rw [List.count_cons_of_ne (Option.some_ne_none s)] at hall
    rw [List.map_cons, ih hall]
  | lost =>
    rw [List.count_cons_self] at hall
    cases hall

variable {original recovered : List Bytes}

theorem partOf_original (h : Erases pattern (original ++ recovered)) :
    PartOf ((provided pattern).filter fun e => e.1 < original.length) original where
  nodup := ((List.filter_sublist ..).map Prod.fst).nodup (nodup_provided pattern)
  get := by
    rintro ⟨i, s⟩ hmem
    obtain ⟨hmem, hi⟩ := List.mem_filter.1 hmem
    have hget := h.get (mem_provided.1 hmem)
    rwa [List.getElem?_append_left (of_decide_eq_true hi)] at hget

theorem partOf_recovered (h : Erases pattern (original ++ recovered)) :
    PartOf (((provided pattern).filter fun e => ¬ e.1 < original.length).map
      fun e => (e.1 - original.length, e.2)) recovered := by
  have hle : ∀ e ∈ (provided pattern).filter fun e => ¬ e.1 < original.length,
      original.length ≤ e.1 := by
    intro e he
    exact Nat.not_lt.1 (of_decide_eq_true (List.mem_filter.1 he).2)
  constructor
  case nodup =>
    have hnodup := ((List.filter_sublist (p := fun e => decide (¬ e.1 < original.length))).map
      Prod.fst).nodup (nodup_provided pattern)
    rw [List.map_map]
    apply List.Nodup.map_on _ hnodup.of_map
    intro e he e' he' heq
    have hfst : e.1 = e'.1 := by
      have h₁ := hle e he
      have h₂ := hle e' he'
      have h₃ : e.1 - original.length = e'.1 - original.length := heq
      omega
    exact List.inj_on_of_nodup_map hnodup he he' hfst
  case get =>
    intro e he
    obtain ⟨⟨i, s⟩, hmem, rfl⟩ := List.mem_map.1 he
    have hget := h.get (mem_provided.1 (List.mem_filter.1 hmem).1)
    rwa [List.getElem?_append_right (hle _ hmem)] at hget

end Erases

theorem mapM_eq_ok {f : α → Except ε β} {g : α → β} (l : List α) (h : ∀ a ∈ l, f a = .ok (g a)) :
    l.mapM f = .ok (l.map g) := by
  induction l with
  | nil => rfl
  | cons a l ih =>
    rw [List.mapM_cons, h a (.head _), ih fun b hb => h b (.tail _ hb)]
    rfl

theorem map_getD_range (l : List Bytes) :
    ((List.range l.length).map fun i => l[i]?.getD []) = l := by
  apply List.ext_getElem
  · simp
  · intro i hi hi'
    simp [hi']

section
variable {dec : RsDecoder} {rs : ReedSolomon} {original recovered : List Bytes} {size k n : ℕ}
  {pattern : List (Option Bytes)}

theorem fecDecode_fast (herase : Erases pattern (original ++ recovered)) (hn : k ≤ n)
    (hk : original.length = k) (hfirst : pattern.findSome? id = some first)
    (hall : ((provided pattern).filter fun e => e.1 < k).length = k) (len : ℕ) :
    fecDecode dec pattern k n len = .ok (original.flatten.take len) := by
  have htake := herase.take k
  rw [List.take_left' hk] at htake
  have hcount : (pattern.take k).count none = 0 := by
    have hlen := length_provided (pattern.take k)
    have htlen := htake.length_eq
    rw [filter_provided] at hall
    omega
  have hbytes : (((provided pattern).filter fun e => e.1 < k).flatMap Prod.snd) =
      original.flatten := by
    rw [filter_provided, htake.eq_map_some hcount, flatMap_provided]
  simp only [fecDecode, if_neg (Nat.not_lt.2 hn), hfirst, if_pos hall, hbytes]

theorem Erases.length_first (h : Erases pattern shards) (hsize : ∀ s ∈ shards, s.length = size)
    (hfirst : pattern.findSome? id = some first) : first.length = size := by
  obtain ⟨o, ho, hid⟩ := List.exists_of_findSome?_eq_some hfirst
  obtain ⟨i, hi⟩ := List.mem_iff_getElem?.1 ho
  have hpat : pattern[i]? = some (some first) := by
    rw [hi]
    exact congrArg some hid
  exact hsize first (List.mem_of_getElem? (h.get hpat))

theorem mapM_rebuilt {restored : ℕ → Option Bytes}
    (herase : Erases pattern (original ++ recovered)) (hk : original.length = k)
    (hget : ∀ i ∉ ((provided pattern).filter fun e => e.1 < k).map Prod.fst,
      ∀ s, original[i]? = some s → restored i = some s) :
    (List.range k).mapM (rebuilt pattern restored) = .ok original := by
  have hall : ∀ i ∈ List.range k, rebuilt pattern restored i = .ok (original[i]?.getD []) := by
    intro i hi
    rw [List.mem_range] at hi
    obtain ⟨s, hs⟩ : ∃ s, original[i]? = some s :=
      ⟨_, List.getElem?_eq_getElem (hi.trans_eq hk.symm)⟩
    have hlt : i < pattern.length := by
      rw [herase.length_eq, List.length_append]
      omega
    rw [hs, Option.getD_some, rebuilt]
    cases hpat : pattern[i]? with
    | none => exact absurd (List.getElem?_eq_none_iff.1 hpat) (Nat.not_le.2 hlt)
    | some o =>
      cases o with
      | some s' =>
        have hs' := herase.get hpat
        rw [List.getElem?_append_left (hi.trans_eq hk.symm), hs] at hs'
        cases hs'
        rfl
      | none =>
        have hnot : i ∉ ((provided pattern).filter fun e => e.1 < k).map Prod.fst := by
          intro hmem
          obtain ⟨⟨j, s'⟩, he, rfl⟩ := List.mem_map.1 hmem
          have hprov := mem_provided.1 (List.mem_filter.1 he).1
          rw [hpat] at hprov
          cases hprov
        simp only [hget i hnot s hs]
        rfl
  rw [mapM_eq_ok _ hall, ← hk, map_getD_range]

theorem fecDecode_restored (hmds : dec.Restores rs k (n - k))
    (henc : rs.encode k (n - k) original = .ok recovered) (hk : original.length = k)
    (hsize : ∀ s ∈ original ++ recovered, s.length = size)
    (herase : Erases pattern (original ++ recovered)) (hn : k ≤ n)
    (hmany : k ≤ (provided pattern).length) (hfirst : pattern.findSome? id = some first)
    (hmissing : ((provided pattern).filter fun e => e.1 < k).length ≠ k) (len : ℕ) :
    fecDecode dec pattern k n len = .ok (original.flatten.take len) := by
  have hlen : k ≤ ((provided pattern).filter fun e => e.1 < k).length +
      (((provided pattern).filter fun e => ¬ e.1 < k).map fun e => (e.1 - k, e.2)).length := by
    have hsplit := List.length_eq_length_filter_add (l := provided pattern) fun e => e.1 < k
    rw [List.length_map]
    simp only [decide_not]
    omega
  have hparts := herase.partOf_original
  have hparts' := herase.partOf_recovered
  rw [hk] at hparts hparts'
  obtain ⟨restored, hrestored, hget⟩ := hmds original recovered size henc hk
    (fun s hs => hsize s (List.mem_append_left _ hs)) _ _ hparts hparts' hlen
  simp only [fecDecode, if_neg (Nat.not_lt.2 hn), hfirst, if_neg hmissing,
    herase.length_first hsize hfirst, hrestored, mapM_rebuilt herase hk hget]

end

/-- Whatever `n - k` shards are lost, the others give the data back. -/
theorem fecDecode_fecEncode (dec : RsDecoder) (rs : ReedSolomon) (data : Bytes) (prio : Priority)
    (shards : List Bytes)
    (hmds : dec.Restores rs (fecParams prio).1.toNat
      ((fecParams prio).2.toNat - (fecParams prio).1.toNat))
    (henc : fecEncode rs data prio = .ok shards) :
    shards.length = (fecParams prio).2.toNat ∧
      (∀ s ∈ shards, ∀ s' ∈ shards, s.length = s'.length) ∧
      ∀ pattern, Erases pattern shards →
        pattern.count none ≤ (fecParams prio).2.toNat - (fecParams prio).1.toNat →
        fecDecode dec pattern (fecParams prio).1.toNat (fecParams prio).2.toNat data.length =
          .ok data := by
  have hpos := fecParams_fst_pos prio
  have hle := fecParams_le prio
  obtain ⟨hlen, hsize, -, -⟩ := fecEncode_eq_ok henc
  obtain ⟨hdata, recovered, rfl, hrs⟩ := fecEncode_split henc
  have hk := length_originalShards hdata prio
  have hbytes : (originalShards data prio).flatten.take data.length = data := by
    rw [flatten_originalShards hdata, fecPadded, List.take_left']
    rfl
  refine ⟨hlen, fun s hs s' hs' => (hsize s hs).trans (hsize s' hs').symm, ?_⟩
  intro pattern herase hfew
  have hmany : (fecParams prio).1.toNat ≤ (provided pattern).length := by
    have hsum := length_provided pattern
    have hplen := herase.length_eq
    omega
  obtain ⟨⟨i, s⟩, hmem⟩ := List.exists_mem_of_length_pos (hpos.trans_le hmany)
  have hfound : (pattern.findSome? id).isSome := by
    rw [List.findSome?_isSome_iff]
    exact ⟨some s, List.mem_of_getElem? (mem_provided.1 hmem), rfl⟩
  obtain ⟨first, hfirst⟩ := Option.isSome_iff_exists.1 hfound
  by_cases hall : ((provided pattern).filter fun e => e.1 < (fecParams prio).1.toNat).length =
      (fecParams prio).1.toNat
  · rw [fecDecode_fast herase hle hk hfirst hall, hbytes]
  · rw [fecDecode_restored hmds hrs hk hsize herase hle hmany hfirst hall, hbytes]

/-- Two bytes of high priority survive the loss of the data shard, and sixteen zeros of bulk
priority that of four data shards. -/
theorem fecDecode_high_bulk :
    fecDecode ReedSolomon.toyDecoder [none, some [1, 2]] 1 2 2 = .ok [1, 2] ∧
      fecDecode ReedSolomon.interpolatingDecoder
        (List.replicate 4 none ++ List.replicate 8 (some [0, 0])) 8 12 16 =
          .ok (List.replicate 16 0) := by
  constructor
  · exact (fecDecode_fecEncode ReedSolomon.toyDecoder .toy [1, 2] .high [[1, 2], [1, 2]]
      (ReedSolomon.toyDecoder_restores 1) rfl).2.2 [none, some [1, 2]] (.lost (.kept .nil))
      (Nat.le_refl 1)
  · have hzeros : fecEncode .interpolating (List.replicate 16 0) .bulk =
        .ok (List.replicate 12 [0, 0]) := by
      rw [fecEncode_of_ne_nil _ (by decide)]
      have hdata : originalShards (List.replicate 16 0) .bulk = List.replicate 8 [0, 0] := by
        decide
      have henc : ReedSolomon.interpolating.encode (fecParams .bulk).1.toNat
          ((fecParams .bulk).2.toNat - (fecParams .bulk).1.toNat) (List.replicate 8 [0, 0]) =
            .ok (List.replicate 4 [0, 0]) :=
        @ReedSolomon.interpolating_zeros 8 2 4 (by decide) rfl (by decide)
      rw [hdata, henc]
      rfl
    exact (fecDecode_fecEncode ReedSolomon.interpolatingDecoder .interpolating
      (List.replicate 16 0) .bulk (List.replicate 12 [0, 0])
      (ReedSolomon.interpolatingDecoder_restores 8 4) hzeros).2.2 _
      (.lost (.lost (.lost (.lost (.kept (.kept (.kept (.kept (.kept (.kept (.kept (.kept
        .nil)))))))))))) (Nat.le_refl 4)

end TacticalMesh
