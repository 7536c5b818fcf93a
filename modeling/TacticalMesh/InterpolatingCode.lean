import Mathlib.Algebra.Field.ZMod
import Mathlib.Tactic.NormNum.Prime
import TacticalMesh.Interpolation
import TacticalMesh.RsDecoder

namespace TacticalMesh
set_option autoImplicit true

namespace ReedSolomon

instance fact_prime_257 : Fact (Nat.Prime 257) := ⟨by norm_num⟩

def symbol (shard : Bytes) (pos : ℕ) : ZMod 257 := ((shard.getD pos 0).toNat : ℕ)

def ofSymbols (symbols : List (ZMod 257)) : Bytes := symbols.map fun z => .ofNat z.val

def wordShard (places : Finset ℕ) (shard : ℕ → Bytes) (size i : ℕ) : List (ZMod 257) :=
  (List.range size).map fun pos => interpolated Nat.cast places (fun j => symbol (shard j) pos) i

/-- At each position, the symbols of the shards are the values of a polynomial. -/
def interpolating : ReedSolomon where
  encode k recovery original :=
    let size := (original.headD []).length
    let symbols := (List.range recovery).map fun j =>
      wordShard (.range k) (original.getD · []) size (k + j)
    if size % 2 = 0 ∧ (∀ shard ∈ original, shard.length = size) ∧ k + recovery ≤ 257 ∧
        ∀ zs ∈ symbols, ∀ z ∈ zs, z.val < 256 then
      .ok (symbols.map ofSymbols)
    else .error "no code word"
  length_encode h := by
    simp only at h
    split at h
    · rw [← Except.ok.inj h, List.length_map, List.length_map, List.length_range]
    · cases h
  length_shard h hsource hshard := by
    simp only at h
    split at h
    next hok =>
      rw [← Except.ok.inj h] at hshard
      obtain ⟨zs, hzs, rfl⟩ := List.mem_map.1 hshard
      obtain ⟨j, -, rfl⟩ := List.mem_map.1 hzs
      rw [ofSymbols, List.length_map, wordShard, List.length_map, List.length_range,
        hok.2.1 _ hsource]
    next => cases h

variable {original recovered : List Bytes}

theorem symbol_ofSymbols (hbytes : ∀ z ∈ symbols, z.val < 256) (hpos : pos < symbols.length) :
    symbol (ofSymbols symbols) pos = symbols[pos] := by
  have hlt := hbytes _ (List.getElem_mem hpos)
  rw [symbol, ofSymbols, List.getD_eq_getElem?_getD, List.getElem?_map,
    List.getElem?_eq_getElem hpos, Option.map_some, Option.getD_some, UInt8.toNat_ofNat',
    Nat.mod_eq_of_lt hlt, ZMod.natCast_zmod_val]

theorem ofSymbols_symbol (shard : Bytes) :
    ofSymbols ((List.range shard.length).map (symbol shard)) = shard := by
  apply List.ext_getElem
  · rw [ofSymbols, List.length_map, List.length_map, List.length_range]
  · intro pos hpos hpos'
    have hlt : shard[pos].toNat < 257 := shard[pos].toNat_lt.trans (by decide)
    simp only [ofSymbols, symbol, List.map_map, List.getElem_map, List.getElem_range,
      Function.comp_apply, List.getD_eq_getElem?_getD, List.getElem?_eq_getElem hpos',
      Option.getD_some, ZMod.val_cast_of_lt hlt, UInt8.ofNat_toNat]

/-- These shards stand at these places of the word that starts with the given ones. -/
def InWord (original : List Bytes) (k size : ℕ) (part : List (ℕ × Bytes)) : Prop :=
  ∀ e ∈ part, ∀ pos < size, symbol e.2 pos =
    interpolated Nat.cast (.range k) (fun i => symbol (original.getD i []) pos) e.1

theorem injOn_cast (h : ∀ i ∈ s, i < 257) : Set.InjOn (Nat.cast : ℕ → ZMod 257) (s : Finset ℕ) := by
  intro i hi j hj heq
  rw [ZMod.natCast_eq_natCast_iff', Nat.mod_eq_of_lt (h i hi), Nat.mod_eq_of_lt (h j hj)] at heq
  exact heq

theorem interpolating_encode (h : interpolating.encode k recovery original = .ok recovered)
    (hsize : ∀ s ∈ original, s.length = size) (hk : 0 < original.length) :
    k + recovery ≤ 257 ∧ recovered = (List.range recovery).map (fun j =>
      ofSymbols (wordShard (.range k) (original.getD · []) size (k + j))) ∧
      ∀ j < recovery, ∀ z ∈ wordShard (.range k) (original.getD · []) size (k + j),
        z.val < 256 := by
  have hhead : (original.headD []).length = size := by
    cases original with
    | nil => cases hk
    | cons first rest => exact hsize first (.head _)
  simp only [interpolating] at h
  split at h
  next hok =>
    rw [hhead] at hok h
    refine ⟨hok.2.2.1, ?_, fun j hj => hok.2.2.2 _ (List.mem_map_of_mem (List.mem_range.2 hj))⟩
    rw [← Except.ok.inj h, List.map_map]
    rfl
  next => cases h

theorem inWord_original (h : PartOf part original) (hk : original.length = k) (hle : k ≤ 257) :
    InWord original k size part := by
  intro e he pos _
  have hget := h.get e he
  obtain ⟨hlt, -⟩ := List.getElem?_eq_some_iff.1 hget
  have hnode : e.1 ∈ Finset.range k := Finset.mem_range.2 (hlt.trans_eq hk)
  rw [interpolated_node (injOn_cast fun i hi => (Finset.mem_range.1 hi).trans_le hle) hnode,
    List.getD_eq_getElem?_getD, hget, Option.getD_some]

theorem inWord_recovered (h : PartOf part recovered)
    (henc : interpolating.encode k recovery original = .ok recovered)
    (hsize : ∀ s ∈ original, s.length = size) (hk : 0 < original.length) :
    InWord original k size (part.map fun e => (k + e.1, e.2)) := by
  obtain ⟨-, rfl, hbytes⟩ := interpolating_encode henc hsize hk
  intro e he pos hpos
  obtain ⟨⟨j, shard⟩, hmem, rfl⟩ := List.mem_map.1 he
  have hget : (_ : List Bytes)[j]? = some shard := h.get _ hmem
  rw [List.getElem?_map, Option.map_eq_some_iff] at hget
  obtain ⟨j', hj', rfl⟩ := hget
  obtain ⟨hj, hjj'⟩ := List.getElem?_eq_some_iff.1 hj'
  rw [List.length_range] at hj
  rw [List.getElem_range] at hjj'
  subst hjj'
  rw [symbol_ofSymbols (hbytes j hj) (by rwa [wordShard, List.length_map, List.length_range])]
  simp [wordShard]

def interpolatingDecoder : RsDecoder where
  State := ℕ × ℕ × List (ℕ × Bytes)
  new k _ size := .ok (k, size, [])
  addOriginalShard d i shard := .ok (d.1, d.2.1, d.2.2 ++ [(i, shard)])
  addRecoveryShard d i shard := .ok (d.1, d.2.1, d.2.2 ++ [(d.1 + i, shard)])
  decode d :=
    let (k, size, part) := d
    if part.length < k then .error "too few shards"
    else
      .ok fun i => some (ofSymbols
        (wordShard (part.map Prod.fst).toFinset (fun j => (part.lookup j).getD []) size i))

theorem restore_interpolatingDecoder (originals recoveries : List (ℕ × Bytes)) :
    interpolatingDecoder.restore k recovery size originals recoveries =
      interpolatingDecoder.decode
        (k, size, originals ++ recoveries.map fun e => (k + e.1, e.2)) := by
  have hadd : ∀ (f : ℕ → ℕ → ℕ) (l part : List (ℕ × Bytes)),
      l.foldlM (fun d e => (.ok (d.1, d.2.1, d.2.2 ++ [(f d.1 e.1, e.2)]) :
        Except String (ℕ × ℕ × List (ℕ × Bytes)))) (k, size, part) =
          .ok (k, size, part ++ l.map fun e => (f k e.1, e.2)) := by
    intro f l
    induction l with
    | nil =>
      intro part
      rw [List.map_nil, List.append_nil]
      rfl
    | cons e l ih =>
      intro part
      have hrest := ih (part ++ [(f k e.1, e.2)])
      rw [List.append_assoc] at hrest
      exact hrest
  have horiginals := hadd (fun _ i => i) originals []
  have hrecoveries := hadd (fun k i => k + i) recoveries originals
  rw [List.nil_append, List.map_id'] at horiginals
  calc interpolatingDecoder.restore k recovery size originals recoveries
      = (originals.foldlM (fun d e => (.ok (d.1, d.2.1, d.2.2 ++ [(e.1, e.2)]) :
          Except String (ℕ × ℕ × List (ℕ × Bytes)))) (k, size, [])).bind
          fun d => (recoveries.foldlM (fun d e => (.ok (d.1, d.2.1, d.2.2 ++ [(d.1 + e.1, e.2)]) :
            Except String (ℕ × ℕ × List (ℕ × Bytes)))) d).bind interpolatingDecoder.decode := rfl
    _ = _ := by
      rw [horiginals]
      exact congrArg (fun r => Except.bind r interpolatingDecoder.decode) hrecoveries

/-- A part of the word that is large enough gives each of its first shards. -/
theorem ofSymbols_wordShard (hk : original.length = k) (hle : k ≤ 257)
    (hpart : InWord original k size part) (hnodup : (part.map Prod.fst).Nodup)
    (hlt : ∀ e ∈ part, e.1 < 257) (hmany : k ≤ part.length)
    (hsize : ∀ s ∈ original, s.length = size) (hs : original[i]? = some s) :
    ofSymbols (wordShard (part.map Prod.fst).toFinset (fun j => (part.lookup j).getD []) size i) =
      s := by
  obtain ⟨hi, -⟩ := List.getElem?_eq_some_iff.1 hs
  have hlen : s.length = size := hsize s (List.mem_of_getElem? hs)
  have hrange : Set.InjOn (Nat.cast : ℕ → ZMod 257) (Finset.range k) :=
    injOn_cast fun i hi => (Finset.mem_range.1 hi).trans_le hle
  have hplaces : Set.InjOn (Nat.cast : ℕ → ZMod 257) (part.map Prod.fst).toFinset := by
    apply injOn_cast
    intro i hi
    obtain ⟨e, he, rfl⟩ := List.mem_map.1 (List.mem_toFinset.1 hi)
    exact hlt e he
  have hcard : (Finset.range k).card ≤ (part.map Prod.fst).toFinset.card := by
    rw [Finset.card_range, List.toFinset_card_of_nodup hnodup, List.length_map]
    exact hmany
  have hword : ∀ pos < size, interpolated Nat.cast (part.map Prod.fst).toFinset
      (fun j => symbol ((part.lookup j).getD []) pos) (i : ZMod 257) = symbol s pos := by
    intro pos hpos
    have hnode : interpolated Nat.cast (.range k) (fun j => symbol (original.getD j []) pos)
        (i : ZMod 257) = symbol (original.getD i []) pos :=
      interpolated_node hrange (Finset.mem_range.2 (hi.trans_eq hk))
    rw [List.getD_eq_getElem?_getD, hs, Option.getD_some] at hnode
    rw [← hnode]
    apply interpolated_of_card_le hrange hplaces hcard
    intro j hj
    obtain ⟨e, he, rfl⟩ := List.mem_map.1 (List.mem_toFinset.1 hj)
    obtain ⟨shard, hshard⟩ := Option.isSome_iff_exists.1
      (List.lookup_isSome_iff.2 ⟨e, he, beq_self_eq_true e.1⟩)
    obtain ⟨l, l', hsplit, -⟩ := List.lookup_eq_some_iff.1 hshard
    rw [hshard]
    exact hpart (e.1, shard) (hsplit ▸ List.mem_append_right l (.head _)) pos hpos
  have hshard : wordShard (part.map Prod.fst).toFinset (fun j => (part.lookup j).getD []) size i =
      (List.range s.length).map (symbol s) := by
    rw [wordShard, hlen]
    exact List.map_congr_left fun pos hpos => hword pos (List.mem_range.1 hpos)
  rw [hshard, ofSymbols_symbol]

theorem interpolatingDecoder_restores (k recovery : ℕ) :
    interpolatingDecoder.Restores interpolating k recovery := by
  intro original recovered size henc hk hsize originals recoveries hparts hparts' hmany
  have hlen : (originals ++ recoveries.map fun e => (k + e.1, e.2)).length =
      originals.length + recoveries.length := by
    rw [List.length_append, List.length_map]
  rw [restore_interpolatingDecoder]
  refine ⟨_, if_neg (by omega), ?_⟩
  intro i _ s hs
  obtain ⟨hi, -⟩ := List.getElem?_eq_some_iff.1 hs
  have hpos := Nat.zero_lt_of_lt hi
  obtain ⟨hle, -, -⟩ := interpolating_encode henc hsize hpos
  have hcount := interpolating.length_encode henc
  have hfirst : ∀ e ∈ originals, e.1 < k := by
    intro e he
    obtain ⟨hlt, -⟩ := List.getElem?_eq_some_iff.1 (hparts.get e he)
    exact hlt.trans_eq hk
  have hlast : ∀ e ∈ recoveries, e.1 < recovery := by
    intro e he
    obtain ⟨hlt, -⟩ := List.getElem?_eq_some_iff.1 (hparts'.get e he)
    exact hlt.trans_eq hcount
  refine congrArg some (ofSymbols_wordShard hk (by omega) ?_ ?_ ?_ (by omega) hsize hs)
  · intro e he
    rcases List.mem_append.1 he with he | he
    · exact inWord_original hparts hk (by omega) e he
    · exact inWord_recovered hparts' henc hsize hpos e he
  · have hshift : (recoveries.map fun e => (k + e.1, e.2)).map Prod.fst =
        (recoveries.map Prod.fst).map (k + ·) := by
      rw [List.map_map, List.map_map]
      rfl
    rw [List.map_append, hshift]
    refine hparts.nodup.append (hparts'.nodup.map (add_right_injective k)) ?_
    intro i hi hi'
    obtain ⟨e, he, rfl⟩ := List.mem_map.1 hi
    obtain ⟨j, -, hj⟩ := List.mem_map.1 hi'
    have hlt := hfirst e he
    omega
  · intro e he
    rcases List.mem_append.1 he with he | he
    · exact (hfirst e he).trans_le (by omega)
    · obtain ⟨e', he', rfl⟩ := List.mem_map.1 he
      have hlt := hlast e' he'
      omega

theorem symbol_zeros (size pos : ℕ) : symbol (List.replicate size 0) pos = 0 := by
  rw [symbol, List.getD_eq_getElem?_getD, List.getElem?_replicate]
  split <;> rfl

theorem wordShard_zeros (k size i : ℕ) :
    wordShard (.range k) ((List.replicate k (List.replicate size 0)).getD · []) size i =
      List.replicate size 0 := by
  rw [wordShard, List.eq_replicate_iff, List.length_map, List.length_range]
  refine ⟨rfl, fun z hz => ?_⟩
  obtain ⟨pos, -, rfl⟩ := List.mem_map.1 hz
  apply interpolated_zero
  intro j hj
  rw [List.getD_eq_getElem?_getD, List.getElem?_replicate, if_pos (Finset.mem_range.1 hj)]
  exact symbol_zeros size pos

theorem interpolating_zeros (hk : 0 < k) (heven : size % 2 = 0) (hle : k + recovery ≤ 257) :
    interpolating.encode k recovery (List.replicate k (List.replicate size 0)) =
      .ok (List.replicate recovery (List.replicate size 0)) := by
  have hhead : ((List.replicate k (List.replicate size (0 : UInt8))).headD []).length = size := by
    obtain ⟨k, rfl⟩ := Nat.exists_eq_succ_of_ne_zero hk.ne'
    exact List.length_replicate
  have hbytes : ofSymbols (List.replicate size 0) = List.replicate size 0 := List.map_replicate
  simp only [interpolating, hhead, wordShard_zeros, List.map_const', List.length_range,
    List.map_replicate, hbytes]
  refine if_pos ⟨heven, fun s hs => ?_, hle, fun zs hzs z hz => ?_⟩
  · rw [List.eq_of_mem_replicate hs, List.length_replicate]
  · rw [List.eq_of_mem_replicate hzs] at hz
    rw [List.eq_of_mem_replicate hz]
    decide

end ReedSolomon

end TacticalMesh
