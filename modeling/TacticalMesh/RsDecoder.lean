import TacticalMesh.Fec

namespace TacticalMesh
set_option autoImplicit true

/-- The decoder of the other crate; `decode` ends in what `restored_original` returns. -/
structure RsDecoder where
  State : Type
  new : (originalCount recoveryCount shardBytes : ℕ) → Except String State
  addOriginalShard : State → ℕ → Bytes → Except String State
  addRecoveryShard : State → ℕ → Bytes → Except String State
  decode : State → Except String (ℕ → Option Bytes)

def RsDecoder.restore (dec : RsDecoder) (k recovery shardSize : ℕ)
    (originals recoveries : List (ℕ × Bytes)) : Except String (ℕ → Option Bytes) := do
  let decoder ← dec.new k recovery shardSize
  let decoder ← originals.foldlM (fun d e => dec.addOriginalShard d e.1 e.2) decoder
  let decoder ← recoveries.foldlM (fun d e => dec.addRecoveryShard d e.1 e.2) decoder
  dec.decode decoder

structure PartOf (part : List (ℕ × Bytes)) (whole : List Bytes) : Prop where
  nodup : (part.map Prod.fst).Nodup
  get : ∀ e ∈ part, whole[e.1]? = some e.2

/-- A maximum-distance-separable code: any `k` shards of one encoding restore the originals that
were not among them. -/
def RsDecoder.Restores (dec : RsDecoder) (rs : ReedSolomon) (k recovery : ℕ) : Prop :=
  ∀ original recovered size, rs.encode k recovery original = .ok recovered →
    original.length = k → (∀ s ∈ original, s.length = size) →
    ∀ originals recoveries, PartOf originals original → PartOf recoveries recovered →
      k ≤ originals.length + recoveries.length →
      ∃ restored, dec.restore k recovery size originals recoveries = .ok restored ∧
        ∀ i ∉ originals.map Prod.fst, ∀ s, original[i]? = some s → restored i = some s

namespace ReedSolomon

/-- A decoder for one data shard, all recovery shards of which are copies of it. -/
def toyDecoder : RsDecoder where
  State := List Bytes
  new _ _ _ := .ok []
  addOriginalShard shards _ shard := .ok (shards ++ [shard])
  addRecoveryShard shards _ shard := .ok (shards ++ [shard])
  decode shards :=
    match shards with
    | [] => .error "too few shards"
    | shard :: _ => .ok fun _ => some shard

theorem restore_toyDecoder (originals recoveries : List (ℕ × Bytes)) :
    toyDecoder.restore k recovery size originals recoveries =
      toyDecoder.decode ((originals ++ recoveries).map Prod.snd) := by
  have hadd : ∀ (l : List (ℕ × Bytes)) (shards : List Bytes),
      l.foldlM (fun d e => (.ok (d ++ [e.2]) : Except String (List Bytes))) shards =
        .ok (shards ++ l.map Prod.snd) := by
    intro l
    induction l with
    | nil =>
      intro shards
      rw [List.map_nil, List.append_nil]
      rfl
    | cons e l ih =>
      intro shards
      have hrest := ih (shards ++ [e.2])
      rw [List.append_assoc] at hrest
      exact hrest
  have horiginals := hadd originals []
  have hrecoveries := hadd recoveries (originals.map Prod.snd)
  rw [List.nil_append] at horiginals
  rw [List.map_append]
  calc toyDecoder.restore k recovery size originals recoveries
      = (originals.foldlM (fun d e => (.ok (d ++ [e.2]) : Except String (List Bytes))) []).bind
          fun d => (recoveries.foldlM (fun d e => (.ok (d ++ [e.2]) :
            Except String (List Bytes))) d).bind toyDecoder.decode := rfl
    _ = _ := by
      rw [horiginals]
      exact congrArg (fun r => Except.bind r toyDecoder.decode) hrecoveries

theorem toyDecoder_restores (recovery : ℕ) : toyDecoder.Restores toy 1 recovery := by
  intro original recovered size henc hlen _ originals recoveries hparts hparts' hmany
  obtain ⟨s, rfl⟩ := List.length_eq_one_iff.1 hlen
  have hcopies : ∀ shard ∈ recovered, shard = s := by
    simp only [toy] at henc
    split at henc
    · rw [← Except.ok.inj henc]
      intro shard hshard
      exact (List.mem_replicate.1 hshard).2
    · cases henc
  have hall : ∀ e ∈ originals ++ recoveries, e.2 = s := by
    intro e he
    rcases List.mem_append.1 he with he | he
    · exact List.mem_singleton.1 (List.mem_of_getElem? (hparts.get e he))
    · exact hcopies _ (List.mem_of_getElem? (hparts'.get e he))
  cases hparts₀ : originals ++ recoveries with
  | nil =>
    have hnil := congrArg List.length hparts₀
    rw [List.length_append, List.length_nil] at hnil
    omega
  | cons e rest =>
    refine ⟨fun _ => some e.2, ?_, ?_⟩
    · rw [restore_toyDecoder, hparts₀]
      rfl
    · intro i _ s' hs'
      rw [hall e (hparts₀ ▸ .head _), List.mem_singleton.1 (List.mem_of_getElem? hs')]

end ReedSolomon

end TacticalMesh
