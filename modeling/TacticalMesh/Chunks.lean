import Mathlib.Algebra.Order.Group.Nat
import Mathlib.Data.List.Flatten

namespace TacticalMesh
set_option autoImplicit true

def chunkCount (size len : ℕ) : ℕ := (len + size - 1) / size

def chunk (size : ℕ) (xs : List α) (i : ℕ) : List α := (xs.drop (i * size)).take size

def chunks (size : ℕ) (xs : List α) : List (List α) :=
  (List.range (chunkCount size xs.length)).map (chunk size xs)

@[simp] theorem length_chunks (size : ℕ) (xs : List α) :
    (chunks size xs).length = chunkCount size xs.length := by
  rw [chunks, List.length_map, List.length_range]

theorem chunkCount_pos (hsize : 0 < size) : 0 < chunkCount size len ↔ 0 < len := by
  rw [chunkCount, Nat.div_pos_iff]
  omega

theorem le_chunkCount_mul (hsize : 0 < size) (len : ℕ) : len ≤ chunkCount size len * size := by
  have hdiv := Nat.div_add_mod (len + size - 1) size
  have hmod := Nat.mod_lt (len + size - 1) hsize
  rw [chunkCount, Nat.mul_comm]
  omega

theorem lt_chunkCount (hsize : 0 < size) : i < chunkCount size len ↔ i * size < len := by
  rw [chunkCount, Nat.lt_iff_add_one_le, Nat.le_div_iff_mul_le hsize, Nat.add_one_mul]
  omega

theorem chunkCount_mul (hsize : 0 < size) (n : ℕ) : chunkCount size (n * size) = n := by
  apply eq_of_forall_lt_iff
  intro i
  rw [lt_chunkCount hsize, Nat.mul_lt_mul_right hsize]

theorem getElem_chunks (h : i < (chunks size xs).length) :
    (chunks size xs)[i] = chunk size xs i := by
  simp [chunks]

theorem flatMap_chunk_range (size n : ℕ) (xs : List α) :
    (List.range n).flatMap (chunk size xs) = xs.take (n * size) := by
  induction n with
  | zero => rw [List.range_zero, List.flatMap_nil, Nat.zero_mul, List.take_zero]
  | succ n ih =>
    rw [List.range_succ, List.flatMap_append, ih, List.flatMap_singleton, Nat.succ_mul,
      List.take_add, chunk]

theorem flatMap_chunk (hsize : 0 < size) (xs : List α) :
    (List.range (chunkCount size xs.length)).flatMap (chunk size xs) = xs := by
  rw [flatMap_chunk_range, List.take_of_length_le (le_chunkCount_mul hsize _)]

theorem chunk_of_single (hsize : 0 < size) (hone : chunkCount size xs.length ≤ 1)
    (hi : i < chunkCount size xs.length) : chunk size xs i = xs := by
  have hcount : chunkCount size xs.length = 1 := by omega
  have hzero : i = 0 := by omega
  have hflat := flatMap_chunk hsize xs
  rw [hcount, List.range_one, List.flatMap_singleton] at hflat
  rw [hzero, hflat]

theorem flatten_chunks (hsize : 0 < size) (xs : List α) : (chunks size xs).flatten = xs :=
  flatMap_chunk hsize xs

theorem length_chunk (h : (i + 1) * size ≤ xs.length) : (chunk size xs i).length = size := by
  rw [Nat.succ_mul] at h
  rw [chunk, List.length_take, List.length_drop]
  omega

theorem length_of_mem_chunks (hsize : 0 < size) (hlen : xs.length = n * size)
    (h : piece ∈ chunks size xs) : piece.length = size := by
  rw [chunks, List.mem_map] at h
  obtain ⟨i, hi, rfl⟩ := h
  rw [List.mem_range, hlen, chunkCount_mul hsize] at hi
  apply length_chunk
  rw [hlen]
  exact Nat.mul_le_mul_right size hi

theorem length_chunk_le (size : ℕ) (xs : List α) (i : ℕ) : (chunk size xs i).length ≤ size :=
  List.length_take_le ..

theorem length_flatMap_range {piece : ℕ → List α} (h : ∀ i < n, (piece i).length = size) :
    ((List.range n).flatMap piece).length = n * size := by
  induction n with
  | zero => rw [List.range_zero, List.flatMap_nil, List.length_nil, Nat.zero_mul]
  | succ n ih =>
    rw [List.range_succ, List.flatMap_append, List.length_append, List.flatMap_singleton,
      ih fun i hi => h i (Nat.lt_succ_of_lt hi), h n (Nat.lt_succ_self n), Nat.succ_mul]

/-- Pieces of one size, but for a shorter last one, are found again at the cuts. -/
theorem chunk_flatMap {piece : ℕ → List α} (hlen : ∀ i, i + 1 < n → (piece i).length = size)
    (hle : ∀ i < n, (piece i).length ≤ size) (hi : i < n) :
    chunk size ((List.range n).flatMap piece) i = piece i := by
  obtain ⟨rest, hsplit⟩ : ∃ rest, List.range n = List.range i ++ i :: rest ∧
      (i + 1 = n → rest = []) := by
    refine ⟨(List.range (n - (i + 1))).map (i + 1 + ·), ?_, ?_⟩
    · rw [← List.singleton_append, ← List.append_assoc, ← List.range_succ, ← List.range_add]
      congr 1
      omega
    · intro h
      rw [h, Nat.sub_self, List.range_zero, List.map_nil]
  have hbefore : ((List.range i).flatMap piece).length = i * size :=
    length_flatMap_range fun j hj => hlen j (by omega)
  rw [chunk, hsplit.1, List.flatMap_append, List.flatMap_cons, List.drop_left' hbefore]
  by_cases hlast : i + 1 = n
  · rw [hsplit.2 hlast, List.flatMap_nil, List.append_nil, List.take_of_length_le (hle i hi)]
  · exact List.take_left' (hlen i (by omega))

end TacticalMesh
