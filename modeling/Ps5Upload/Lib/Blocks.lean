import Mathlib.Algebra.Order.Floor.Div
import Mathlib.Data.Nat.ModEq
import Mathlib.Tactic.Common
import Mathlib.Tactic.Ring

/-!
# Bytes in whole blocks

How many blocks of a size hold a number of bytes, `n ⌈/⌉ size`, and what is left when some of them
are taken away.

* `le_blocks`, `blocks_lt` — the blocks hold the bytes, and one block fewer does not;
* `alignUp` — the next multiple of a size;
* `chunks_append` — a list cut into pieces of one size, from its front.
-/

namespace Ps5Upload.Blocks

variable {n size : Nat}

/-- The next multiple of `n`. -/
def alignUp (x n : Nat) : Nat := (x + (n - 1)) / n * n

theorem le_alignUp {n : Nat} (hn : 0 < n) (x : Nat) : x ≤ alignUp x n := by
  have h := Nat.div_add_mod (x + (n - 1)) n
  have hlt := Nat.mod_lt (x + (n - 1)) hn
  rw [Nat.mul_comm] at h
  unfold alignUp
  omega

theorem alignUp_lt {n : Nat} (hn : 0 < n) (x : Nat) : alignUp x n < x + n := by
  have h := Nat.div_mul_le_self (x + (n - 1)) n
  unfold alignUp
  omega

theorem dvd_alignUp (x n : Nat) : n ∣ alignUp x n := Nat.dvd_mul_left _ _

/-- The next multiple is the least one that is not below. -/
theorem alignUp_le {x n m : Nat} (hn : 0 < n) (hm : n ∣ m) (h : x ≤ m) : alignUp x n ≤ m := by
  obtain ⟨k, rfl⟩ := hm
  unfold alignUp
  rw [Nat.mul_comm]
  refine Nat.mul_le_mul_left n (Nat.le_of_lt_succ ((Nat.div_lt_iff_lt_mul hn).2 ?_))
  rw [Nat.succ_mul, Nat.mul_comm k n]
  omega

theorem alignUp_add {n m : Nat} (hn : 0 < n) (hm : n ∣ m) (x : Nat) : alignUp (m + x) n = m + alignUp x n := by
  obtain ⟨k, rfl⟩ := hm
  rw [alignUp, alignUp, Nat.add_assoc, Nat.mul_add_div hn, Nat.add_mul, Nat.mul_comm k n]

theorem alignUp_of_dvd {x n : Nat} (hn : 0 < n) (hx : n ∣ x) : alignUp x n = x :=
  Nat.le_antisymm (alignUp_le hn hx (Nat.le_refl x)) (le_alignUp hn x)

theorem le_blocks (hs : 0 < size) (n : Nat) : n ≤ (n ⌈/⌉ size) * size := by
  rw [Nat.mul_comm]
  exact le_smul_ceilDiv hs

theorem blocks_lt (hs : 0 < size) (n : Nat) : (n ⌈/⌉ size) * size < n + size := by
  rw [Nat.ceilDiv_eq_add_pred_div]
  have := Nat.div_mul_le_self (n + size - 1) size
  omega

theorem blocks_pos (hs : 0 < size) (hn : 0 < n) : 0 < n ⌈/⌉ size := by
  have := le_blocks hs n
  by_contra h
  have h0 : n ⌈/⌉ size = 0 := by omega
  rw [h0, Nat.zero_mul] at this
  omega

/-- The number of blocks that hold the bytes while one fewer does not. -/
theorem blocks_eq (hs : 0 < size) {k : Nat} (hle : n ≤ k * size) (hlt : k * size < n + size) :
    n ⌈/⌉ size = k := by
  have h1 := le_blocks hs n
  have h2 := blocks_lt hs n
  have hk : n ⌈/⌉ size < k + 1 := Nat.lt_of_mul_lt_mul_right (a := size) (by rw [Nat.succ_mul]; omega)
  have hk' : k < n ⌈/⌉ size + 1 := Nat.lt_of_mul_lt_mul_right (a := size) (by rw [Nat.succ_mul]; omega)
  omega

/-- With `k` blocks taken the others hold the rest. -/
theorem blocks_sub (hs : 0 < size) {k : Nat} (h : k * size ≤ n) :
    (n - k * size) ⌈/⌉ size = n ⌈/⌉ size - k := by
  have h1 := le_blocks hs n
  have h2 := blocks_lt hs n
  have hk : k < n ⌈/⌉ size + 1 := Nat.lt_of_mul_lt_mul_right (a := size) (by rw [Nat.succ_mul]; omega)
  refine blocks_eq hs ?_ ?_ <;> rw [Nat.sub_mul] <;> omega

theorem blocks_zero (hs : 0 < size) : 0 ⌈/⌉ size = 0 := blocks_eq hs (by omega) (by omega)

/-! ## Pieces of one size -/

variable {α : Type*}

/-- The whole pieces of `n` elements a list starts with; what is left over is dropped. -/
def chunks (n : Nat) (xs : List α) : List (List α) :=
  (List.range (xs.length / n)).map fun i => (xs.drop (n * i)).take n

theorem length_of_mem_chunks {n : Nat} {xs c : List α} (h : c ∈ chunks n xs) : c.length = n := by
  obtain ⟨i, hi, rfl⟩ := List.mem_map.1 h
  rw [List.mem_range] at hi
  have hle : n * (i + 1) ≤ xs.length :=
    Nat.le_trans (Nat.mul_le_mul_left n hi) (Nat.mul_div_le xs.length n)
  rw [Nat.mul_succ] at hle
  rw [List.length_take, List.length_drop]
  omega

theorem chunks_append {n : Nat} (hn : 0 < n) {a : List α} (ha : a.length = n) (b : List α) :
    chunks n (a ++ b) = a :: chunks n b := by
  have hlen : (a ++ b).length / n = b.length / n + 1 := by
    rw [List.length_append, ha, Nat.add_comm, Nat.add_div_right _ hn]
  unfold chunks
  rw [hlen, List.range_succ_eq_map, List.map_cons, List.map_map, Nat.mul_zero, List.drop_zero,
    List.take_left' ha]
  congr 1
  refine List.map_congr_left fun i _ => ?_
  rw [Function.comp_apply, Nat.mul_succ, Nat.add_comm, ← List.drop_drop, List.drop_left' ha]

theorem length_chunks (n : Nat) (xs : List α) : (chunks n xs).length = xs.length / n := by
  rw [chunks, List.length_map, List.length_range]

end Ps5Upload.Blocks
