import Ps5Upload.Fpkg.PlayGo.Build
import Ps5Upload.Lib.ListAt
import Ps5Upload.Lib.Tiles
import Mathlib.Data.List.Perm.Basic

/-!
# Mchunks tile the image

The slices of the data and the rest of the image follow one another up to the container, every one of
them belongs to one chunk, and a file starts in one that belongs to the chunk the file map says.

* `tiles_mchunksOf`, `perm_chunksOf` — the mchunks and their owners.
-/

namespace Ps5Upload.PlayGo

open Blocks

variable {a b c x n units stop cnt : Nat} {ms ms' : List (Nat × Nat)}

/-! ## Slices -/

/-- Where the `k`-th slice starts: the first ones are one unit longer. -/
def sliceStart (units n k : Nat) : Nat := k * (units / n) + min k (units % n)

theorem sliceStart_succ (units n k : Nat) :
    sliceStart units n (k + 1) = sliceStart units n k + sliceLen units n k := by
  unfold sliceStart sliceLen
  rw [Nat.succ_mul]
  split <;> omega

theorem tiles_slices (units n left k : Nat) :
    Tiles (sliceStart units n k * block) (slices units n left k (sliceStart units n k))
      (sliceStart units n (k + left) * block) := by
  induction left generalizing k with
  | zero => exact rfl
  | succ left ih =>
    have hrest := ih (k + 1)
    rw [Nat.add_assoc, Nat.add_comm 1 left] at hrest
    refine ⟨rfl, ?_⟩
    rw [← Nat.add_mul, ← sliceStart_succ]
    exact hrest

theorem sliceStart_last (hn : 0 < n) (units : Nat) : sliceStart units n n = units := by
  have hlt := Nat.mod_lt units hn
  have hdiv := Nat.div_add_mod units n
  unfold sliceStart
  omega

@[simp] theorem length_slices (units n left k at' : Nat) :
    (slices units n left k at').length = left := by
  induction left generalizing k at' with
  | zero => rfl
  | succ left ih => rw [slices, List.length_cons, ih]

theorem tiles_all_slices (hn : 0 < n) (units : Nat) :
    Tiles 0 (slices units n n 0 0) (units * block) := by
  have h := tiles_slices units n n 0
  have h0 : sliceStart units n 0 = 0 := by simp [sliceStart]
  rwa [Nat.zero_add, sliceStart_last hn, h0, Nat.zero_mul] at h

/-! ## The image -/

/-- What the number of chunks and the end of the data are like. -/
structure Cut (n units stop cnt : Nat) : Prop where
  pos : 0 < n
  stop_eq : stop = units * block
  le_cnt : stop ≤ cnt

theorem dvd_dataEnd (files : List ImageFile) (hdvd : block ∣ cnt) : block ∣ dataEnd files cnt := by
  have hmm : ∀ {a b : Nat}, block ∣ a → block ∣ b → block ∣ max a b ∧ block ∣ min a b := by
    intro a b ha hb
    rcases Nat.le_total a b with h | h
    · rw [Nat.max_eq_right h, Nat.min_eq_left h]
      exact ⟨hb, ha⟩
    · rw [Nat.max_eq_left h, Nat.min_eq_right h]
      exact ⟨ha, hb⟩
  exact (hmm (hmm (dvd_alignUp _ _) (Nat.dvd_refl block)).1 (hmm hdvd (Nat.dvd_refl block)).1).2

/-- What `build` cuts. -/
theorem cut_build (files : List ImageFile) (wanted : Nat) (hdvd : block ∣ cnt) (hcnt : 0 < cnt) :
    Cut (chunkCount (dataEnd files cnt / block) wanted) (dataEnd files cnt / block) (dataEnd files cnt)
      cnt where
  pos := Nat.lt_of_lt_of_le Nat.one_pos (Nat.le_max_right _ _)
  stop_eq := (Nat.div_mul_cancel (dvd_dataEnd files hdvd)).symm
  le_cnt := by
    have hle := Nat.le_of_dvd hcnt hdvd
    unfold dataEnd
    omega

theorem tiles_mchunksOf (h : Cut n units stop cnt) : Tiles 0 (mchunksOf n units stop cnt) cnt := by
  unfold mchunksOf
  split
  · exact ⟨rfl, Nat.zero_add _⟩
  · have hslices := tiles_all_slices h.pos units
    rw [← h.stop_eq] at hslices
    refine hslices.append ?_
    have hle := h.le_cnt
    split
    · exact ⟨rfl, show stop + (cnt - stop) = cnt by omega⟩
    · exact show stop = cnt by omega

theorem length_mchunksOf (n units stop cnt : Nat) :
    (mchunksOf n units stop cnt).length = if n = 1 then 1 else n + if stop < cnt then 1 else 0 := by
  unfold mchunksOf
  split
  · rfl
  · rw [List.length_append, length_slices]
    split <;> rfl

/-- The list of the chunks' mchunks, with or without the rest of the image. -/
theorem flatten_chunksOf (hn : 0 < n) (stop cnt : Nat) :
    (chunksOf n stop cnt).flatten =
      if n = 1 then [0]
      else 0 :: (if stop < cnt then [n] else []) ++ (List.range (n - 1)).map (· + 1) := by
  obtain ⟨k, rfl⟩ := Nat.exists_eq_succ_of_ne_zero (Nat.pos_iff_ne_zero.1 hn)
  unfold chunksOf
  split
  · rfl
  · have hone : ∀ l : List Nat, (l.map fun k => [k]).flatten = l := fun l => by
      induction l with
      | nil => rfl
      | cons x l ih => rw [List.map_cons, List.flatten_cons, ih, List.singleton_append]
    rw [List.range_succ_eq_map, List.map_cons]
    dsimp only
    split
    · rw [List.modify_zero_cons, List.flatten_cons, hone]
      rfl
    · rw [List.flatten_cons, hone]
      rfl

/-- Every mchunk belongs to one chunk, and there are no others. -/
theorem perm_chunksOf (h : Cut n units stop cnt) :
    (chunksOf n stop cnt).flatten.Perm (List.range (mchunksOf n units stop cnt).length) := by
  rw [flatten_chunksOf h.pos, length_mchunksOf]
  obtain ⟨k, rfl⟩ := Nat.exists_eq_succ_of_ne_zero (Nat.pos_iff_ne_zero.1 h.pos)
  split
  · exact .refl _
  · have hrange : List.range (k + 1) = 0 :: (List.range k).map (· + 1) := List.range_succ_eq_map
    split
    · rw [List.range_succ, Nat.succ_eq_add_one, hrange]
      exact List.Perm.cons 0 List.perm_append_comm
    · rw [Nat.succ_eq_add_one, Nat.add_zero, hrange]
      exact .refl _

theorem length_chunksOf (n stop cnt : Nat) : (chunksOf n stop cnt).length = n := by
  unfold chunksOf
  split
  · rename_i h
    exact h.symm
  · dsimp only
    split <;> simp

/-! ## Files -/

/-- The chunk of a file owns an mchunk that holds the file's first byte. -/
theorem holds_chunkAt (h : Cut n units stop cnt) (hx : x < cnt) :
    ∃ m range owned, (mchunksOf n units stop cnt)[m]? = some range ∧ range.1 ≤ x ∧
      x < range.1 + range.2 ∧ (chunksOf n stop cnt)[chunkAt n (mchunksOf n units stop cnt) x]? = some owned ∧
      m ∈ owned := by
  unfold chunkAt
  by_cases hn : n = 1
  · subst hn
    exact ⟨0, (0, cnt), [0], rfl, Nat.zero_le _, by simpa using hx, rfl, List.mem_cons_self⟩
  rw [if_neg hn]
  have hslices := tiles_all_slices h.pos units
  rw [← h.stop_eq] at hslices
  have htake : (mchunksOf n units stop cnt).take n = slices units n n 0 0 := by
    rw [mchunksOf, if_neg hn]
    exact List.take_left' (length_slices _ _ _ _ _)
  rw [htake]
  rcases Nat.lt_or_ge x stop with hlt | hge
  · obtain ⟨i, m, hfind, hget, hlo, hhi⟩ := hslices.find (Nat.zero_le x) hlt
    have hi : i < n := by
      have := (List.getElem?_eq_some_iff.1 hget).1
      rwa [length_slices] at this
    rw [hfind, Option.getD_some]
    have hown : ∃ owned, (chunksOf n stop cnt)[i]? = some owned ∧ i ∈ owned := by
      unfold chunksOf
      rw [if_neg hn]
      dsimp only
      split
      · rw [List.getElem?_modify, List.getElem?_map, List.getElem?_range hi]
        refine ⟨_, rfl, ?_⟩
        by_cases h0 : 0 = i <;> simp [h0]
      · rw [List.getElem?_map, List.getElem?_range hi]
        exact ⟨_, rfl, List.mem_cons_self⟩
    obtain ⟨owned, howned, hmem⟩ := hown
    refine ⟨i, m, owned, ?_, hlo, hhi, howned, hmem⟩
    rw [mchunksOf, if_neg hn, List.getElem?_append_left (by rwa [length_slices]), hget]
  · have htail : stop < cnt := Nat.lt_of_le_of_lt hge hx
    rw [hslices.find_none hge]
    refine ⟨n, (stop, cnt - stop), [0, n], ?_, hge, by omega, ?_, by simp⟩
    · rw [mchunksOf, if_neg hn, if_pos htail,
        List.getElem?_append_right (by rw [length_slices]), length_slices, Nat.sub_self]
      rfl
    · rw [chunksOf, if_neg hn, if_pos htail]
      obtain ⟨k, rfl⟩ := Nat.exists_eq_succ_of_ne_zero (Nat.pos_iff_ne_zero.1 h.pos)
      rw [List.range_succ_eq_map]
      rfl

/-- A chunk is never past the last one. -/
theorem chunkAt_lt (h : Cut n units stop cnt) (x : Nat) :
    chunkAt n (mchunksOf n units stop cnt) x < n := by
  unfold chunkAt
  split
  · exact h.pos
  · cases hfind : ((mchunksOf n units stop cnt).take n).findIdx? fun m => x < m.1 + m.2 with
    | none => exact h.pos
    | some i =>
      have hlt := (List.findIdx?_eq_some_iff_getElem.1 hfind).1
      rw [List.length_take] at hlt
      exact Nat.lt_of_lt_of_le hlt (Nat.min_le_left _ _)

end Ps5Upload.PlayGo
