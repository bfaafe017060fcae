import Mathlib.Algebra.BigOperators.Field
import Mathlib.Algebra.BigOperators.Ring.Finset
import Mathlib.Algebra.Order.BigOperators.Group.List
import Mathlib.Algebra.Order.Field.Rat
import Mathlib.Data.Nat.Fib.Basic
import Mathlib.Tactic.Ring
import Mathlib.Tactic.FieldSimp

/-!
# Merging the two lightest

Leaves with weights stand under roots, and the two lightest roots get a new root above them, again and
again, as Huffman's construction does.
-/

namespace Ps5Upload.Merging

variable {ι : Type}

/-- The root above every leaf, and how far above it is. -/
structure Above (ι : Type) where
  root : ι → Nat
  depth : ι → Nat

/-- A new root `n` above `a` and `b`. -/
def Above.merge (s : Above ι) (a b n : Nat) : Above ι where
  root i := if s.root i = a ∨ s.root i = b then n else s.root i
  depth i := if s.root i = a ∨ s.root i = b then s.depth i + 1 else s.depth i

/-- What the leaves under a root make of a code. -/
def Above.share (s : Above ι) (leaves : Finset ι) (r : Nat) : ℚ :=
  ∑ i ∈ leaves with s.root i = r, (1 / 2) ^ s.depth i

variable {s : Above ι} {leaves : Finset ι} {a b n r : Nat}

variable {i : ι}

theorem root_merged (h : s.root i = a ∨ s.root i = b) : (s.merge a b n).root i = n := if_pos h

theorem depth_merged (h : s.root i = a ∨ s.root i = b) : (s.merge a b n).depth i = s.depth i + 1 := if_pos h

theorem root_kept (h : ¬(s.root i = a ∨ s.root i = b)) : (s.merge a b n).root i = s.root i := if_neg h

theorem depth_kept (h : ¬(s.root i = a ∨ s.root i = b)) : (s.merge a b n).depth i = s.depth i := if_neg h

/-- The new root has half of both shares. -/
theorem share_merge (hab : a ≠ b) (hn : ∀ i ∈ leaves, s.root i ≠ n) :
    (s.merge a b n).share leaves n = (s.share leaves a + s.share leaves b) / 2 := by
  rw [Above.share, Above.share, Above.share, Finset.sum_filter, Finset.sum_filter, Finset.sum_filter,
    ← Finset.sum_add_distrib, Finset.sum_div]
  refine Finset.sum_congr rfl fun i hi => ?_
  by_cases ha : s.root i = a
  · have hb : s.root i ≠ b := fun h => hab (ha.symm.trans h)
    rw [if_pos (root_merged (Or.inl ha)), depth_merged (Or.inl ha), if_pos ha, if_neg hb, pow_succ]
    ring
  · by_cases hb : s.root i = b
    · rw [if_pos (root_merged (Or.inr hb)), depth_merged (Or.inr hb), if_neg ha, if_pos hb, pow_succ]
      ring
    · have hroot : (s.merge a b n).root i ≠ n := by
        rw [root_kept (not_or.2 ⟨ha, hb⟩)]
        exact hn i hi
      rw [if_neg hroot, if_neg ha, if_neg hb]
      ring

/-- Another root keeps its share. -/
theorem share_merge_of_ne (hra : r ≠ a) (hrb : r ≠ b) (hrn : r ≠ n) :
    (s.merge a b n).share leaves r = s.share leaves r := by
  rw [Above.share, Above.share, Finset.sum_filter, Finset.sum_filter]
  refine Finset.sum_congr rfl fun i _ => ?_
  by_cases h : s.root i = a ∨ s.root i = b
  · have hne : s.root i ≠ r := by
      rcases h with h | h
      · exact h ▸ hra.symm
      · exact h ▸ hrb.symm
    rw [if_neg (by rw [root_merged h]; exact hrn.symm), if_neg hne]
  · simp only [root_kept h, depth_kept h]

/-- The roots that are left, with their weights, after merges of the two lightest; `low` is the weight of
the last one that was merged. -/
structure Merged (leaves : Finset ι) (heap : List (Nat × Nat)) (s : Above ι) (low n total : Nat) : Prop where
  nodup : (heap.map Prod.snd).Nodup
  old : ∀ e ∈ heap, e.2 < n
  sum : (heap.map Prod.fst).sum = total
  low_le : ∀ e ∈ heap, low ≤ e.1
  /-- A leaf's depth is bounded by its root's weight, and without its last step by what was merged. -/
  rooted : ∀ i ∈ leaves, ∃ w, (w, s.root i) ∈ heap ∧
    Nat.fib (s.depth i + 2) ≤ w ∧ Nat.fib (s.depth i + 1) ≤ low
  share : ∀ e ∈ heap, s.share leaves e.2 = 1

variable {heap heap' : List (Nat × Nat)} {low total wa wb : Nat}

theorem Merged.perm (h : Merged leaves heap s low n total) (hp : heap.Perm heap') :
    Merged leaves heap' s low n total where
  nodup := (hp.map Prod.snd).nodup_iff.1 h.nodup
  old e he := h.old e (hp.mem_iff.2 he)
  sum := (hp.map Prod.fst).sum_eq.symm.trans h.sum
  low_le e he := h.low_le e (hp.mem_iff.2 he)
  rooted i hi := by
    obtain ⟨w, hw, hfib⟩ := h.rooted i hi
    exact ⟨w, hp.mem_iff.1 hw, hfib⟩
  share e he := h.share e (hp.mem_iff.2 he)

/-- **The two lightest are merged.** -/
theorem Merged.step (h : Merged leaves ((wa, a) :: (wb, b) :: heap) s low n total) (hab : wa ≤ wb)
    (hrest : ∀ e ∈ heap, wb ≤ e.1) :
    Merged leaves ((wa + wb, n) :: heap) (s.merge a b n) wb (n + 1) total := by
  have hnodup := h.nodup
  rw [List.map_cons, List.map_cons, List.nodup_cons, List.nodup_cons] at hnodup
  obtain ⟨ha, hb, hheap⟩ := hnodup
  have hne : a ≠ b := fun h => ha (h ▸ List.mem_cons_self)
  have hna : a < n := h.old (wa, a) List.mem_cons_self
  have hnb : b < n := h.old (wb, b) (List.mem_cons_of_mem _ List.mem_cons_self)
  have hold : ∀ e ∈ heap, e.2 < n := fun e he => h.old e (List.mem_cons_of_mem _ (List.mem_cons_of_mem _ he))
  have hlow : low ≤ wa := h.low_le (wa, a) List.mem_cons_self
  have hroots : ∀ i ∈ leaves, s.root i ≠ n := fun i hi heq => by
    obtain ⟨w, hw, -⟩ := h.rooted i hi
    exact absurd (h.old _ hw) (by dsimp only; omega)
  refine ⟨?_, ?_, ?_, ?_, ?_, ?_⟩
  · rw [List.map_cons, List.nodup_cons]
    refine ⟨fun hmem => ?_, hheap⟩
    obtain ⟨e, he, heq⟩ := List.mem_map.1 hmem
    have := hold e he
    omega
  · intro e he
    rcases List.mem_cons.1 he with rfl | he
    · exact Nat.lt_succ_self n
    · exact Nat.lt_succ_of_lt (hold e he)
  · have hsum := h.sum
    rw [List.map_cons, List.map_cons, List.sum_cons, List.sum_cons] at hsum
    rw [List.map_cons, List.sum_cons]
    omega
  · intro e he
    rcases List.mem_cons.1 he with rfl | he
    · exact Nat.le_add_left wb wa
    · exact hrest e he
  · intro i hi
    obtain ⟨w, hw, hfib, hfib'⟩ := h.rooted i hi
    by_cases hmerged : s.root i = a ∨ s.root i = b
    · -- one step deeper: the lighter root is no lighter than what was merged before
      have hroot : (s.merge a b n).root i = n := root_merged hmerged
      have hdepth : (s.merge a b n).depth i = s.depth i + 1 := depth_merged hmerged
      have hw' : w = wa ∨ w = wb := by
        rcases List.mem_cons.1 hw with heq | hw
        · exact Or.inl (congrArg Prod.fst heq)
        · rcases List.mem_cons.1 hw with heq | hw
          · exact Or.inr (congrArg Prod.fst heq)
          · have hmem := List.mem_map_of_mem (f := Prod.snd) hw
            rcases hmerged with heq | heq
            · exact absurd (heq ▸ hmem) fun hmem => ha (List.mem_cons_of_mem _ hmem)
            · exact absurd (heq ▸ hmem) hb
      have hadd : Nat.fib (s.depth i + 3) = Nat.fib (s.depth i + 1) + Nat.fib (s.depth i + 2) := Nat.fib_add_two
      refine ⟨wa + wb, ?_, ?_, ?_⟩
      · rw [hroot]
        exact List.mem_cons_self
      · rw [hdepth, show s.depth i + 1 + 2 = s.depth i + 3 from rfl, hadd]
        rcases hw' with rfl | rfl <;> omega
      · rw [hdepth, show s.depth i + 1 + 1 = s.depth i + 2 from rfl]
        rcases hw' with rfl | rfl <;> omega
    · have hroot : (s.merge a b n).root i = s.root i := root_kept hmerged
      have hdepth : (s.merge a b n).depth i = s.depth i := depth_kept hmerged
      rw [not_or] at hmerged
      refine ⟨w, ?_, hdepth ▸ hfib, ?_⟩
      · rw [hroot]
        rcases List.mem_cons.1 hw with heq | hw
        · exact absurd (congrArg Prod.snd heq) hmerged.1
        · rcases List.mem_cons.1 hw with heq | hw
          · exact absurd (congrArg Prod.snd heq) hmerged.2
          · exact List.mem_cons_of_mem _ hw
      · rw [hdepth]
        omega
  · intro e he
    rcases List.mem_cons.1 he with rfl | he
    · rw [share_merge hne hroots, h.share (wa, a) List.mem_cons_self,
        h.share (wb, b) (List.mem_cons_of_mem _ List.mem_cons_self)]
      norm_num
    · have hmem := List.mem_map_of_mem (f := Prod.snd) he
      have hea : e.2 ≠ a := fun heq => ha (List.mem_cons_of_mem _ (heq ▸ hmem))
      have heb : e.2 ≠ b := fun heq => hb (heq ▸ hmem)
      rw [share_merge_of_ne hea heb (Nat.ne_of_lt (hold e he))]
      exact h.share e (List.mem_cons_of_mem _ (List.mem_cons_of_mem _ he))

/-- **Under the last root the depths make a complete code.** -/
theorem Merged.complete (h : Merged leaves [(wa, a)] s low n total) : ∑ i ∈ leaves, (1 / 2 : ℚ) ^ s.depth i = 1 := by
  have hall : leaves.filter (fun i => s.root i = a) = leaves := by
    refine Finset.filter_true_of_mem fun i hi => ?_
    obtain ⟨w, hw, -⟩ := h.rooted i hi
    exact congrArg Prod.snd (List.mem_singleton.1 hw)
  have := h.share (wa, a) List.mem_cons_self
  rw [Above.share] at this
  exact hall ▸ this

/-- **A leaf's depth is bounded by the sum of the weights.** -/
theorem Merged.fib_le (h : Merged leaves heap s low n total) {i : ι} (hi : i ∈ leaves) :
    Nat.fib (s.depth i + 2) ≤ total := by
  obtain ⟨w, hw, hfib, -⟩ := h.rooted i hi
  exact h.sum ▸ Nat.le_trans hfib (List.le_sum_of_mem (List.mem_map_of_mem (f := Prod.fst) hw))

/-- Leaves that are roots themselves. -/
theorem Merged.start {ws : List Nat} (hws : ∀ w ∈ ws, 0 < w) :
    Merged (Finset.range ws.length) ws.zipIdx ⟨id, fun _ => 0⟩ 1 ws.length ws.sum where
  nodup := by
    rw [List.zipIdx_map_snd]
    exact List.nodup_range'
  old e he := by
    have := List.mem_zipIdx he
    omega
  sum := by rw [List.zipIdx_map_fst]
  low_le e he := hws e.1 (List.fst_mem_of_mem_zipIdx he)
  rooted i hi := by
    have hlt := Finset.mem_range.1 hi
    refine ⟨ws[i], List.mk_mem_zipIdx_iff_getElem?.2 (List.getElem?_eq_getElem hlt), ?_, Nat.le_refl 1⟩
    exact hws _ (List.getElem_mem hlt)
  share e he := by
    have hlt : e.2 < ws.length := by
      have := List.mem_zipIdx he
      omega
    have hone : (Finset.range ws.length).filter (fun i => id i = e.2) = {e.2} := by
      ext i
      rw [Finset.mem_filter, Finset.mem_range, Finset.mem_singleton]
      exact ⟨fun h => h.2, fun h => ⟨h ▸ hlt, h⟩⟩
    rw [Above.share]
    dsimp only
    rw [hone, Finset.sum_singleton, pow_zero]

end Ps5Upload.Merging
