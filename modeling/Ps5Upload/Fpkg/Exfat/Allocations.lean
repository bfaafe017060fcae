import Ps5Upload.Fpkg.Exfat.Written

/-!
# exFAT: the allocations of an image

The clusters of an image belong to the bitmap, to the up-case table, or to a folder or a file.

* `Tiles` — stretches that follow one another without a gap.
-/

namespace Ps5Upload.Exfat

open ByteFile Checked Blocks

/-! ## Stretches -/

/-- Stretches, each a start and a length, that follow one another from `a` up to `b`. -/
def Tiles : List (Nat × Nat) → Nat → Nat → Prop
  | [], a, b => a = b
  | s :: ss, a, b => s.1 = a ∧ Tiles ss (a + s.2) b

namespace Tiles

variable {ss : List (Nat × Nat)} {a b : Nat}

theorem append {ss' : List (Nat × Nat)} {c : Nat} (h : Tiles ss a b) (h' : Tiles ss' b c) :
    Tiles (ss ++ ss') a c := by
  induction ss generalizing a with
  | nil =>
    cases h
    exact h'
  | cons s ss ih => exact ⟨h.1, ih h.2⟩

theorem le (h : Tiles ss a b) : a ≤ b := by
  induction ss generalizing a with
  | nil => exact Nat.le_of_eq h
  | cons s ss ih => exact Nat.le_trans (Nat.le_add_right a s.2) (ih h.2)

theorem ge_of_mem (h : Tiles ss a b) {s : Nat × Nat} (hs : s ∈ ss) : a ≤ s.1 ∧ s.1 + s.2 ≤ b := by
  induction ss generalizing a with
  | nil => cases hs
  | cons r ss ih =>
    rcases List.mem_cons.1 hs with rfl | hs
    · have := h.2.le
      rw [h.1]
      exact ⟨Nat.le_refl a, this⟩
    · have := ih h.2 hs
      exact ⟨by omega, this.2⟩

/-- Each ends before the ones behind it start. -/
theorem pairwise (h : Tiles ss a b) : ss.Pairwise fun r s => r.1 + r.2 ≤ s.1 := by
  induction ss generalizing a with
  | nil => exact List.Pairwise.nil
  | cons r ss ih =>
    refine List.pairwise_cons.2 ⟨fun s hs => ?_, ih h.2⟩
    rw [h.1]
    exact (h.2.ge_of_mem hs).1

/-- Together they are everything from `a` up to `b`. -/
theorem mem_iff (h : Tiles ss a b) (c : Nat) :
    (∃ s ∈ ss, s.1 ≤ c ∧ c < s.1 + s.2) ↔ a ≤ c ∧ c < b := by
  constructor
  · rintro ⟨s, hs, hge, hlt⟩
    have := h.ge_of_mem hs
    omega
  · rintro ⟨hge, hlt⟩
    induction ss generalizing a with
    | nil =>
      have : a = b := h
      omega
    | cons r ss ih =>
      by_cases hc : c < a + r.2
      · exact ⟨r, List.mem_cons_self, by rw [h.1]; exact hge, by rw [h.1]; exact hc⟩
      · obtain ⟨s, hs, hin⟩ := ih h.2 (by omega)
        exact ⟨s, List.mem_cons_of_mem r hs, hin⟩

end Tiles

/-! ## The clusters in use -/

/-- The first cluster and the number of clusters of everything in an image. -/
def allocations (p : ExfatPlan) : List (Nat × Nat) :=
  [(firstHeapCluster, p.l.bitmapClusters),
    (p.l.upcaseCluster, p.l.upcase.length ⌈/⌉ p.l.cluster)] ++
  (p.l.order.filter fun i => decide (0 < (nodeAt p.tree i).clusters)).map fun i =>
    ((nodeAt p.tree i).firstCluster, (nodeAt p.tree i).clusters)

theorem placed_tiles {t : Tree} {order : List Nat} {next : Nat} (h : Placed t order next) :
    Tiles ((order.filter fun i => decide (0 < (nodeAt t i).clusters)).map fun i =>
      ((nodeAt t i).firstCluster, (nodeAt t i).clusters)) next (next + clustersOf t order) := by
  induction order generalizing next with
  | nil => rfl
  | cons i order ih =>
    have hrest := ih h.2
    rw [Nat.add_assoc, ← clustersOf_cons] at hrest
    by_cases hc : 0 < (nodeAt t i).clusters
    · rw [List.filter_cons_of_pos (by simpa using hc), List.map_cons]
      refine ⟨?_, hrest⟩
      rw [h.1, if_neg (by omega)]
    · rw [List.filter_cons_of_neg (by simpa using hc)]
      rw [show next + (nodeAt t i).clusters = next by omega] at hrest
      exact hrest

section Laid

variable {upcase : Bytes} {t : Tree} {p : ExfatPlan} (h : Laid upcase t p.tree p.l)
  (hu : p.used = p.l.tableClusters + clustersOf p.tree p.l.order)
include h hu

/-- **The allocations tile the clusters in use.** -/
theorem allocations_tile :
    Tiles (allocations p) firstHeapCluster (firstHeapCluster + p.used) := by
  have hnodes := placed_tiles h.placed
  rw [allocations]
  refine Tiles.append (b := firstHeapCluster + p.l.tableClusters) ⟨rfl, h.upcaseCluster_eq, ?_⟩ ?_
  · rw [Layout.tableClusters, ← Nat.add_assoc]
    rfl
  · rw [hu, ← Nat.add_assoc]
    exact hnodes

omit hu in
/-- **Each is a chain of the table.** -/
theorem allocations_chained {a : Nat × Nat} (ha : a ∈ allocations p) :
    Written.Chained p a.1 a.2 := by
  have hused := h.used_le
  have htwo : firstHeapCluster = 2 := rfl
  rw [Layout.tableClusters] at hused
  rcases List.mem_append.1 ha with ha | ha
  · rcases List.mem_cons.1 ha with rfl | ha
    · exact Written.chained_bitmap h
    · rw [List.mem_singleton] at ha
      subst ha
      refine ⟨h.upcaseCluster_eq ▸ allocated_upcase, ?_, ?_⟩
      · rw [h.upcaseCluster_eq]
        exact Nat.le_add_right 2 _
      · rw [h.upcaseCluster_eq]
        dsimp only
        omega
  · obtain ⟨i, hi, rfl⟩ := List.mem_map.1 ha
    obtain ⟨hmem, hpos⟩ := List.mem_filter.1 hi
    exact Written.chained_node h hmem (by simpa using hpos)

end Laid

/-! ## The bitmap -/

/-- A bit of a bitmap, the lowest bit of a byte first. -/
def bitOf (bits : Bytes) (i : Nat) : Bool := (bits[i / 8]?.getD 0).toNat.testBit (i % 8)

theorem bitOf_modify {bits : Bytes} {j : Nat} (hj : j / 8 < bits.length) (i : Nat) :
    bitOf (bits.modify (j / 8) (· ||| UInt8.ofNat (2 ^ (j % 8)))) i =
      (bitOf bits i || decide (i = j)) := by
  unfold bitOf
  rw [List.getElem?_modify]
  by_cases hbyte : j / 8 = i / 8
  · have hlt : i / 8 < bits.length := hbyte ▸ hj
    have hpow : 2 ^ (j % 8) < 256 := by
      have : 2 ^ (j % 8) < 2 ^ 8 := Nat.pow_lt_pow_right (by decide) (Nat.mod_lt j (by decide))
      omega
    rw [List.getElem?_eq_getElem hlt]
    simp only [hbyte, if_true, Option.map_eq_map, Option.map_some, Option.getD_some, UInt8.toNat_or,
      Nat.testBit_or, UInt8.toNat_ofNat', Nat.mod_eq_of_lt hpow, Nat.testBit_two_pow]
    congr 1
    rw [decide_eq_decide]
    omega
  · have hne : i ≠ j := by
      rintro rfl
      exact hbyte rfl
    simp [hbyte, hne]

/-- The bits set are the first `used` ones. -/
theorem bitOf_setBits {used : Nat} {bits : Bytes} (hused : used ≤ 8 * bits.length) (i : Nat) :
    bitOf (setBits used bits) i = (bitOf bits i || decide (i < used)) := by
  induction used with
  | zero => simp [setBits]
  | succ used ih =>
    have hstep : setBits (used + 1) bits = (setBits used bits).modify (used / 8)
        (· ||| UInt8.ofNat (2 ^ (used % 8))) := by
      rw [setBits, List.range_succ, List.foldl_append, ← setBits]
      rfl
    rw [hstep, bitOf_modify (by rw [length_setBits]; omega), ih (by omega), Bool.or_assoc]
    congr 1
    rw [← Bool.decide_or, decide_eq_decide]
    omega

namespace Written

variable {upcase : Bytes} {t : Tree} {p : ExfatPlan} {source : Source} {file : Image}
  (h : Written upcase t p source file)
include h

theorem holds_bitmap : Holds file.bytes (p.l.heapSectors * sectorBytes) (bitmap p) := by
  have hfat := h.laid.fat_le
  have hhead : Holds (imageHead p) (p.l.heapSectors * sectorBytes) (bitmap p) := by
    refine ⟨bootRegion p.l (nodeAt p.tree 0).firstCluster p.used ++
        bootRegion p.l (nodeAt p.tree 0).firstCluster p.used ++
        zeros ((fatOffsetSectors - 24) * sectorBytes) ++ (fatSlotBytes p ++
          zeros (p.l.heapSectors * sectorBytes - fatOffsetSectors * sectorBytes -
            (fatSlotBytes p).length)),
      (p.l.upcase ++
        zeros ((p.l.upcase.length ⌈/⌉ p.l.cluster) * p.l.cluster - p.l.upcase.length)) ++
        p.l.dirs.flatMap fun d => directoryBytes p.tree d p.l, ?_, ?_⟩
    · unfold imageHead
      simp only [List.append_assoc]
    · simp only [List.length_append, length_bootRegion, length_zeros]
      have hgap : (fatOffsetSectors - 24) * sectorBytes = 53248 := rfl
      have hboot : 12 * sectorBytes = 6144 := rfl
      have hoff : fatOffsetSectors * sectorBytes = 65536 := rfl
      omega
  have := h.holds_head.trans hhead
  rwa [Nat.zero_add] at this

/-- **The bitmap marks exactly the allocated clusters.** -/
theorem bitmap_marks {c : Nat} (hc : firstHeapCluster ≤ c) (hlt : c < p.l.clusterCount + 2) :
    bitOf (file.bytes.drop (p.l.heapSectors * sectorBytes)) (c - firstHeapCluster) = true ↔
      ∃ a ∈ allocations p, a.1 ≤ c ∧ c < a.1 + a.2 := by
  have htwo : firstHeapCluster = 2 := rfl
  have hused := h.laid.used_le
  have hbits := h.laid.bitmapBytes_le
  have hcover := le_blocks (show 0 < 8 by decide) p.l.clusterCount
  rw [h.laid.bitmapBytes_eq] at hbits
  have hlen := length_bitmap p
  rw [← h.used] at hused
  have hzero : ∀ n i, bitOf (zeros n) i = false := fun n i => by
    unfold bitOf zeros
    rw [List.getElem?_replicate]
    split <;> simp
  have hbit : bitOf (file.bytes.drop (p.l.heapSectors * sectorBytes)) (c - firstHeapCluster) =
      bitOf (bitmap p) (c - firstHeapCluster) := by
    have htake := h.holds_bitmap.take_drop
    unfold bitOf
    rw [← htake, List.getElem?_take, if_pos (by omega)]
  rw [hbit, bitmap, bitOf_setBits (by rw [length_zeros]; omega), hzero, Bool.false_or,
    decide_eq_true_eq, (allocations_tile h.laid h.used).mem_iff]
  omega

end Written

end Ps5Upload.Exfat
