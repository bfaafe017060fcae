import Ps5Upload.Fpkg.Exfat.Reader
import Ps5Upload.Fpkg.Exfat.Skip

/-!
# exFAT: the volume in a written image

What `from_file` makes of an image the writer wrote, and what stands where in it.

* `fromFile_written` — the volume opens, with the layout's geometry;
* `stream_region` — a stream of an allocation is the bytes of its clusters.
-/

namespace Ps5Upload.Exfat

open ByteFile Checked Caching Blocks

/-! ## Opening -/

/-- The volume a layout describes. -/
def volumeOf (p : ExfatPlan) (file : Image) : Volume :=
  ⟨file, ⟨0, sectorBytes, p.l.cluster, p.l.clusterCount⟩, fatOffsetSectors * sectorBytes,
    p.l.heapSectors * sectorBytes, (nodeAt p.tree 0).firstCluster⟩

theorem bootSector_split (l : Layout) (root used : Nat) : ∃ a b c, bootSector l root used =
    a ++ (le 4 fatOffsetSectors ++ (le 4 l.fatSectors ++ (le 4 l.heapSectors ++
      (le 4 l.clusterCount ++ (le 4 root ++ (b ++ (le 1 (Nat.log2 sectorBytes) ++
        (le 1 (Nat.log2 (l.cluster / sectorBytes)) ++ c)))))))) ∧
    a.length = 80 ∧ b.length = 8 ∧ (a.drop 3).take 8 = oem := by
  refine ⟨[0xEB, 0x76, 0x90] ++ "EXFAT   ".toUTF8.toList ++ zeros 61 ++
      le 8 (l.heapSectors + l.clusterCount * (l.cluster / sectorBytes)),
    le 4 (l.clusterCount % 2 ^ 32 ^^^ l.cluster * 2 ^ 4 % 2 ^ 32 ^^^ 0x50555035) ++
      le 2 0x0100 ++ zeros 2,
    [1, 0x80] ++ le 1 (min (used * 100 / l.clusterCount) 100) ++ zeros 397 ++ [0x55, 0xAA],
    ?_, ?_, ?_, ?_⟩
  · unfold bootSector
    simp only [List.append_assoc]
  · simp only [List.length_append, length_le, length_zeros, length_oem, List.length_cons,
      List.length_nil]
  · simp only [List.length_append, length_le, length_zeros]
  · rw [List.append_assoc, List.append_assoc, List.drop_left' (by rfl),
      List.take_left' length_oem]
    rfl

section Boot

variable (l : Layout) (root used : Nat)

theorem boot_tag : ((bootSector l root used).drop 3).take 8 = oem := by
  obtain ⟨a, b, c, h, ha, -, htag⟩ := bootSector_split l root used
  rw [h, List.drop_append_of_le_length (by omega),
    List.take_append_of_le_length (by rw [List.length_drop]; omega), htag]

/-- The numbers the reader takes from the boot sector. -/
theorem boot_fields : leAt (bootSector l root used) 80 4 = fatOffsetSectors ∧
    leAt (bootSector l root used) 88 4 = l.heapSectors % 256 ^ 4 ∧
    leAt (bootSector l root used) 92 4 = l.clusterCount % 256 ^ 4 ∧
    leAt (bootSector l root used) 96 4 = root % 256 ^ 4 ∧
    leAt (bootSector l root used) 108 1 = 9 ∧
    leAt (bootSector l root used) 109 1 = Nat.log2 (l.cluster / sectorBytes) % 256 ^ 1 := by
  obtain ⟨a, b, c, h, ha, hb, -⟩ := bootSector_split l root used
  rw [h]
  refine ⟨?_, ?_, ?_, ?_, ?_, ?_⟩ <;>
    rw [leAt_append _ _ (by omega), ha]
  · rw [leAt_le]
    rfl
  · rw [leAt_le_append _ _ (by decide), leAt_le_append _ _ (by decide), leAt_le]
  · rw [leAt_le_append _ _ (by decide), leAt_le_append _ _ (by decide),
      leAt_le_append _ _ (by decide), leAt_le]
  · rw [leAt_le_append _ _ (by decide), leAt_le_append _ _ (by decide),
      leAt_le_append _ _ (by decide), leAt_le_append _ _ (by decide), leAt_le]
  · rw [leAt_le_append _ _ (by decide), leAt_le_append _ _ (by decide),
      leAt_le_append _ _ (by decide), leAt_le_append _ _ (by decide),
      leAt_le_append _ _ (by decide), leAt_append _ _ (by omega), hb, leAt_le]
    decide
  · rw [leAt_le_append _ _ (by decide), leAt_le_append _ _ (by decide),
      leAt_le_append _ _ (by decide), leAt_le_append _ _ (by decide),
      leAt_le_append _ _ (by decide), leAt_append _ _ (by omega), hb,
      leAt_le_append _ _ (by decide), leAt_le]

end Boot

set_option maxRecDepth 2000 in
/-- An image that starts with a boot sector of 512-byte sectors opens as that says. -/
theorem fromFile_of_boot {file : Image} (label : String) {boot : Bytes} {fat heap count root k : Nat}
    (hboot : readAt file 0 512 = .ok boot) (htag : (boot.drop 3).take 8 = oem)
    (h108 : leAt boot 108 1 = 9) (h109 : leAt boot 109 1 = k) (hk : 9 + k ≤ 25)
    (hheap : heap < 2 ^ 32) (hcount : 2 ≤ count) (hcount' : count + 2 < 2 ^ 32) (hroot : 2 ≤ root)
    (hroot' : root < count + 2) (h80 : leAt boot 80 4 = fat) (h88 : leAt boot 88 4 = heap)
    (h92 : leAt boot 92 4 = count) (h96 : leAt boot 96 4 = root)
    (hend : heap * 512 + count * 2 ^ (9 + k) = file.len) (hfat : fat * 512 < file.len) :
    fromFile file label =
      .ok ⟨file, ⟨0, 512, 2 ^ (9 + k), count⟩, fat * 512, heap * 512, root⟩ := by
  have hfits := file.len_lt
  have h512 := length_of_readAt hboot
  have hle := (readAt_ok hboot).1
  have hpow : 2 ^ (9 + k) ≤ 2 ^ 25 := Nat.pow_le_pow_right (by omega) hk
  have hfind : findVolume file = .ok 0 := by
    unfold findVolume
    rw [if_neg (by omega), hboot, ok_bind, slice_eq (by omega) (by omega), ok_bind, htag, if_pos rfl]
  have hsector : (shl 64 1 9 : Res Nat) = .ok 512 := by decide
  have hcluster : (shl 64 512 k : Res Nat) = .ok (2 ^ (9 + k)) := by
    have hmul : 512 * 2 ^ k = 2 ^ (9 + k) := (pow_add 2 9 k).symm
    rw [shl_eq (by omega), Nat.shiftLeft_eq, hmul, Nat.mod_eq_of_lt (by omega)]
  unfold fromFile
  rw [hfind, ok_bind, hboot, ok_bind, slice_eq (by omega) (by omega), ok_bind, htag,
    if_neg (by simp), field_eq (by omega), ok_bind, field_eq (by omega), ok_bind, h108, h109,
    if_neg (by omega), if_neg (by omega), hsector, ok_bind, hcluster, ok_bind, field_eq (by omega),
    ok_bind, h80, mul_eq (by omega), ok_bind, add_eq (by omega), ok_bind, field_eq (by omega),
    ok_bind, h88, mul_eq (by omega), ok_bind, add_eq (by omega), ok_bind, field_eq (by omega),
    ok_bind, h92, field_eq (by omega), ok_bind, h96, if_neg (by omega), mul_eq (by omega), ok_bind]
  dsimp only
  rw [if_neg (by omega), if_neg (by omega), Nat.zero_add, Nat.zero_add]
  have hcheck : checkCluster ⟨file, ⟨0, 512, 2 ^ (9 + k), count⟩, fat * 512, heap * 512, root⟩ root =
      .ok () := by
    unfold checkCluster
    rw [if_neg (by omega), add_eq hcount', ok_bind, if_neg (by omega)]
  rw [hcheck, ok_bind]
  rfl

section Laid

variable {upcase : Bytes} {t : Tree} {p : ExfatPlan} (h : Laid upcase t p.tree p.l)
include h

theorem Laid.dirs_eq : ∃ rest, p.l.dirs = 0 :: rest := by
  obtain ⟨rest, hrest⟩ := h.root_first
  exact ⟨rest, hrest.symm⟩

/-- A folder has a cluster. -/
theorem Laid.dir_pos {d : Nat} (hd : d ∈ p.l.dirs) : 0 < (nodeAt p.tree d).clusters := by
  rw [h.dir_clusters d hd, dirClusters]
  omega

/-- The first cluster of a node that has any. -/
theorem Laid.first_eq {a b : List Nat} {i : Nat} (ho : p.l.order = a ++ i :: b)
    (hc : 0 < (nodeAt p.tree i).clusters) :
    (nodeAt p.tree i).firstCluster =
      firstHeapCluster + p.l.tableClusters + clustersOf p.tree a := by
  have hplaced := h.placed
  rw [ho] at hplaced
  exact hplaced.first hc

/-- Clusters handed out are the volume's. -/
theorem Laid.first_add_le {i : Nat} (hi : i ∈ p.l.order) (hc : 0 < (nodeAt p.tree i).clusters) :
    2 ≤ (nodeAt p.tree i).firstCluster ∧
      (nodeAt p.tree i).firstCluster + (nodeAt p.tree i).clusters ≤ p.l.clusterCount + 2 := by
  obtain ⟨a, b, ho⟩ := List.append_of_mem hi
  have hfirst := h.first_eq ho hc
  have hused := h.used_le
  have htwo : firstHeapCluster = 2 := rfl
  rw [ho, clustersOf_append, clustersOf_cons] at hused
  omega

theorem Laid.root_cluster : 2 ≤ (nodeAt p.tree 0).firstCluster ∧
    (nodeAt p.tree 0).firstCluster < p.l.clusterCount + 2 := by
  obtain ⟨rest, hdirs⟩ := h.dirs_eq
  have hmem : 0 ∈ p.l.dirs := hdirs ▸ List.mem_cons_self
  have hpos := h.dir_pos hmem
  have := h.first_add_le (List.mem_append_left _ hmem) hpos
  omega

theorem Laid.count_ge : 2 ≤ p.l.clusterCount := by
  obtain ⟨rest, hdirs⟩ := h.dirs_eq
  have hpos := h.dir_pos (hdirs ▸ List.mem_cons_self : 0 ∈ p.l.dirs)
  have hused := h.used_le
  have hbitmap := h.bitmap_pos
  rw [Layout.tableClusters, Layout.order, hdirs, List.cons_append, clustersOf_cons] at hused
  omega

theorem Laid.count_lt : p.l.clusterCount + 2 < 2 ^ 32 := by
  have := h.count_le
  have hmax : maxClusters = 0xFFFFFFF5 := rfl
  omega

/-- The heap starts in the sectors 32 bits can name. -/
theorem Laid.heap_lt : p.l.heapSectors < 2 ^ 32 := by
  obtain ⟨k, hk, hk9, hk25⟩ := usableCluster_bounds h.usable
  have hcount := h.count_le
  have hmax : maxClusters = 0xFFFFFFF5 := rfl
  have hfat := blocks_lt (show 0 < sectorBytes by decide) ((p.l.clusterCount + 2) * 4)
  have hsector : sectorBytes = 512 := rfl
  have hper : p.l.cluster / sectorBytes ≤ 2 ^ 16 := by
    have hpow : 2 ^ k ≤ 2 ^ 25 := Nat.pow_le_pow_right (by omega) hk25
    rw [hk, hsector]
    omega
  have hpos : 0 < p.l.cluster / sectorBytes := by
    have hpow : 2 ^ 9 ≤ 2 ^ k := Nat.pow_le_pow_right (by omega) hk9
    rw [hk]
    exact Nat.div_pos hpow (by decide)
  have hheap := blocks_lt hpos (fatOffsetSectors + fatSectorsFor p.l.clusterCount)
  have hoff : fatOffsetSectors = 128 := rfl
  rw [h.heap_eq, heapFor]
  rw [← fatSectorsFor, hsector] at hfat
  omega

theorem Laid.log2_cluster : 2 ^ (9 + Nat.log2 (p.l.cluster / sectorBytes) % 256 ^ 1) = p.l.cluster ∧
    9 + Nat.log2 (p.l.cluster / sectorBytes) % 256 ^ 1 ≤ 25 := by
  obtain ⟨k, hk, hk9, hk25⟩ := usableCluster_bounds h.usable
  have hdiv : p.l.cluster / sectorBytes = 2 ^ (k - 9) := by
    rw [hk, show sectorBytes = 2 ^ 9 from rfl, Nat.pow_div hk9 (by omega)]
  rw [hdiv, Nat.log2_two_pow, Nat.mod_eq_of_lt (by omega), Nat.add_sub_of_le hk9]
  exact ⟨hk.symm, hk25⟩

end Laid

/-- The image is what stands in front of the files, the files and free clusters. -/
theorem writeExfat_out {p : ExfatPlan} {source : Source}
    (hok : (writeExfat p source).failed = none) :
    (writeExfat p source).out = imageHead p ++ ((writeFiles p source 0 p.l.files).out ++
      zeros ((p.l.clusterCount - p.used) * p.l.cluster)) := by
  have hstart : (Run.wrote (imageHead p)).failed = none := rfl
  have hfiles := writeFiles_ok hok
  unfold writeExfat writeExfatAfter
  rw [Run.andThen_ok hstart, Run.andThen_ok (by exact hfiles)]
  exact List.append_assoc ..

/-- An image the writer wrote to its end. -/
structure Written (upcase : Bytes) (t : Tree) (p : ExfatPlan) (source : Source) (file : Image) :
    Prop where
  laid : Laid upcase t p.tree p.l
  used : p.used = p.l.tableClusters + clustersOf p.tree p.l.order
  ok : (writeExfat p source).failed = none
  bytes : file.bytes = (writeExfat p source).out

namespace Written

variable {upcase : Bytes} {t : Tree} {p : ExfatPlan} {source : Source} {file : Image}
  (h : Written upcase t p source file)
include h

theorem len_eq : file.len = p.l.heapSectors * sectorBytes + p.l.clusterCount * p.l.cluster := by
  rw [Image.len, h.bytes, length_writeExfat h.laid h.used h.ok]

theorem boot : readAt file 0 512 =
    .ok (bootSector p.l (nodeAt p.tree 0).firstCluster p.used) := by
  have hlen := h.len_eq
  have hfat := h.laid.fat_le
  have hoff : fatOffsetSectors * sectorBytes = 65536 := rfl
  rw [readAt_eq (by omega), h.bytes, writeExfat_out h.ok, List.drop_zero]
  unfold imageHead bootRegion
  simp only [List.append_assoc]
  rw [List.take_left' (length_bootSector ..)]

/-- **The volume opens.** -/
theorem fromFile_eq (label : String) : fromFile file label = .ok (volumeOf p file) := by
  have hlen := h.len_eq
  have hfat := h.laid.fat_le
  have hslots := length_fatSlotBytes p
  have hroot := h.laid.root_cluster
  obtain ⟨hcluster, hshift⟩ := h.laid.log2_cluster
  obtain ⟨hf80, hf88, hf92, hf96, hf108, hf109⟩ :=
    boot_fields p.l (nodeAt p.tree 0).firstCluster p.used
  have hcount := h.laid.count_lt
  rw [Nat.mod_eq_of_lt (Nat.lt_of_lt_of_eq h.laid.heap_lt (by decide))] at hf88
  rw [Nat.mod_eq_of_lt (by omega)] at hf92 hf96
  rw [fromFile_of_boot label h.boot (boot_tag ..) hf108 hf109 hshift h.laid.heap_lt
    h.laid.count_ge hcount hroot.1 hroot.2 hf80 hf88 hf92 hf96 ?_ ?_]
  · rw [hcluster]
    rfl
  · rw [hcluster, hlen]
    rfl
  · have hsector : sectorBytes = 512 := rfl
    rw [hsector] at hlen hfat
    omega

end Written

/-! ## Slots -/

/-- The pieces of a list of pieces of one size. -/
theorem flatMap_piece {α : Type} {f : α → Bytes} {k : Nat} {l : List α}
    (h : ∀ a ∈ l, (f a).length = k) {j : Nat} (hj : j < l.length) :
    Holds (l.flatMap f) (k * j) (f l[j]) := by
  induction l generalizing j with
  | nil => exact absurd hj (Nat.not_lt_zero j)
  | cons a l ih =>
    cases j with
    | zero => exact ⟨[], l.flatMap f, rfl, rfl⟩
    | succ j =>
      have hrest := ih (fun b hb => h b (List.mem_cons_of_mem a hb)) (Nat.lt_of_succ_lt_succ hj)
      have htail : Holds ((a :: l).flatMap f) k (l.flatMap f) :=
        ⟨f a, [], by rw [List.append_nil]; rfl, h a List.mem_cons_self⟩
      rw [Nat.mul_succ, Nat.add_comm]
      exact htail.trans hrest

theorem leAt_chain {first n c : Nat} (hc : first ≤ c) (hlast : c < first + n)
    (hlt : first + n < 2 ^ 32) :
    leAt (chain first n) (4 * (c - first)) 4 = if c + 1 = first + n then fatEnd else c + 1 := by
  have hj : c - first < (List.range' first n).length := by
    rw [List.length_range']
    omega
  have hpiece := flatMap_piece (fun d (_ : d ∈ List.range' first n) =>
    length_le 4 (if d + 1 = first + n then fatEnd else d + 1)) hj
  have hget : (List.range' first n)[c - first] = c := by
    rw [List.getElem_range']
    omega
  rw [hget] at hpiece
  have hread := hpiece.leAt (i := 0) (w := 4) (by rw [length_le])
  rw [Nat.add_zero] at hread
  rw [chain, hread, ← List.append_nil (le 4 _), leAt_le, Nat.mod_eq_of_lt]
  split
  · decide
  · omega

/-- The table has a chain for the clusters from `first` on. -/
def Allocated (p : ExfatPlan) (first n : Nat) : Prop :=
  Holds (fatSlotBytes p) (4 * first) (chain first n)

theorem nodeChains_part (t : Tree) {a b : List Nat} {i : Nat} (next : Nat) (hi : 0 < (nodeAt t i).clusters) :
    Holds (nodeChains t (a ++ i :: b) next) (4 * clustersOf t a)
      (chain (next + clustersOf t a) (nodeAt t i).clusters) := by
  induction a generalizing next with
  | nil =>
    refine ⟨[], nodeChains t b (next + (nodeAt t i).clusters), ?_, rfl⟩
    rw [List.nil_append, nodeChains, if_pos hi]
    rfl
  | cons j a ih =>
    have hrest := ih (next + (nodeAt t j).clusters)
    rw [List.cons_append, nodeChains, clustersOf_cons, Nat.mul_add, ← Nat.add_assoc]
    refine Holds.trans (d := nodeChains t (a ++ i :: b) (next + (nodeAt t j).clusters)) ?_ hrest
    refine ⟨_, [], by rw [List.append_nil], ?_⟩
    split
    · rw [length_chain]
    · rw [List.length_nil]
      omega

section Laid

variable {upcase : Bytes} {t : Tree} {p : ExfatPlan} (h : Laid upcase t p.tree p.l)
include h

omit h in
theorem allocated_bitmap : Allocated p firstHeapCluster p.l.bitmapClusters :=
  ⟨le 4 0xFFFFFFF8 ++ le 4 fatEnd, _, by
    unfold fatSlotBytes
    simp only [List.append_assoc]
    rfl, by
    simp only [List.length_append, length_le]
    rfl⟩

omit h in
theorem allocated_upcase : Allocated p (firstHeapCluster + p.l.bitmapClusters)
    (p.l.upcase.length ⌈/⌉ p.l.cluster) :=
  ⟨le 4 0xFFFFFFF8 ++ le 4 fatEnd ++ chain firstHeapCluster p.l.bitmapClusters, _, by
    unfold fatSlotBytes
    simp only [List.append_assoc]
    rfl, by
    simp only [List.length_append, length_le, length_chain]
    rw [Nat.mul_add]
    rfl⟩

/-- A folder's or file's clusters are a chain of the table. -/
theorem Laid.allocated {i : Nat} (hi : i ∈ p.l.order) (hc : 0 < (nodeAt p.tree i).clusters) :
    Allocated p (nodeAt p.tree i).firstCluster (nodeAt p.tree i).clusters := by
  obtain ⟨a, b, ho⟩ := List.append_of_mem hi
  have hnodes : Holds (fatSlotBytes p) (4 * (firstHeapCluster + p.l.tableClusters))
      (nodeChains p.tree p.l.order (firstHeapCluster + p.l.tableClusters)) := by
    refine ⟨le 4 0xFFFFFFF8 ++ le 4 fatEnd ++ chain firstHeapCluster p.l.bitmapClusters ++
      chain (firstHeapCluster + p.l.bitmapClusters) (p.l.upcase.length ⌈/⌉ p.l.cluster), [], ?_, ?_⟩
    · rw [List.append_nil, Layout.tableClusters, ← Nat.add_assoc]
      rfl
    · simp only [List.length_append, length_le, length_chain]
      rw [Layout.tableClusters, show firstHeapCluster = 2 from rfl]
      omega
  have hpart := nodeChains_part p.tree (a := a) (b := b)
    (firstHeapCluster + p.l.tableClusters) hc
  rw [← ho] at hpart
  rw [Allocated, h.first_eq ho hc, Nat.mul_add]
  exact hnodes.trans hpart

end Laid

namespace Written

variable {upcase : Bytes} {t : Tree} {p : ExfatPlan} {source : Source} {file : Image}
  (h : Written upcase t p source file)
include h

theorem holds_head : Holds file.bytes 0 (imageHead p) :=
  ⟨[], _, by rw [h.bytes, writeExfat_out h.ok, List.nil_append], rfl⟩

theorem holds_fat : Holds file.bytes (fatOffsetSectors * sectorBytes) (fatSlotBytes p) := by
  have hpart : Holds (imageHead p) (fatOffsetSectors * sectorBytes) (fatSlotBytes p) :=
    ⟨bootRegion p.l (nodeAt p.tree 0).firstCluster p.used ++
        bootRegion p.l (nodeAt p.tree 0).firstCluster p.used ++
        zeros ((fatOffsetSectors - 24) * sectorBytes), _, by
      unfold imageHead
      simp only [List.append_assoc]
      rfl, by
      simp only [List.length_append, length_bootRegion, length_zeros]
      rfl⟩
  have := h.holds_head.trans hpart
  rwa [Nat.zero_add] at this

theorem sound : (volumeOf p file).Sound := from_file_sound (h.fromFile_eq "")

variable {c i first n : Nat}

/-- The slots of the table are the image's words. -/
theorem slot_eq (hc : c < p.l.clusterCount + 2) : (volumeOf p file).slot c =
    .ok (leAt file.bytes (fatOffsetSectors * sectorBytes + 4 * c) 4) := by
  have hlen := h.len_eq
  have hcount := h.laid.count_le
  unfold Volume.slot
  split
  · rw [Volume.slotIn, if_pos (by exact hc)]
    rfl
  · have hfat := h.laid.table_le
    have hread : readAt file (fatOffsetSectors * sectorBytes + 4 * c) 4 = .ok _ :=
      readAt_eq (by omega)
    show readAt file (fatOffsetSectors * sectorBytes + 4 * c) 4 >>= _ = _
    rw [hread]
    rfl

/-- A stretch of the volume's clusters that is one allocation. -/
structure Chained (p : ExfatPlan) (first n : Nat) : Prop where
  allocated : Allocated p first n
  ge : 2 ≤ first
  le : first + n ≤ p.l.clusterCount + 2

omit h in
theorem chained_bitmap (hl : Laid upcase t p.tree p.l) :
    Chained p firstHeapCluster p.l.bitmapClusters := by
  have hused := hl.used_le
  have htwo : firstHeapCluster = 2 := rfl
  rw [Layout.tableClusters] at hused
  exact ⟨allocated_bitmap, by omega, by omega⟩

omit h in
theorem chained_node (hl : Laid upcase t p.tree p.l) (hi : i ∈ p.l.order)
    (hc : 0 < (nodeAt p.tree i).clusters) :
    Chained p (nodeAt p.tree i).firstCluster (nodeAt p.tree i).clusters :=
  ⟨hl.allocated hi hc, (hl.first_add_le hi hc).1, (hl.first_add_le hi hc).2⟩

/-- **A slot of an allocation** leads to the next cluster, or ends the chain at the last. -/
theorem slot_chain (hn : Chained p first n) (hc : first ≤ c) (hlast : c < first + n) :
    leAt file.bytes (fatOffsetSectors * sectorBytes + 4 * c) 4 =
      if c + 1 = first + n then fatEnd else c + 1 := by
  have hle := hn.le
  have hcount := h.laid.count_lt
  have hpart := h.holds_fat.trans hn.allocated
  have hi : 4 * (c - first) + 4 ≤ (chain first n).length := by
    rw [length_chain]
    omega
  have hread := hpart.leAt hi
  rw [Nat.add_assoc, show 4 * first + 4 * (c - first) = 4 * c by omega] at hread
  rw [hread, leAt_chain hc hlast (by omega)]

theorem link_chain (hn : Chained p first n) (hc : first ≤ c)
    (hlast : c < first + n) : (volumeOf p file).link c =
      .ok (if c + 1 = first + n then .endOfChain else .next (c + 1)) := by
  have hle := hn.le
  have hge := hn.ge
  have hmax := h.laid.count_le
  have hcount := h.laid.count_lt
  have hconst : maxClusters = 0xFFFFFFF5 := rfl
  have heoc : fatEoc = 0xFFFFFFF7 := rfl
  unfold Volume.link
  rw [h.slot_eq (by omega), h.slot_chain hn hc hlast, ok_bind, classify]
  rw [show (volumeOf p file).geom.clusterCount = p.l.clusterCount from rfl, add_eq hcount, ok_bind]
  by_cases hend : c + 1 = first + n
  · rw [if_pos hend, if_pos hend, if_neg, if_neg, if_pos]
    · rfl
    · decide
    · decide
    · rintro ⟨-, -, hlt⟩
      exact absurd hlt (by decide)
  · rw [if_neg hend, if_neg hend, if_pos ⟨by omega, by omega, by omega⟩]
    rfl

theorem follow_chain (hn : Chained p first n) (hc : first ≤ c)
    (hlast : c + 1 < first + n) : (volumeOf p file).follow c = some (c + 1) := by
  rw [Volume.follow, h.link_chain hn hc (by omega), if_neg (by omega)]

theorem clusterOf_chain (hn : Chained p first n) (hi : i < n) :
    (volumeOf p file).clusterOf first false i = some (first + i) := by
  have hcons : Consecutive (volumeOf p file) first (n - 1) := fun j hj =>
    h.follow_chain hn (by omega) (by omega)
  have hzero : (volumeOf p file).clusterOf first false 0 = some first := rfl
  have := consecutive_clusterOf hzero hcons (j := i) (by omega)
  rwa [Nat.zero_add] at this

theorem stretch_chain {k : Nat} (hn : Chained p first n) (hk : i + k ≤ n) :
    Stretch (volumeOf p file) first false i (first + i) k := by
  intro j hj
  have hge := hn.ge
  have hle := hn.le
  rw [h.clusterOf_chain hn (by omega), Nat.add_assoc]
  refine ⟨rfl, by omega, ?_⟩
  show first + (i + j) < p.l.clusterCount + 2
  omega

/-- Every slot of an allocation can be read. -/
theorem not_stops {offset len : Nat} (hn : Chained p first n)
    (hend : offset + len ≤ n * p.l.cluster) :
    ¬(volumeOf p file).StopsRead first false offset len := by
  rintro ⟨hlen, -, hmod, hany⟩
  have hpos : 0 < p.l.cluster := h.laid.cluster_pos
  have hsize : (volumeOf p file).geom.clusterSize = p.l.cluster := rfl
  rw [hsize] at hmod hany
  have hdiv : (offset + len) / p.l.cluster ≤ n := Nat.div_le_of_le_mul (by
    rw [Nat.mul_comm]
    exact hend)
  have hone : 0 < (offset + len) / p.l.cluster :=
    Nat.div_pos (Nat.le_of_dvd (by omega) (Nat.dvd_of_mod_eq_zero hmod)) hpos
  have hclust := h.clusterOf_chain hn (i := (offset + len) / p.l.cluster - 1) (by omega)
  rw [Volume.clusterOf, if_neg Bool.false_ne_true] at hclust
  rw [hclust, Option.any_some, decide_eq_true_eq] at hany
  exact not_unreadable (h.link_chain hn (by omega) (by omega)) hany

/-- **A stream of an allocation** is the bytes of its clusters. -/
theorem plainStream_chain {offset len : Nat} (hn : Chained p first n)
    (hoff : offset < n * p.l.cluster) (hend : offset + len ≤ n * p.l.cluster) :
    (volumeOf p file).plainStream first false offset len =
      some ((file.bytes.drop ((volumeOf p file).place first + offset)).take len) := by
  have hpos : 0 < p.l.cluster := h.laid.cluster_pos
  have hsize : (volumeOf p file).geom.clusterSize = p.l.cluster := rfl
  have hdiv : offset / p.l.cluster < n := Nat.div_lt_of_lt_mul (by
    rw [Nat.mul_comm]
    exact hoff)
  have hoffset := Nat.div_add_mod offset p.l.cluster
  rw [Nat.mul_comm] at hoffset
  have hmod := Nat.mod_lt offset hpos
  rw [Volume.plainStream, hsize, h.clusterOf_chain hn hdiv, Option.bind_some, Volume.plainFrom, hsize]
  by_cases hlen : len = 0
  · rw [if_pos hlen, hlen, List.take_zero]
    rfl
  have hblocks : offset / p.l.cluster + (len + offset % p.l.cluster) ⌈/⌉ p.l.cluster ≤ n := by
    have hlt := blocks_lt hpos (len + offset % p.l.cluster)
    have : (offset / p.l.cluster + (len + offset % p.l.cluster) ⌈/⌉ p.l.cluster) * p.l.cluster <
        (n + 1) * p.l.cluster := by
      rw [Nat.add_mul, Nat.succ_mul]
      omega
    have := Nat.lt_of_mul_lt_mul_right this
    omega
  rw [if_neg hlen, plainClusters_stretch (h.stretch_chain hn hblocks), Option.map_some, hsize]
  have hge := hn.ge
  have hplace : ∀ q, (volumeOf p file).place (first + q) =
      (volumeOf p file).place first + q * p.l.cluster := fun q => by
    rw [Volume.place, Volume.place, hsize, show first + q - 2 = first - 2 + q by omega, Nat.add_mul,
      Nat.add_assoc]
  have hle := le_blocks hpos (len + offset % p.l.cluster)
  rw [List.drop_take, List.take_take, List.drop_drop, hplace, Nat.min_eq_left (by omega),
    Nat.add_assoc, hoffset]
  rfl

/-! ## Clusters -/

theorem holds_directories : Holds file.bytes
    (p.l.heapSectors * sectorBytes + p.l.tableClusters * p.l.cluster)
    (p.l.dirs.flatMap fun d => directoryBytes p.tree d p.l) := by
  have hhead := h.laid.length_imageHead
  have hlen := h.laid.length_directories
  obtain ⟨front, hfront⟩ : ∃ front, imageHead p =
      front ++ p.l.dirs.flatMap fun d => directoryBytes p.tree d p.l := ⟨_, rfl⟩
  have hpart := h.holds_head
  rw [hfront] at hhead hpart
  rw [List.length_append, hlen, Nat.add_mul] at hhead
  have := hpart.trans (Holds.of_length (show front.length =
    p.l.heapSectors * sectorBytes + p.l.tableClusters * p.l.cluster by omega))
  rwa [Nat.zero_add] at this

omit h in
theorem holds_flatMap {α : Type} {f : α → Bytes} (a b : List α) (x : α) :
    Holds ((a ++ x :: b).flatMap f) (a.flatMap f).length (f x) :=
  ⟨a.flatMap f, b.flatMap f, by rw [List.flatMap_append, List.flatMap_cons], rfl⟩

theorem place_eq {a b : List Nat} (ho : p.l.order = a ++ i :: b)
    (hc : 0 < (nodeAt p.tree i).clusters) :
    (volumeOf p file).place (nodeAt p.tree i).firstCluster = p.l.heapSectors * sectorBytes +
      p.l.tableClusters * p.l.cluster + clustersOf p.tree a * p.l.cluster := by
  have htwo : firstHeapCluster + p.l.tableClusters + clustersOf p.tree a - 2 =
      p.l.tableClusters + clustersOf p.tree a := by
    rw [show firstHeapCluster = 2 from rfl]
    omega
  rw [Volume.place, h.laid.first_eq ho hc, htwo, Nat.add_assoc, ← Nat.add_mul]
  rfl

/-- **A folder's clusters** hold its entries. -/
theorem holds_directory {d : Nat} (hd : d ∈ p.l.dirs) :
    Holds file.bytes ((volumeOf p file).place (nodeAt p.tree d).firstCluster)
      (directoryBytes p.tree d p.l) := by
  obtain ⟨a, b, hab⟩ := List.append_of_mem hd
  have hlen : (a.flatMap fun d => directoryBytes p.tree d p.l).length =
      clustersOf p.tree a * p.l.cluster := by
    refine length_directories fun e he => h.laid.dir_size e ?_
    rw [hab]
    exact List.mem_append_left _ he
  have hpart := h.holds_directories
  rw [hab] at hpart
  have hdir := hpart.trans (holds_flatMap a b d)
  rw [hlen] at hdir
  rwa [h.place_eq (a := a) (b := b ++ p.l.files) (by
    rw [Layout.order, hab, List.append_assoc, List.cons_append]) (h.laid.dir_pos hd)]

omit h in
theorem writeFiles_part {f : Nat} {a b : List Nat} {pos : Nat} (hfs : FilesFrom p (a ++ f :: b) pos)
    (hok : (writeFiles p source 0 (a ++ f :: b)).failed = none) :
    Holds (writeFiles p source 0 (a ++ f :: b)).out (clustersOf p.tree a * p.l.cluster)
      (writeFile p source 0 f).out ∧ (writeFile p source 0 f).failed = none := by
  induction a generalizing pos with
  | nil =>
    rw [List.nil_append, writeFiles] at hok ⊢
    rcases (writeFile p source 0 f).failed_cases with hf | hf
    · rw [Run.andThen_ok hf]
      refine ⟨⟨[], (writeFiles p source 0 b).out, (List.nil_append _).symm, ?_⟩, hf⟩
      exact (Nat.zero_mul _).symm
    · rw [Run.andThen_failed hf] at hok
      rw [hok] at hf
      cases hf
  | cons g a ih =>
    obtain ⟨-, hsize, hrest⟩ := hfs
    rw [List.cons_append, writeFiles] at hok ⊢
    rcases writeFile_length source hsize with ⟨hf, hl⟩ | ⟨hf, -⟩
    · rw [Run.andThen_ok hf] at hok ⊢
      obtain ⟨hpart, hfile⟩ := ih hrest hok
      refine ⟨?_, hfile⟩
      rw [clustersOf_cons, Nat.add_mul]
      refine Holds.trans (d := (writeFiles p source 0 (a ++ f :: b)).out) ?_ hpart
      exact Holds.of_length hl
    · rw [Run.andThen_failed hf] at hok
      rw [hok] at hf
      cases hf

/-- **A file's clusters** hold what was copied to them. -/
theorem holds_file {f : Nat} (hf : f ∈ p.l.files) (hc : 0 < (nodeAt p.tree f).clusters) :
    Holds file.bytes ((volumeOf p file).place (nodeAt p.tree f).firstCluster)
      (writeFile p source 0 f).out ∧ (writeFile p source 0 f).failed = none := by
  obtain ⟨a, b, hab⟩ := List.append_of_mem hf
  have hok := writeFiles_ok h.ok
  have hfs := h.laid.filesFrom
  have hhead := h.laid.length_imageHead
  rw [hab] at hok hfs
  obtain ⟨hpart, hfile⟩ := writeFiles_part hfs hok
  refine ⟨?_, hfile⟩
  have hfiles : Holds file.bytes (imageHead p).length (writeFiles p source 0 p.l.files).out :=
    ⟨imageHead p, _, by rw [h.bytes, writeExfat_out h.ok], rfl⟩
  rw [← hab] at hpart
  have := hfiles.trans hpart
  rwa [h.place_eq (a := p.l.dirs ++ a) (b := b) (by
    rw [Layout.order, hab, List.append_assoc]) hc, clustersOf_append, Nat.add_mul, ← Nat.add_assoc,
    Nat.add_assoc (p.l.heapSectors * sectorBytes), ← Nat.add_mul, ← hhead]

end Written

end Ps5Upload.Exfat
