import Ps5Upload.Fpkg.Exfat.Laid
import Ps5Upload.Fpkg.Exfat.Write

/-!
# exFAT: a run of the writer that skips

Where every part of an image lies in the bytes the writer gives out, and what a run for a writer that
drops its first bytes does with them.

* `length_imageHead` — the files begin where the plan's first file cluster is.
-/

namespace Ps5Upload.Exfat

open ByteFile Checked Blocks

/-! ## Lengths -/

theorem length_oem : "EXFAT   ".toUTF8.toList.length = 8 := by decide +kernel

theorem length_bootSector (l : Layout) (root used : Nat) : (bootSector l root used).length = 512 := by
  unfold bootSector
  simp only [List.length_append, length_le, length_zeros, List.length_cons, List.length_nil,
    length_oem]

theorem length_bootRegion (l : Layout) (root used : Nat) :
    (bootRegion l root used).length = 12 * sectorBytes := by
  have hflat : ∀ (n k : Nat) (b : Bytes), b.length = k →
      (List.replicate n b).flatten.length = n * k := fun n k b hb => by
    rw [List.length_flatten, List.map_replicate, List.sum_replicate, hb, smul_eq_mul]
  unfold bootRegion
  simp only [List.length_append, length_bootSector, length_zeros,
    hflat 8 512 (zeros 508 ++ le 4 0xAA550000) (by
      rw [List.length_append, length_zeros, length_le]),
    hflat 128 4 _ (length_le 4 _), sectorBytes]

theorem length_chain (first n : Nat) : (chain first n).length = 4 * n := by
  rw [chain, length_flatMap_const fun c _ => length_le 4 _, List.length_range', Nat.mul_comm]

theorem length_nodeChains (t : Tree) (order : List Nat) (next : Nat) :
    (nodeChains t order next).length = 4 * clustersOf t order := by
  induction order generalizing next with
  | nil => rfl
  | cons i order ih =>
    rw [nodeChains, List.length_append, ih, clustersOf_cons]
    split
    · rw [length_chain, Nat.mul_add]
    · rw [List.length_nil]
      omega

theorem length_fatSlotBytes (p : ExfatPlan) :
    (fatSlotBytes p).length = 8 + 4 * (p.l.tableClusters + clustersOf p.tree p.l.order) := by
  unfold fatSlotBytes
  simp only [List.length_append, length_le, length_chain, length_nodeChains]
  rw [Layout.tableClusters, Layout.order]
  omega

theorem length_setBits (used : Nat) (b : Bytes) : (setBits used b).length = b.length := by
  unfold setBits
  generalize List.range used = bits
  induction bits generalizing b with
  | nil => rfl
  | cons bit bits ih => rw [List.foldl_cons, ih, List.length_modify]

theorem length_bitmap (p : ExfatPlan) : (bitmap p).length = p.l.bitmapClusters * p.l.cluster := by
  rw [bitmap, length_setBits, length_zeros]

theorem length_directoryBytes (t : Tree) (d : Nat) (l : Layout) :
    (directoryBytes t d l).length = (nodeAt t d).size := length_setLen _ _

section Laid

variable {upcase : Bytes} {t : Tree} {p : ExfatPlan} (h : Laid upcase t p.tree p.l)
include h

theorem Laid.cluster_pos : 0 < p.l.cluster := by
  obtain ⟨k, hk, -, -⟩ := usableCluster_bounds h.usable
  rw [hk]
  exact Nat.pow_pos (by omega)

/-- The whole table lies in front of the heap. -/
theorem Laid.table_le : fatOffsetSectors * sectorBytes + (p.l.clusterCount + 2) * 4 ≤
    p.l.heapSectors * sectorBytes := by
  obtain ⟨k, hk, hk9, -⟩ := usableCluster_bounds h.usable
  have hper : 0 < p.l.cluster / sectorBytes := by
    have hpow : 2 ^ 9 ≤ 2 ^ k := Nat.pow_le_pow_right (by omega) hk9
    rw [hk]
    exact Nat.div_pos hpow (by decide)
  have hheap := le_blocks hper (fatOffsetSectors + fatSectorsFor p.l.clusterCount)
  have hfat := le_blocks (show 0 < sectorBytes by decide) ((p.l.clusterCount + 2) * 4)
  rw [← heapFor, ← h.heap_eq] at hheap
  rw [← fatSectorsFor] at hfat
  calc fatOffsetSectors * sectorBytes + (p.l.clusterCount + 2) * 4
      ≤ fatOffsetSectors * sectorBytes + fatSectorsFor p.l.clusterCount * sectorBytes := by omega
    _ = (fatOffsetSectors + fatSectorsFor p.l.clusterCount) * sectorBytes := (Nat.add_mul ..).symm
    _ ≤ p.l.heapSectors * sectorBytes := Nat.mul_le_mul_right sectorBytes hheap

/-- The slots in use are some of the table's. -/
theorem Laid.fat_le : fatOffsetSectors * sectorBytes + (fatSlotBytes p).length ≤
    p.l.heapSectors * sectorBytes := by
  have htable := h.table_le
  have hused := h.used_le
  rw [length_fatSlotBytes]
  omega

omit h in
theorem length_directories {dirs : List Nat} (hsize : ∀ d ∈ dirs,
    (nodeAt p.tree d).size = (nodeAt p.tree d).clusters * p.l.cluster) :
    (dirs.flatMap fun d => directoryBytes p.tree d p.l).length =
      clustersOf p.tree dirs * p.l.cluster := by
  induction dirs with
  | nil => rw [clustersOf, List.map_nil, List.sum_nil, Nat.zero_mul]; rfl
  | cons d dirs ih =>
    rw [List.flatMap_cons, List.length_append, length_directoryBytes, hsize d List.mem_cons_self,
      ih fun e he => hsize e (List.mem_cons_of_mem d he), clustersOf_cons, Nat.add_mul]

theorem Laid.length_directories : (p.l.dirs.flatMap fun d => directoryBytes p.tree d p.l).length =
    clustersOf p.tree p.l.dirs * p.l.cluster := Exfat.length_directories h.dir_size

/-- **The files begin behind the folders' clusters.** -/
theorem Laid.length_imageHead : (imageHead p).length = p.l.heapSectors * sectorBytes +
    (p.l.tableClusters + clustersOf p.tree p.l.dirs) * p.l.cluster := by
  have hfat := h.fat_le
  have hup := le_blocks h.cluster_pos p.l.upcase.length
  have hfatOffset : fatOffsetSectors * sectorBytes = 65536 := rfl
  have hgap : (fatOffsetSectors - 24) * sectorBytes = 53248 := rfl
  have hboot : 12 * sectorBytes = 6144 := rfl
  unfold imageHead
  simp only [List.length_append, length_bootRegion, length_zeros, length_bitmap,
    h.length_directories]
  rw [Layout.tableClusters, Nat.add_mul, Nat.add_mul]
  omega

end Laid

/-! ## Runs -/

/-- A run that skips does from position `pos` on what the whole run does: it stops where that one
stops, gives out as many bytes, and the same ones behind the skipped ones. -/
structure Resumes (skip pos : Nat) (r whole : Run) : Prop where
  failed_eq : r.failed = whole.failed
  length_eq : r.out.length = whole.out.length
  drop_eq : r.out.drop (skip - pos) = whole.out.drop (skip - pos)

theorem Resumes.refl (skip pos : Nat) (r : Run) : Resumes skip pos r r := ⟨rfl, rfl, rfl⟩

theorem Run.andThen_failed {r s : Run} (h : r.failed.isSome = true) : r.andThen s = r := if_pos h

theorem Run.andThen_ok {r s : Run} (h : r.failed = none) :
    r.andThen s = ⟨r.out ++ s.out, r.reads ++ s.reads, s.failed⟩ := by
  rw [Run.andThen, h]
  rfl

theorem Run.failed_cases (r : Run) : r.failed = none ∨ r.failed.isSome = true := by
  cases r.failed with
  | none => exact .inl rfl
  | some e => exact .inr rfl

theorem Resumes.andThen {skip pos : Nat} {r whole s whole' : Run} (h : Resumes skip pos r whole)
    (h' : whole.failed = none → Resumes skip (pos + whole.out.length) s whole') :
    Resumes skip pos (r.andThen s) (whole.andThen whole') := by
  rcases whole.failed_cases with hf | hf
  · have hf' := h.failed_eq.trans hf
    obtain ⟨hfail, hlen, hdrop⟩ := h' hf
    rw [Run.andThen_ok hf, Run.andThen_ok hf']
    refine ⟨hfail, ?_, ?_⟩
    · rw [List.length_append, List.length_append, h.length_eq, hlen]
    · rw [List.drop_append, List.drop_append, h.drop_eq, h.length_eq, Nat.sub_sub, hdrop]
  · rw [Run.andThen_failed hf, Run.andThen_failed (by rw [h.failed_eq]; exact hf)]
    exact h

theorem Run.mem_reads_andThen {r s : Run} {c : ReadCall} (h : c ∈ (r.andThen s).reads) :
    c ∈ r.reads ∨ c ∈ s.reads := by
  rw [Run.andThen] at h
  split at h
  · exact .inl h
  · exact List.mem_append.1 h

/-! ## One file -/

/-- A copy gives out all of the file, or stops short of it. -/
theorem copyFile_length (source : Source) (file : Nat) (src : Text) (size : Nat) {turns at_ : Nat}
    (hle : at_ ≤ size) (hturns : size ≤ at_ + turns * copyChunk) :
    ((copyFile source file src size turns at_).failed = none ∧
      (copyFile source file src size turns at_).out.length = size - at_) ∨
    ((copyFile source file src size turns at_).failed.isSome = true ∧
      (copyFile source file src size turns at_).out.length < size - at_) := by
  induction turns generalizing at_ with
  | zero =>
    refine .inl ⟨rfl, ?_⟩
    show 0 = size - at_
    omega
  | succ turns ih =>
    rw [copyFile]
    split
    · refine .inl ⟨rfl, ?_⟩
      show 0 = size - at_
      omega
    · rename_i hlt
      dsimp only
      have hchunk : copyChunk = 1048576 := rfl
      split
      · refine .inr ⟨rfl, ?_⟩
        show 0 < size - at_
        omega
      · rename_i chunk hread
        split
        · refine .inr ⟨rfl, ?_⟩
          show 0 < size - at_
          omega
        · rename_i hwant
          rw [Run.andThen_ok rfl]
          have hnext : size ≤ at_ + min (size - at_) copyChunk + turns * copyChunk := by
            rw [Nat.succ_mul] at hturns
            omega
          dsimp only
          rw [List.length_append]
          rcases ih (by omega) hnext with ⟨hf, hl⟩ | ⟨hf, hl⟩
          · exact .inl ⟨hf, by omega⟩
          · exact .inr ⟨hf, by omega⟩

theorem copyFile_reads (source : Source) (file : Nat) (src : Text) (size turns at_ : Nat)
    {c : ReadCall} (h : c ∈ (copyFile source file src size turns at_).reads) :
    c.file = file ∧ c.offset < size := by
  induction turns generalizing at_ with
  | zero => cases h
  | succ turns ih =>
    rw [copyFile] at h
    split at h
    · cases h
    · rename_i hlt
      dsimp only at h
      split at h
      · rw [List.mem_singleton.1 h]
        exact ⟨rfl, Nat.lt_of_not_le hlt⟩
      · split at h
        · rw [List.mem_singleton.1 h]
          exact ⟨rfl, Nat.lt_of_not_le hlt⟩
        · rcases Run.mem_reads_andThen h with h | h
          · rw [List.mem_singleton.1 h]
            exact ⟨rfl, Nat.lt_of_not_le hlt⟩
          · exact ih _ h

/-- The file's clusters end in the bytes that are dropped. -/
def Behind (p : ExfatPlan) (skip f : Nat) : Prop :=
  0 < skip ∧ 0 < (nodeAt p.tree f).size ∧
    startOf p f + (nodeAt p.tree f).clusters * p.l.cluster ≤ skip

instance (p : ExfatPlan) (skip f : Nat) : Decidable (Behind p skip f) :=
  inferInstanceAs (Decidable (_ ∧ _))

theorem writeFile_whole (p : ExfatPlan) (source : Source) (f : Nat) : writeFile p source 0 f =
    (copyFile source f (nodeAt p.tree f).src (nodeAt p.tree f).size
      ((nodeAt p.tree f).size ⌈/⌉ copyChunk) 0).andThen
      (.wrote (zeros ((nodeAt p.tree f).clusters * p.l.cluster - (nodeAt p.tree f).size))) := by
  unfold writeFile
  dsimp only
  rw [if_neg fun h => absurd h.1 (Nat.lt_irrefl 0)]

theorem writeFile_eq (p : ExfatPlan) (source : Source) (skip f : Nat) : writeFile p source skip f =
    if Behind p skip f then .wrote (zeros ((nodeAt p.tree f).clusters * p.l.cluster))
    else writeFile p source 0 f := by
  by_cases hb : Behind p skip f
  · rw [if_pos hb]
    exact if_pos hb
  · rw [if_neg hb, writeFile_whole]
    exact if_neg hb

/-- A file fills its clusters, or stops inside them. -/
theorem writeFile_length {p : ExfatPlan} (source : Source) {f : Nat}
    (hsize : (nodeAt p.tree f).size ≤ (nodeAt p.tree f).clusters * p.l.cluster) :
    ((writeFile p source 0 f).failed = none ∧
      (writeFile p source 0 f).out.length = (nodeAt p.tree f).clusters * p.l.cluster) ∨
    ((writeFile p source 0 f).failed.isSome = true ∧
      (writeFile p source 0 f).out.length < (nodeAt p.tree f).clusters * p.l.cluster) := by
  rw [writeFile_whole]
  have hturns := le_blocks (show 0 < copyChunk by decide) (nodeAt p.tree f).size
  rcases copyFile_length source f (nodeAt p.tree f).src (nodeAt p.tree f).size (Nat.zero_le _)
    (by rwa [Nat.zero_add]) with ⟨hf, hl⟩ | ⟨hf, hl⟩
  · refine .inl ?_
    rw [Run.andThen_ok hf]
    refine ⟨rfl, ?_⟩
    show (_ ++ zeros _).length = _
    rw [List.length_append, hl, length_zeros]
    omega
  · refine .inr ?_
    rw [Run.andThen_failed hf]
    exact ⟨hf, by omega⟩

/-! ## The files -/

/-- The files follow one another from position `pos` of the image on. -/
def FilesFrom (p : ExfatPlan) : List Nat → Nat → Prop
  | [], _ => True
  | f :: fs, pos =>
    (0 < (nodeAt p.tree f).size → startOf p f = pos) ∧
      (nodeAt p.tree f).size ≤ (nodeAt p.tree f).clusters * p.l.cluster ∧
      FilesFrom p fs (pos + (nodeAt p.tree f).clusters * p.l.cluster)

theorem writeFiles_resumes {p : ExfatPlan} {source : Source} {skip : Nat} {tail : Run}
    (fs : List Nat) {pos : Nat} (hfs : FilesFrom p fs pos)
    (hskip : skip ≤ pos + ((writeFiles p source 0 fs).andThen tail).out.length) :
    Resumes skip pos (writeFiles p source skip fs) (writeFiles p source 0 fs) := by
  induction fs generalizing pos with
  | nil => exact Resumes.refl skip pos _
  | cons f fs ih =>
    obtain ⟨hstart, hsize, hrest⟩ := hfs
    rw [writeFiles, writeFiles]
    rcases writeFile_length source hsize with ⟨hf, hl⟩ | ⟨hf, hl⟩
    · refine Resumes.andThen ?_ fun _ => ?_
      · rw [writeFile_eq]
        split
        · rename_i hb
          -- the zeros stand for bytes that are dropped
          obtain ⟨-, hpos, hend⟩ := hb
          rw [hstart hpos] at hend
          refine ⟨hf.symm, ?_, ?_⟩
          · show (zeros _).length = _
            rw [length_zeros, hl]
          · show (zeros _).drop _ = _
            rw [List.drop_of_length_le (by rw [length_zeros]; omega),
              List.drop_of_length_le (by omega)]
        · exact Resumes.refl skip pos _
      · rw [hl]
        refine ih hrest ?_
        have : ((writeFiles p source 0 (f :: fs)).andThen tail).out.length =
            (nodeAt p.tree f).clusters * p.l.cluster +
              ((writeFiles p source 0 fs).andThen tail).out.length := by
          rw [writeFiles, Run.andThen_ok hf]
          rcases (writeFiles p source 0 fs).failed_cases with h | h
          · rw [Run.andThen_ok (by exact h), Run.andThen_ok h]
            simp only [List.length_append, hl]
            omega
          · rw [Run.andThen_failed (by exact h), Run.andThen_failed h]
            simp only [List.length_append, hl]
        omega
    · -- the whole run stops inside this file, so its clusters end behind `skip`
      have hnb : ¬Behind p skip f := by
        rintro ⟨-, hpos, hend⟩
        have hfirst : (writeFiles p source 0 (f :: fs)).andThen tail = writeFile p source 0 f := by
          rw [writeFiles, Run.andThen_failed hf, Run.andThen_failed hf]
        rw [hfirst] at hskip
        rw [hstart hpos] at hend
        omega
      rw [writeFile_eq, if_neg hnb, Run.andThen_failed hf, Run.andThen_failed hf]
      exact Resumes.refl skip pos _

theorem writeFiles_reads {p : ExfatPlan} {source : Source} {skip : Nat} {fs : List Nat}
    {c : ReadCall} (h : c ∈ (writeFiles p source skip fs).reads) :
    c.file ∈ fs ∧ c.offset < (nodeAt p.tree c.file).size ∧ ¬Behind p skip c.file := by
  induction fs with
  | nil => cases h
  | cons f fs ih =>
    rw [writeFiles] at h
    rcases Run.mem_reads_andThen h with h | h
    · rw [writeFile_eq] at h
      split at h
      · cases h
      · rename_i hb
        rw [writeFile_whole] at h
        rcases Run.mem_reads_andThen h with h | h
        · obtain ⟨rfl, hlt⟩ := copyFile_reads _ _ _ _ _ _ h
          exact ⟨List.mem_cons_self, hlt, hb⟩
        · cases h
    · obtain ⟨hmem, hrest⟩ := ih h
      exact ⟨List.mem_cons_of_mem f hmem, hrest⟩

/-- Files that are written to the end fill their clusters. -/
theorem writeFiles_length {p : ExfatPlan} {source : Source} {fs : List Nat} {pos : Nat}
    (hfs : FilesFrom p fs pos) (hf : (writeFiles p source 0 fs).failed = none) :
    (writeFiles p source 0 fs).out.length = clustersOf p.tree fs * p.l.cluster := by
  induction fs generalizing pos with
  | nil =>
    rw [clustersOf, List.map_nil, List.sum_nil, Nat.zero_mul]
    rfl
  | cons f fs ih =>
    obtain ⟨-, hsize, hrest⟩ := hfs
    rw [writeFiles] at hf ⊢
    rcases writeFile_length source hsize with ⟨hok, hl⟩ | ⟨hfail, -⟩
    · rw [Run.andThen_ok hok] at hf ⊢
      rw [List.length_append, hl, ih hrest hf, clustersOf_cons, Nat.add_mul]
    · rw [Run.andThen_failed hfail] at hf
      rw [hf] at hfail
      cases hfail

section Laid

variable {upcase : Bytes} {t : Tree} {p : ExfatPlan} (h : Laid upcase t p.tree p.l)
include h

/-- The clusters of a file hold it. -/
theorem Laid.file_fits {f : Nat} (hf : f ∈ p.l.files) :
    (nodeAt p.tree f).size ≤ (nodeAt p.tree f).clusters * p.l.cluster := by
  rw [h.file_clusters f hf]
  exact le_blocks h.cluster_pos _

theorem Laid.filesFrom : FilesFrom p p.l.files (imageHead p).length := by
  have hplaced := h.placed.append.2
  have hfits : ∀ f ∈ p.l.files,
      (nodeAt p.tree f).size ≤ (nodeAt p.tree f).clusters * p.l.cluster := fun f hf => h.file_fits hf
  rw [h.length_imageHead]
  have hpos : p.l.heapSectors * sectorBytes +
      (p.l.tableClusters + clustersOf p.tree p.l.dirs) * p.l.cluster =
      p.l.heapSectors * sectorBytes + (firstHeapCluster + p.l.tableClusters +
        clustersOf p.tree p.l.dirs - firstHeapCluster) * p.l.cluster := by
    congr 2
    omega
  rw [hpos]
  have hge : firstHeapCluster ≤ firstHeapCluster + p.l.tableClusters + clustersOf p.tree p.l.dirs := by
    omega
  revert hplaced hfits hge
  generalize firstHeapCluster + p.l.tableClusters + clustersOf p.tree p.l.dirs = next
  generalize p.l.files = fs
  intro hplaced hfits hge
  induction fs generalizing next with
  | nil => trivial
  | cons f fs ih =>
    refine ⟨fun hsize => ?_, hfits f List.mem_cons_self, ?_⟩
    · have hclusters : (nodeAt p.tree f).clusters ≠ 0 := fun h0 => by
        have := hfits f List.mem_cons_self
        rw [h0, Nat.zero_mul] at this
        omega
      rw [startOf, hplaced.1, if_neg hclusters]
    · have := ih _ hplaced.2 (fun g hg => hfits g (List.mem_cons_of_mem f hg)) (by omega)
      rw [Nat.add_assoc, ← Nat.add_mul]
      rwa [show next - firstHeapCluster + (nodeAt p.tree f).clusters =
        next + (nodeAt p.tree f).clusters - firstHeapCluster by omega]

omit h in
/-- A run that is written to the end has written every file. -/
theorem writeFiles_ok {source : Source} (hf : (writeExfat p source).failed = none) :
    (writeFiles p source 0 p.l.files).failed = none := by
  have hstart : (Run.wrote (imageHead p)).failed = none := rfl
  rcases (writeFiles p source 0 p.l.files).failed_cases with hok | hfail
  · exact hok
  · unfold writeExfat writeExfatAfter at hf
    rw [Run.andThen_ok hstart, Run.andThen_failed (by exact hfail)] at hf
    exact hf

/-- **An image that is written to the end has the planned length.** -/
theorem length_writeExfat {source : Source}
    (hused : p.used = p.l.tableClusters + clustersOf p.tree p.l.order)
    (hf : (writeExfat p source).failed = none) : (writeExfat p source).out.length =
      p.l.heapSectors * sectorBytes + p.l.clusterCount * p.l.cluster := by
  have hstart : (Run.wrote (imageHead p)).failed = none := rfl
  have hfiles := writeFiles_ok hf
  have hle := h.used_le
  have hcount : p.l.clusterCount = p.l.tableClusters + clustersOf p.tree p.l.dirs +
      clustersOf p.tree p.l.files + (p.l.clusterCount - p.used) := by
    rw [Layout.order, clustersOf_append] at hle hused
    omega
  unfold writeExfat writeExfatAfter
  rw [Run.andThen_ok hstart, Run.andThen_ok (by exact hfiles)]
  show (imageHead p ++ (writeFiles p source 0 p.l.files).out ++ zeros _).length = _
  rw [List.length_append, List.length_append, length_zeros, h.length_imageHead,
    writeFiles_length h.filesFrom hfiles]
  conv_rhs => rw [hcount]
  simp only [Nat.add_mul]
  omega

/-- **A run that skips goes on as the whole run does**, when it skips no more than that one gives
out. -/
theorem writeExfatAfter_resumes {source : Source} {skip : Nat}
    (hskip : skip ≤ (writeExfat p source).out.length) :
    Resumes skip 0 (writeExfatAfter p source skip) (writeExfat p source) := by
  have hhead : Resumes skip 0 (Run.wrote (imageHead p)) (Run.wrote (imageHead p)) :=
    Resumes.refl skip 0 _
  refine Resumes.andThen (hhead.andThen fun _ => ?_) fun _ => Resumes.refl skip _ _
  rw [Nat.zero_add]
  refine @writeFiles_resumes p source skip (.wrote (zeros ((p.l.clusterCount - p.used) * p.l.cluster)))
    p.l.files _ h.filesFrom ?_
  refine Nat.le_trans hskip (Nat.le_of_eq ?_)
  have hstart : (Run.wrote (imageHead p)).failed = none := rfl
  unfold writeExfat writeExfatAfter
  rw [Run.andThen_ok hstart]
  rcases (writeFiles p source 0 p.l.files).failed_cases with hf | hf
  · rw [Run.andThen_ok hf, Run.andThen_ok (by exact hf)]
    simp only [List.length_append]
    exact Nat.add_assoc ..
  · rw [Run.andThen_failed hf, Run.andThen_failed (by exact hf)]
    exact List.length_append

omit h in
/-- A run that skips reads no file whose clusters end in the skipped bytes. -/
theorem reads_after {source : Source} {skip : Nat} {c : ReadCall}
    (hc : c ∈ (writeExfatAfter p source skip).reads) :
    c.file ∈ p.l.files ∧ c.offset < (nodeAt p.tree c.file).size ∧ ¬Behind p skip c.file := by
  rcases Run.mem_reads_andThen hc with hc | hc
  · rcases Run.mem_reads_andThen hc with hc | hc
    · cases hc
    · exact writeFiles_reads hc
  · cases hc

end Laid

end Ps5Upload.Exfat
