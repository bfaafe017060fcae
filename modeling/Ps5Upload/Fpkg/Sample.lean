import Mathlib.Algebra.Order.BigOperators.Group.List
import Mathlib.Data.Char
import Mathlib.Data.List.Lex
import Mathlib.Data.List.Sort
import Mathlib.Data.Prod.Lex
import Ps5Upload.Lib.Slices

/-!
# Fast verification: what is read back

`plan` and `summary` of `ps5upload-fpkg/src/sample.rs`: small files whole, of a large one the first slice, the last
and one in between, the slice where UFS2's layout changes, and a draw from what is left.

* `plan_planned` — **what is read back is in order, has nothing twice, and has what has to be in it**.
-/

namespace Ps5Upload.Sampling

open Slices

abbrev Text := List Char

/-- A file's path and size. -/
abbrev File := Text × Nat

/-- `SLICE`: what one sample of a large file covers. -/
def sliceSize : Nat := 8 * 2 ^ 20

/-- `WHOLE_MAX`: files up to this size are read back whole. -/
def wholeMax : Nat := 16 * 2 ^ 20

/-- `BUDGET_MAX`: the most the random draw reads. -/
def budgetMax : Nat := 2 ^ 30

/-- `UFS2_SEAM`: where the first indirect block begins. -/
def ufs2Seam : Nat := (12 + 8192) * 0x10000

instance : NeZero sliceSize := ⟨by decide⟩

theorem sliceSize_pos : 0 < sliceSize := NeZero.pos sliceSize

inductive VerifyMode
  | full
  | fast (seed : UInt64) (seam : Bool)
  deriving DecidableEq, Repr

/-! ## The generator -/

/-- `SplitMix64::next_u64`: the word and the next state. -/
def nextU64 (state : UInt64) : UInt64 × UInt64 :=
  let s := state + 0x9E3779B97F4A7C15
  let z := (s ^^^ (s >>> 30)) * 0xBF58476D1CE4D049
  let z := (z ^^^ (z >>> 27)) * 0x94D049BB133111EB
  (z ^^^ (z >>> 31), s)

/-- Uniform in `0..n`. -/
def below (n : Nat) (state : UInt64) : Nat × UInt64 := ((nextU64 state).1.toNat * n / 2 ^ 64, (nextU64 state).2)

theorem below_lt {n : Nat} (hn : 0 < n) (state : UInt64) : (below n state).1 < n := by
  have hword := (nextU64 state).1.toNat_lt
  have hlt := Nat.mul_lt_mul_of_pos_right hword hn
  rw [below]
  exact Nat.div_lt_of_lt_mul hlt

example : (nextU64 0).1 = 0xE221CEA3DCE719B2 := by decide

/-! ## The plan -/

/-- A slice of a large file, or a whole file. -/
structure Sample where
  fileIdx : Nat
  slice : Option Nat
  deriving DecidableEq, Repr

def pathAt (files : List File) (i : Nat) : Text := (files[i]?.map Prod.fst).getD []

def sizeAt (files : List File) (i : Nat) : Nat := (files[i]?.map Prod.snd).getD 0

def sliceLen (size slice : Nat) : Nat := min sliceSize (size - slice * sliceSize)

/-- `Sample::range`: offset and length in a file of `size` bytes. -/
def Sample.range (s : Sample) (size : Nat) : Nat × Nat :=
  (s.slice.elim 0 (· * sliceSize), s.slice.elim size (sliceLen size))

/-- What the plan has come to: the generator, the samples, and the slices that nothing has chosen yet. -/
structure Chosen where
  rng : UInt64
  out : List Sample
  pool : List (Nat × Nat)

/-- The slices of a large file that are always read, and one in between. -/
def mustRead (seam : Bool) (size : Nat) (rng : UInt64) : List Nat × UInt64 :=
  let last := size ⌈/⌉ sliceSize - 1
  let ends := [0, last] ++ if seam && decide (ufs2Seam < size) then [ufs2Seam / sliceSize] else []
  if 1 < last then (ends ++ [1 + (below (last - 1) rng).1], (below (last - 1) rng).2) else (ends, rng)

/-- One turn of the loop over the files. -/
def chooseFile (files : List File) (seam : Bool) (c : Chosen) (i : Nat) : Chosen :=
  let size := sizeAt files i
  if size = 0 then c
  else if size ≤ wholeMax then { c with out := c.out ++ [⟨i, none⟩] }
  else
    let slices := List.range (size ⌈/⌉ sliceSize)
    let chosen := mustRead seam size c.rng
    { rng := chosen.2
      out := c.out ++ (slices.filter fun s => chosen.1.contains s).map fun s => ⟨i, some s⟩
      pool := c.pool ++ (slices.filter fun s => !chosen.1.contains s).map fun s => (i, s) }

/-- The files by path. -/
def order (files : List File) : List Nat :=
  (List.range files.length).insertionSort fun a b => pathAt files a ≤ pathAt files b

def choose (files : List File) (seed : UInt64) (seam : Bool) : Chosen :=
  (order files).foldl (chooseFile files seam) ⟨seed, [], []⟩

/-- `Vec::swap`. -/
def swap {α : Type} (l : List α) (k j : Nat) : List α :=
  (l[k]?.bind fun a => l[j]?.map fun b => (l.set k b).set j a).getD l

def sampleOf (q : Nat × Nat) : Sample := ⟨q.1, some q.2⟩

/-- One turn of the partial shuffle. -/
def drawOne (c : Chosen) (k : Nat) : Chosen :=
  let r := below (c.pool.length - k) c.rng
  let pool := swap c.pool k (k + r.1)
  ⟨r.2, c.out ++ (pool[k]?.map sampleOf).toList, pool⟩

/-- How many slices the draw is for: a hundredth of the rest, up to the budget. -/
def want (files : List File) (pool : List (Nat × Nat)) : Nat :=
  min ((pool.map fun q => sliceLen (sizeAt files q.1) q.2).sum / 100) budgetMax ⌈/⌉ sliceSize

/-- What the samples are sorted by: the path, then the slice, a whole file before any. -/
def key (files : List File) (s : Sample) : Text ×ₗ Nat := toLex (pathAt files s.fileIdx, s.slice.elim 0 (· + 1))

def draw (files : List File) (c : Chosen) : Chosen :=
  (List.range (min (want files c.pool) c.pool.length)).foldl drawOne c

/-- The samples for the files, by path, then by offset. -/
def plan (files : List File) (seed : UInt64) (seam : Bool) : List Sample :=
  (draw files (choose files seed seam)).out.insertionSort fun a b => key files a ≤ key files b

/-- What a check covers. -/
structure VerifySummary where
  mode : VerifyMode
  checkedBytes : Nat
  totalBytes : Nat
  samples : Nat
  deriving DecidableEq, Repr

def summary (files : List File) : VerifyMode → VerifySummary
  | .full =>
    { mode := .full
      checkedBytes := (files.map Prod.snd).sum
      totalBytes := (files.map Prod.snd).sum
      samples := files.countP fun f => 0 < f.2 }
  | .fast seed seam =>
    { mode := .fast seed seam
      checkedBytes := ((plan files seed seam).map fun s => (s.range (sizeAt files s.fileIdx)).2).sum
      totalBytes := (files.map Prod.snd).sum
      samples := (plan files seed seam).length }

/-! ## The draw -/

section Swap

variable {α : Type} {l : List α} {k j : Nat}

theorem swap_perm (hk : k < l.length) (hj : j < l.length) : (swap l k j).Perm l := by
  rw [swap, List.getElem?_eq_getElem hk, List.getElem?_eq_getElem hj]
  exact List.set_set_perm hk hj

theorem take_swap (hk : k < l.length) (hj : j < l.length) (hkj : k ≤ j) : (swap l k j).take k = l.take k := by
  rw [swap, List.getElem?_eq_getElem hk, List.getElem?_eq_getElem hj, Option.bind_some, Option.map_some,
    Option.getD_some, List.take_set_of_le hkj, List.take_set_of_le (Nat.le_refl k)]

end Swap

/-- **The draw**: after `n` turns the first `n` places of the pool, in another order, have come out. -/
theorem draw_spec (c : Chosen) : ∀ n, n ≤ c.pool.length →
    ((List.range n).foldl drawOne c).pool.Perm c.pool ∧
      ((List.range n).foldl drawOne c).out =
        c.out ++ (((List.range n).foldl drawOne c).pool.take n).map sampleOf
  | 0, _ => ⟨List.Perm.refl _, by rw [List.take_zero, List.map_nil, List.append_nil]; rfl⟩
  | n + 1, h => by
    obtain ⟨hperm, hout⟩ := draw_spec c n (Nat.le_of_succ_le h)
    rw [List.range_succ, List.foldl_append, List.foldl_cons, List.foldl_nil]
    generalize (List.range n).foldl drawOne c = d at hperm hout ⊢
    have hn : n < d.pool.length := hperm.length_eq ▸ h
    have hr := below_lt (Nat.sub_pos_of_lt hn) d.rng
    rw [drawOne]
    generalize below (d.pool.length - n) d.rng = r at hr ⊢
    have hj : n + r.1 < d.pool.length := by omega
    have hswap := swap_perm hn hj
    have htake := take_swap hn hj (Nat.le_add_right n _)
    dsimp only
    generalize swap d.pool n (n + r.1) = pool at hswap htake ⊢
    have hn' : n < pool.length := hswap.length_eq ▸ hn
    refine ⟨hswap.trans hperm, ?_⟩
    rw [List.getElem?_eq_getElem hn', hout, List.take_succ_eq_append_getElem hn', htake, List.map_append,
      List.append_assoc]
    rfl

/-! ## What is read back -/

variable {files : List File} {seam : Bool} {i : Nat} {samples more : List Sample} {c : Chosen}

/-- All that there is to read of a file. -/
def everything (files : List File) (i : Nat) : List Sample :=
  if sizeAt files i = 0 then []
  else if sizeAt files i ≤ wholeMax then [⟨i, none⟩]
  else (List.range (sizeAt files i ⌈/⌉ sliceSize)).map fun s => ⟨i, some s⟩

/-- What is read of a file in any case. -/
structure Must (files : List File) (seam : Bool) (i : Nat) (samples : List Sample) : Prop where
  whole : 0 < sizeAt files i → sizeAt files i ≤ wholeMax → ⟨i, none⟩ ∈ samples
  first : wholeMax < sizeAt files i → ⟨i, some 0⟩ ∈ samples
  last : wholeMax < sizeAt files i → ⟨i, some (sizeAt files i ⌈/⌉ sliceSize - 1)⟩ ∈ samples
  between : wholeMax < sizeAt files i → ∃ s, 0 < s ∧ s < sizeAt files i ⌈/⌉ sliceSize - 1 ∧ ⟨i, some s⟩ ∈ samples
  seam : seam = true → ufs2Seam < sizeAt files i → ⟨i, some (ufs2Seam / sliceSize)⟩ ∈ samples

/-- What a plan is: in order, of the pieces that there are, none twice, with what is read in any case. -/
structure Planned (files : List File) (seam : Bool) (samples : List Sample) : Prop where
  sorted : samples.Pairwise fun a b => key files a ≤ key files b
  nodup : samples.Nodup
  held : ∀ s ∈ samples, s.fileIdx < files.length ∧ s ∈ everything files s.fileIdx
  must : ∀ i < files.length, Must files seam i samples

theorem Must.mono (h : Must files seam i samples) (hsub : samples ⊆ more) : Must files seam i more where
  whole := fun h0 h1 => hsub (h.whole h0 h1)
  first := fun h0 => hsub (h.first h0)
  last := fun h0 => hsub (h.last h0)
  between := fun h0 => (h.between h0).imp fun _ hs => ⟨hs.1, hs.2.1, hsub hs.2.2⟩
  seam := fun h0 h1 => hsub (h.seam h0 h1)

theorem everything_fileIdx {s : Sample} (h : s ∈ everything files i) : s.fileIdx = i := by
  rw [everything] at h
  split at h
  · cases h
  split at h
  · rw [List.mem_singleton.1 h]
  · obtain ⟨n, -, rfl⟩ := List.mem_map.1 h
    rfl

theorem slice_of_everything {n : Nat} (h : ⟨i, some n⟩ ∈ everything files i) : n < sizeAt files i ⌈/⌉ sliceSize := by
  rw [everything] at h
  split at h
  · cases h
  split at h
  · cases List.mem_singleton.1 h
  · obtain ⟨k, hk, heq⟩ := List.mem_map.1 h
    cases heq
    exact List.mem_range.1 hk

theorem nodup_everything (files : List File) (i : Nat) : (everything files i).Nodup := by
  rw [everything]
  split
  · exact List.nodup_nil
  split
  · exact List.nodup_singleton _
  · refine List.nodup_range.map fun a b h => ?_
    cases h
    rfl

theorem nodup_all (files : List File) (n : Nat) : ((List.range n).flatMap (everything files)).Nodup := by
  refine List.nodup_flatMap.2 ⟨fun i _ => nodup_everything files i, List.nodup_range.imp fun h s hs ht => h ?_⟩
  exact (everything_fileIdx hs).symm.trans (everything_fileIdx ht)

/-- The slices that are always read are there. -/
theorem mustRead_spec (seam : Bool) {size : Nat} (hlarge : wholeMax < size) (rng : UInt64) :
    0 ∈ (mustRead seam size rng).1 ∧ size ⌈/⌉ sliceSize - 1 ∈ (mustRead seam size rng).1 ∧
      (∃ s, 0 < s ∧ s < size ⌈/⌉ sliceSize - 1 ∧ s ∈ (mustRead seam size rng).1) ∧
      (seam = true → ufs2Seam < size → ufs2Seam / sliceSize ∈ (mustRead seam size rng).1) := by
  have hle := Blocks.le_blocks sliceSize_pos size
  have hlast : 1 < size ⌈/⌉ sliceSize - 1 := by
    rw [wholeMax] at hlarge
    rw [sliceSize] at hle ⊢
    omega
  have hr := below_lt (by omega : 0 < size ⌈/⌉ sliceSize - 1 - 1) rng
  rw [mustRead, if_pos hlast]
  generalize below (size ⌈/⌉ sliceSize - 1 - 1) rng = r at hr ⊢
  refine ⟨by simp, by simp, ⟨1 + r.1, by omega, by omega, by simp⟩, fun hseam hin => ?_⟩
  simp [hseam, hin]

/-- What the loop over the files keeps: what it chose and what it left are all that there is, and what has to be read is
chosen. -/
structure Chosen.Of (files : List File) (seam : Bool) (seen : List Nat) (c : Chosen) : Prop where
  all : (c.out ++ c.pool.map sampleOf).Perm (seen.flatMap (everything files))
  must : ∀ i ∈ seen, Must files seam i c.out

theorem must_chooseFile (c : Chosen) (i : Nat) : Must files seam i (chooseFile files seam c i).out := by
  rw [chooseFile]
  dsimp only
  split
  · rename_i hzero
    have hsmall : ¬wholeMax < sizeAt files i := hzero ▸ Nat.not_lt_zero _
    exact ⟨fun h => absurd hzero h.ne', fun h => absurd h hsmall, fun h => absurd h hsmall, fun h => absurd h hsmall,
      fun _ h => absurd (h.trans_le' (by decide)) hsmall⟩
  split
  · rename_i hsmall
    have hsmall := Nat.not_lt.2 hsmall
    exact ⟨fun _ _ => List.mem_append_right _ (List.mem_singleton_self _), fun h => absurd h hsmall,
      fun h => absurd h hsmall, fun h => absurd h hsmall, fun _ h => absurd (h.trans_le' (by decide)) hsmall⟩
  · rename_i hlarge
    have hlarge := Nat.not_le.1 hlarge
    obtain ⟨hfirst, hlast, ⟨s, hpos, hlt, hs⟩, hseam⟩ := mustRead_spec seam hlarge c.rng
    have hblocks : 0 < sizeAt files i ⌈/⌉ sliceSize := by omega
    have hmem : ∀ n, n < sizeAt files i ⌈/⌉ sliceSize → n ∈ (mustRead seam (sizeAt files i) c.rng).1 →
        ⟨i, some n⟩ ∈ c.out ++ ((List.range (sizeAt files i ⌈/⌉ sliceSize)).filter fun s =>
          (mustRead seam (sizeAt files i) c.rng).1.contains s).map fun s => (⟨i, some s⟩ : Sample) :=
      fun n hn hin => List.mem_append_right _ (List.mem_map_of_mem (List.mem_filter.2
        ⟨List.mem_range.2 hn, List.contains_iff_mem.2 hin⟩))
    refine ⟨fun _ h => absurd h (Nat.not_le.2 hlarge), fun _ => hmem 0 hblocks hfirst,
      fun _ => hmem _ (Nat.sub_lt hblocks Nat.one_pos) hlast, fun _ => ⟨s, hpos, hlt, hmem s (by omega) hs⟩,
      fun hseam' hin => hmem _ ?_ (hseam hseam' hin)⟩
    have hle := Blocks.le_blocks sliceSize_pos (sizeAt files i)
    exact (Nat.div_lt_iff_lt_mul sliceSize_pos).2 (hin.trans_le hle)

theorem out_subset_chooseFile (c : Chosen) (i : Nat) : c.out ⊆ (chooseFile files seam c i).out := by
  rw [chooseFile]
  dsimp only
  split
  · exact List.Subset.refl _
  split <;> exact List.subset_append_left _ _

theorem all_chooseFile (c : Chosen) (i : Nat) :
    ((chooseFile files seam c i).out ++ (chooseFile files seam c i).pool.map sampleOf).Perm
      (c.out ++ c.pool.map sampleOf ++ everything files i) := by
  rw [chooseFile, everything]
  dsimp only
  split
  · rw [List.append_nil]
  split
  · rw [List.append_assoc, List.append_assoc]
    exact List.Perm.append_left _ List.perm_append_comm
  · dsimp only
    rw [List.map_append, List.map_map, List.append_assoc, List.append_assoc]
    refine List.Perm.append_left _ ?_
    refine (List.Perm.append_left _ List.perm_append_comm).trans ?_
    rw [← List.append_assoc]
    refine List.perm_append_comm.trans (List.Perm.append_left _ ?_)
    rw [show sampleOf ∘ (fun s => (i, s)) = fun s => (⟨i, some s⟩ : Sample) from rfl, ← List.map_append]
    exact (List.filter_append_perm _ _).map _

theorem chooseFile_of {seen : List Nat} (h : c.Of files seam seen) (i : Nat) :
    (chooseFile files seam c i).Of files seam (seen ++ [i]) where
  all := by
    rw [List.flatMap_append, List.flatMap_singleton]
    exact (all_chooseFile c i).trans (h.all.append_right _)
  must := fun j hj => by
    rcases List.mem_append.1 hj with hj | hj
    · exact (h.must j hj).mono (out_subset_chooseFile c i)
    · rw [List.mem_singleton.1 hj]
      exact must_chooseFile c i

theorem foldl_chooseFile_of : ∀ (more : List Nat) {seen : List Nat} {c : Chosen}, c.Of files seam seen →
    (more.foldl (chooseFile files seam) c).Of files seam (seen ++ more)
  | [], seen, c, h => by
    rw [List.append_nil]
    exact h
  | i :: more, seen, c, h => by
    rw [List.foldl_cons, List.append_cons]
    exact foldl_chooseFile_of more (chooseFile_of h i)

theorem order_perm (files : List File) : (order files).Perm (List.range files.length) := List.perm_insertionSort _ _

theorem choose_of (files : List File) (seed : UInt64) (seam : Bool) :
    (choose files seed seam).Of files seam (order files) :=
  foldl_chooseFile_of _ ⟨List.Perm.refl _, (fun _ h => absurd h List.not_mem_nil)⟩

/-- The draw adds pieces that nothing has chosen yet. -/
theorem draw_out (files : List File) (c : Chosen) : ∃ pool : List (Nat × Nat), pool.Perm c.pool ∧
    (draw files c).out = c.out ++ (pool.take (min (want files c.pool) c.pool.length)).map sampleOf :=
  ⟨_, draw_spec c _ (Nat.min_le_right _ _)⟩

theorem sum_sliceLen (size : Nat) : ((List.range (size ⌈/⌉ sliceSize)).map (sliceLen size)).sum = size := by
  refine (congrArg List.sum (List.map_congr_left fun s _ => ?_)).trans (sum_lengths sliceSize_pos size)
  rw [sliceLen]

/-- What the pieces of a file come to. -/
theorem sum_everything (files : List File) (i : Nat) :
    ((everything files i).map fun s => (s.range (sizeAt files s.fileIdx)).2).sum = sizeAt files i := by
  rw [everything]
  split
  · rename_i hzero
    exact hzero.symm
  split
  · exact List.sum_singleton
  · rw [List.map_map]
    refine (congrArg List.sum (List.map_congr_left fun s _ => ?_)).trans (sum_sliceLen (sizeAt files i))
    rw [Function.comp_apply, Sample.range]
    dsimp only
    rw [Option.elim_some]

theorem sum_sizeAt (files : List File) :
    ((List.range files.length).map (sizeAt files)).sum = (files.map Prod.snd).sum := by
  congr 1
  refine List.ext_getElem (by simp) fun i h1 h2 => ?_
  rw [List.length_map] at h2
  simp [sizeAt, h2]

theorem sum_all (files : List File) (l : List Nat) :
    ((l.flatMap (everything files)).map fun s => (s.range (sizeAt files s.fileIdx)).2).sum =
      (l.map (sizeAt files)).sum := by
  induction l with
  | nil => rfl
  | cons i l ih => rw [List.flatMap_cons, List.map_append, List.sum_append, sum_everything, ih, List.map_cons, List.sum_cons]

/-- **What is read back**: the plan is in order and has nothing twice, everything in it is there to be read, small files
are read whole, of a large one both ends, a slice in between and the seam are read, the draw comes to its number, and the
check covers no more than there is. -/
theorem plan_planned (files : List File) (seed : UInt64) (seam : Bool) :
    Planned files seam (plan files seed seam) ∧
      (plan files seed seam).length = (choose files seed seam).out.length +
        min (want files (choose files seed seam).pool) (choose files seed seam).pool.length ∧
      (summary files (.fast seed seam)).checkedBytes ≤ (summary files (.fast seed seam)).totalBytes := by
  have hof := choose_of files seed seam
  obtain ⟨pool, hperm, hout⟩ := draw_out files (choose files seed seam)
  have hplan : (plan files seed seam).Perm (draw files (choose files seed seam)).out := List.perm_insertionSort _ _
  have hsub : (plan files seed seam).Subperm ((List.range files.length).flatMap (everything files)) := by
    refine hplan.subperm_right.2 ?_
    rw [hout]
    have htaken := (List.Sublist.refl (choose files seed seam).out).append
      ((List.take_sublist (min (want files (choose files seed seam).pool) (choose files seed seam).pool.length) pool).map
        sampleOf)
    refine htaken.subperm.trans (((hperm.map _).append_left _).trans (hof.all.trans ?_)).subperm
    exact (order_perm files).flatMap_right _
  have hnodup : (plan files seed seam).Nodup := by
    obtain ⟨l, hl, hs⟩ := hsub
    exact hl.nodup_iff.1 ((nodup_all files _).sublist hs)
  refine ⟨⟨List.pairwise_insertionSort _ _, hnodup, fun s hs => ?_, fun i hi => ?_⟩, ?_, ?_⟩
  · obtain ⟨i, hi, hs⟩ := List.mem_flatMap.1 (hsub.subset hs)
    rw [everything_fileIdx hs]
    exact ⟨List.mem_range.1 hi, hs⟩
  · refine (hof.must i ((order_perm files).mem_iff.2 (List.mem_range.2 hi))).mono fun s hs => hplan.mem_iff.2 ?_
    rw [hout]
    exact List.mem_append_left _ hs
  · rw [hplan.length_eq, hout, List.length_append, List.length_map, List.length_take, hperm.length_eq,
      Nat.min_eq_left (Nat.min_le_right _ _)]
  · obtain ⟨l, hl, hs⟩ := hsub
    rw [summary, ← sum_sizeAt, ← sum_all]
    dsimp only
    rw [← (hl.map _).sum_nat]
    exact (hs.map _).sum_le_sum fun _ _ => Nat.zero_le _

end Ps5Upload.Sampling
