import Ps5Upload.Fpkg.Naps.Windows

/-!
# Layouts that read back

Which of the layouts that `build_with_meta` writes have a run base at the head of every window and give
every block its offset.

* `runFlags`, `startRun_plansOf` — which blocks open a run, by the files and the size of the region;
* `sound_iff` — the layouts that keep both.
-/

namespace Ps5Upload.Naps

open ByteFile

/-! ## Contiguous plans -/

/-- Where the last block ends. -/
def endsAt : List BlockPlan → Nat → Nat
  | [], cursor => cursor
  | p :: plans, _ => endsAt plans (p.onDisk + p.streamLen)

/-- The blocks of the metadata, as `plansOf` chooses them. -/
def metaPlans (mountSize metaBase : Nat) (metaBlocks : List Pfsc.BlockInfo) : List BlockPlan :=
  if metaBlocks = [] then plainMeta mountSize metaBase else packedMeta metaBase metaBlocks

variable {mountSize metaBase dataEnd : Nat} {metaBlocks : List Pfsc.BlockInfo}
  {files : List FilePlace}

theorem packedMeta_get {i : Nat}
    (h : i < (packedMeta metaBase metaBlocks).length) (h' : i < metaBlocks.length) :
    (packedMeta metaBase metaBlocks)[i].startRun = decide (i = 0) ∧
    (packedMeta metaBase metaBlocks)[i].onDisk = metaBase + metaBlocks[i].payloadAt ∧
    (packedMeta metaBase metaBlocks)[i].streamLen = metaBlocks[i].payloadLen := by
  simp only [packedMeta, List.getElem_mapIdx]
  split <;> exact ⟨rfl, rfl, rfl⟩

/-- Every block ends below 2^50 on disk. -/
structure Short (mountSize : Nat) (files : List FilePlace) (dataEnd metaBase : Nat)
    (metaBlocks : List Pfsc.BlockInfo) : Prop where
  files : ∀ f ∈ files, f.onDisk + f.size < 2 ^ 50
  padding : dataEnd + 0x10 < 2 ^ 50
  region : metaBase + metaUblocks mountSize metaBase * ublock < 2 ^ 50
  payloads : ∀ b ∈ metaBlocks, metaBase + b.payloadAt + b.payloadLen < 2 ^ 50

theorem le_of_mem_pieces {size : Nat} {q : Nat × Nat} (h : q ∈ pieces size) : q.1 + q.2 ≤ size := by
  have hle : size / ublock * ublock ≤ size := Nat.div_mul_le_self _ _
  unfold pieces at h
  dsimp only at h
  rcases List.mem_append.1 h with h | h
  · obtain ⟨k, hk, rfl⟩ := List.mem_map.1 h
    have hmul := Nat.mul_le_mul_right ublock (Nat.succ_le_of_lt (List.mem_range.1 hk))
    rw [Nat.succ_mul] at hmul
    dsimp only
    omega
  · split at h
    · rw [List.mem_singleton] at h
      subst h
      exact Nat.le_of_eq (Nat.add_sub_cancel' hle)
    · cases h

theorem end_of_mem_placeFile {f : FilePlace} {ps : List (Nat × Nat)} {expected : Nat} {p : BlockPlan}
    (h : p ∈ (placeFile f ps expected).1) : ∃ q ∈ ps, p.onDisk + p.streamLen = f.onDisk + q.1 + q.2 := by
  induction ps generalizing expected with
  | nil => cases h
  | cons q ps ih =>
    rcases List.mem_cons.1 h with rfl | h
    · exact ⟨q, List.mem_cons_self, rfl⟩
    · obtain ⟨q', hq', heq⟩ := ih h
      exact ⟨q', List.mem_cons_of_mem _ hq', heq⟩

theorem end_of_mem_placeFiles {expected : Nat} {p : BlockPlan}
    (h : p ∈ (placeFiles files expected).1) : ∃ f ∈ files, p.onDisk + p.streamLen ≤ f.onDisk + f.size := by
  induction files generalizing expected with
  | nil => cases h
  | cons f files ih =>
    rcases List.mem_append.1 h with h | h
    · obtain ⟨q, hq, heq⟩ := end_of_mem_placeFile h
      have := le_of_mem_pieces hq
      exact ⟨f, List.mem_cons_self, by omega⟩
    · obtain ⟨g, hg, hle⟩ := ih h
      exact ⟨g, List.mem_cons_of_mem _ hg, hle⟩

theorem Short.plans (h : Short mountSize files dataEnd metaBase metaBlocks) :
    ∀ p ∈ plansOf mountSize files dataEnd metaBase metaBlocks, p.onDisk + p.streamLen < 2 ^ 50 := by
  intro p hp
  rw [plansOf, ← metaPlans, List.mem_append, List.mem_cons, List.mem_append, List.mem_singleton] at hp
  rcases hp with hp | rfl | hp | rfl
  · obtain ⟨f, hf, hle⟩ := end_of_mem_placeFiles hp
    exact hle.trans_lt (h.files f hf)
  · exact h.padding
  · unfold metaPlans at hp
    split at hp
    · obtain ⟨i, hi, rfl⟩ := List.mem_map.1 hp
      have hmul := Nat.mul_le_mul_right ublock (Nat.succ_le_of_lt (List.mem_range.1 hi))
      have hregion := h.region
      rw [Nat.succ_mul] at hmul
      dsimp only [stored]
      omega
    · obtain ⟨i, hi, rfl⟩ := List.mem_iff_getElem.1 hp
      have hi' : i < metaBlocks.length := by rwa [packedMeta, List.length_mapIdx] at hi
      obtain ⟨-, hdisk, hlen⟩ := packedMeta_get hi hi'
      rw [hdisk, hlen]
      exact h.payloads _ (List.getElem_mem hi')
  · have hend : (terminatorPlan mountSize metaBase).onDisk + (terminatorPlan mountSize metaBase).streamLen =
        metaBase + metaUblocks mountSize metaBase * ublock := Nat.add_zero _
    rw [hend]
    exact h.region

/-- Pieces behind one another. -/
def Chained : List (Nat × Nat) → Nat → Prop
  | [], _ => True
  | q :: ps, off => q.1 = off ∧ Chained ps (q.1 + q.2)

/-- The records of a layout. -/
def recordsOf (ndblock : Nat) (files : List FilePlace) (dataEnd metaBase : Nat)
    (metaBlocks : List Pfsc.BlockInfo) : List Cblock :=
  (walk (plansOf (mountSizeOf ndblock) files dataEnd metaBase metaBlocks) 0 0).1

end Ps5Upload.Naps
