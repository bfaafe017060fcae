import Ps5Upload.Fpkg.PlayGo.Tiling
import Mathlib.Algebra.Order.BigOperators.Group.List

/-!
# The PlayGo tables as they are written

Every table of `playgo-chunk.dat` is where the header says, one behind the other, with what the header
counts; the hash table and the file map have one entry for each file, in the same order.

* `ascending_chunkDat` — the pieces of `chunk_dat` are copied in the order they stand in;
* `ChunkDat`, `chunkDat_ok` — what can be read back;
* `build_tables` — all the tables of a build.
-/

namespace Ps5Upload.PlayGo

open Blocks ByteFile Checked Stamps Utf8

/-! ## Fields -/

/-- A field that was stamped reads as its number. -/
theorem leAt_of_stamped {d : Bytes} {ps : List (Nat × Bytes)}
    (hall : ∀ q ∈ ps, (d.drop q.1).take q.2.length = q.2) {o w v : Nat} (h : (o, le w v) ∈ ps)
    (hv : v < 256 ^ w) : leAt d o w = v := by
  have hd := hall _ h
  rw [length_le] at hd
  rw [leAt, hd, fromLe_le, Nat.mod_eq_of_lt hv]

/-! ## The offsets -/

theorem alignUp_near (x : Nat) : x ≤ alignUp x 16 ∧ alignUp x 16 < x + 16 :=
  ⟨le_alignUp (by decide) x, alignUp_lt (by decide) x⟩

/-- The seven tables come one behind the other. -/
theorem tableOffsets_eq (n listed labelled mchunks scenario : Nat) :
    ∃ o₁ o₂ o₃ o₄ o₅ o₆ total,
      tableOffsets (tableSizes n listed labelled mchunks scenario) 0x100 =
        ([0x100, o₁, o₂, o₃, o₄, o₅, o₆], total) ∧
      (0x100 + n * 0x20 ≤ o₁ ∧ o₁ < 0x100 + n * 0x20 + 16) ∧
      (o₁ + listed * 4 ≤ o₂ ∧ o₂ < o₁ + listed * 4 + 16) ∧
      (o₂ + labelled ≤ o₃ ∧ o₃ < o₂ + labelled + 16) ∧
      (o₃ + mchunks * 0x10 ≤ o₄ ∧ o₄ < o₃ + mchunks * 0x10 + 16) ∧
      (o₄ + 0x20 ≤ o₅ ∧ o₅ < o₄ + 0x20 + 16) ∧
      (o₅ + n * 2 ≤ o₆ ∧ o₆ < o₅ + n * 2 + 16) ∧
      (o₆ + scenario ≤ total ∧ total < o₆ + scenario + 16) :=
  ⟨_, _, _, _, _, _, _, rfl, alignUp_near _, alignUp_near _, alignUp_near _, alignUp_near _,
    alignUp_near _, alignUp_near _, alignUp_near _⟩

/-- Where the `k`-th length starts. -/
theorem getElem?_running {w : List Nat} {k : Nat} (hk : k < w.length) (at' : Nat) :
    (running w at')[k]? = some (at' + (w.take k).sum) := by
  induction w generalizing k at' with
  | nil => exact absurd hk (Nat.not_lt_zero _)
  | cons l ls ih =>
    cases k with
    | zero => rfl
    | succ k =>
      rw [running, List.getElem?_cons_succ, ih (Nat.lt_of_succ_lt_succ hk), List.take_succ_cons,
        List.sum_cons, Nat.add_assoc]

theorem length_chunkName {k : Nat} (hk : k < 255) : (chunkName k).length ≤ 11 := by
  have h : ∀ k < 255, (chunkName k).length ≤ 11 := by decide +kernel
  exact h k hk

theorem length_chunkLabels {n : Nat} (hpos : 0 < n) (hn : n ≤ 255) (labels : Bool) :
    (chunkLabels n labels).1.length ≤ n * 11 := by
  cases labels with
  | false => exact Nat.le_trans hpos (Nat.le_mul_of_pos_right n (by decide))
  | true =>
    show ((List.range n).map chunkName).flatten.length ≤ n * 11
    rw [List.length_flatten, List.map_map]
    refine Nat.le_trans (List.sum_le_card_nsmul _ 11 fun l hl => ?_) ?_
    · obtain ⟨k, hk, rfl⟩ := List.mem_map.1 hl
      exact length_chunkName (Nat.lt_of_lt_of_le (List.mem_range.1 hk) hn)
    · rw [List.length_map, List.length_range, smul_eq_mul]

/-! ## What can be read back -/

/-- The offset and the size that the header gives for a table. -/
def tableAt (d : Bytes) (i : Nat) : Nat := leAt d (0xC0 + i * 8) 4

def tableLen (d : Bytes) (i : Nat) : Nat := leAt d (0xC4 + i * 8) 4

/-- The tables of a `playgo-chunk.dat`. -/
structure ChunkDat (d : Bytes) (chunks : List (List Nat)) (mchunks : List (Nat × Nat)) (labels : Bool) :
    Prop where
  total : leAt d 0x10 4 = d.length
  chunkCount : leAt d 0x0A 2 = chunks.length
  mchunkCount : leAt d 0x20 2 = mchunks.length
  behind : 0x100 ≤ tableAt d 0
  apart : ∀ i < 6, tableAt d i + tableLen d i ≤ tableAt d (i + 1)
  inside : tableAt d 6 + tableLen d 6 ≤ d.length
  sizes : (List.range 7).map (tableLen d) = tableSizes chunks.length chunks.flatten.length
    (chunkLabels chunks.length labels).1.length mchunks.length (scenarioLabel labels).length
  /-- A chunk has the number of its mchunks, and where its list starts in the next table. -/
  attrs : ∀ k owned, chunks[k]? = some owned →
    leAt d (tableAt d 0 + k * 0x20 + 4) 4 = owned.length ∧
      leAt d (tableAt d 0 + k * 0x20 + 0x18) 4 = (chunks.take k).flatten.length * 4
  listed : ∀ i m, chunks.flatten[i]? = some m → leAt d (tableAt d 1 + i * 4) 4 = m
  labelled : (d.drop (tableAt d 2)).take (tableLen d 2) = (chunkLabels chunks.length labels).1
  mchunkAttrs : ∀ i m, mchunks[i]? = some m →
    leAt d (tableAt d 3 + i * 0x10) 8 = m.1 ∧ leAt d (tableAt d 3 + i * 0x10 + 8) 8 = m.2
  scenario : leAt d (tableAt d 4 + 0x16) 2 = chunks.length
  scenarioChunks : ∀ k < chunks.length, leAt d (tableAt d 5 + k * 2) 2 = k
  scenarioName : (d.drop (tableAt d 6)).take (tableLen d 6) = scenarioLabel labels

/-- What the tables can hold. -/
structure Fits (contentId : Bytes) (chunks : List (List Nat)) (mchunks : List (Nat × Nat)) : Prop where
  id : contentId.length = 36
  pos : 0 < chunks.length
  chunksLe : chunks.length ≤ 255
  listedLe : chunks.flatten.length ≤ 256
  mchunksLe : mchunks.length ≤ 256
  ids : ∀ m ∈ chunks.flatten, m < 256
  ranges : ∀ m ∈ mchunks, m.1 < 2 ^ 64 ∧ m.2 < 2 ^ 64

section ChunkDat

variable {contentId : Bytes} {chunks : List (List Nat)} {mchunks : List (Nat × Nat)} {labels : Bool}

theorem length_scenarioLabel (labels : Bool) : (scenarioLabel labels).length ≤ 12 := by
  cases labels <;> decide

theorem ascending_headerFields (hid : contentId.length = 36) (n total mchunks : Nat) :
    Ascending 0 (headerFields n total mchunks contentId) 0xC0 := by
  have hplgx : (bytes "plgx".toList).length = 4 := by decide
  simp only [headerFields, Ascending, length_le, List.length_cons, List.length_nil,
    List.length_replicate, hid, hplgx]
  decide

/-- Everything `chunk_dat` copies into its buffer, from the offsets of the tables on. -/
def pieces (contentId : Bytes) (chunks : List (List Nat)) (mchunks : List (Nat × Nat)) (labels : Bool)
    (offsets : List Nat) (total : Nat) : List (Nat × Bytes) :=
  let n := chunks.length
  let names := (chunkLabels n labels).1
  let sizes := tableSizes n chunks.flatten.length names.length mchunks.length (scenarioLabel labels).length
  let off (i : Nat) := offsets[i]?.getD 0
  headerFields n total mchunks.length contentId ++
    ((offsets.zip sizes).mapIdx tableFields).flatten ++
    (chunks.mapIdx fun k owned => chunkFields (off 0 + k * 0x20) owned.length
      ((running (chunks.map fun owned => owned.length * 4) 0)[k]?.getD 0)
      ((chunkLabels n labels).2[k]?.getD 0)).flatten ++
    (chunks.flatten.mapIdx fun i m => [(off 1 + i * 4, le 4 m)]).flatten ++
    [(off 2, names)] ++
    (mchunks.mapIdx fun i m => mchunkFields (off 3 + i * 0x10) m).flatten ++
    scenarioFields (off 4) n ++
    ((List.range n).mapIdx fun k _ => [(off 5 + k * 2, le 2 k)]).flatten ++
    [(off 6, scenarioLabel labels)]

variable (labels) in
/-- They are copied in the order they stand in. -/
theorem ascending_pieces (hid : contentId.length = 36) {o₁ o₂ o₃ o₄ o₅ o₆ total : Nat}
    (h₁ : 0x100 + chunks.length * 0x20 ≤ o₁) (h₂ : o₁ + chunks.flatten.length * 4 ≤ o₂)
    (h₃ : o₂ + (chunkLabels chunks.length labels).1.length ≤ o₃) (h₄ : o₃ + mchunks.length * 0x10 ≤ o₄)
    (h₅ : o₄ + 0x20 ≤ o₅) (h₆ : o₅ + chunks.length * 2 ≤ o₆)
    (h₇ : o₆ + (scenarioLabel labels).length ≤ total) :
    Ascending 0 (pieces contentId chunks mchunks labels [0x100, o₁, o₂, o₃, o₄, o₅, o₆] total) total := by
  have hheader := ascending_headerFields hid chunks.length total mchunks.length
  have htables : ∀ ts : List (Nat × Nat), ts.length = 7 →
      Ascending 0xC0 (ts.mapIdx tableFields).flatten 0x100 := fun ts hts => by
    have h := ascending_mapIdx (p := fun k => 0xC0 + k * 8) (f := tableFields) (l := ts)
      fun k t _ => by
        simp only [tableFields, Ascending, length_le]
        omega
    rw [hts] at h
    exact h.mono (Nat.le_refl _) (by decide)
  have hchunks := ascending_mapIdx (p := fun k => 0x100 + k * 0x20) (l := chunks)
    (f := fun k owned => chunkFields (0x100 + k * 0x20) owned.length
      ((running (chunks.map fun owned => owned.length * 4) 0)[k]?.getD 0)
      ((chunkLabels chunks.length labels).2[k]?.getD 0)) fun k owned _ => by
        simp only [chunkFields, Ascending, length_le, List.length_cons, List.length_nil]
        omega
  have hlisted := ascending_mapIdx (p := fun i => o₁ + i * 4) (l := chunks.flatten)
    (f := fun i m => [(o₁ + i * 4, le 4 m)]) fun i m _ => by
      simp only [Ascending, length_le]
      omega
  have hnames : Ascending o₂ [(o₂, (chunkLabels chunks.length labels).1)] o₃ := ⟨Nat.le_refl _, h₃⟩
  have hmchunks := ascending_mapIdx (p := fun i => o₃ + i * 0x10) (l := mchunks)
    (f := fun i m => mchunkFields (o₃ + i * 0x10) m) fun i m _ => by
      simp only [mchunkFields, Ascending, length_le]
      omega
  have hscenario : Ascending o₄ (scenarioFields o₄ chunks.length) o₅ := by
    simp only [scenarioFields, Ascending, length_le, List.length_cons, List.length_nil]
    omega
  have hinitial := ascending_mapIdx (p := fun k => o₅ + k * 2) (l := List.range chunks.length)
    (f := fun k _ => [(o₅ + k * 2, le 2 k)]) fun k m _ => by
      simp only [Ascending, length_le]
      omega
  rw [List.length_range] at hinitial
  have hlabel : Ascending o₆ [(o₆, scenarioLabel labels)] total := ⟨Nat.le_refl _, h₇⟩
  unfold pieces
  exact (((((((hheader.append (htables _ (by simp [tableSizes]))).append
    (hchunks.mono (Nat.le_refl _) h₁)).append (hlisted.mono (Nat.le_refl _) h₂)).append hnames).append
    (hmchunks.mono (Nat.le_refl _) h₄)).append hscenario).append (hinitial.mono (Nat.le_refl _) h₆)).append
    hlabel

theorem take_sum_lengths (chunks : List (List Nat)) (k : Nat) :
    ((chunks.map fun owned => owned.length * 4).take k).sum = (chunks.take k).flatten.length * 4 := by
  rw [← List.map_take, List.length_flatten]
  induction chunks.take k with
  | nil => rfl
  | cons owned rest ih => rw [List.map_cons, List.sum_cons, ih, List.map_cons, List.sum_cons, Nat.add_mul]

/-- The tables of `chunk_dat` are written whole, and are where the header has them. -/
theorem chunkDat_ok (h : Fits contentId chunks mchunks) (labels : Bool) :
    ∃ d, chunkDat contentId chunks mchunks labels = .ok d ∧ ChunkDat d chunks mchunks labels := by
  have hlist := h.listedLe
  have hn := h.chunksLe
  have hm := h.mchunksLe
  have hlabels := length_chunkLabels h.pos hn labels
  have hscenario := length_scenarioLabel labels
  obtain ⟨o₁, o₂, o₃, o₄, o₅, o₆, total, hoff, h₁, h₂, h₃, h₄, h₅, h₆, h₇⟩ := tableOffsets_eq chunks.length
    chunks.flatten.length (chunkLabels chunks.length labels).1.length mchunks.length
    (scenarioLabel labels).length
  obtain ⟨d, hd, hlen, -, hall⟩ := stamp_ascending (ε := String) (d := List.replicate total (0 : UInt8))
    (ascending_pieces labels h.id h₁.1 h₂.1 h₃.1 h₄.1 h₅.1 h₆.1 h₇.1)
    (by rw [List.length_replicate])
  rw [List.length_replicate] at hlen
  refine ⟨d, ?_, ?_⟩
  · rw [← hd]
    unfold chunkDat
    simp only [hoff]
    rfl
  have hmem : ∀ q, q ∈ pieces contentId chunks mchunks labels [0x100, o₁, o₂, o₃, o₄, o₅, o₆] total ↔ _ :=
    fun q => by
      unfold pieces
      simp only [List.mem_append, or_assoc]
      exact Iff.rfl
  -- The offsets and the sizes that the header has.
  have hfield : ∀ i o len, ([0x100, o₁, o₂, o₃, o₄, o₅, o₆].zip (tableSizes chunks.length
      chunks.flatten.length (chunkLabels chunks.length labels).1.length mchunks.length
      (scenarioLabel labels).length))[i]? = some (o, len) → o < 2 ^ 32 → len < 2 ^ 32 →
      tableAt d i = o ∧ tableLen d i = len := by
    intro i o len hi ho hl
    have hin : ∀ q ∈ tableFields i (o, len), q ∈ _ := fun q hq =>
      (hmem q).2 (.inr (.inl (mem_records hi hq)))
    exact ⟨leAt_of_stamped hall (hin _ List.mem_cons_self) ho,
      leAt_of_stamped hall (hin _ (List.mem_cons_of_mem _ List.mem_cons_self)) hl⟩
  have t₀ := hfield 0 _ _ rfl (by omega) (by omega)
  have t₁ := hfield 1 _ _ rfl (by omega) (by omega)
  have t₂ := hfield 2 _ _ rfl (by omega) (by omega)
  have t₃ := hfield 3 _ _ rfl (by omega) (by omega)
  have t₄ := hfield 4 _ _ rfl (by omega) (by omega)
  have t₅ := hfield 5 _ _ rfl (by omega) (by omega)
  have t₆ := hfield 6 _ _ rfl (by omega) (by omega)
  have hheader : ∀ q ∈ headerFields chunks.length total mchunks.length contentId, q ∈ _ :=
    fun q hq => (hmem q).2 (.inl hq)
  exact {
    total := by
      rw [hlen]
      exact leAt_of_stamped hall (hheader _ (by simp [headerFields])) (show total < 2 ^ 32 by omega)
    chunkCount := leAt_of_stamped hall (hheader _ (by simp [headerFields]))
      (show chunks.length < 2 ^ 16 by omega)
    mchunkCount := leAt_of_stamped hall (hheader _ (by simp [headerFields]))
      (show mchunks.length < 2 ^ 16 by omega)
    behind := Nat.le_of_eq t₀.1.symm
    apart := fun i hi => by
      have hcases : i = 0 ∨ i = 1 ∨ i = 2 ∨ i = 3 ∨ i = 4 ∨ i = 5 := by omega
      rcases hcases with rfl | rfl | rfl | rfl | rfl | rfl
      · rw [t₀.1, t₀.2, t₁.1]
        exact h₁.1
      · rw [t₁.1, t₁.2, t₂.1]
        exact h₂.1
      · rw [t₂.1, t₂.2, t₃.1]
        exact h₃.1
      · rw [t₃.1, t₃.2, t₄.1]
        exact h₄.1
      · rw [t₄.1, t₄.2, t₅.1]
        exact h₅.1
      · rw [t₅.1, t₅.2, t₆.1]
        exact h₆.1
    inside := by
      rw [t₆.1, t₆.2, hlen]
      exact h₇.1
    sizes := by
      show [tableLen d 0, tableLen d 1, tableLen d 2, tableLen d 3, tableLen d 4, tableLen d 5,
        tableLen d 6] = _
      rw [t₀.2, t₁.2, t₂.2, t₃.2, t₄.2, t₅.2, t₆.2]
      rfl
    attrs := fun k owned hk => by
      have hklt := (List.getElem?_eq_some_iff.1 hk).1
      have hin : ∀ q ∈ _, q ∈ _ := fun q hq => (hmem q).2 (.inr (.inr (.inl (mem_records hk hq))))
      have hsum : (chunks.take k).flatten.length ≤ chunks.flatten.length := by
        conv_rhs => rw [← List.take_append_drop k chunks, List.flatten_append, List.length_append]
        omega
      have howned : owned.length ≤ chunks.flatten.length :=
        (List.sublist_flatten_of_mem (List.mem_of_getElem? hk)).length_le
      have hrun := getElem?_running (w := chunks.map fun owned => owned.length * 4)
        (by rwa [List.length_map]) 0
      rw [take_sum_lengths, Nat.zero_add] at hrun
      rw [t₀.1]
      refine ⟨leAt_of_stamped hall (hin _ (by simp [chunkFields])) (show owned.length < 2 ^ 32 by omega), ?_⟩
      refine leAt_of_stamped hall (hin _ ?_) (show _ < 2 ^ 32 by omega)
      simp [chunkFields, hrun]
    listed := fun i m hi => by
      have hlt := h.ids m (List.mem_of_getElem? hi)
      rw [t₁.1]
      exact leAt_of_stamped hall ((hmem _).2 (.inr (.inr (.inr (.inl (mem_records hi List.mem_cons_self))))))
        (show m < 2 ^ 32 by omega)
    labelled := by
      rw [t₂.1, t₂.2]
      exact hall _ ((hmem _).2 (.inr (.inr (.inr (.inr (.inl List.mem_cons_self))))))
    mchunkAttrs := fun i m hi => by
      have hin : ∀ q ∈ _, q ∈ _ := fun q hq =>
        (hmem q).2 (.inr (.inr (.inr (.inr (.inr (.inl (mem_records hi hq)))))))
      have hr := h.ranges m (List.mem_of_getElem? hi)
      rw [t₃.1]
      exact ⟨leAt_of_stamped hall (hin _ List.mem_cons_self) hr.1,
        leAt_of_stamped hall (hin _ (List.mem_cons_of_mem _ List.mem_cons_self)) hr.2⟩
    scenario := by
      rw [t₄.1]
      exact leAt_of_stamped hall ((hmem _).2 (.inr (.inr (.inr (.inr (.inr (.inr (.inl
        (by simp [scenarioFields]))))))))) (show chunks.length < 2 ^ 16 by omega)
    scenarioChunks := fun k hk => by
      have hrange : (List.range chunks.length)[k]? = some k := List.getElem?_range hk
      rw [t₅.1]
      exact leAt_of_stamped hall ((hmem _).2 (.inr (.inr (.inr (.inr (.inr (.inr (.inr (.inl
        (mem_records hrange List.mem_cons_self)))))))))) (show k < 2 ^ 16 by omega)
    scenarioName := by
      rw [t₆.1, t₆.2]
      exact hall _ ((hmem _).2 (.inr (.inr (.inr (.inr (.inr (.inr (.inr (.inr List.mem_cons_self))))))))) }

end ChunkDat

/-! ## The hash table and the file map -/

/-- The hash at a place of the hash table, and the chunk at that place of the file map. -/
def hashAt (t : Tables) (i : Nat) : Nat := leAt t.hashTable (0x38 + i * 8) 8

def chunkOf (t : Tables) (i : Nat) : Nat := leAt t.ficm (0x10 + i * 2) 2

/-- One entry for each file, by the hashes: the hash of its path, and a chunk that owns an mchunk with the
file's first byte, if there is such a byte below the container. -/
def Mapped (t : Tables) (files : List ImageFile) (cnt : Nat) : Prop :=
  t.hashTable.length = 0x38 + files.length * 8 ∧ t.ficm.length = 0x10 + files.length * 2 ∧
    ∃ order : List ImageFile, order.Perm files ∧
      (order.map fun f => (Inner.hashPath f.path).toNat).Pairwise (· ≤ ·) ∧
      ∀ i f, order[i]? = some f → hashAt t i = (Inner.hashPath f.path).toNat ∧
        (f.offset < cnt → ∃ m range owned, t.mchunks[m]? = some range ∧ range.1 ≤ f.offset ∧
          f.offset < range.1 + range.2 ∧ t.chunks[chunkOf t i]? = some owned ∧ m ∈ owned)

theorem length_headerSeed : Inner.headerSeed.length = 16 := rfl

theorem length_hashTable (entries : List (Nat × Nat)) :
    (hashTable entries).length = 0x38 + entries.length * 8 := by
  simp only [hashTable, List.length_append, length_le, List.length_replicate, List.length_cons,
    List.length_nil, length_headerSeed, length_flatMap_const fun e _ => length_le 8 _]

theorem length_ficm (entries : List (Nat × Nat)) : (ficm entries).length = 0x10 + entries.length * 2 := by
  simp only [ficm, List.length_append, length_le, List.length_replicate,
    length_flatMap_const fun e _ => length_le 2 _]

theorem leAt_hashTable {entries : List (Nat × Nat)} {i : Nat} {e : Nat × Nat} (h : entries[i]? = some e) :
    leAt (hashTable entries) (0x38 + i * 8) 8 = e.1 % 256 ^ 8 := by
  have hrec := take_drop_records (le 4 1 ++ le 4 0x08000000 ++ le 4 0x38 ++ le 4 (entries.length * 8) ++
    List.replicate 8 0 ++ [0x7F, 0x46, 0x4C, 0x54] ++ List.replicate 8 0 ++ le 4 entries.length ++
    Inner.headerSeed) (f := fun e : Nat × Nat => le 8 e.1) (w := 8) (fun e => length_le 8 _) h
  rw [leAt, hashTable]
  simp only [List.length_append, length_le, List.length_replicate, List.length_cons, List.length_nil,
    length_headerSeed] at hrec
  rw [hrec, fromLe_le]

theorem leAt_ficm {entries : List (Nat × Nat)} {i : Nat} {e : Nat × Nat} (h : entries[i]? = some e) :
    leAt (ficm entries) (0x10 + i * 2) 2 = e.2 % 256 ^ 2 := by
  have hrec := take_drop_records (le 4 1 ++ List.replicate 4 0 ++ le 4 0x10 ++ le 4 (entries.length * 2))
    (f := fun e : Nat × Nat => le 2 e.2) (w := 2) (fun e => length_le 2 _) h
  rw [leAt, ficm]
  simp only [List.length_append, length_le, List.length_replicate] at hrec
  rw [hrec, fromLe_le]

/-- The entries are those of the files, in the order of the hashes. -/
theorem fileMap_eq (n : Nat) (mchunks : List (Nat × Nat)) (files : List ImageFile) :
    ∃ order : List ImageFile, order.Perm files ∧
      (order.map fun f => (Inner.hashPath f.path).toNat).Pairwise (· ≤ ·) ∧
      fileMap n mchunks files =
        order.map fun f => ((Inner.hashPath f.path).toNat, chunkAt n mchunks f.offset) := by
  refine ⟨files.insertionSort fun a b => (Inner.hashPath a.path).toNat ≤ (Inner.hashPath b.path).toNat,
    List.perm_insertionSort _ _, ?_, ?_⟩
  · rw [List.pairwise_map]
    exact List.pairwise_insertionSort _ _
  · exact (List.map_insertionSort
      (fun a b : ImageFile => (Inner.hashPath a.path).toNat ≤ (Inner.hashPath b.path).toNat)
      (fun a b : Nat × Nat => a.1 ≤ b.1) _ _ fun _ _ _ _ => Iff.rfl).symm

/-! ## The build -/

/-- Every build: the mchunks tile the image and belong to one chunk each, every file is in the chunk that
the file map has for it, and the tables of `playgo-chunk.dat` are where its header says. -/
theorem build_tables (contentId : Text) (files : List ImageFile) {cnt wanted : Nat}
    (hid : size contentId = 36) (hcnt : 0 < cnt) (hdvd : block ∣ cnt) (hword : cnt < 2 ^ 64)
    (hwanted : 0 < wanted ∧ wanted ≤ 255) :
    ∃ t, build contentId files cnt wanted = .ok t ∧
      Tiles 0 t.mchunks cnt ∧ t.chunks.flatten.Perm (List.range t.mchunks.length) ∧
      Mapped t files cnt ∧ ChunkDat t.chunkDat t.chunks t.mchunks (1 < t.chunks.length) := by
  have hcut := cut_build files wanted hdvd hcnt
  set stop := dataEnd files cnt
  set units := stop / block
  set n := chunkCount units wanted with hn
  have htiles := tiles_mchunksOf hcut
  have hperm := perm_chunksOf hcut
  have hnle : n ≤ 255 := by
    rw [hn, chunkCount]
    omega
  have hlen := length_mchunksOf n units stop cnt
  have hmle : (mchunksOf n units stop cnt).length ≤ 256 := by
    rw [hlen]
    split
    · omega
    · split <;> omega
  have hfits : Fits (bytes contentId) (chunksOf n stop cnt) (mchunksOf n units stop cnt) :=
    { id := by rw [← hid]; exact length_bytes contentId
      pos := by rw [length_chunksOf]; exact hcut.pos
      chunksLe := by rw [length_chunksOf]; exact hnle
      listedLe := by rw [hperm.length_eq, List.length_range]; exact hmle
      mchunksLe := hmle
      ids := fun m hm => Nat.lt_of_lt_of_le (List.mem_range.1 (hperm.mem_iff.1 hm)) hmle
      ranges := fun m hm => by
        have hle := (htiles.mem_le m hm).2
        omega }
  obtain ⟨d, hd, hdat⟩ := chunkDat_ok hfits (1 < n)
  obtain ⟨order, horder, hsorted, hmap⟩ := fileMap_eq n (mchunksOf n units stop cnt) files
  refine ⟨⟨d, hashTable (fileMap n (mchunksOf n units stop cnt) files),
    ficm (fileMap n (mchunksOf n units stop cnt) files), chunksOf n stop cnt, mchunksOf n units stop cnt⟩,
    ?_, htiles, hperm, ?_, ?_⟩
  · unfold build
    rw [if_neg (by omega), if_neg (by unfold maxChunks; omega)]
    show chunkDat _ _ _ _ >>= _ = _
    rw [hd]
    rfl
  · have hentries : (fileMap n (mchunksOf n units stop cnt) files).length = files.length := by
      rw [hmap, List.length_map, horder.length_eq]
    refine ⟨by rw [length_hashTable, hentries], by rw [length_ficm, hentries], order, horder, hsorted,
      fun i f hf => ?_⟩
    have hentry : (fileMap n (mchunksOf n units stop cnt) files)[i]? =
        some ((Inner.hashPath f.path).toNat, chunkAt n (mchunksOf n units stop cnt) f.offset) := by
      rw [hmap, List.getElem?_map, hf]
      rfl
    refine ⟨?_, fun hoff => ?_⟩
    · unfold hashAt
      rw [leAt_hashTable hentry]
      exact Nat.mod_eq_of_lt (Inner.hashPath f.path).isLt
    · have hchunk := chunkAt_lt hcut f.offset
      obtain ⟨m, range, owned, hm, hlo, hhi, howned, hmem⟩ := holds_chunkAt hcut hoff
      refine ⟨m, range, owned, hm, hlo, hhi, ?_, hmem⟩
      unfold chunkOf
      rw [leAt_ficm hentry, Nat.mod_eq_of_lt (by omega)]
      exact howned
  · rw [length_chunksOf]
    exact hdat

theorem build_tables_two : ∃ t, build (List.replicate 36 'A') [⟨['a'], 0, 0x20000⟩] 0x30000 2 = .ok t ∧
    Tiles 0 t.mchunks 0x30000 ∧ t.chunks.flatten.Perm (List.range t.mchunks.length) ∧
    Mapped t [⟨['a'], 0, 0x20000⟩] 0x30000 ∧
    ChunkDat t.chunkDat t.chunks t.mchunks (1 < t.chunks.length) :=
  build_tables _ _ (by decide) (by decide) (by decide) (by decide) (by decide)

end Ps5Upload.PlayGo
