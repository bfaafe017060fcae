import Ps5Upload.Fpkg.Inner.Written

/-!
# The writer succeeds

The metadata region of a plan that fits can be built: every structure has the room that was planned for it.

* `writeWith_iff` — **the image is written** where the files are read at the planned sizes and the codec makes the
  region no longer.
-/

namespace Ps5Upload.Inner

open Blocks ByteFile Checked Stamps Utf8

variable {zlib : Bytes → Except String Bytes} {keys : KeystoneKeys} {plan : Plan} {passcode : Text}
  {read : Text → Except String Bytes} {time : Time} {codec : MetaCodec} {data : List Bytes}

/-! ## The region -/

theorem length_leInt (width : Nat) (n : Int) : (leInt width n).length = width := by
  rw [leInt, length_le]

theorem length_inodeBytes (rec : InodeRecord) (time : Time) : (inodeBytes rec time).length = inodeLen := by
  simp [inodeBytes, length_leInt, zeros, inodeLen]

theorem ascending_superblock (plan : Plan) (time : Time) : Ascending 0 (superblockFields plan time) block := by
  simp [superblockFields, Ascending, length_leInt, block]

/-- The inodes stand in whole blocks of the table. -/
theorem inodeOffset_succ (i : Nat) : inodeOffset i + inodeLen ≤ inodeOffset (i + 1) := by
  unfold inodeOffset inodesPerBlock inodeLen block
  omega

theorem inodeOffset_le (count : Nat) : inodeOffset count ≤ inodeTableLen count := by
  unfold inodeOffset inodeTableLen inodesPerBlock inodeLen block
  omega

theorem flatten_mapIdx_singleton {α β : Type} (g : Nat → α → β) (l : List α) :
    (l.mapIdx fun i x => [g i x]).flatten = l.mapIdx g := by
  induction l generalizing g with
  | nil => rfl
  | cons x l ih =>
    rw [List.mapIdx_cons, List.mapIdx_cons, List.flatten_cons, List.singleton_append]
    exact congrArg (g 0 x :: ·) (ih fun i => g (i + 1))

theorem ascending_inodes (records : List InodeRecord) (time : Time) :
    Ascending 0 (records.mapIdx fun i rec => (inodeOffset i, inodeBytes rec time)) (inodeTableLen records.length) := by
  have hasc := ascending_mapIdx (p := inodeOffset) (f := fun i rec => [(inodeOffset i, inodeBytes rec time)]) (l := records)
    fun k rec _ => ⟨Nat.le_refl _, by rw [length_inodeBytes]; exact inodeOffset_succ k⟩
  rw [flatten_mapIdx_singleton] at hasc
  exact hasc.mono (Nat.zero_le _) (inodeOffset_le _)

theorem place_ok (plan : Plan) (region bytes : Bytes) (span : Nat × Nat) (hbase : plan.metaBase ≤ span.1)
    (hfit : span.1 + bytes.length ≤ plan.metaBase + region.length) :
    ∃ region', place plan region span bytes = .ok region' ∧ region'.length = region.length := by
  obtain ⟨region', hblit, hlen, -⟩ := blit_piece (ε := String) (d := region) (i := span.1 - plan.metaBase) (w := bytes)
    (by omega)
  exact ⟨region', by rw [place, inRegion, sub_eq hbase, ok_bind, hblit], hlen⟩

theorem placeDirs_ok : ∀ {pairs : List (PlannedDir × (Nat × Nat))} {region : Bytes},
    (∀ q ∈ pairs, plan.metaBase ≤ q.2.1 ∧ q.2.1 + (direntsBytes q.1.dirents).length ≤ plan.metaBase + region.length) →
      ∃ region', placeDirs plan pairs region = .ok region' ∧ region'.length = region.length
  | [], region, _ => ⟨region, rfl, rfl⟩
  | (d, span) :: pairs, region, h => by
    obtain ⟨hbase, hfit⟩ := h _ List.mem_cons_self
    obtain ⟨placed, hplace, hlen⟩ := place_ok plan region _ _ hbase hfit
    have hrest : ∀ q ∈ pairs, plan.metaBase ≤ q.2.1 ∧
        q.2.1 + (direntsBytes q.1.dirents).length ≤ plan.metaBase + placed.length := fun q hq =>
      hlen.symm ▸ h q (List.mem_cons_of_mem _ hq)
    obtain ⟨region', hrest, hlen'⟩ := placeDirs_ok hrest
    exact ⟨region', by rw [placeDirs, hplace, ok_bind, hrest], hlen'.trans hlen⟩

/-- **The metadata region**: every structure fits, and the region is of the blocks that were planned. -/
theorem metadataRegion_ok (h : Roomy plan) (time : Time) :
    ∃ region, metadataRegion plan time = .ok region ∧ region.length = plan.metadataBlocks * block := by
  have hlens := h.lens
  have hblocks := Nat.mul_le_mul_right block h.pos
  rw [Nat.one_mul] at hblocks
  have hzeros : (zeros (plan.metadata.blocks * block)).length = plan.metadata.blocks * block := List.length_replicate
  have hsb : (zeros block).length = block := List.length_replicate
  simp only [MetadataLayout.spans, structureLens, List.map_cons, List.cons_append, List.nil_append,
    List.cons.injEq] at hlens
  obtain ⟨htable, hroot, hflt, hapr, hafid, hdirs⟩ := hlens
  have hinside := h.inside
  simp only [MetadataLayout.spans, List.cons_append, List.nil_append, List.forall_mem_cons] at hinside
  obtain ⟨⟨-, itable⟩, ⟨-, iroot⟩, ⟨-, iflt⟩, ⟨-, iapr⟩, ⟨-, iafid⟩, idirs⟩ := hinside
  -- the superblock
  obtain ⟨super, hsuper, hsuperLen, -⟩ := stamp_ascending (ε := String) (d := zeros block)
    (ascending_superblock plan time) hsb.ge
  obtain ⟨r₁, hr₁, hlen₁, -⟩ := blit_piece (ε := String) (d := zeros (plan.metadata.blocks * block)) (i := 0) (w := super)
    (by omega)
  -- the inodes
  have hcount : (inodeRecords plan).length = 4 + plan.dirs.length + plan.files.length := by
    simp [inodeRecords]
    omega
  have hslice : (slice r₁ (plan.metadata.inodeTable.1 - plan.metaBase)
      (plan.metadata.inodeTable.1 - plan.metaBase + plan.metadata.inodeTable.2) : Res String _) =
        .ok ((r₁.drop (plan.metadata.inodeTable.1 - plan.metaBase)).take plan.metadata.inodeTable.2) := by
    rw [slice_eq (Nat.le_add_right _ _) (by omega), Nat.add_sub_cancel_left]
  have hcut : ((r₁.drop (plan.metadata.inodeTable.1 - plan.metaBase)).take plan.metadata.inodeTable.2).length =
      plan.metadata.inodeTable.2 := by
    rw [List.length_take, List.length_drop]
    omega
  have hasc := ascending_inodes (inodeRecords plan) time
  rw [hcount, ← htable] at hasc
  obtain ⟨table, hstamp, htableLen, -⟩ := stamp_ascending (ε := String) hasc hcut.ge
  obtain ⟨r₂, hr₂, hlen₂, -⟩ := blit_piece (ε := String) (d := r₁) (i := plan.metadata.inodeTable.1 - plan.metaBase)
    (w := table) (by omega)
  -- the tables
  obtain ⟨r₃, hr₃, hlen₃⟩ := place_ok plan r₂ (direntsBytes superRootDirents)
    plan.metadata.superRoot (by omega) (by omega)
  have hafidLen : (plan.afidToIno.flatMap (leInt 4)).length = plan.afidToIno.length * 4 := by
    rw [List.length_flatMap]
    simp [length_leInt]
  obtain ⟨r₄, hr₄, hlen₄⟩ := place_ok plan r₃ (fltBytes plan.fltInode)
    plan.metadata.flt (by omega) (by omega)
  obtain ⟨r₅, hr₅, hlen₅⟩ := place_ok plan r₄ (fltBytes plan.fltApr)
    plan.metadata.fltApr (by omega) (by omega)
  obtain ⟨r₆, hr₆, hlen₆⟩ := place_ok plan r₅ (plan.afidToIno.flatMap (leInt 4))
    plan.metadata.afid (by omega) (by omega)
  -- the directories
  have hsame : plan.metadata.dirs.length = plan.dirs.length := by
    have := congrArg List.length hdirs
    rwa [List.length_map, List.length_map] at this
  have hpairs : ∀ q ∈ plan.dirs.zip plan.metadata.dirs, plan.metaBase ≤ q.2.1 ∧
      q.2.1 + (direntsBytes q.1.dirents).length ≤ plan.metaBase + r₆.length := by
    intro q hq
    obtain ⟨k, hk, rfl⟩ := List.getElem_of_mem hq
    rw [List.length_zip] at hk
    rw [List.getElem_zip]
    have hspan := (idirs _ (List.getElem_mem (by omega : k < plan.metadata.dirs.length))).2
    have hlen := congrArg (·[k]?) hdirs
    simp only [List.getElem?_map, List.getElem?_eq_getElem (by omega : k < plan.metadata.dirs.length),
      List.getElem?_eq_getElem (by omega : k < plan.dirs.length), Option.map_some, Option.some.injEq] at hlen
    dsimp only
    omega
  obtain ⟨r₇, hr₇, hlen₇⟩ := placeDirs_ok hpairs
  refine ⟨r₇, ?_, by rw [hlen₇, hlen₆, hlen₅, hlen₄, hlen₃, hlen₂, hlen₁, hzeros, h.blocks]⟩
  rw [metadataRegion, hsuper, ok_bind, hr₁, ok_bind, inRegion, sub_eq (by omega), ok_bind, hslice, ok_bind, hstamp, ok_bind, hr₂, ok_bind,
    hr₃, ok_bind, hr₄, ok_bind, hr₅, ok_bind, hr₆, ok_bind, if_neg (by omega), hr₇]

/-! ## The image -/

/-- The codec stores the plan's region in no more bytes than it has. -/
def Shrinks (zlib : Bytes → Except String Bytes) (plan : Plan) (time : Time) (codec : MetaCodec) : Prop :=
  ∃ region tail, metadataRegion plan time = .ok region ∧ imageTail zlib region codec = .ok tail ∧
    tail.length ≤ region.length

/-- What is stored of the region of a plan that fits. -/
theorem shrinks_iff (h : Roomy plan) (time : Time) : Shrinks zlib plan time codec ↔
    ∃ tail, plannedTail zlib plan time codec = .ok tail ∧ tail.length ≤ plan.metadataBlocks * block := by
  obtain ⟨region, hregion, hlen⟩ := metadataRegion_ok h time
  unfold Shrinks plannedTail
  simp only [hregion, ok_bind, ← hlen, ne_eq, not_true_eq_false, if_false, Except.ok.injEq, exists_and_left,
    exists_eq_left']

/-- The writer succeeds for files that are read at the planned sizes. -/
theorem writeWith_ok (h : LaidOut plan) (hroomy : Roomy plan) (hp : payloads keys passcode read plan.files = .ok data)
    (hshrinks : Shrinks zlib plan time codec) :
    ∃ image, writeWith zlib keys plan passcode read time codec = .ok image := by
  obtain ⟨hlen, hsizes⟩ := payloads_ok hp
  have hasc := h.ascending fun i hi => (hsizes i hi).2
  have hgap := h.gap
  have htable := length_blockInfoTable plan
  have hroom : (blockInfoTable plan).length ≤ block := by
    rw [htable]
    decide
  have hmount := hroomy.mount
  have hwrap : wrap (plan.ndblock * block) = plan.ndblock * block := Nat.mod_eq_of_lt hroomy.short
  have hzeros : (zeros (plan.ndblock * block)).length = plan.ndblock * block := List.length_replicate
  have hinside : ∀ q ∈ pieces plan data, q.1 + q.2.length ≤ (zeros (plan.ndblock * block)).length := fun q hq => by
    have := (hasc.mem q hq).2
    omega
  obtain ⟨filled, hstamp, hfilled, -⟩ := stamp_apart (ε := String) hinside hasc.pairwise
  rw [pieces, ← storeFiles_eq hlen (fun fi hfi => List.mem_range.1 (h.order.mem_iff.1 hfi))
    fun fi hfi => hinside _ (List.mem_map_of_mem hfi)] at hstamp
  obtain ⟨tabled, htabled, htabledLen, -⟩ := blit_piece (ε := String) (d := filled) (i := plan.dataEnd)
    (w := blockInfoTable plan) (by omega)
  obtain ⟨tail, htail, hle⟩ := (shrinks_iff hroomy time).1 hshrinks
  have hcut := le_alignUp block_pos (plan.metaBase + tail.length)
  have hstop : alignUp (plan.metaBase + tail.length) block ≤ tabled.length := by
    refine alignUp_le block_pos ?_ (by omega)
    rw [htabledLen, hfilled, hzeros]
    exact Nat.dvd_mul_left _ _
  obtain ⟨image, himage, -⟩ := blit_piece (ε := String)
    (d := tabled.take (alignUp (plan.metaBase + tail.length) block)) (i := plan.metaBase) (w := tail)
    (by rw [List.length_take_of_le hstop]; exact hcut)
  refine ⟨image, ?_⟩
  rw [writeWith, hp, ok_bind]
  dsimp only
  rw [hwrap, hstamp, ok_bind, alignUp_of_dvd block_pos h.aligned.1, if_neg (by omega), htabled, ok_bind, htail, ok_bind,
    if_neg (by omega), himage]

theorem payloads_iff : ∀ {files : List PlannedFile}, (∃ data, payloads keys passcode read files = .ok data) ↔
    ∀ f ∈ files, ∃ d, payload keys passcode read f = .ok d ∧ d.length = f.size
  | [] => iff_of_true ⟨[], rfl⟩ (nofun)
  | f :: files => by
    have hrest : (∃ data, payloads keys passcode read files = .ok data) ↔ _ := payloads_iff
    rw [List.forall_mem_cons, ← hrest]
    constructor
    · rintro ⟨data, h⟩
      rw [payloads] at h
      obtain ⟨d, hd, h⟩ := bind_eq_ok.1 h
      obtain ⟨hsize, h⟩ := refuse_eq_ok.1 h
      obtain ⟨rest, hrest, -⟩ := bind_eq_ok.1 h
      exact ⟨⟨d, hd, not_not.1 hsize⟩, rest, hrest⟩
    · rintro ⟨⟨d, hd, hsize⟩, rest, hrest⟩
      exact ⟨d :: rest, by rw [payloads, hd, ok_bind, if_neg (not_not.2 hsize), hrest, ok_bind]; rfl⟩

/-- **The writer succeeds** for the plan of a tree that fits, not spread, where each of its files is read at the size the
plan fixed and the codec makes its region no longer, and only there. -/
theorem writeWith_iff {input : List SourceFile} {emptyDirs : List Text} (hplan : buildTree input emptyDirs false = .ok plan)
    (hfits : Fits64 (sizesInOrder input emptyDirs) plan) (time : Time) :
    (∃ image, writeWith zlib keys plan passcode read time codec = .ok image) ↔
      (∀ f ∈ plan.files, ∃ d, payload keys passcode read f = .ok d ∧ d.length = f.size) ∧
        Shrinks zlib plan time codec := by
  have hroomy := (planned hplan).roomy hfits
  have hlaid := (planned hplan).laidOut hfits
  rw [← payloads_iff]
  constructor
  · rintro ⟨image, hw⟩
    obtain ⟨data, tail, hdata, htail, hwritten⟩ := writeWith_written hlaid hw
    refine ⟨⟨data, hdata⟩, (shrinks_iff hroomy time).2 ⟨tail, htail, ?_⟩⟩
    have hle := (le_alignUp block_pos _).trans hwritten.inside
    rw [wrap, Nat.mod_eq_of_lt hroomy.short, hroomy.mount] at hle
    omega
  · rintro ⟨⟨data, hp⟩, hshrinks⟩
    exact writeWith_ok hlaid hroomy hp hshrinks

theorem shrinks_stored (h : Roomy plan) (zlib : Bytes → Except String Bytes) (time : Time) :
    Shrinks zlib plan time .stored := by
  obtain ⟨region, hregion, -⟩ := metadataRegion_ok h time
  exact ⟨region, region, hregion, rfl, Nat.le_refl _⟩

theorem length_keystone (keys : KeystoneKeys) (passcode : Text) : (keystone keys passcode).length = keystoneLen := by
  have hmagic : (bytes "keystone".toList).length = 8 := by decide
  have hzeros : (zeros 21).length = 21 := List.length_replicate
  rw [keystone]
  simp only [List.length_append, hmagic, length_le, hzeros, keys.fingerprint_length, keys.sealing_length,
    List.length_singleton, keystoneLen]

/-- A tree of one file of one byte, and keys that sign with zeros. -/
def loneKeys : KeystoneKeys := ⟨fun _ => zeros 32, fun _ => zeros 32, fun _ => List.length_replicate,
  fun _ => List.length_replicate⟩

def loneRead : Text → Except String Bytes := fun _ => .ok [7]

def loneRange : Text → Nat → Nat → Except String Bytes := fun _ offset want => .ok (([7].drop offset).take want)

theorem lone_reads : ∃ plan, buildTree [⟨['a'], 1⟩] [] false = .ok plan ∧
    Fits64 (sizesInOrder [⟨['a'], 1⟩] []) plan ∧
    ∀ f ∈ plan.files, ∃ d, payload loneKeys [] loneRead f = .ok d ∧ d.length = f.size := by
  have hfiles : (buildTree [⟨['a'], 1⟩] [] false).toOption.map (fun p =>
      (decide (Fits64 (sizesInOrder [⟨['a'], 1⟩] []) p),
        p.files.map fun f => (f.path, f.size, f.generated))) =
      some (true, [(keystonePath, keystoneLen, true), (['a'], 1, false)]) := by decide +kernel
  obtain ⟨plan, hplan, hfiles⟩ := Checked.ok_of_map hfiles
  rw [Prod.mk.injEq] at hfiles
  refine ⟨plan, hplan, of_decide_eq_true hfiles.1, fun f hf => ?_⟩
  have hmem := List.mem_map_of_mem (f := fun f : PlannedFile => (f.path, f.size, f.generated)) hf
  rw [hfiles.2, List.mem_cons, List.mem_singleton, Prod.mk.injEq, Prod.mk.injEq, Prod.mk.injEq, Prod.mk.injEq] at hmem
  rcases hmem with ⟨hpath, hsize, hgenerated⟩ | ⟨hpath, hsize, hgenerated⟩
  · exact ⟨keystone loneKeys [], by rw [payload, if_pos ⟨hgenerated, hpath⟩],
      (length_keystone _ _).trans hsize.symm⟩
  · refine ⟨[7], ?_, hsize ▸ rfl⟩
    rw [payload, if_neg fun h => Bool.false_ne_true (hgenerated.symm.trans h.1)]
    rfl

theorem writeWith_iff_lone : ∃ plan image, buildTree [⟨['a'], 1⟩] [] false = .ok plan ∧
    writeWith .ok loneKeys plan [] loneRead (0, 0) .stored = .ok image := by
  obtain ⟨plan, hplan, hfits, hreads⟩ := lone_reads
  obtain ⟨image, hw⟩ := (writeWith_iff hplan hfits (0, 0)).2
    ⟨hreads, shrinks_stored ((planned hplan).roomy hfits) .ok (0, 0)⟩
  exact ⟨plan, image, hplan, hw⟩

end Ps5Upload.Inner
