import Ps5Upload.Fpkg.AmprPack.Manifest

/-!
# What a parsed manifest promises

No check fails while a manifest is parsed, whatever its bytes are, and what parsing leaves has every name
in the string table, every chunk range in the chunk table, and every chunk of a file inside its volume.

* `safe_validatePack`, `safe_validateChunk`, `safe_validateFile` — the turns of `validate`;
* `Within` — what a manifest promises.
-/

namespace Ps5Upload.AmprPack

open ByteFile Checked Crc32 Utf8

/-! ## Fields -/

variable {d : Bytes} {at' : Nat}

theorem safe_le16 (h : at' + 2 ≤ d.length) : Safe (fun _ => True) (le16 d at') := by
  rw [le16, if_pos h]
  trivial

theorem safe_le32 (h : at' + 4 ≤ d.length) : Safe (fun _ => True) (le32 d at') := by
  rw [le32, if_pos h]
  trivial

theorem safe_le64 (h : at' + 8 ≤ d.length) : Safe (fun _ => True) (le64 d at') := by
  rw [le64, if_pos h]
  trivial

theorem safe_tailFrom (h : at' ≤ d.length) :
    Safe (fun t => t.length = d.length - at') (tailFrom d at') := safe_slice h (Nat.le_refl _)

theorem safe_decode_file (h : fileRecordSize ≤ d.length) :
    Safe (fun _ => True) (FileRecord.decode d) := by
  have hsize : fileRecordSize = 48 := rfl
  unfold FileRecord.decode
  refine (safe_le64 (by omega)).bind fun _ _ => (safe_le64 (by omega)).bind fun _ _ => ?_
  refine (safe_le64 (by omega)).bind fun _ _ => (safe_le32 (by omega)).bind fun _ _ => ?_
  refine (safe_le32 (by omega)).bind fun _ _ => (safe_le32 (by omega)).bind fun _ _ => ?_
  refine (safe_le32 (by omega)).bind fun _ _ => (safe_le32 (by omega)).bind fun _ _ => ?_
  refine (safe_index (by omega)).bind fun _ _ => (safe_index (by omega)).bind fun _ _ => ?_
  exact (safe_le16 (by omega)).bind fun _ _ => trivial

/-- What the bits of a chunk record can hold. -/
structure ChunkRecord.Fits (c : ChunkRecord) : Prop where
  offset_lt : c.offset < 2 ^ 48
  stored_pos : 0 < c.storedSize
  stored_le : c.storedSize ≤ 2 ^ 20

theorem safe_decode_chunk (h : chunkRecordSize ≤ d.length) :
    Safe ChunkRecord.Fits (ChunkRecord.decode d) := by
  have hsize : chunkRecordSize = 12 := rfl
  unfold ChunkRecord.decode
  refine (safe_le64 (by omega)).bind fun location _ => (safe_le32 (by omega)).bind fun descriptor _ => ?_
  refine safe_refuse fun _ => ?_
  refine (safe_add (by omega)).bind fun stored hstored => ?_
  have hlt := Nat.mod_lt descriptor.toNat (show 2 ^ 20 > 0 by decide)
  exact ⟨Nat.mod_lt _ (by decide), by dsimp only; omega, by dsimp only; omega⟩

theorem safe_decode_pack (h : packRecordSize ≤ d.length) :
    Safe (fun _ => True) (PackRecord.decode d) := by
  have hsize : packRecordSize = 32 := rfl
  unfold PackRecord.decode
  refine (safe_le64 (by omega)).bind fun _ _ => (safe_le64 (by omega)).bind fun _ _ => ?_
  refine (safe_le32 (by omega)).bind fun _ _ => (safe_le32 (by omega)).bind fun _ _ => ?_
  exact (safe_le32 (by omega)).bind fun _ _ => (safe_le32 (by omega)).bind fun _ _ => trivial

/-! ## Pages -/

theorem safe_alignDown {value alignment : Nat} (h : alignment.isPowerOfTwo) :
    Safe (fun _ => True) (alignDown value alignment) := by
  have hpos := Nat.pos_of_isPowerOfTwo h
  rw [alignDown, if_neg (not_not_intro h)]
  exact (safe_sub hpos).bind fun _ _ => trivial

theorem safe_alignUp {value alignment : Nat} (h : alignment.isPowerOfTwo)
    (hfit : value + alignment < 2 ^ 64) : Safe (fun _ => True) (alignUp value alignment) := by
  have hpos := Nat.pos_of_isPowerOfTwo h
  rw [alignUp, if_neg (not_not_intro h)]
  refine (safe_add hfit).bind fun sum hsum => ?_
  exact (safe_sub (by omega)).bind fun _ _ => (safe_sub hpos).bind fun _ _ => trivial

namespace Manifest

theorem safe_crossesPage {c : ChunkRecord} {page : Nat} (hc : c.Fits) (h : page.isPowerOfTwo) :
    Safe (fun _ => True) (crossesPage c page) := by
  have hoff := hc.offset_lt
  have hpos := hc.stored_pos
  have hle := hc.stored_le
  unfold crossesPage
  split
  · trivial
  · split
    · trivial
    · refine (safe_alignDown h).bind fun _ _ => (safe_add (by omega)).bind fun stop hstop => ?_
      exact (safe_sub (by omega)).bind fun _ _ => (safe_alignDown h).bind fun _ _ => trivial

variable {m : Manifest}

/-! ## Validation -/

theorem safe_stringAt (offset length : UInt32) :
    Safe (fun _ => offset.toNat + length.toNat < m.strings.length) (m.stringAt offset length) := by
  have h₁ := offset.toNat_lt
  have h₂ := length.toNat_lt
  unfold stringAt
  refine (safe_add (by omega)).bind fun stop hstop => safe_refuse fun hlt => ?_
  refine (safe_index (by omega)).bind fun _ _ => safe_refuse fun _ => ?_
  refine (safe_slice (by omega) (by omega)).bind fun b _ => ?_
  split
  · exact safe_pure (by omega)
  · exact safe_fail _

/-- What is asked of a volume. -/
structure PackOk (m : Manifest) (p : PackRecord) : Prop where
  name : p.nameOffset.toNat + p.nameLength.toNat < m.strings.length
  page : p.ioPageSize.toNat.isPowerOfTwo
  page_le : p.ioPageSize.toNat ≤ maxIoPage
  payload : p.payloadBytes.toNat ≤ p.fileSize.toNat

theorem safe_validatePack (e : PackRecord × Nat) : Safe (fun _ => m.PackOk e.1) (m.validatePack e) := by
  unfold validatePack
  refine (safe_stringAt _ _).bind fun name hname => safe_refuse fun _ => ?_
  refine safe_refuse fun hpage => safe_refuse fun hsize => ?_
  have hpay : e.1.payloadBytes.toNat ≤ e.1.fileSize.toNat := by
    rw [← UInt64.le_iff_toNat_le]
    exact UInt64.not_lt.1 fun h => hsize (.inr h)
  simp only [not_or, not_not] at hpage
  have hpos : 0 < e.1.ioPageSize.toNat := Nat.pos_of_isPowerOfTwo hpage.2.2.1
  refine (safe_sub hpay).bind fun payloadAt _ => safe_refuse fun _ => ?_
  refine (safe_rem hpos).bind fun _ _ => safe_refuse fun _ => ?_
  refine (safe_rem hpos).bind fun _ _ => safe_refuse fun _ => ?_
  exact safe_pure ⟨hname, hpage.2.2.1, hpage.2.1.2, hpay⟩

theorem safe_validatePages {id : String} {streaming : Bool} {c : ChunkRecord} {p : PackRecord}
    {payloadAt : Nat} (hc : c.Fits) (hp : m.PackOk p) :
    Safe (fun _ => True) (validatePages id streaming c p payloadAt) := by
  have hoff := hc.offset_lt
  have hpos := hc.stored_pos
  have hle := hc.stored_le
  have hpage := hp.page_le
  have hmax : maxIoPage = 2 ^ 20 := rfl
  unfold validatePages
  refine (safe_crossesPage hc hp.page).bind fun _ _ => safe_refuse fun _ => safe_refuse fun _ => ?_
  refine safe_refuse fun _ => safe_refuse fun _ => ?_
  refine (safe_alignDown hp.page).bind fun _ _ => safe_refuse fun _ => ?_
  refine (safe_add (by omega)).bind fun stop hstop => ?_
  exact (safe_alignUp hp.page (by omega)).bind fun _ _ => safe_refuse fun _ => trivial

/-- A chunk's stored bytes are in the payload of its volume. -/
def Stored (m : Manifest) (c : ChunkRecord) : Prop :=
  ∃ p, m.packs[c.packId]? = some p ∧ p.fileSize.toNat - p.payloadBytes.toNat ≤ c.offset ∧
    c.offset + c.storedSize ≤ p.fileSize.toNat

/-- A packed file's chunks cover it. -/
structure Covers (f : FileRecord) : Prop where
  shift_le : f.blockShift.toNat ≤ maxBlockShift
  count : f.logicalSize.toNat ⌈/⌉ 2 ^ f.blockShift.toNat = f.chunkCount.toNat

theorem shl_one (n : Nat) (h : n ≤ maxBlockShift) : (1 <<< n) % 2 ^ 64 = 2 ^ n := by
  have hmax : maxBlockShift = 20 := rfl
  rw [Nat.one_shiftLeft]
  exact Nat.mod_eq_of_lt (Nat.pow_lt_pow_right (by decide) (by omega))

variable {f : FileRecord} {local' : Nat} {d : Bytes}

/-- A chunk of a file starts inside it. -/
theorem Covers.before_lt (h : Covers f) (hl : local' < f.chunkCount.toNat) :
    local' * 2 ^ f.blockShift.toNat < f.logicalSize.toNat := by
  rw [← h.count, Nat.ceilDiv_eq_add_pred_div, Nat.lt_div_iff_mul_lt (Nat.two_pow_pos _)] at hl
  have hpos := Nat.two_pow_pos f.blockShift.toNat
  omega

theorem safe_rawSize (h : Covers f) (hl : local' < f.chunkCount.toNat) :
    Safe (fun n => n = min (f.logicalSize.toNat - local' * 2 ^ f.blockShift.toNat) (2 ^ f.blockShift.toNat))
      (rawSize f local') := by
  have hlt := h.before_lt hl
  have hsize := f.logicalSize.toNat_lt
  have hmax : maxBlockShift = 20 := rfl
  have hshift := h.shift_le
  unfold rawSize
  refine (safe_shl (by omega) 1).bind fun block hblock => ?_
  rw [shl_one _ hshift] at hblock
  subst hblock
  refine (safe_mul (by omega)).bind fun before hbefore => ?_
  refine (safe_sub (by omega)).bind fun rest hrest => ?_
  rw [hrest, hbefore]
  exact rfl

theorem safe_validateChunk {id : String} {streaming : Bool}
    (hpacks : ∀ p ∈ m.packs, m.PackOk p) (hchunks : ∀ c ∈ m.chunks, c.Fits) (hcover : Covers f)
    (hrange : f.firstChunk.toNat + f.chunkCount.toNat ≤ m.chunks.length) (hl : local' < f.chunkCount.toNat) :
    Safe (fun _ => ∃ c, m.chunks[f.firstChunk.toNat + local']? = some c ∧ m.Stored c)
      (m.validateChunk id f (2 ^ f.blockShift.toNat) streaming local') := by
  have hfirst := f.firstChunk.toNat_lt
  have hcount := f.chunkCount.toNat_lt
  unfold validateChunk
  refine (safe_add (by omega)).bind fun at' hat => ?_
  subst hat
  refine (safe_index (by omega)).bind fun c hc => ?_
  have hfits := hchunks c (List.mem_of_getElem? hc)
  have hoff := hfits.offset_lt
  have hle := hfits.stored_le
  refine (safe_rawSize hcover hl).bind fun raw _ => ?_
  refine safe_refuse fun _ => safe_refuse fun _ => safe_refuse fun _ => safe_refuse fun _ => ?_
  refine safe_refuse fun _ => ?_
  split
  · exact safe_fail _
  · rename_i p hp
    have hpack := hpacks p (List.mem_of_getElem? hp)
    refine (safe_sub hpack.payload).bind fun payloadAt hpay => safe_refuse fun hbegin => ?_
    refine (safe_add (by omega)).bind fun stop hstop => safe_refuse fun hend => ?_
    exact (safe_validatePages hfits hpack).mono fun _ _ => ⟨c, hc, p, hp, by omega, by omega⟩

/-- What a file of a manifest has. -/
structure FileOk (m : Manifest) (f : FileRecord) : Prop where
  path : f.pathOffset.toNat + f.pathLength.toNat < m.strings.length
  range : f.firstChunk.toNat + f.chunkCount.toNat ≤ m.chunks.length
  covers : f.packed = true → Covers f
  chunks : ∀ local' < f.chunkCount.toNat,
    ∃ c, m.chunks[f.firstChunk.toNat + local']? = some c ∧ m.Stored c

theorem safe_validateFile (hpacks : ∀ p ∈ m.packs, m.PackOk p) (hchunks : ∀ c ∈ m.chunks, c.Fits)
    (e : FileRecord × Nat) : Safe (fun _ => m.FileOk e.1) (m.validateFile e) := by
  obtain ⟨f, i⟩ := e
  have hfirst := f.firstChunk.toNat_lt
  have hcount := f.chunkCount.toNat_lt
  unfold validateFile
  refine (safe_stringAt _ _).bind fun path hpath => ?_
  refine safe_refuse fun _ => safe_refuse fun _ => safe_refuse fun _ => ?_
  dsimp only
  by_cases hpacked : f.packed = true
  · rw [if_neg (not_not_intro hpacked)]
    refine safe_refuse fun hshift => safe_refuse fun _ => ?_
    have hshift := (not_not.1 hshift).2
    have hmax : maxBlockShift = 20 := rfl
    refine (safe_add (by omega)).bind fun stop hstop => safe_refuse fun hrange => ?_
    refine (safe_shl (by omega) 1).bind fun block hblock => ?_
    rw [shl_one _ hshift] at hblock
    subst hblock
    refine safe_refuse fun hcover => ?_
    have hcovers : Covers f := ⟨hshift, not_not.1 hcover⟩
    have hrange : f.firstChunk.toNat + f.chunkCount.toNat ≤ m.chunks.length := by omega
    refine (safe_forEach fun local' hl => safe_validateChunk hpacks hchunks hcovers hrange
      (List.mem_range.1 hl)).mono fun _ hall => ?_
    exact ⟨hpath, hrange, fun _ => hcovers, fun local' hl => hall local' (List.mem_range.2 hl)⟩
  · rw [if_pos hpacked]
    refine safe_refuse fun hloose => safe_pure ?_
    simp only [not_or, not_not] at hloose
    have h0 : f.firstChunk.toNat + f.chunkCount.toNat = 0 := by
      rw [hloose.1, hloose.2.1]
      rfl
    exact ⟨hpath, by omega, fun h => absurd h hpacked, fun local' hl => by omega⟩

/-- What a manifest promises: names, ranges and extents are inside what the header declares. -/
structure Within (m : Manifest) : Prop where
  packs : ∀ p ∈ m.packs, m.PackOk p
  files : ∀ f ∈ m.files, m.FileOk f

theorem mem_of_zipIdx {α : Type} {l : List α} {P : α → Prop} (h : ∀ e ∈ l.zipIdx, P e.1) : ∀ a ∈ l, P a := by
  intro a ha
  obtain ⟨i, hi, rfl⟩ := List.getElem_of_mem ha
  exact h (l[i], i) (List.mem_zipIdx_iff_getElem?.2 (List.getElem?_eq_getElem hi))

theorem safe_validate (hchunks : ∀ c ∈ m.chunks, c.Fits) : Safe (fun _ => m.Within) m.validate := by
  unfold validate
  refine (safe_forEach fun e _ => safe_validatePack e).bind fun _ hpacks => ?_
  have hpacks := mem_of_zipIdx hpacks
  refine (safe_forEach fun e _ => safe_validateFile hpacks hchunks e).mono fun _ hfiles => ?_
  exact ⟨hpacks, mem_of_zipIdx hfiles⟩

/-! ## Parsing -/

theorem safe_sectionEnd (count size start : Nat) (e : String) :
    Safe (fun n => n = count * size + start ∧ n < 2 ^ 64) (sectionEnd count size start e) := by
  unfold sectionEnd
  split
  · rename_i h
    exact ⟨rfl, h.2⟩
  · exact safe_fail e

/-- The records of a section that is inside the manifest. -/
theorem safe_records {α : Type} {P : α → Prop} {decode : Bytes → Outcome α}
    {start size count : Nat} (hdecode : ∀ {t : Bytes}, size ≤ t.length → Safe P (decode t))
    (hend : count * size + start ≤ d.length) (hfit : count * size + start < 2 ^ 64) :
    Safe (fun xs => ∀ x ∈ xs, P x) (records decode d start size count) := by
  have hone : ∀ i ∈ List.range count, Safe P (do
      let skip ← mul 64 i size
      let at' ← add 64 start skip
      decode (← tailFrom d at')) := by
    intro i hi
    have hi := List.mem_range.1 hi
    have hmul : i * size + size ≤ count * size := by
      rw [← Nat.succ_mul]
      exact Nat.mul_le_mul_right _ hi
    refine (safe_mul (by omega)).bind fun skip hskip => (safe_add (by omega)).bind fun at' hat => ?_
    refine (safe_tailFrom (by omega)).bind fun t ht => hdecode ?_
    omega
  exact safe_collect_all hone

theorem safe_checkHeader (h : indexHeaderSize ≤ d.length) :
    Safe (fun _ => True) (checkHeader d) := by
  have hsize : indexHeaderSize = 128 := rfl
  unfold checkHeader
  refine (safe_slice (by omega) (by omega)).bind fun _ _ => safe_refuse fun _ => ?_
  refine (safe_le32 (by omega)).bind fun _ _ => safe_refuse fun _ => ?_
  refine (safe_le32 (by omega)).bind fun _ _ => safe_refuse fun _ => ?_
  refine (safe_le32 (by omega)).bind fun _ _ => safe_refuse fun _ => ?_
  refine (safe_le32 (by omega)).bind fun _ _ => safe_refuse fun _ => ?_
  refine (safe_le64 (by omega)).bind fun _ _ => safe_refuse fun _ => ?_
  refine (safe_le32 (by omega)).bind fun _ _ => safe_refuse fun _ => ?_
  refine (safe_le32 (by omega)).bind fun _ _ => safe_refuse fun _ => ?_
  refine (safe_le32 (by omega)).bind fun _ _ => safe_refuse fun _ => ?_
  refine (safe_slice (by omega) (by omega)).bind fun header hheader => ?_
  refine (safe_blit (by rw [List.length_replicate]; omega)).bind fun _ _ => ?_
  refine (safe_le32 (by omega)).bind fun _ _ => safe_refuse fun _ => ?_
  refine (safe_tailFrom (by omega)).bind fun _ _ => (safe_le32 (by omega)).bind fun _ _ => ?_
  exact safe_refuse fun _ => trivial

theorem safe_checkLayout (h : indexHeaderSize ≤ d.length) (chunksAt packsAt stringsAt : Nat) :
    Safe (fun _ => stringsAt ≤ d.length) (checkLayout d chunksAt packsAt stringsAt) := by
  have hsize : indexHeaderSize = 128 := rfl
  unfold checkLayout
  refine (safe_le64 (by omega)).bind fun _ _ => safe_refuse fun _ => ?_
  refine (safe_le64 (by omega)).bind fun _ _ => safe_refuse fun _ => ?_
  refine (safe_le64 (by omega)).bind fun _ _ => safe_refuse fun _ => ?_
  refine (safe_le64 (by omega)).bind fun _ _ => safe_refuse fun _ => ?_
  refine (safe_le64 (by omega)).bind fun strings _ => safe_refuse fun hend => safe_pure ?_
  omega

/-- No check fails on any bytes, and what is parsed is what it promises to be. -/
theorem safe_parse (d : Bytes) : Safe Within (parse d) := by
  have hsize : indexHeaderSize = 128 := rfl
  unfold parse
  refine safe_refuse fun hlen => (safe_checkHeader (by omega)).bind fun _ _ => ?_
  refine (safe_slice (by omega) (by omega)).bind fun buildId _ => ?_
  refine (safe_le64 (by omega)).bind fun fileCount _ => (safe_le64 (by omega)).bind fun chunkCount _ => ?_
  refine (safe_le32 (by omega)).bind fun packCount _ => ?_
  refine (safe_sectionEnd _ _ _ _).bind fun chunksAt ⟨hchunks, hchunksLt⟩ => ?_
  refine (safe_sectionEnd _ _ _ _).bind fun packsAt ⟨hpacks, hpacksLt⟩ => ?_
  refine (safe_sectionEnd _ _ _ _).bind fun stringsAt ⟨hstrings, hstringsLt⟩ => ?_
  refine (safe_checkLayout (by omega) _ _ _).bind fun _ hend => ?_
  refine (safe_records safe_decode_file (by omega) (by omega)).bind fun files _ => ?_
  refine (safe_records safe_decode_chunk (by omega) (by omega)).bind fun chunks hfits => ?_
  refine (safe_records safe_decode_pack (by omega) (by omega)).bind fun packs _ => ?_
  refine (safe_tailFrom hend).bind fun strings _ => ?_
  exact (safe_validate hfits).bind fun _ h => safe_pure h

end Manifest

end Ps5Upload.AmprPack
