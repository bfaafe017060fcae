import Ps5Upload.Fpkg.AmprPack.Within
import Ps5Upload.Fpkg.Inner.Plan

/-!
# Reading a pack set

`ampr_pack/read.rs` and the headers it reads, with every index, addition, multiplication and subtraction
checked.  The LZ4 decoder is a parameter, and the tree may answer every read of a file differently.

* `Reader.openSet` — a manifest, its volumes and its sidecar;
* `Reader.readFile` — a file, chunk by chunk;
* `Opened`, `opened_openSet` — what an open reader has;
* `parse_readFile` — a manifest of any bytes, parsed and read.
-/

namespace Ps5Upload.AmprPack

open ByteFile Checked Crc32 Utf8

/-! ## Headers -/

def dataMagic : Bytes := [0x41, 0x4D, 0x50, 0x52, 0x44, 0x41, 0x54, 0x33]

def dataVersion : UInt32 := 3

def crcMagic : Bytes := [0x41, 0x4D, 0x50, 0x52, 0x43, 0x52, 0x43, 0x31]

def crcVersion : UInt32 := 1

def crcHeaderSize : Nat := 48

/-- A data volume's header. -/
structure DataHeader where
  packId : UInt32
  buildId : Bytes
  offset : UInt64
  bytes : UInt64
  flags : UInt32

/-- `parse_data_header` -/
def parseDataHeader (h : Bytes) : Outcome DataHeader :=
  if h.length < dataHeaderSize then fail "not an AMPRDAT3 volume header"
  else do
    if (← slice h 0 8) ≠ dataMagic then fail "not an AMPRDAT3 volume header"
    else if (← le32 h 8) ≠ dataVersion then fail "not an AMPRDAT3 volume header"
    else if (← le32 h 12).toNat ≠ dataHeaderSize then fail "not an AMPRDAT3 volume header"
    else if (← le32 h 60) ≠ 0 then fail "not an AMPRDAT3 volume header"
    else if (← le32 h 20) &&& ~~~ packKnown ≠ 0 then fail "not an AMPRDAT3 volume header"
    else
      let copy ← blit (← slice h 0 dataHeaderSize) 56 (List.replicate 4 0)
      if crc32 copy ≠ (← le32 h 56) then fail "pack volume header CRC mismatch"
      else
        return {
          packId := ← le32 h 16
          buildId := ← slice h 24 40
          offset := ← le64 h 40
          bytes := ← le64 h 48
          flags := ← le32 h 20 }

/-- `parse_crc_sidecar` -/
def parseCrcSidecar (d buildId : Bytes) (chunks : Nat) : Outcome (List UInt32) :=
  if d.length < crcHeaderSize then fail "not an AMPRCRC1 sidecar"
  else do
    if (← slice d 0 8) ≠ crcMagic then fail "not an AMPRCRC1 sidecar"
    else if (← le32 d 8) ≠ crcVersion then fail "not an AMPRCRC1 sidecar"
    else if (← le32 d 12).toNat ≠ crcHeaderSize then fail "not an AMPRCRC1 sidecar"
    else if (← slice d 16 32) ≠ buildId then fail "the CRC sidecar belongs to another build"
    else if (← le64 d 32).toNat ≠ chunks then fail "the CRC sidecar belongs to another build"
    else
      let h ← blit (← slice d 0 crcHeaderSize) 44 (List.replicate 4 0)
      let payload ← tailFrom d crcHeaderSize
      if crc32 h ≠ (← le32 d 44) then fail "CRC sidecar checksum mismatch"
      else if payload.length ≠ (← mul 64 chunks 4) then fail "CRC sidecar checksum mismatch"
      else if crc32 payload ≠ (← le32 d 40) then fail "CRC sidecar checksum mismatch"
      else return (List.range (payload.length / 4)).map fun i => .ofNat (leAt payload (4 * i) 4)

/-! ## The reader -/

/-- A folder or an image, as far as a reader asks it. -/
structure SourceTree where
  files : List (Text × Nat)
  read : Text → Except String Bytes
  readRange : Text → Nat → Nat → Except String Bytes

/-- A failure of the tree is one of the reader. -/
def ofTree {α : Type} : Except String α → Outcome α
  | .ok a => .ok a
  | .error e => fail e

def join (dir name : Text) : Text := if dir = [] then name else dir ++ '/' :: name

structure Reader where
  manifest : Manifest
  crcs : Option (List UInt32)
  /-- Where each volume's payload begins and ends. -/
  payload : List (Nat × Nat)

namespace Reader

/-- The turn of `open` for one volume. -/
def openPack (m : Manifest) (tree : SourceTree) (dir : Text) (e : PackRecord × Nat) :
    Outcome (Nat × Nat) := do
  let name := join dir (← m.packName e.2)
  match tree.files.find? fun f => f.1 = name with
  | none => fail ("pack volume " ++ String.ofList name ++ " is missing")
  | some (_, size) =>
    let h ← parseDataHeader (← ofTree (tree.readRange name 0 dataHeaderSize))
    if h.packId.toNat ≠ e.2 ∨ h.buildId ≠ m.buildId ∨ h.flags ≠ e.1.flags then
      fail (String.ofList name ++ " belongs to another pack set")
    else if size ≠ e.1.fileSize.toNat ∨ h.bytes ≠ e.1.payloadBytes then
      fail (String.ofList name ++ " does not have the size the manifest says")
    else
      let stop ← add 64 h.offset.toNat h.bytes.toNat
      if stop ≠ size then fail (String.ofList name ++ " does not have the size the manifest says")
      else return (h.offset.toNat, stop)

/-- The sidecar's checksums, when the tree has one. -/
def openCrcs (m : Manifest) (tree : SourceTree) (crcName : Text) : Outcome (Option (List UInt32)) :=
  if tree.files.any fun f => f.1 = crcName then do
    let crcs ← parseCrcSidecar (← ofTree (tree.read crcName)) m.buildId m.chunks.length
    return some crcs
  else return none

/-- `open` -/
def openSet (tree : SourceTree) (indexName : Text) : Outcome Reader := do
  let manifest ← Manifest.parse (← ofTree (tree.read indexName))
  let crcs ← openCrcs manifest tree (indexName ++ ".crc".toList)
  let payload ← collect (openPack manifest tree (Inner.parentPath indexName)) manifest.packs.zipIdx
  return { manifest, crcs, payload }

variable (decompress : Bytes → Nat → Except String Bytes)

/-- The stored bytes of a chunk, decoded. -/
def decodeChunk (c : ChunkRecord) (stored : Bytes) (rawSize : Nat) : Outcome Bytes :=
  if c.codec = codecRaw then .ok stored
  else if c.codec = codecLz4 then ofTree (decompress stored rawSize)
  else fail ("unknown chunk codec " ++ toString c.codec)

/-- `read_chunk` -/
def readChunk (r : Reader) (i local' : Nat) (tree : SourceTree) (dir : Text) : Outcome Bytes := do
  let f ← index r.manifest.files i
  let at' ← add 64 f.firstChunk.toNat local'
  let c ← index r.manifest.chunks at'
  let rawSize ← Manifest.rawSize f local'
  let (begin', stop) ← index r.payload c.packId
  if c.offset < begin' then fail "a chunk lies outside its volume's payload"
  else if stop < (← add 64 c.offset c.storedSize) then fail "a chunk lies outside its volume's payload"
  else
    let name := join dir (← r.manifest.packName c.packId)
    let stored ← ofTree (tree.readRange name c.offset c.storedSize)
    if stored.length ≠ c.storedSize then fail (String.ofList name ++ " is truncated")
    else
      let raw ← decodeChunk decompress c stored rawSize
      if raw.length ≠ rawSize then fail "a chunk decoded to the wrong size"
      else
        match r.crcs with
        | none => return raw
        | some crcs =>
          if crc32 raw ≠ (← index crcs at') then
            let path ← r.manifest.path i
            fail ("chunk " ++ toString at' ++ " of " ++ String.ofList path ++ " fails its CRC")
          else return raw

/-- `read_file`; `tree n` is the tree as it answers the `n`-th read. -/
def readFile (r : Reader) (i : Nat) (tree : Nat → SourceTree) (dir : Text) : Outcome Bytes := do
  let f ← index r.manifest.files i
  if ¬ f.packed then
    let path ← r.manifest.path i
    fail (String.ofList path ++ " is loose")
  else
    let out ← fold (fun out local' => do
      let raw ← readChunk decompress r i local' (tree local') dir
      return out ++ raw) [] (List.range f.chunkCount.toNat)
    if out.length ≠ f.logicalSize.toNat then fail "a packed file decoded to the wrong size"
    else return out

end Reader

/-! ## What an open reader has -/

/-- A reader whose tables go with a manifest that keeps its promises. -/
structure Opened (r : Reader) : Prop where
  within : r.manifest.Within
  payload : r.payload.length = r.manifest.packs.length
  crcs : ∀ crcs, r.crcs = some crcs → crcs.length = r.manifest.chunks.length

theorem length_parseCrcSidecar {d buildId : Bytes} {chunks : Nat} {crcs : List UInt32}
    (h : parseCrcSidecar d buildId chunks = .ok crcs) : crcs.length = chunks := by
  unfold parseCrcSidecar at h
  obtain ⟨-, h⟩ := refuse_eq_ok.1 h
  obtain ⟨_, -, h⟩ := bind_eq_ok.1 h
  obtain ⟨-, h⟩ := refuse_eq_ok.1 h
  obtain ⟨_, -, h⟩ := bind_eq_ok.1 h
  obtain ⟨-, h⟩ := refuse_eq_ok.1 h
  obtain ⟨_, -, h⟩ := bind_eq_ok.1 h
  obtain ⟨-, h⟩ := refuse_eq_ok.1 h
  obtain ⟨_, -, h⟩ := bind_eq_ok.1 h
  obtain ⟨-, h⟩ := refuse_eq_ok.1 h
  obtain ⟨_, -, h⟩ := bind_eq_ok.1 h
  obtain ⟨-, h⟩ := refuse_eq_ok.1 h
  obtain ⟨_, -, h⟩ := bind_eq_ok.1 h
  obtain ⟨_, -, h⟩ := bind_eq_ok.1 h
  obtain ⟨payload, -, h⟩ := bind_eq_ok.1 h
  obtain ⟨_, -, h⟩ := bind_eq_ok.1 h
  obtain ⟨-, h⟩ := refuse_eq_ok.1 h
  obtain ⟨total, htotal, h⟩ := bind_eq_ok.1 h
  obtain ⟨hlen, h⟩ := refuse_eq_ok.1 h
  obtain ⟨_, -, h⟩ := bind_eq_ok.1 h
  obtain ⟨-, h⟩ := refuse_eq_ok.1 h
  cases h
  have hmul := (mul_ok htotal).1
  rw [List.length_map, List.length_range]
  omega

theorem length_openCrcs {m : Manifest} {tree : SourceTree} {crcName : Text} {found : Option (List UInt32)}
    (h : Reader.openCrcs m tree crcName = .ok found) {crcs : List UInt32} (hsome : found = some crcs) :
    crcs.length = m.chunks.length := by
  unfold Reader.openCrcs at h
  split at h
  · obtain ⟨d, -, h⟩ := bind_eq_ok.1 h
    obtain ⟨crcs', hcrcs, h⟩ := bind_eq_ok.1 h
    cases h
    cases hsome
    exact length_parseCrcSidecar hcrcs
  · cases h
    cases hsome

theorem opened_openSet {tree : SourceTree} {indexName : Text} {r : Reader}
    (h : Reader.openSet tree indexName = .ok r) : Opened r := by
  unfold Reader.openSet at h
  obtain ⟨d, -, h⟩ := bind_eq_ok.1 h
  obtain ⟨m, hm, h⟩ := bind_eq_ok.1 h
  obtain ⟨crcs, hcrcs, h⟩ := bind_eq_ok.1 h
  obtain ⟨payload, hpayload, h⟩ := bind_eq_ok.1 h
  cases h
  refine ⟨(Manifest.safe_parse d).of_ok hm, ?_, fun _ hsome => length_openCrcs hcrcs hsome⟩
  rw [length_collect hpayload, List.length_zipIdx]

/-! ## Reading -/

section Read

variable {decompress : Bytes → Nat → Except String Bytes} {r : Reader}

theorem safe_ofTree {α : Type} (x : Except String α) : Safe (fun _ => True) (ofTree x) := by
  cases x with
  | ok a => trivial
  | error e => exact safe_fail e

theorem safe_packName {packId : Nat} (hp : packId < r.manifest.packs.length) :
    Safe (fun _ => True) (r.manifest.packName packId) := by
  unfold Manifest.packName
  exact (safe_index hp).bind fun _ _ => (Manifest.safe_stringAt _ _).mono fun _ _ => trivial

theorem safe_path {m : Manifest} {i : Nat} (hi : i < m.files.length) : Safe (fun _ => True) (m.path i) := by
  unfold Manifest.path
  exact (safe_index hi).bind fun _ _ => (Manifest.safe_stringAt _ _).mono fun _ _ => trivial

theorem safe_decodeChunk (c : ChunkRecord) (stored : Bytes) (rawSize : Nat) :
    Safe (fun _ => True) (Reader.decodeChunk decompress c stored rawSize) := by
  unfold Reader.decodeChunk
  split
  · trivial
  · split
    · exact safe_ofTree _
    · exact safe_fail _

/-- A chunk of a packed file is read without a failed check. -/
theorem safe_readChunk (h : Opened r) {i local' : Nat} {f : FileRecord} (hf : r.manifest.files[i]? = some f)
    (hpacked : f.packed = true) (hl : local' < f.chunkCount.toNat) (tree : SourceTree) (dir : Text) :
    Safe (fun _ => True) (r.readChunk decompress i local' tree dir) := by
  have hi := (List.getElem?_eq_some_iff.1 hf).1
  have hok := h.within.files f (List.mem_of_getElem? hf)
  have hfirst := f.firstChunk.toNat_lt
  have hcount := f.chunkCount.toNat_lt
  obtain ⟨c, hc, p, hp, hbegin, hend⟩ := hok.chunks local' hl
  have hpack := (List.getElem?_eq_some_iff.1 hp).1
  have hsize := p.fileSize.toNat_lt
  unfold Reader.readChunk
  rw [index_eq hf, ok_bind]
  refine (safe_add (by omega)).bind fun at' hat => ?_
  subst hat
  rw [index_eq hc, ok_bind]
  refine (Manifest.safe_rawSize (hok.covers hpacked) hl).bind fun rawSize _ => ?_
  refine (safe_index (by rw [h.payload]; exact hpack)).bind fun span _ => ?_
  obtain ⟨begin', stop⟩ := span
  refine safe_refuse fun _ => (safe_add (by omega)).bind fun _ _ => safe_refuse fun _ => ?_
  refine (safe_packName hpack).bind fun name _ => (safe_ofTree _).bind fun stored _ => ?_
  refine safe_refuse fun _ => (safe_decodeChunk _ _ _).bind fun raw _ => safe_refuse fun _ => ?_
  split
  · trivial
  · rename_i crcs hcrcs
    have hat := (List.getElem?_eq_some_iff.1 hc).1
    refine (safe_index (by rw [h.crcs crcs hcrcs]; exact hat)).bind fun _ _ => ?_
    split
    · exact (safe_path hi).bind fun _ _ => safe_fail _
    · trivial

/-- A file is read without a failed check, to as many bytes as its record says, or refused. -/
theorem safe_readFile (h : Opened r) {i : Nat} {f : FileRecord} (hf : r.manifest.files[i]? = some f)
    (tree : Nat → SourceTree) (dir : Text) :
    Safe (fun out => out.length = f.logicalSize.toNat) (r.readFile decompress i tree dir) := by
  have hi := (List.getElem?_eq_some_iff.1 hf).1
  unfold Reader.readFile
  rw [index_eq hf, ok_bind]
  split
  · exact (safe_path hi).bind fun _ _ => safe_fail _
  · rename_i hpacked
    refine (safe_fold (I := fun _ => True) trivial fun out local' hl _ => ?_).bind fun out _ => ?_
    · exact (safe_readChunk h hf (not_not.1 hpacked) (List.mem_range.1 hl) _ _).bind fun _ _ => trivial
    · exact safe_refuse fun hlen => safe_pure (not_not.1 hlen)

/-- Bytes of any kind are parsed without a failed check, to an error or to a manifest whose names, chunk
ranges and files' chunks are inside the tables and volumes its header declares; and from a set that opens,
every record is read without a failed check, to an error or to as many bytes as the record says. -/
theorem parse_readFile (decompress : Bytes → Nat → Except String Bytes) :
    (∀ d, Safe Manifest.Within (Manifest.parse d)) ∧
      ∀ tree indexName r, Reader.openSet tree indexName = .ok r → r.manifest.Within ∧
        ∀ i f, r.manifest.files[i]? = some f → ∀ tree dir,
          Safe (fun out => out.length = f.logicalSize.toNat) (r.readFile decompress i tree dir) :=
  ⟨Manifest.safe_parse, fun _ _ _ h => ⟨(opened_openSet h).within, fun _ _ hf tree dir =>
    safe_readFile (opened_openSet h) hf tree dir⟩⟩

end Read

/-! ## Samples -/

/-- A manifest with one file of five bytes, `/app0/a`, whose only chunk is stored in `data.pak`. -/
def samplePak : Bytes :=
  [65, 77, 80, 82, 80, 65, 75, 52, 4, 0, 0, 0, 128, 0, 0, 0, 0, 0, 0, 0, 4, 3, 2, 1, 0, 0, 0, 0, 0, 0, 0, 0,
    0, 0, 0, 0, 0, 0, 0, 0, 1, 0, 0, 0, 0, 0, 0, 0, 1, 0, 0, 0, 0, 0, 0, 0, 1, 0, 0, 0, 48, 0, 0, 0, 12, 0,
    0, 0, 32, 0, 0, 0, 128, 0, 0, 0, 0, 0, 0, 0, 176, 0, 0, 0, 0, 0, 0, 0, 188, 0, 0, 0, 0, 0, 0, 0, 220, 0,
    0, 0, 0, 0, 0, 0, 17, 0, 0, 0, 0, 0, 0, 0, 255, 26, 33, 10, 180, 155, 61, 112, 0, 0, 0, 0, 0, 0, 0, 0,
    99, 250, 213, 18, 52, 150, 23, 138, 5, 0, 0, 0, 0, 0, 0, 0, 0, 0, 0, 0, 0, 0, 0, 0, 0, 0, 0, 0, 1, 0, 0,
    0, 0, 0, 0, 0, 7, 0, 0, 0, 1, 0, 0, 0, 14, 0, 0, 0, 0, 16, 0, 0, 0, 0, 0, 0, 4, 0, 0, 1, 0, 16, 0, 0, 0,
    0, 0, 0, 0, 32, 0, 0, 0, 0, 0, 0, 8, 0, 0, 0, 8, 0, 0, 0, 2, 0, 0, 0, 0, 16, 0, 0, 47, 97, 112, 112, 48,
    47, 97, 0, 100, 97, 116, 97, 46, 112, 97, 107, 0]

/-- The header of its volume. -/
def sampleVolume : Bytes :=
  [65, 77, 80, 82, 68, 65, 84, 51, 3, 0, 0, 0, 64, 0, 0, 0, 0, 0, 0, 0, 2, 0, 0, 0, 0, 0, 0, 0, 0, 0, 0, 0,
    0, 0, 0, 0, 0, 0, 0, 0, 0, 16, 0, 0, 0, 0, 0, 0, 0, 16, 0, 0, 0, 0, 0, 0, 255, 22, 29, 234, 0, 0, 0, 0]

def sampleTree : SourceTree where
  files := [("a.pak".toList, 237), ("data.pak".toList, 8192)]
  read _ := .ok samplePak
  readRange _ off len := .ok (if off = 0 then sampleVolume else (bytes "hello".toList).take len)

theorem parse_readFile_sample :
    ∃ r f, Reader.openSet sampleTree "a.pak".toList = .ok r ∧ r.manifest.files[0]? = some f ∧
      Safe (fun out => out.length = f.logicalSize.toNat)
        (r.readFile (fun _ _ => .error "") 0 (fun _ => sampleTree) []) := by
  have hlen : (Reader.openSet sampleTree "a.pak".toList).toOption.map (fun r => r.manifest.files.length) =
      some 1 := by
    unfold Reader.openSet Reader.openPack
    simp only [parseDataHeader, Manifest.parse, Manifest.checkHeader, crc32_eq_settle]
    decide +kernel
  obtain ⟨r, h, hlen⟩ := ok_of_map hlen
  have hf := List.getElem?_eq_getElem (show 0 < r.manifest.files.length by omega)
  exact ⟨r, _, h, hf, ((parse_readFile _).2 _ _ r h).2 0 _ hf _ _⟩

/-- A manifest of one chunk that no file names, and no volume. -/
def orphanPak : Bytes :=
  [65, 77, 80, 82, 80, 65, 75, 52, 4, 0, 0, 0, 128, 0, 0, 0, 0, 0, 0, 0, 4, 3, 2, 1, 0, 0, 0, 0, 0, 0, 0, 0,
    0, 0, 0, 0, 0, 0, 0, 0, 0, 0, 0, 0, 0, 0, 0, 0, 1, 0, 0, 0, 0, 0, 0, 0, 0, 0, 0, 0, 48, 0, 0, 0, 12, 0,
    0, 0, 32, 0, 0, 0, 128, 0, 0, 0, 0, 0, 0, 0, 128, 0, 0, 0, 0, 0, 0, 0, 140, 0, 0, 0, 0, 0, 0, 0, 140, 0,
    0, 0, 0, 0, 0, 0, 0, 0, 0, 0, 0, 0, 0, 0, 111, 198, 213, 123, 81, 22, 63, 71, 0, 0, 0, 0, 0, 0, 0, 0, 0,
    0, 0, 0, 0, 0, 0, 0, 0, 0, 0, 0]

/-- A chunk cannot be in a volume where there is none. -/
theorem not_stored_of_packs {d : Bytes}
    (h : (Manifest.parse d).toOption.map (fun m => (m.chunks.length, m.packs.length)) = some (1, 0)) :
    ¬ Safe (fun m => m.Within ∧ ∀ c ∈ m.chunks, m.Stored c) (Manifest.parse d) := by
  intro hall
  obtain ⟨m, hm, hlens⟩ := ok_of_map h
  rw [Prod.mk.injEq] at hlens
  obtain ⟨p, hp, -⟩ := (hall.of_ok hm).2 _ (List.getElem_mem (show 0 < m.chunks.length by omega))
  rw [List.length_eq_zero_iff.1 hlens.2] at hp
  cases hp

/-- A chunk that no file names is not looked at. -/
theorem not_stored_orphan :
    ¬ ∀ d, Safe (fun m => m.Within ∧ ∀ c ∈ m.chunks, m.Stored c) (Manifest.parse d) := by
  rw [not_forall]
  refine ⟨orphanPak, not_stored_of_packs ?_⟩
  simp only [Manifest.parse, Manifest.checkHeader, crc32_eq_settle]
  decide +kernel

end Ps5Upload.AmprPack
