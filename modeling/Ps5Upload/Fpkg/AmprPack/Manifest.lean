import Ps5Upload.Lib.Bytes
import Ps5Upload.Lib.Checked
import Ps5Upload.Lib.Crc32
import Ps5Upload.Lib.Utf8
import Mathlib.Algebra.Order.Floor.Div

/-!
# The AMPRPAK4 manifest

`ampr_pack/format.rs`, with every index, slice, addition, multiplication, subtraction and shift checked:
the records of a manifest, and what is asked of them before a byte is served.

* `FileRecord`, `ChunkRecord`, `PackRecord` — the records and their decoders;
* `Manifest.parse` — the sections of a manifest;
* `Manifest.validate` — volumes first, then every file with the chunks of its range.
-/

namespace Ps5Upload.AmprPack

open ByteFile Checked Crc32 Utf8

abbrev Outcome (α : Type) := Checked.Res String α

/-! ## Constants -/

def indexMagic : Bytes := [0x41, 0x4D, 0x50, 0x52, 0x50, 0x41, 0x4B, 0x34]

def indexVersion : UInt32 := 4

def endianMarker : UInt32 := 0x01020304

def indexHeaderSize : Nat := 128

def dataHeaderSize : Nat := 64

def fileRecordSize : Nat := 48

def chunkRecordSize : Nat := 12

def packRecordSize : Nat := 32

def filePacked : UInt32 := 1

def fileStoreOnly : UInt32 := 2

def fileStreaming : UInt32 := 4

def fileHot : UInt32 := 8

def fileRandomAccess : UInt32 := 16

def fileKnown : UInt32 := filePacked ||| fileStoreOnly ||| fileStreaming ||| fileHot ||| fileRandomAccess

def codecRaw : UInt8 := 0

def codecLz4 : UInt8 := 1

def chunkStreaming : UInt8 := 2

def chunkPageContained : UInt8 := 4

def chunkPageAligned : UInt8 := 8

def packStriped : UInt32 := 1

def packIoPageLayout : UInt32 := 2

def packKnown : UInt32 := packStriped ||| packIoPageLayout

def minBlockShift : Nat := 14

def maxBlockShift : Nat := 20

def minIoPage : Nat := 2 ^ 12

def maxIoPage : Nat := 2 ^ 20

/-- `CHUNK_ALIGNMENT` -/
def chunkAlignment : Nat := 64

/-- `DESCRIPTOR_KNOWN`: 20 bits of size, 2 of codec and 8 of flags. -/
def descriptorKnown : UInt32 := 0x3FFFFFFF

/-! ## Fields -/

def le16 (d : Bytes) (at' : Nat) : Outcome UInt16 :=
  if at' + 2 ≤ d.length then .ok (.ofNat (leAt d at' 2)) else panic

def le32 (d : Bytes) (at' : Nat) : Outcome UInt32 :=
  if at' + 4 ≤ d.length then .ok (.ofNat (leAt d at' 4)) else panic

def le64 (d : Bytes) (at' : Nat) : Outcome UInt64 :=
  if at' + 8 ≤ d.length then .ok (.ofNat (leAt d at' 8)) else panic

/-- `&d[at..]` -/
def tailFrom (d : Bytes) (at' : Nat) : Outcome Bytes := slice d at' d.length

/-- `align_down` -/
def alignDown (value alignment : Nat) : Outcome Nat :=
  if ¬ alignment.isPowerOfTwo then panic
  else do
    let mask ← sub alignment 1
    return value &&& (2 ^ 64 - 1 - mask)

/-- `align_up` -/
def alignUp (value alignment : Nat) : Outcome Nat :=
  if ¬ alignment.isPowerOfTwo then panic
  else do
    let sum ← add 64 value alignment
    let sum ← sub sum 1
    let mask ← sub alignment 1
    return sum &&& (2 ^ 64 - 1 - mask)

/-! ## Paths -/

/-- `fnv1a64` -/
def fnv1a64 (data : Bytes) : UInt64 :=
  let h := data.foldl (fun h b => (h ^^^ b.toUInt64) * 0x100000001B3) 0xCBF29CE484222325
  if h < 1 then 1 else h

/-- `ascii_fold` -/
def asciiFold (path : Text) : Bytes :=
  (bytes path).map fun b =>
    if b = 0x5C then 0x2F else if 0x41 ≤ b ∧ b ≤ 0x5A then b + 0x20 else b

def pathHash (app0Path : Text) : UInt64 := fnv1a64 (asciiFold app0Path)

/-- `to_ascii_lowercase` -/
def asciiLower (t : Text) : Text := t.map Char.toLower

/-- The loop of `canonical` over the parts of a path. -/
def canonicalParts (path : Text) : List Text → List Text → Except String (List Text)
  | [], parts => .ok parts
  | c :: cs, parts =>
    if c = [] ∨ c = ['.'] then canonicalParts path cs parts
    else if c = ['.', '.'] then
      if parts = [] then .error ("path escapes the root: " ++ String.ofList path)
      else canonicalParts path cs parts.dropLast
    else if '\x00' ∈ c then .error "NUL in a path"
    else canonicalParts path cs (parts ++ [c])

/-- `canonical`: absolute under `/app0`, `.` and empty parts dropped. -/
def canonical (path : Text) : Except String Text :=
  let path := path.map fun c => if c = '\\' then '/' else c
  match canonicalParts path (path.splitOn '/') [] with
  | .error e => .error e
  | .ok parts =>
    let joined := '/' :: ['/'].intercalate parts
    if asciiLower joined = "/app0".toList then .ok "/app0".toList
    else if "/app0/".toList <+: asciiLower joined then .ok joined
    else .error (String.ofList joined ++ " is outside /app0")

/-- `safe_relative` -/
def safeRelative (name : Text) : Bool :=
  name ≠ [] ∧ '\\' ∉ name ∧ ¬ ['/'] <+: name ∧ ∀ c ∈ name.splitOn '/', c ≠ [] ∧ c ≠ ['.'] ∧ c ≠ ['.', '.']

/-! ## Records -/

/-- A file's entry in the manifest. -/
structure FileRecord where
  pathHash : UInt64
  logicalSize : UInt64
  mtime : UInt64
  firstChunk : UInt32
  chunkCount : UInt32
  pathOffset : UInt32
  pathLength : UInt32
  flags : UInt32
  blockShift : UInt8
  packingClass : UInt8
  reserved : UInt16

def FileRecord.decode (d : Bytes) : Outcome FileRecord := do
  return {
    pathHash := ← le64 d 0
    logicalSize := ← le64 d 8
    mtime := ← le64 d 16
    firstChunk := ← le32 d 24
    chunkCount := ← le32 d 28
    pathOffset := ← le32 d 32
    pathLength := ← le32 d 36
    flags := ← le32 d 40
    blockShift := ← index d 44
    packingClass := ← index d 45
    reserved := ← le16 d 46 }

/-- `packed` -/
def FileRecord.packed (f : FileRecord) : Bool := f.flags &&& filePacked ≠ 0

/-- One stored block. -/
structure ChunkRecord where
  offset : Nat
  storedSize : Nat
  packId : Nat
  codec : UInt8
  flags : UInt8

/-- The offset is in the low 48 bits of the location, below the volume; the descriptor has the size less
one, the codec and the flags. -/
def ChunkRecord.decode (d : Bytes) : Outcome ChunkRecord := do
  let location ← le64 d 0
  let descriptor ← le32 d 8
  if descriptor &&& ~~~ descriptorKnown ≠ 0 then fail "a chunk descriptor has reserved bits set"
  else
    let storedSize ← add 32 (descriptor.toNat % 2 ^ 20) 1
    return {
      offset := location.toNat % 2 ^ 48
      storedSize
      packId := location.toNat / 2 ^ 48
      codec := .ofNat (descriptor.toNat / 2 ^ 20 % 4)
      flags := .ofNat (descriptor.toNat / 2 ^ 22 % 2 ^ 8) }

/-- One data volume. -/
structure PackRecord where
  payloadBytes : UInt64
  fileSize : UInt64
  nameOffset : UInt32
  nameLength : UInt32
  flags : UInt32
  ioPageSize : UInt32

def PackRecord.decode (d : Bytes) : Outcome PackRecord := do
  return {
    payloadBytes := ← le64 d 0
    fileSize := ← le64 d 8
    nameOffset := ← le32 d 16
    nameLength := ← le32 d 20
    flags := ← le32 d 24
    ioPageSize := ← le32 d 28 }

structure Manifest where
  buildId : Bytes
  files : List FileRecord
  chunks : List ChunkRecord
  packs : List PackRecord
  strings : Bytes

namespace Manifest

variable (m : Manifest)

/-! ## Strings -/

/-- `std::str::from_utf8` -/
def fromUtf8 (b : Bytes) : Option Text := (ByteArray.utf8Decode? ⟨b.toArray⟩).map Array.toList

/-- `string_at` -/
def stringAt (offset length : UInt32) : Outcome Text := do
  let stop ← add 64 offset.toNat length.toNat
  if m.strings.length ≤ stop then fail "a manifest string is out of bounds or unterminated"
  else if (← index m.strings stop) ≠ 0 then fail "a manifest string is out of bounds or unterminated"
  else
    match fromUtf8 (← slice m.strings offset.toNat stop) with
    | some t => return t
    | none => fail "a manifest string is not UTF-8"

/-- `path` -/
def path (i : Nat) : Outcome Text := do
  let f ← index m.files i
  m.stringAt f.pathOffset f.pathLength

/-- `pack_name` -/
def packName (packId : Nat) : Outcome Text := do
  let p ← index m.packs packId
  m.stringAt p.nameOffset p.nameLength

/-- `raw_size`: what the chunk in place `local'` of a file decodes to. -/
def rawSize (f : FileRecord) (local' : Nat) : Outcome Nat := do
  let block ← shl 64 1 f.blockShift.toNat
  let before ← mul 64 local' block
  let rest ← sub f.logicalSize.toNat before
  return min rest block

/-! ## Validation -/

/-- The turn of `validate` for one volume. -/
def validatePack (e : PackRecord × Nat) : Outcome Unit := do
  let p := e.1
  let id := toString e.2
  let name ← m.stringAt p.nameOffset p.nameLength
  if ¬ safeRelative name then fail ("unsafe pack name " ++ id ++ ": " ++ String.ofList name)
  else
    let page := p.ioPageSize.toNat
    if p.flags &&& ~~~ packKnown ≠ 0 ∨ ¬ (minIoPage ≤ page ∧ page ≤ maxIoPage) ∨ ¬ page.isPowerOfTwo ∨
        p.flags &&& packIoPageLayout = 0 then
      fail ("pack " ++ id ++ " has invalid flags or I/O page size")
    else if p.fileSize.toNat < dataHeaderSize ∨ p.fileSize < p.payloadBytes then
      fail ("pack " ++ id ++ " has an invalid size")
    else
      let payloadAt ← sub p.fileSize.toNat p.payloadBytes.toNat
      if payloadAt < dataHeaderSize then fail ("pack " ++ id ++ " has an invalid payload offset")
      else if (← rem payloadAt page) ≠ 0 then fail ("pack " ++ id ++ " has an invalid payload offset")
      else if (← rem p.fileSize.toNat page) ≠ 0 then fail ("pack " ++ id ++ " has an invalid payload offset")
      else return ()

/-- A chunk that is marked as contained in a page is not. -/
def crossesPage (c : ChunkRecord) (page : Nat) : Outcome Bool :=
  if c.flags &&& chunkPageContained = 0 then .ok false
  else if page < c.storedSize then .ok true
  else do
    let first ← alignDown c.offset page
    let stop ← add 64 c.offset c.storedSize
    let last ← sub stop 1
    let last ← alignDown last page
    return first ≠ last

/-- The page rules of one chunk, in the volume that holds it. -/
def validatePages (id : String) (streaming : Bool) (c : ChunkRecord) (p : PackRecord) (payloadAt : Nat) :
    Outcome Unit := do
  let page := p.ioPageSize.toNat
  let contained := c.flags &&& chunkPageContained ≠ 0
  let aligned := c.flags &&& chunkPageAligned ≠ 0
  if ← crossesPage c page then fail ("file id " ++ id ++ " has a chunk crossing a page")
  else if aligned ∧ ¬ c.offset % page = 0 then fail ("file id " ++ id ++ " has a misaligned chunk")
  else if c.storedSize ≤ page ∧ aligned ∧ ¬ contained then
    fail ("file id " ++ id ++ " has a small page-aligned chunk not marked contained")
  else if ¬ streaming ∧ ¬ (contained ∨ aligned) then
    fail ("file id " ++ id ++ " has a chunk that is not page-safe")
  else if (← alignDown c.offset page) < payloadAt then
    fail ("file id " ++ id ++ " reads outside its pack")
  else
    let stop ← add 64 c.offset c.storedSize
    if p.fileSize.toNat < (← alignUp stop page) then fail ("file id " ++ id ++ " reads outside its pack")
    else return ()

/-- The turn of `validate` for the chunk in place `local'` of a packed file. -/
def validateChunk (id : String) (f : FileRecord) (block : Nat) (streaming : Bool) (local' : Nat) :
    Outcome Unit := do
  let at' ← add 64 f.firstChunk.toNat local'
  let c ← index m.chunks at'
  let raw ← rawSize f local'
  if block < c.storedSize then fail ("file id " ++ id ++ " has an oversized chunk")
  else if c.codec = codecRaw ∧ c.storedSize ≠ raw then fail ("file id " ++ id ++ " has a raw size mismatch")
  else if ¬ (c.codec = codecRaw ∨ c.codec = codecLz4) then fail ("file id " ++ id ++ " has an unknown codec")
  else if f.flags &&& fileStoreOnly ≠ 0 ∧ c.codec ≠ codecRaw then
    fail ("store-only file id " ++ id ++ " has an LZ4 chunk")
  else if streaming ≠ (c.flags &&& chunkStreaming ≠ 0) then
    fail ("file id " ++ id ++ " has a streaming flag mismatch")
  else
    match m.packs[c.packId]? with
    | none => fail ("file id " ++ id ++ " names a missing pack")
    | some p =>
      let payloadAt ← sub p.fileSize.toNat p.payloadBytes.toNat
      if c.offset < payloadAt then fail ("file id " ++ id ++ " has a misplaced chunk")
      else
        let stop ← add 64 c.offset c.storedSize
        if p.fileSize.toNat < stop ∨ ¬ c.offset % chunkAlignment = 0 then
          fail ("file id " ++ id ++ " has a misplaced chunk")
        else validatePages id streaming c p payloadAt

/-- The turn of `validate` for one file. -/
def validateFile (e : FileRecord × Nat) : Outcome Unit := do
  let f := e.1
  let id := toString (e.2 + 1)
  let path ← m.stringAt f.pathOffset f.pathLength
  if (canonical path).toOption ≠ some path ∨ path = "/app0".toList then
    fail ("file id " ++ id ++ " has a non-canonical path")
  else if f.reserved ≠ 0 ∨ f.flags &&& ~~~ fileKnown ≠ 0 then
    fail ("file id " ++ id ++ " has unknown flags")
  else if AmprPack.pathHash path ≠ f.pathHash then
    fail ("file id " ++ id ++ "'s path hash does not match")
  else if ¬ f.packed then
    if f.firstChunk ≠ 0 ∨ f.chunkCount ≠ 0 ∨ f.blockShift ≠ 0 ∨ f.packingClass ≠ 0 ∨ f.flags ≠ 0 then
      fail ("loose file id " ++ id ++ " references chunks")
    else return ()
  else if ¬ (minBlockShift ≤ f.blockShift.toNat ∧ f.blockShift.toNat ≤ maxBlockShift) then
    fail ("file id " ++ id ++ " has an invalid block size")
  else
    let streaming := decide (f.flags &&& fileStreaming ≠ 0)
    if streaming ∧ f.flags &&& fileRandomAccess ≠ 0 then
      fail ("file id " ++ id ++ " is both streaming and random")
    else
      let stop ← add 64 f.firstChunk.toNat f.chunkCount.toNat
      if m.chunks.length < stop then fail ("file id " ++ id ++ "'s chunk range is invalid")
      else
        let block ← shl 64 1 f.blockShift.toNat
        if f.logicalSize.toNat ⌈/⌉ block ≠ f.chunkCount.toNat then
          fail ("file id " ++ id ++ "'s chunk count does not cover it")
        else forEach (m.validateChunk id f block streaming) (List.range f.chunkCount.toNat)

def validate : Outcome Unit := do
  forEach m.validatePack m.packs.zipIdx
  forEach m.validateFile m.files.zipIdx

/-! ## Parsing -/

/-- The end of a section of `count` records of `size` bytes. -/
def sectionEnd (count size start : Nat) (e : String) : Outcome Nat :=
  if count * size < 2 ^ 64 ∧ count * size + start < 2 ^ 64 then .ok (count * size + start) else fail e

/-- The records of a section. -/
def records {α : Type} (decode : Bytes → Outcome α) (d : Bytes) (start size count : Nat) :
    Outcome (List α) :=
  collect (fun i => do
    let skip ← mul 64 i size
    let at' ← add 64 start skip
    decode (← tailFrom d at')) (List.range count)

/-- The fields of the header that say where the sections are: `le64` at 72, 80, 88 and 96, and the length
of the strings. -/
def checkLayout (d : Bytes) (chunksAt packsAt stringsAt : Nat) : Outcome Unit := do
  if (← le64 d 72).toNat ≠ indexHeaderSize then fail "invalid pack manifest section layout"
  else if (← le64 d 80).toNat ≠ chunksAt then fail "invalid pack manifest section layout"
  else if (← le64 d 88).toNat ≠ packsAt then fail "invalid pack manifest section layout"
  else if (← le64 d 96).toNat ≠ stringsAt then fail "invalid pack manifest section layout"
  else
    let strings ← le64 d 104
    if 2 ^ 64 ≤ stringsAt + strings.toNat ∨ stringsAt + strings.toNat ≠ d.length then
      fail "invalid pack manifest section layout"
    else return ()

/-- The header in front of the sections. -/
def checkHeader (d : Bytes) : Outcome Unit := do
  if (← slice d 0 8) ≠ indexMagic then fail "not an AMPRPAK4 manifest"
  else if (← le32 d 8) ≠ indexVersion then fail "not an AMPRPAK4 manifest"
  else if (← le32 d 12).toNat ≠ indexHeaderSize then fail "invalid AMPRPAK4 header"
  else if (← le32 d 16) ≠ 0 then fail "invalid AMPRPAK4 header"
  else if (← le32 d 20) ≠ endianMarker then fail "invalid AMPRPAK4 header"
  else if (← le64 d 120) ≠ 0 then fail "invalid AMPRPAK4 header"
  else if (← le32 d 60).toNat ≠ fileRecordSize then fail "unsupported AMPRPAK4 record sizes"
  else if (← le32 d 64).toNat ≠ chunkRecordSize then fail "unsupported AMPRPAK4 record sizes"
  else if (← le32 d 68).toNat ≠ packRecordSize then fail "unsupported AMPRPAK4 record sizes"
  else
    let header ← blit (← slice d 0 indexHeaderSize) 116 (List.replicate 4 0)
    if crc32 header ≠ (← le32 d 116) then fail "pack manifest header CRC mismatch"
    else if crc32 (← tailFrom d indexHeaderSize) ≠ (← le32 d 112) then
      fail "pack manifest payload CRC mismatch"
    else return ()

/-- `parse` -/
def parse (d : Bytes) : Outcome Manifest :=
  if d.length < indexHeaderSize then fail "the pack manifest is truncated"
  else do
    checkHeader d
    let buildId ← slice d 24 40
    let fileCount := (← le64 d 40).toNat
    let chunkCount := (← le64 d 48).toNat
    let packCount := (← le32 d 56).toNat
    let chunksAt ← sectionEnd fileCount fileRecordSize indexHeaderSize "file count overflows"
    let packsAt ← sectionEnd chunkCount chunkRecordSize chunksAt "chunk count overflows"
    let stringsAt ← sectionEnd packCount packRecordSize packsAt "pack count overflows"
    checkLayout d chunksAt packsAt stringsAt
    let files ← records FileRecord.decode d indexHeaderSize fileRecordSize fileCount
    let chunks ← records ChunkRecord.decode d chunksAt chunkRecordSize chunkCount
    let packs ← records PackRecord.decode d packsAt packRecordSize packCount
    let strings ← tailFrom d stringsAt
    let m : Manifest := { buildId, files, chunks, packs, strings }
    m.validate
    return m

end Manifest

end Ps5Upload.AmprPack
