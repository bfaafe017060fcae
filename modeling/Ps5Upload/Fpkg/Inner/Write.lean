import Ps5Upload.Fpkg.Inner.Plan
import Ps5Upload.Lib.Stamps

/-!
# The inner image

`inner.rs`: the metadata region of a plan, the image that `write_with` builds in memory, and the same
image as `BlockSource` gives it block by block.  The HMACs of the keystone and the container the
metadata region is compressed into are parameters.

* `metadataRegion` — the superblock, the inode table, the tables and the directories;
* `writeWith` — one buffer, cut to what the codec left;
* `BlockSource`, `BlockSource.block` — one block, filled in a buffer that every call uses again.
-/

namespace Ps5Upload.Inner

open Blocks ByteFile Checked Stamps Utf8

/-! ## The metadata region -/

/-- `INODE_LEN` -/
def inodeLen : Nat := 0xA8

/-- `inode_offset` -/
def inodeOffset (index : Nat) : Nat := index / inodesPerBlock * block + index % inodesPerBlock * inodeLen

/-- `dir_size` -/
def dirSize (entryBytes : Nat) : Nat := max (alignUp entryBytes block) block

structure InodeRecord where
  mode : Nat
  nlink : Nat
  flags : Nat
  size : Nat
  logicalOffset : Nat
  db1 : Int
  db2 : Int
  db3 : Int

/-- Seconds and nanoseconds. -/
abbrev Time := Int × Nat

def zeros (n : Nat) : Bytes := List.replicate n 0

/-- The bytes of an inode. -/
def inodeBytes (rec : InodeRecord) (time : Time) : Bytes :=
  le 2 rec.mode ++ le 2 rec.nlink ++ le 4 rec.flags ++ le 8 rec.size ++ le 8 rec.size ++
    (List.replicate 4 (leInt 8 time.1)).flatten ++ (List.replicate 4 (le 4 time.2)).flatten ++
    zeros 0x18 ++ le 8 rec.logicalOffset ++ leInt 4 rec.db1 ++ leInt 4 rec.db2 ++ leInt 4 rec.db3 ++
    zeros 0x34

def modeFile : Nat := 0x816d
def modeFileSceSys : Nat := 0x8168
def modeDirUroot : Nat := 0x416d
def modeDir : Nat := 0x4168
def flagsData : Nat := 0x10
def flagsModule : Nat := 0x40
def flagsBlob : Nat := 0x20
def flagsSceSys : Nat := 0x20000
def flagsTable : Nat := 0x20010

/-- `PlannedFile::mode` -/
def PlannedFile.mode (f : PlannedFile) : Nat := if f.sceSys then modeFileSceSys else modeFile

/-- `inode_flags` -/
def PlannedFile.inodeFlags (f : PlannedFile) : Nat :=
  flagsData + (if f.module then flagsModule else flagsBlob) + (if f.sceSys then flagsSceSys else 0)

/-- The inode of a directory, the `i`-th of the plan. -/
def dirRecord (plan : Plan) (d : PlannedDir) (i : Nat) : InodeRecord :=
  let ordinary := i = 0 ∨ d.sceSys = false
  let span := plan.metadata.dirs[i]?.getD (0, 0)
  { mode := if ordinary then modeDirUroot else modeDir
    nlink := d.nlink
    flags := if ordinary then flagsData else flagsTable
    size := dirSize span.2
    logicalOffset := span.1
    db1 := -1
    db2 := d.parentInode
    db3 := d.direntOffset }

def fileRecord (f : PlannedFile) : InodeRecord :=
  { mode := f.mode
    nlink := 1
    flags := f.inodeFlags
    size := f.size
    logicalOffset := f.logicalOffset
    db1 := f.afid
    db2 := f.parentInode
    db3 := f.direntOffset }

def tableRecord (span : Nat × Nat) : InodeRecord :=
  { mode := modeFile, nlink := 1, flags := flagsTable, size := span.2, logicalOffset := span.1,
    db1 := -1, db2 := -1, db3 := -1 }

def superRootRecord (plan : Plan) : InodeRecord :=
  { mode := modeDirUroot, nlink := 1, flags := flagsTable, size := dirSize plan.metadata.superRoot.2,
    logicalOffset := plan.metadata.superRoot.1, db1 := -1, db2 := -1, db3 := -1 }

/-- The inodes in the order of the table. -/
def inodeRecords (plan : Plan) : List InodeRecord :=
  [superRootRecord plan, tableRecord plan.metadata.flt, tableRecord plan.metadata.fltApr,
      tableRecord plan.metadata.afid] ++
    plan.dirs.mapIdx (fun i d => dirRecord plan d i) ++ plan.files.map fileRecord

/-- The fields of the superblock. -/
def superblockFields (plan : Plan) (time : Time) : List (Nat × Bytes) :=
  let count := 4 + plan.dirs.length + plan.files.length
  let tableBlocks := max ((plan.metadata.inodeTable.2 + (block - 1)) / block) 1
  [(0x00, le 8 2), (0x08, le 8 20130315), (0x1A, [1]), (0x1C, le 2 0x18), (0x20, le 4 block),
    (0x28, le 8 1), (0x30, le 8 count), (0x38, le 8 plan.ndblock), (0x40, le 8 tableBlocks),
    (0x50, le 2 0), (0x52, le 2 1), (0x54, le 4 0x10), (0x58, le 8 (tableBlocks * block)),
    (0x60, le 8 (tableBlocks * block)), (0x68, (List.replicate 4 (leInt 8 time.1)).flatten),
    (0x88, (List.replicate 4 (le 4 time.2)).flatten), (0xB0, le 8 tableBlocks),
    (0xD8, le 8 (plan.metadata.inodeTable.1 / block)), (0x368, [1])]

/-- A structure's place in the region. -/
def inRegion (plan : Plan) (span : Nat × Nat) : Res String Nat := sub span.1 plan.metaBase

/-- `place` -/
def place (plan : Plan) (region : Bytes) (span : Nat × Nat) (bytes : Bytes) : Res String Bytes := do
  blit region (← inRegion plan span) bytes

/-- The loop that places the directories. -/
def placeDirs (plan : Plan) : List (PlannedDir × (Nat × Nat)) → Bytes → Res String Bytes
  | [], region => .ok region
  | (d, span) :: rest, region => do
    placeDirs plan rest (← place plan region span (direntsBytes d.dirents))

/-- `metadata_region` -/
def metadataRegion (plan : Plan) (time : Time) : Res String Bytes := do
  let region := zeros (plan.metadata.blocks * block)
  let sb ← stamp (zeros block) (superblockFields plan time)
  let region ← blit region 0 sb
  let tableOff ← inRegion plan plan.metadata.inodeTable
  let table ← slice region tableOff (tableOff + plan.metadata.inodeTable.2)
  let table ← stamp table ((inodeRecords plan).mapIdx fun i rec => (inodeOffset i, inodeBytes rec time))
  let region ← blit region tableOff table
  let region ← place plan region plan.metadata.superRoot (direntsBytes superRootDirents)
  let region ← place plan region plan.metadata.flt (fltBytes plan.fltInode)
  let region ← place plan region plan.metadata.fltApr (fltBytes plan.fltApr)
  let region ← place plan region plan.metadata.afid (plan.afidToIno.flatMap (leInt 4))
  if plan.metadata.dirs.length < plan.dirs.length then panic
  else placeDirs plan (plan.dirs.zip plan.metadata.dirs) region

/-! ## What stands next to the files -/

/-- The HMACs of a keystone, under its two keys. -/
structure KeystoneKeys where
  fingerprint : Bytes → Bytes
  sealing : Bytes → Bytes
  fingerprint_length : ∀ b, (fingerprint b).length = 32
  sealing_length : ∀ b, (sealing b).length = 32

/-- `keystone` -/
def keystone (keys : KeystoneKeys) (passcode : Text) : Bytes :=
  let head := bytes "keystone".toList ++ le 2 3 ++ [1] ++ zeros 21 ++ keys.fingerprint (bytes passcode)
  head ++ keys.sealing head

/-- `BLOCK_INFO_ENTRIES` -/
def blockInfoEntries : Nat := 32

/-- `block_info_table` -/
def blockInfoTable (plan : Plan) : Bytes :=
  let urootSum := ((plan.files.filter fun f => !f.sceSys).map (·.size)).sum
  let sub := 4 * urootSum % 0x100000
  let be := (0x27373C + (2 ^ 32 - sub)) % 0x1000000
  let value := be % 0x100 * 0x10000 + be / 0x100 % 0x100 * 0x100 + be / 0x10000
  (List.range blockInfoEntries).flatMap fun i =>
    le 4 (if i + 1 = blockInfoEntries then value else 0x00FCFF27) ++ le 4 0x00400003

/-- How the metadata region is stored. -/
inductive MetaCodec where
  | stored
  | zlib
  deriving DecidableEq, Repr

section Image

-- `zlib` is `pfsc::write_zlib`.
variable (zlib : Bytes → Except String Bytes) (keys : KeystoneKeys)

/-- `Metadata::for_codec`: what the image stores of the region. -/
def imageTail (region : Bytes) : MetaCodec → Res String Bytes
  | .stored => .ok region
  | .zlib => match zlib region with
    | .ok tail => .ok tail
    | .error e => fail e

/-- The region, of the size that was planned, as the image stores it. -/
def plannedTail (plan : Plan) (time : Time) (codec : MetaCodec) : Res String Bytes := do
  let region ← metadataRegion plan time
  if region.length ≠ plan.metadataBlocks * block then
    fail "metadata region is not of the blocks the plan fixed"
  else imageTail zlib region codec

/-! ## The image in memory -/

/-- The file's bytes; only the keystone is generated. -/
def payload (passcode : Text) (read : Text → Except String Bytes) (f : PlannedFile) : Res String Bytes :=
  if f.generated ∧ f.path = keystonePath then .ok (keystone keys passcode)
  else match read f.path with
    | .ok data => .ok data
    | .error e => fail e

/-- The loop that reads every file. -/
def payloads (passcode : Text) (read : Text → Except String Bytes) :
    List PlannedFile → Res String (List Bytes)
  | [] => .ok []
  | f :: files => do
    let data ← payload keys passcode read f
    if data.length ≠ f.size then fail (String.ofList f.path ++ " is not of the size the plan fixed")
    else return data :: (← payloads passcode read files)

/-- The loop that stores the files, in afid order. -/
def storeFiles (plan : Plan) (data : List Bytes) : List Nat → Bytes → Res String Bytes
  | [], image => .ok image
  | fi :: fis, image => do
    let f ← index plan.files fi
    let bytes ← index data fi
    if image.length < f.onDiskOffset + bytes.length then
      fail (String.ofList f.path ++ " runs past the mount")
    else storeFiles plan data fis (← blit image f.onDiskOffset bytes)

/-- `write_with`: the image. -/
def writeWith (plan : Plan) (passcode : Text) (read : Text → Except String Bytes) (time : Time)
    (codec : MetaCodec) : Res String Bytes := do
  let data ← payloads keys passcode read plan.files
  let image := zeros (wrap (plan.ndblock * block))
  let image ← storeFiles plan data plan.afidOrder image
  let table := blockInfoTable plan
  let at' := alignUp plan.dataEnd block
  if plan.metaBase < at' + table.length then
    fail "no room for the block-info table before the metadata"
  else
    let image ← blit image at' table
    let tail ← plannedTail zlib plan time codec
    let tailEnd := plan.metaBase + tail.length
    if image.length < tailEnd then fail "the metadata region runs past the mount"
    else blit (image.take (alignUp tailEnd block)) plan.metaBase tail

/-! ## The image block by block -/

/-- One file's span of the image. -/
structure Span where
  start : Nat
  stop : Nat
  /-- Its place in `plan.files`. -/
  file : Nat
  deriving DecidableEq, Repr

structure BlockSource where
  plan : Plan
  spans : List Span
  table : Bytes
  tableBlock : Nat
  /-- The region's blocks, as the image stores them. -/
  stored : List Bytes
  metaBlock : Nat
  keystone : Bytes

/-- `chunks(BLOCK)` -/
def blocksOf (l : Bytes) : List Bytes :=
  (List.range ((l.length + (block - 1)) / block)).map fun i => (l.drop (i * block)).take block

/-- The last block filled up. -/
def padLast : List Bytes → List Bytes
  | [] => []
  | [b] => [setLen b block]
  | b :: bs => b :: padLast bs

def spanOf (plan : Plan) (fi : Nat) : Res String Span := do
  let f ← index plan.files fi
  return ⟨f.onDiskOffset, f.onDiskOffset + f.size, fi⟩

def spansOf (plan : Plan) : List Nat → Res String (List Span)
  | [] => .ok []
  | fi :: fis => do
    let s ← spanOf plan fi
    return s :: (← spansOf plan fis)

namespace BlockSource

/-- `BlockSource::new_with` -/
def newWith (plan : Plan) (passcode : Text) (time : Time) (codec : MetaCodec) :
    Res String BlockSource := do
  let spans ← spansOf plan plan.afidOrder
  let tail ← plannedTail zlib plan time codec
  return {
    plan
    spans := spans.insertionSort fun a b => a.start ≤ b.start
    table := blockInfoTable plan
    tableBlock := alignUp plan.dataEnd block / block
    stored := padLast (blocksOf tail)
    metaBlock := plan.metaBase / block
    keystone := Inner.keystone keys passcode }

end BlockSource

end Image

namespace BlockSource

/-- `disk_blocks` -/
def diskBlocks (s : BlockSource) : Nat := s.metaBlock + s.stored.length

end BlockSource

/-- `partition_point` of a list whose first elements satisfy `p` and the others do not. -/
def partitionPoint {α : Type} (p : α → Bool) (l : List α) : Nat := (l.takeWhile p).length

/-- `BlockSource::block_spans` -/
def BlockSource.blockSpans (s : BlockSource) (index : Nat) : List Span :=
  let lo := index * block
  let start := partitionPoint (fun span => span.stop ≤ lo) s.spans
  let stop := partitionPoint (fun span => span.start < lo + block) s.spans
  (s.spans.drop start).take (max stop start - start)

/-- A ranged read of a source file. -/
abbrev RangeRead := Text → Nat → Nat → Except String Bytes

section Block

variable (s : BlockSource) (read : RangeRead)

/-- The bytes of a file that are wanted. -/
def spanBytes (f : PlannedFile) (offset want : Nat) : Res String Bytes :=
  if f.generated ∧ f.path = keystonePath then
    if offset + want ≤ s.keystone.length then .ok ((s.keystone.drop offset).take want)
    else fail (String.ofList f.path ++ " is shorter than the plan fixed")
  else match read f.path offset want with
    | .error e => fail e
    | .ok bytes =>
      if bytes.length ≠ want then fail (String.ofList f.path ++ " gave another number of bytes")
      else .ok bytes

/-- The loop of `block` over the spans from the partition point on; `buf` is the block so far. -/
def fillSpans (lo hi : Nat) : List Span → Bytes → Res String Unit × Bytes
  | [], buf => (.ok (), buf)
  | span :: spans, buf =>
    if hi ≤ span.start then (.ok (), buf)
    else if min span.stop hi ≤ max span.start lo then fillSpans lo hi spans buf
    else
      let start := max span.start lo
      match (do
        let f ← index s.plan.files span.file
        let bytes ← spanBytes s read f (start - span.start) (min span.stop hi - start)
        blit buf (start - lo) bytes : Res String Bytes) with
      | .error e => (.error e, buf)
      | .ok buf => fillSpans lo hi spans buf

/-- `BlockSource::block`: what it returns, and the buffer it leaves. -/
def BlockSource.block (index : Nat) (buf : Bytes) : Res String Bytes × Bytes :=
  if s.diskBlocks ≤ index then (fail "the block is past the image's", buf)
  else
    let buf := zeros buf.length
    if s.metaBlock ≤ index then
      match s.stored[index - s.metaBlock]? with
      | some b => (.ok b, buf)
      | none => (fail "the metadata region has no such block", buf)
    else if index = s.tableBlock then
      let len := min s.table.length Inner.block
      match (blit buf 0 (s.table.take len) : Res String Bytes) with
      | .ok buf => (.ok buf, buf)
      | .error e => (.error e, buf)
    else
      let lo := index * Inner.block
      let hi := min ((index + 1) * Inner.block) s.plan.dataEnd
      if hi ≤ lo then (.ok buf, buf)
      else
        match fillSpans s read lo hi
            (s.spans.drop (partitionPoint (fun span => span.stop ≤ lo) s.spans)) buf with
        | (.ok _, buf) => (.ok buf, buf)
        | (.error e, buf) => (.error e, buf)

/-- Blocks asked for one after the other, from one source. -/
def BlockSource.blocks : List Nat → Bytes → List (Res String Bytes)
  | [], _ => []
  | i :: is, buf =>
    let (r, buf) := s.block read i buf
    r :: blocks is buf

end Block

end Ps5Upload.Inner
