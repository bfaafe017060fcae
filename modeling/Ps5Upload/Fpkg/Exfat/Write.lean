import Ps5Upload.Fpkg.Exfat.Plan

/-!
# exFAT: writing an image

`boot_region`, `entry_set`, `directory_bytes` and `write_exfat_after` of
`ps5upload-fpkg/src/exfat_write.rs`.  The image is written front to back; a run of the writer is the
bytes it has given out, the reads of the source it has asked for, and the error it stopped at, if any.
-/

namespace Ps5Upload.Exfat

open ByteFile Checked Blocks

def zeros (n : Nat) : Bytes := List.replicate n 0

@[simp] theorem length_zeros (n : Nat) : (zeros n).length = n := List.length_replicate

/-! ## The boot region -/

def rotr32 (x : UInt32) : UInt32 := (x >>> 1) ||| (x <<< 31)

/-- The checksum of the boot region's first eleven sectors; three bytes change while a volume is in
use and are left out. -/
def bootChecksum (sectors : Bytes) : UInt32 :=
  (sectors.zipIdx.filter fun p => p.2 ≠ 106 && p.2 ≠ 107 && p.2 ≠ 112).foldl
    (fun sum p => rotr32 sum + p.1.toUInt32) 0

/-- The boot sector, field by field. -/
def bootSector (l : Layout) (rootCluster usedClusters : Nat) : Bytes :=
  [0xEB, 0x76, 0x90] ++ "EXFAT   ".toUTF8.toList ++ zeros 61 ++
  le 8 (l.heapSectors + l.clusterCount * (l.cluster / sectorBytes)) ++
  le 4 fatOffsetSectors ++ le 4 l.fatSectors ++ le 4 l.heapSectors ++ le 4 l.clusterCount ++
  le 4 rootCluster ++
  -- a serial that follows from the layout
  le 4 (l.clusterCount % 2 ^ 32 ^^^ l.cluster * 2 ^ 4 % 2 ^ 32 ^^^ 0x50555035) ++
  le 2 0x0100 ++ zeros 2 ++ le 1 (Nat.log2 sectorBytes) ++ le 1 (Nat.log2 (l.cluster / sectorBytes)) ++
  [1, 0x80] ++ le 1 (min (usedClusters * 100 / l.clusterCount) 100) ++ zeros 397 ++ [0x55, 0xAA]

/-- Twelve sectors: the boot sector, eight extended ones, two reserved, and the checksum. -/
def bootRegion (l : Layout) (rootCluster usedClusters : Nat) : Bytes :=
  let r := bootSector l rootCluster usedClusters ++
    (List.replicate 8 (zeros 508 ++ le 4 0xAA550000)).flatten ++ zeros 1024
  r ++ (List.replicate 128 (le 4 (bootChecksum r).toNat)).flatten

/-! ## Directory entries -/

def checksum16 (sum : UInt16) (b : UInt8) : UInt16 := ((sum >>> 1) ||| (sum <<< 15)) + b.toUInt16

def tableChecksum (bytes : Bytes) : UInt32 :=
  bytes.foldl (fun s b => rotr32 s + b.toUInt32) 0

def nameHash (upcase : Bytes) (units : List Nat) : UInt16 :=
  (units.flatMap fun u => le 2 (upcaseUnit upcase u)).foldl checksum16 0

/-- 2024-01-01 00:00:00, in the directory entry's packed form. -/
def fixedTimestamp : Nat := 44 * 2 ^ 25 + 2 ^ 21 + 2 ^ 16

def utcOffset : UInt8 := 0x80

/-- The first record of a set; the set's checksum is a field of it. -/
def fileRecord (isDir : Bool) (nameEntries sum : Nat) : Bytes :=
  [0x85] ++ le 1 (1 + nameEntries) ++ le 2 sum ++ le 2 (if isDir then 0x10 else 0x20) ++ zeros 2 ++
  le 4 fixedTimestamp ++ le 4 fixedTimestamp ++ le 4 fixedTimestamp ++ zeros 2 ++
  [utcOffset, utcOffset, utcOffset] ++ zeros 7

/-- The second: the name's length and hash, the size, the first cluster.  The chain is real, so
NoFatChain stays clear. -/
def streamRecord (upcase : Bytes) (n : Node) : Bytes :=
  [0xC0, 0x01, 0] ++ le 1 n.units.length ++ le 2 (nameHash upcase n.units).toNat ++ zeros 2 ++
  le 8 n.size ++ zeros 4 ++ le 4 n.firstCluster ++ le 8 n.size

/-- A record of up to fifteen units of the name. -/
def nameRecord (units : List Nat) : Bytes :=
  [0xC1, 0] ++ units.flatMap (le 2) ++ zeros (30 - 2 * units.length)

/-- The units of a name, fifteen at a time. -/
def nameParts (units : List Nat) : List (List Nat) :=
  (List.range (units.length ⌈/⌉ nameUnitsPerEntry)).map fun i =>
    (units.drop (nameUnitsPerEntry * i)).take nameUnitsPerEntry

/-- The records of a set after the first. -/
def otherRecords (upcase : Bytes) (n : Node) : Bytes :=
  streamRecord upcase n ++ (nameParts n.units).flatMap nameRecord

/-- The checksum of a set, which leaves its own two bytes out. -/
def setChecksum (set : Bytes) : UInt16 :=
  (set.zipIdx.filter fun p => p.2 ≠ 2 && p.2 ≠ 3).foldl (fun sum p => checksum16 sum p.1) 0

/-- One file or folder's directory entries: File, Stream Extension, then its name. -/
def entrySet (upcase : Bytes) (n : Node) : Bytes :=
  let nameEntries := n.units.length ⌈/⌉ nameUnitsPerEntry
  let sum := setChecksum (fileRecord n.isDir nameEntries 0 ++ otherRecords upcase n)
  fileRecord n.isDir nameEntries sum.toNat ++ otherRecords upcase n

/-- The records the root carries before its entries: the bitmap's and the up-case table's. -/
def rootRecords (l : Layout) : Bytes :=
  [0x81] ++ zeros 19 ++ le 4 firstHeapCluster ++ le 8 l.bitmapBytes ++
  ([0x82] ++ zeros 3 ++ le 4 (tableChecksum l.upcase).toNat ++ zeros 12 ++ le 4 l.upcaseCluster ++
    le 8 l.upcase.length)

/-- A directory's clusters: its entries, the rest zero. -/
def directoryBytes (t : Tree) (dir : Nat) (l : Layout) : Bytes :=
  setLen ((if dir = 0 then rootRecords l else []) ++
    (kids t dir).flatMap fun c => entrySet l.upcase (nodeAt t c)) (nodeAt t dir).size

/-! ## The table and the bitmap -/

/-- The slots of one allocation: each cluster leads to the next, the last ends the chain. -/
def chain (first n : Nat) : Bytes :=
  (List.range' first n).flatMap fun c => le 4 (if c + 1 = first + n then fatEnd else c + 1)

/-- The slots of the nodes at some places, one allocation after another. -/
def nodeChains (t : Tree) : List Nat → Nat → Bytes
  | [], _ => []
  | i :: order, next =>
    (if 0 < (nodeAt t i).clusters then chain next (nodeAt t i).clusters else []) ++
      nodeChains t order (next + (nodeAt t i).clusters)

/-- The table's slots in use: two reserved entries, then a chain for every allocation. -/
def fatSlotBytes (p : ExfatPlan) : Bytes :=
  let upcaseClusters := p.l.upcase.length ⌈/⌉ p.l.cluster
  le 4 0xFFFFFFF8 ++ le 4 fatEnd ++ chain firstHeapCluster p.l.bitmapClusters ++
  chain (firstHeapCluster + p.l.bitmapClusters) upcaseClusters ++
  nodeChains p.tree (p.l.dirs ++ p.l.files) (firstHeapCluster + p.l.bitmapClusters + upcaseClusters)

/-- One bit for every cluster, set for everything allocated. -/
def setBits (used : Nat) (bitmap : Bytes) : Bytes :=
  (List.range used).foldl (fun b bit => b.modify (bit / 8) (· ||| UInt8.ofNat (2 ^ (bit % 8)))) bitmap

def bitmap (p : ExfatPlan) : Bytes := setBits p.used (zeros (p.l.bitmapClusters * p.l.cluster))

/-- Everything in front of the files' data. -/
def imageHead (p : ExfatPlan) : Bytes :=
  let boot := bootRegion p.l (nodeAt p.tree 0).firstCluster p.used
  boot ++ boot ++ zeros ((fatOffsetSectors - 24) * sectorBytes) ++
  (fatSlotBytes p ++
    zeros (p.l.heapSectors * sectorBytes - fatOffsetSectors * sectorBytes - (fatSlotBytes p).length)) ++
  bitmap p ++
  (p.l.upcase ++
    zeros ((p.l.upcase.length ⌈/⌉ p.l.cluster) * p.l.cluster - p.l.upcase.length)) ++
  p.l.dirs.flatMap fun d => directoryBytes p.tree d p.l

/-! ## The writer -/

/-- A source: up to `len` bytes at an offset of a file. -/
abbrev Source := Text → Nat → Nat → Except String Bytes

/-- A read the writer asks for: the file by its place in the tree, an offset and a length. -/
structure ReadCall where
  file : Nat
  offset : Nat
  len : Nat
  deriving DecidableEq, Repr

/-- What a run of the writer has done. -/
structure Run where
  out : Bytes
  reads : List ReadCall
  failed : Option String

def Run.wrote (out : Bytes) : Run := ⟨out, [], none⟩

/-- One run, and another after it unless it failed. -/
def Run.andThen (r s : Run) : Run :=
  if r.failed.isSome then r else ⟨r.out ++ s.out, r.reads ++ s.reads, s.failed⟩

def copyChunk : Nat := 1024 * 1024

/-- A file's data from offset `at_` on, `turns` chunks at most. -/
def copyFile (source : Source) (file : Nat) (src : Text) (size : Nat) : Nat → Nat → Run
  | 0, _ => .wrote []
  | turns + 1, at_ =>
    if size ≤ at_ then .wrote []
    else
      let want := min (size - at_) copyChunk
      let call : ReadCall := ⟨file, at_, want⟩
      match source src at_ want with
      | .error e => ⟨[], [call], some e⟩
      | .ok chunk =>
        if chunk.length ≠ want then
          ⟨[], [call], some
            s!"{text src} ended at {at_ + chunk.length} of its {size} bytes while it was being read"⟩
        else (Run.mk chunk [call] none).andThen (copyFile source file src size turns (at_ + want))

/-- Where a node's clusters start in the image. -/
def startOf (p : ExfatPlan) (i : Nat) : Nat :=
  p.l.heapSectors * sectorBytes + ((nodeAt p.tree i).firstCluster - firstHeapCluster) * p.l.cluster

/-- A file: skipped as zeros when its clusters end before `skip`, else copied and filled up. -/
def writeFile (p : ExfatPlan) (source : Source) (skip : Nat) (f : Nat) : Run :=
  let n := nodeAt p.tree f
  if 0 < skip ∧ 0 < n.size ∧ startOf p f + n.clusters * p.l.cluster ≤ skip then
    .wrote (zeros (n.clusters * p.l.cluster))
  else (copyFile source f n.src n.size (n.size ⌈/⌉ copyChunk) 0).andThen
    (.wrote (zeros (n.clusters * p.l.cluster - n.size)))

def writeFiles (p : ExfatPlan) (source : Source) (skip : Nat) : List Nat → Run
  | [] => .wrote []
  | f :: fs => (writeFile p source skip f).andThen (writeFiles p source skip fs)

/-- The image for a writer that drops its first `skip` bytes: a file that ends before them is not
read. -/
def writeExfatAfter (p : ExfatPlan) (source : Source) (skip : Nat) : Run :=
  ((Run.wrote (imageHead p)).andThen (writeFiles p source skip p.l.files)).andThen
    (.wrote (zeros ((p.l.clusterCount - p.used) * p.l.cluster)))

/-- The planned image, front to back. -/
def writeExfat (p : ExfatPlan) (source : Source) : Run := writeExfatAfter p source 0

end Ps5Upload.Exfat
