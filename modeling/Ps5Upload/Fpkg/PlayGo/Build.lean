import Ps5Upload.Fpkg.Inner.Flt
import Ps5Upload.Lib.Blocks
import Ps5Upload.Lib.Stamps

/-!
# The PlayGo tables

`playgo.rs`: the data of the mount image is cut into slices, a chunk for each, and three tables say
which bytes belong to which chunk.

* `slices`, `chunksOf` — the mchunks and who owns them;
* `fileMap` — the chunk where each file starts, by the hashes of the paths;
* `chunkDat`, `hashTable`, `ficm`, `build` — the tables.
-/

namespace Ps5Upload.PlayGo

open Blocks ByteFile Checked Stamps Utf8

/-- `BLOCK` -/
def block : Nat := 0x10000

/-- `MAX_CHUNKS` -/
def maxChunks : Nat := 255

/-- A file of the mount image: `(path, offset, size)`. -/
structure ImageFile where
  path : Text
  offset : Nat
  size : Nat
  deriving DecidableEq, Repr

/-- `PlayGo` -/
structure Tables where
  chunkDat : Bytes
  hashTable : Bytes
  ficm : Bytes
  /-- The mchunk ids of every chunk. -/
  chunks : List (List Nat)
  /-- The offset and the size of every mchunk. -/
  mchunks : List (Nat × Nat)
  deriving DecidableEq, Repr

/-! ## Chunks and mchunks -/

/-- Where the data ends, on a block and inside the image. -/
def dataEnd (files : List ImageFile) (cntOffset : Nat) : Nat :=
  min (max (alignUp ((files.map fun f => f.offset + f.size).max?.getD 0) block) block)
    (max cntOffset block)

/-- How many units the `k`-th of `n` slices has. -/
def sliceLen (units n k : Nat) : Nat := units / n + if k < units % n then 1 else 0

/-- The loop over the slices from the `k`-th on, which starts at unit `at'`. -/
def slices (units n : Nat) : Nat → Nat → Nat → List (Nat × Nat)
  | 0, _, _ => []
  | left + 1, k, at' =>
    (at' * block, sliceLen units n k * block) :: slices units n left (k + 1) (at' + sliceLen units n k)

/-- How many chunks there are. -/
def chunkCount (units wanted : Nat) : Nat := max (min wanted units) 1

/-- `mchunks` -/
def mchunksOf (n units dataEnd cntOffset : Nat) : List (Nat × Nat) :=
  if n = 1 then [(0, cntOffset)]
  else slices units n n 0 0 ++ if dataEnd < cntOffset then [(dataEnd, cntOffset - dataEnd)] else []

/-- `chunks`: the rest of the image goes to the first one. -/
def chunksOf (n dataEnd cntOffset : Nat) : List (List Nat) :=
  if n = 1 then [[0]]
  else
    let chunks := (List.range n).map fun k => [k]
    if dataEnd < cntOffset then chunks.modify 0 (· ++ [n]) else chunks

/-- The chunk of a file that starts at `at'`. -/
def chunkAt (n : Nat) (mchunks : List (Nat × Nat)) (at' : Nat) : Nat :=
  if n = 1 then 0
  else ((mchunks.take n).findIdx? fun m => at' < m.1 + m.2).getD 0

/-- The hash of each path with the chunk where the file starts, by the hashes. -/
def fileMap (n : Nat) (mchunks : List (Nat × Nat)) (files : List ImageFile) : List (Nat × Nat) :=
  (files.map fun f => ((Inner.hashPath f.path).toNat, chunkAt n mchunks f.offset)).insertionSort
    fun a b => a.1 ≤ b.1

/-! ## `playgo-chunk.dat` -/

/-- Where each of the lengths starts, one behind the other. -/
def running : List Nat → Nat → List Nat
  | [], _ => []
  | l :: ls, at' => at' :: running ls (at' + l)

/-- The loop over the sizes: where each table goes, and where the last one ends. -/
def tableOffsets : List Nat → Nat → List Nat × Nat
  | [], at' => ([], at')
  | size :: sizes, at' =>
    let (offsets, total) := tableOffsets sizes (alignUp (at' + size) 16)
    (at' :: offsets, total)

/-- `Chunk #k` -/
def chunkName (k : Nat) : Bytes := bytes ("Chunk #".toList ++ Nat.toDigits 10 k) ++ [0]

/-- The labels of the chunks, and where each chunk's starts. -/
def chunkLabels (n : Nat) (labels : Bool) : Bytes × List Nat :=
  if labels then
    let names := (List.range n).map chunkName
    (names.flatten, running (names.map List.length) 0)
  else ([0], List.replicate n 0)

def scenarioLabel (labels : Bool) : Bytes := if labels then bytes "Scenario #0".toList ++ [0] else [0]

/-- The sizes of the tables, in the order of the header. -/
def tableSizes (n listed labelled mchunks scenario : Nat) : List Nat :=
  [n * 0x20, listed * 4, labelled, mchunks * 0x10, 0x20, n * 2, scenario]

/-- The fields of the header. -/
def headerFields (n total mchunks : Nat) (contentId : Bytes) : List (Nat × Bytes) :=
  [(0x00, bytes "plgx".toList), (0x04, le 2 0x1000), (0x08, le 2 1), (0x0A, le 2 n), (0x0E, le 2 1),
    (0x10, le 4 total), (0x16, le 2 1), (0x1E, [0x85]), (0x20, le 2 mchunks), (0x24, [0x01]),
    (0x30, [0x11]), (0x38, List.replicate 8 0xFF), (0x40, contentId)]

/-- The offset and the size of the `i`-th table, in the header. -/
def tableFields (i : Nat) (table : Nat × Nat) : List (Nat × Bytes) :=
  [(0xC0 + i * 8, le 4 table.1), (0xC4 + i * 8, le 4 table.2)]

/-- The record of a chunk at `r`. -/
def chunkFields (r owned listAt labelAt : Nat) : List (Nat × Bytes) :=
  [(r, [0x80]), (r + 2, [0x03]), (r + 4, le 4 owned), (r + 8, [0x11]), (r + 0x10, le 8 (2 ^ 64 - 1)),
    (r + 0x18, le 4 listAt), (r + 0x1C, le 4 labelAt)]

/-- The record of an mchunk at `r`. -/
def mchunkFields (r : Nat) (m : Nat × Nat) : List (Nat × Bytes) := [(r, le 8 m.1), (r + 8, le 8 m.2)]

/-- One scenario, of every chunk, the first one initial. -/
def scenarioFields (s n : Nat) : List (Nat × Bytes) :=
  [(s, [0x21]), (s + 0x14, le 2 1), (s + 0x16, le 2 n)]

/-- `chunk_dat` -/
def chunkDat (contentId : Bytes) (chunks : List (List Nat)) (mchunks : List (Nat × Nat)) (labels : Bool) :
    Res String Bytes :=
  let n := chunks.length
  let (names, labelAt) := chunkLabels n labels
  let scenario := scenarioLabel labels
  let list := chunks.flatten
  let sizes := tableSizes n list.length names.length mchunks.length scenario.length
  let (offsets, total) := tableOffsets sizes 0x100
  let off (i : Nat) := offsets[i]?.getD 0
  let listAt := running (chunks.map fun owned => owned.length * 4) 0
  stamp (List.replicate total 0)
    (headerFields n total mchunks.length contentId ++
      ((offsets.zip sizes).mapIdx tableFields).flatten ++
      (chunks.mapIdx fun k owned =>
        chunkFields (off 0 + k * 0x20) owned.length (listAt[k]?.getD 0) (labelAt[k]?.getD 0)).flatten ++
      (list.mapIdx fun i m => [(off 1 + i * 4, le 4 m)]).flatten ++
      [(off 2, names)] ++
      (mchunks.mapIdx fun i m => mchunkFields (off 3 + i * 0x10) m).flatten ++
      scenarioFields (off 4) n ++
      ((List.range n).mapIdx fun k _ => [(off 5 + k * 2, le 2 k)]).flatten ++
      [(off 6, scenario)])

/-! ## The other tables -/

/-- `hash_table` -/
def hashTable (entries : List (Nat × Nat)) : Bytes :=
  le 4 1 ++ le 4 0x08000000 ++ le 4 0x38 ++ le 4 (entries.length * 8) ++ List.replicate 8 0 ++
    [0x7F, 0x46, 0x4C, 0x54] ++ List.replicate 8 0 ++ le 4 entries.length ++ Inner.headerSeed ++
    entries.flatMap fun e => le 8 e.1

/-- `ficm` -/
def ficm (entries : List (Nat × Nat)) : Bytes :=
  le 4 1 ++ List.replicate 4 0 ++ le 4 0x10 ++ le 4 (entries.length * 2) ++
    entries.flatMap fun e => le 2 e.2

/-- `build` -/
def build (contentId : Text) (files : List ImageFile) (cntOffset wanted : Nat) : Res String Tables :=
  if size contentId ≠ 36 then fail "content id must be 36 characters"
  else if wanted = 0 ∨ maxChunks < wanted then fail "PlayGo chunk count must be 1 through 255"
  else do
    let stop := dataEnd files cntOffset
    let units := stop / block
    let n := chunkCount units wanted
    let mchunks := mchunksOf n units stop cntOffset
    let chunks := chunksOf n stop cntOffset
    let entries := fileMap n mchunks files
    let chunkDat ← chunkDat (bytes contentId) chunks mchunks (1 < n)
    return ⟨chunkDat, hashTable entries, ficm entries, chunks, mchunks⟩

end Ps5Upload.PlayGo
