import Ps5Upload.Lib.Blocks
import Ps5Upload.Lib.Bytes
import Ps5Upload.Lib.Stamps

/-!
# PFSC containers

`pfsc.rs`: a payload in blocks, each verbatim or deflated, behind a table of their boundaries whose words
hold an offset together with flags or a size hint.  SHA3-256, the deflater and the inflater are
parameters.

* `writeBlock`, `write` — the writer;
* `parse` — the tables of a container, and its blocks as they are stored;
* `decompress` — the payload again.
-/

namespace Ps5Upload.Pfsc

open Blocks ByteFile Checked Stamps

/-! ## Constants -/

/-- `MAGIC` -/
def magic : Nat := 0x43534650

/-- `BLOCK` -/
def blockLen : Nat := 0x40000

/-- `SUB_CHUNK` -/
def subChunk : Nat := 0x20000

/-- `OFF1`: where the sections start. -/
def off1 : Nat := 0x48 + 7 * 16

def encodeParam : Nat := 0x0802

/-- `GIT_HASH` -/
def gitHash : Bytes :=
  [0x23, 0x98, 0x7d, 0x16, 0xc9, 0x20, 0x9a, 0xc7, 0x28, 0x37, 0x19, 0x32, 0x7e, 0x0f, 0x50, 0x6b,
    0xbc, 0xf4, 0x59, 0xf4]

/-- `SHUFFLE_TABLE` -/
def shuffleTable : Bytes :=
  [0x04, 0x04, 0x00, 0x00, 0x00, 0x00, 0x00, 0x00, 0x02, 0x02, 0x04, 0x00, 0x00, 0x00, 0x00, 0x00,
    0x01, 0x01, 0x06, 0x00, 0x00, 0x00, 0x00, 0x00, 0x01, 0x01, 0x01, 0x01, 0x01, 0x01, 0x01, 0x01,
    0x08, 0x02, 0x02, 0x04, 0x00, 0x00, 0x00, 0x00, 0x01, 0x01, 0x06, 0x02, 0x02, 0x04, 0x00, 0x00,
    0x01, 0x01, 0x06, 0x01, 0x01, 0x06, 0x00, 0x00, 0x04, 0x04, 0x04, 0x04, 0x00, 0x00, 0x00, 0x00]

inductive Codec where
  | stored
  | zlib
  deriving DecidableEq, Repr

/-- `algorithm` -/
def Codec.algorithm : Codec → Nat
  | stored => 2
  | zlib => 1

/-- The parameters at `0x10`: the algorithm, the level and the window. -/
def param10 (codec : Codec) : Nat := codec.algorithm ||| 7 <<< 8 ||| 18 <<< 16

/-- What the layout records of a block. -/
structure BlockInfo where
  payloadAt : Nat
  payloadLen : Nat
  firstChunkLen : Nat
  uncompressedLen : Nat
  compressed : Bool
  deriving DecidableEq, Repr

/-- A digest of 32 bytes. -/
abbrev Digest := {d : Bytes // d.length = 32}

section Codecs

variable (sha3 : Bytes → Digest) (deflate : Bytes → Except String Bytes)
  (readExact : Bytes → Nat → Except String Bytes)

/-! ## Writing -/

/-- One running-sum pair over bytes: the sum, and the sum of the sums from a start on. -/
def runningSums (bytes : Bytes) (start : Nat) : Nat × Nat :=
  bytes.foldl (fun s b => ((s.1 + b.toNat) % 2 ^ 64, (s.2 + (s.1 + b.toNat) % 2 ^ 64) % 2 ^ 64)) (0, start)

/-- `block_signature` -/
def blockSignature (block : Bytes) : Bytes :=
  let whole := runningSums (block.take 0x1000000) (min block.length 0x1000000)
  let window := runningSums (block.take 0x10000) 0
  let weighted := if block.length < 0x10000 then
      (window.2 + window.1 * (0x10000 - block.length)) % 2 ^ 64
    else window.2
  le 8 (((weighted <<< 25) % 2 ^ 64) ^^^ window.1) ++
    le 8 (((whole.2 &&& 0xFFFFFFFF) <<< 32) ||| (whole.1 &&& 0xFFFFFFFF))

/-- `file_digest` -/
def fileDigest (blockSize param0c param10 logicalSize : Nat) (shuffle boundaries digests : Bytes) : Digest :=
  sha3 (le 4 1 ++ le 4 blockSize ++ le 4 param0c ++ List.replicate 4 0 ++ le 8 param10 ++
    le 8 logicalSize ++ shuffle ++ boundaries ++ digests)

/-- The deflated bytes of a block, where they are shorter. -/
def encode (codec : Codec) (block : Bytes) : Res String (Option Bytes) :=
  match codec with
  | .stored => .ok none
  | .zlib =>
    match deflate block with
    | .ok bytes => .ok (if bytes.length < block.length then some bytes else none)
    | .error e => fail e

/-- A block as it is stored. -/
def storedBytes (block : Bytes) (encoded : Option Bytes) : Bytes := encoded.getD block

/-- A verbatim block is flagged as a raw copy. -/
def flagsOf (block : Bytes) (encoded : Option Bytes) : Nat :=
  if encoded.isSome then 0 else 0x0C ||| if subChunk < block.length then 0xC0 else 0

def firstChunkOf (block : Bytes) (encoded : Option Bytes) : Nat :=
  if encoded.isSome ∨ subChunk < block.length then min (storedBytes block encoded).length subChunk
  else block.length

/-- The length of the first chunk less one. -/
def hintOf (block : Bytes) (encoded : Option Bytes) : Nat := (firstChunkOf block encoded - 1) &&& 0x1FFFF

/-- A boundary entry: two words. -/
def entryBytes (comp uncomp flags hint : Nat) : Bytes :=
  le 8 (comp ||| flags <<< 48) ++ le 8 (uncomp ||| hint <<< 44)

/-- What the loop over the blocks has written. -/
structure Writing where
  out : Bytes
  boundaries : Bytes
  digests : Bytes
  signatures : Bytes
  comp : Nat
  uncomp : Nat
  blocks : List BlockInfo

/-- One turn: the tables are filled in order, and the payload goes straight to its place. -/
def writeBlock (codec : Codec) (off7 : Nat) (s : Writing) (block : Bytes) : Res String Writing := do
  let encoded ← encode deflate codec block
  let stored := storedBytes block encoded
  let out ← blit s.out (off7 + s.comp) stored
  return {
    out
    boundaries := s.boundaries ++ entryBytes s.comp s.uncomp (flagsOf block encoded) (hintOf block encoded)
    digests := s.digests ++ (sha3 block).1
    signatures := s.signatures ++ blockSignature block
    comp := s.comp + stored.length
    uncomp := s.uncomp + block.length
    blocks := s.blocks ++ [⟨s.comp, stored.length, firstChunkOf block encoded, block.length,
      encoded.isSome⟩] }

def writeBlocks (codec : Codec) (off7 : Nat) : List Bytes → Writing → Res String Writing
  | [], s => .ok s
  | block :: blocks, s => do writeBlocks codec off7 blocks (← writeBlock sha3 deflate codec off7 s block)

/-- `block_count` -/
def blockCount (len : Nat) : Nat := max ((len + (blockLen - 1)) / blockLen) 1

/-- The blocks of a payload. -/
def payloadBlocks (payload : Bytes) : List Bytes :=
  (List.range (blockCount payload.length)).map fun i => (payload.drop (i * blockLen)).take blockLen

/-- Where the sections are, for a number of blocks. -/
structure Offsets where
  off2 : Nat
  off3 : Nat
  off4 : Nat
  off5 : Nat
  off6 : Nat
  off7 : Nat

/-- The sections one behind the other, and the payloads on a boundary of their own. -/
def offsets (count : Nat) : Offsets :=
  let off2 := alignUp (off1 + gitHash.length) 8
  let off3 := alignUp (off2 + shuffleTable.length) 8
  let off4 := alignUp (off3 + (count + 1) * 16) 8
  let off5 := alignUp (off4 + count * 32) 8
  let off6 := alignUp (off5 + count * 16) 8
  ⟨off2, off3, off4, off5, off6, alignUp off6 0x400⟩

/-- `put_dir_entry` -/
def dirEntry (index id offset size : Nat) : List (Nat × Bytes) :=
  let p := 0x48 + index * 16
  [(p, le 2 id), (p + 2, le 4 offset), (p + 6, le 2 (offset >>> 32)), (p + 10, le 4 size),
    (p + 14, le 2 (size >>> 32))]

/-- The directory: the ids, the offsets and the sizes. -/
def directory (count comp : Nat) : List (Nat × Nat × Nat) :=
  let o := offsets count
  [(1, off1, gitHash.length), (2, o.off2, shuffleTable.length), (3, o.off3, (count + 1) * 16),
    (4, o.off4, count * 32), (5, o.off5, count * 16), (6, o.off6, 0), (7, o.off7, comp)]

/-- The fields of the header in front of the digest. -/
def headerFields (codec : Codec) (len total : Nat) : List (Nat × Bytes) :=
  [(0, le 4 magic), (4, le 2 3), (6, le 2 7), (8, le 4 blockLen), (12, le 4 encodeParam),
    (16, le 8 (param10 codec)), (24, le 8 len), (32, le 8 total)]

structure Written where
  container : Bytes
  blocks : List BlockInfo

/-- `write` -/
def write (payload : Bytes) (codec : Codec) : Res String Written := do
  let count := blockCount payload.length
  let o := offsets count
  let s ← writeBlocks sha3 deflate codec o.off7 (payloadBlocks payload)
    ⟨List.replicate (o.off7 + max payload.length 1) 0, [], [], [], 0, 0, []⟩
  -- The totals close the boundary table, without flags or hint.
  let boundaries := s.boundaries ++ (le 8 s.comp ++ le 8 payload.length)
  let total := o.off7 + s.comp
  let digest := fileDigest sha3 blockLen encodeParam (param10 codec) payload.length shuffleTable boundaries
    s.digests
  let container ← stamp (s.out.take total)
    (headerFields codec payload.length total ++
      ((directory count s.comp).mapIdx fun i e => dirEntry i e.1 e.2.1 e.2.2).flatten ++
      [(off1, gitHash), (o.off2, shuffleTable), (o.off3, boundaries), (o.off4, s.digests),
        (o.off5, s.signatures), (0x28, digest.1)])
  return ⟨container, s.blocks⟩

/-! ## Reading -/

/-- `Container` -/
structure Container where
  version : Nat
  algorithm : Nat
  blockSize : Nat
  logicalSize : Nat
  /-- Flags, length of the first chunk, stored length and logical length. -/
  blocks : List (Nat × Nat × Nat × Nat)
  payloads : List Bytes
  allStored : Bool
  digestOk : Bool

/-- `le16`, `le32` and `le64` -/
def leField (c : Bytes) (at' width : Nat) : Res String Nat :=
  if at' + width ≤ c.length then .ok (leAt c at' width) else panic

/-- One entry of the directory. -/
def readDirEntry (c : Bytes) (i : Nat) : Res String (Nat × Nat × Nat) := do
  let p := 0x48 + i * 16
  let id ← leField c p 2
  let offLow ← leField c (p + 2) 4
  let offHigh ← leField c (p + 6) 2
  let sizeLow ← leField c (p + 10) 4
  let sizeHigh ← leField c (p + 14) 2
  return (id, offLow ||| offHigh <<< 32, sizeLow ||| sizeHigh <<< 32)

def findSection (dir : List (Nat × Nat × Nat)) (id : Nat) : Option (Nat × Nat) :=
  (dir.find? fun e => e.1 = id).map Prod.snd

/-- The low 44 bits, which are the offset. -/
def low44 (n : Nat) : Nat := n &&& 0xFFFFFFFFFFF

/-- One turn of the loop over the blocks: what the boundaries say, and the stored bytes. -/
def readBlock (c : Bytes) (off3 off7 i : Nat) : Res String ((Nat × Nat × Nat × Nat) × Bytes) := do
  let first ← leField c (off3 + i * 16) 8
  let second ← leField c (off3 + i * 16 + 8) 8
  let nextFirst ← leField c (off3 + (i + 1) * 16) 8
  let nextSecond ← leField c (off3 + (i + 1) * 16 + 8) 8
  let payloadLen ← sub (low44 nextFirst) (low44 first)
  let logicalLen ← sub (low44 nextSecond) (low44 second)
  let hint := ((second >>> 44) &&& 0x1FFFF) + 1
  let at' := off7 + low44 first
  return ((first >>> 48, hint, payloadLen, logicalLen), (c.drop at').take payloadLen)

/-- `parse` -/
def parse (c : Bytes) : Res String Container := do
  if c.length < off1 ∨ leAt c 0 4 ≠ magic then fail "not a PFSC container"
  else
    let version ← leField c 4 2
    let sections ← leField c 6 2
    let blockSize ← leField c 8 4
    let algorithm ← leField c 0x10 1
    let param0c ← leField c 0x0C 4
    let param10 ← leField c 0x10 8
    let logicalSize ← leField c 0x18 8
    let dir ← collect (readDirEntry c) (List.range sections)
    match findSection dir 3, findSection dir 4, findSection dir 7 with
    | none, _, _ => fail "no boundary table"
    | _, none, _ => fail "no block digests"
    | _, _, none => fail "no block data"
    | some (off3, sec3), some (off4, sec4), some (off7, _) =>
      let (off2, sec2) := (findSection dir 2).getD (0, 0)
      let count ← sub (sec3 / 16) 1
      let found ← collect (readBlock c off3 off7) (List.range count)
      let digestOk ← if sec2 = 0 then pure false
        else do
          let stated ← slice c 0x28 0x48
          let shuffle ← slice c off2 (off2 + sec2)
          let boundaries ← slice c off3 (off3 + sec3)
          let digests ← slice c off4 (off4 + sec4)
          pure (stated ==
            (fileDigest sha3 blockSize param0c param10 logicalSize shuffle boundaries digests).1)
      return {
        version, algorithm, blockSize, logicalSize
        blocks := found.map Prod.fst
        payloads := found.map Prod.snd
        allStored := (found.map Prod.fst).all fun b => b.1 &&& 0x0C ≠ 0
        digestOk }

/-- The loop of `decompress`. -/
def expand : List ((Nat × Nat × Nat × Nat) × Bytes) → Bytes → Res String Bytes
  | [], out => .ok out
  | ((_, _, payloadLen, logicalLen), payload) :: rest, out =>
    if payload.length ≠ payloadLen then fail "a block is not of its boundary entry's length"
    else if payloadLen = logicalLen then expand rest (out ++ payload)
    else
      match readExact payload logicalLen with
      | .ok bytes => expand rest (out ++ bytes)
      | .error e => fail e

/-- `decompress` -/
def Container.decompress (c : Container) : Res String Bytes :=
  if c.algorithm ≠ Codec.zlib.algorithm then fail "only zlib blocks are decoded here"
  else do
    let out ← expand readExact (c.blocks.zip c.payloads) []
    if out.length ≠ c.logicalSize then fail "the container expands to another size than its header declares"
    else return out

end Codecs

end Ps5Upload.Pfsc
