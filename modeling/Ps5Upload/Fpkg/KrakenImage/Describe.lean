import Ps5Upload.Lib.Fields
import Ps5Upload.Fpkg.Kraken.Decode
import Mathlib.Data.List.Sort

/-!
# Kraken images: reading the layout descriptor

`describe`, `decode_described` and `deshuffle` of `ps5upload-fpkg/src/kraken_image.rs`, with every
index, slice, addition, multiplication and subtraction checked.  A descriptor has a header of two words,
the shuffle patterns, the boundary table, and records of nine bytes: a block's, or an anchor's that moves
the stored cursor.
-/

namespace Ps5Upload.KrakenImage

open ByteFile Checked

abbrev Res (α : Type) := Checked.Res String α

def ublock : Nat := 0x40000

def window : Nat := 0x40000

/-- The type of a boundary that starts a stretch with no stored data. -/
def gapType : UInt8 := 0x40

/-- A block as a descriptor records it. -/
structure DescribedBlock where
  logical : Nat
  len : Nat
  storedAt : Nat
  evenLen : Nat
  storedLen : Nat
  evenLz : Bool
  oddLz : Bool
  modeBits : Nat
  shuffle : Nat
  deriving DecidableEq, Repr

/-- The byte shuffles, as the field sizes of one vector. -/
def shuffles : List Bytes :=
  [[], [4, 4], [2, 2, 4], [1, 1, 6], [1, 1, 1, 1, 1, 1, 1, 1], [8, 2, 2, 4], [1, 1, 6, 2, 2, 4],
    [1, 1, 6, 1, 1, 6], [4, 4, 4, 4], [8, 8], [8, 4, 4], [2, 6], [2, 6, 2, 6]]

/-- A number as `{:#x}` prints it. -/
def hex (n : Nat) : String := "0x" ++ String.ofList (Nat.toDigits 16 n)

/-- Bytes as `{:02x?}` prints them. -/
def hexBytes (e : Bytes) : String :=
  let digits := fun (b : UInt8) => String.ofList (Nat.toDigits 16 (b.toNat / 16) ++ Nat.toDigits 16 (b.toNat % 16))
  "[" ++ String.intercalate ", " (e.map digits) ++ "]"

/-! ## The header and its tables -/

/-- Where the tables of a descriptor lie, and how many entries they have. -/
structure Header where
  files : Nat
  ublocks : Nat
  outer : Nat
  shuffle : Nat
  records : Nat
  fidxAt : Nat
  recAt : Nat
  deriving DecidableEq, Repr

def readHeader (blob : Bytes) : Res Header :=
  if blob.length < 16 then fail "descriptor too short"
  else do
    let w0 ← field blob 0 8
    let w1 ← field blob 8 8
    let files ← add 64 (w0 % 2 ^ 24) 1
    let ublocks := w0 / 2 ^ 32 % 2 ^ 24
    let outer := w1 % 2 ^ 24
    let shuffle := w0 / 2 ^ 28 % 2 ^ 4
    let records ← add 64 (w1 / 2 ^ 24 % 2 ^ 24) 2
    -- the digests of the outer blocks, then the shuffle patterns, then the boundaries
    let tables ← add 64 outer shuffle
    let tables ← mul 64 tables 8
    let fidxAt ← add 64 16 tables
    let fidx ← mul 64 files 6
    let fidxEnd ← add 64 fidxAt fidx
    let groups ← add 64 (ublocks / 8) 1
    let u2c ← mul 64 groups 10
    let u2cEnd ← add 64 fidxEnd u2c
    let padded ← add 64 u2cEnd 7
    let recAt ← add 64 (padded / 8 * 8) 3
    let recs ← mul 64 records 9
    let recEnd ← add 64 recAt recs
    if blob.length < recEnd then fail "descriptor shorter than its records"
    else return ⟨files, ublocks, outer, shuffle, records, fidxAt, recAt⟩

/-- A listed pattern as an index into `shuffles`. -/
def readPattern (blob : Bytes) (outer p : Nat) : Res Nat := do
  let i ← add 64 outer p
  let i ← mul 64 i 8
  let at_ ← add 64 16 i
  let stop ← add 64 at_ 8
  let e ← slice blob at_ stop
  let used := (e.findIdx? (· = 0)).getD 8
  let head ← slice e 0 used
  let tail ← slice e used e.length
  match shuffles.findIdx? fun s => tail.all (· = 0) && s = head with
  | some id => return id
  | none => fail s!"shuffle pattern {p}: unknown descriptor {hexBytes e}"

/-- A boundary and its type. -/
def readEntry (blob : Bytes) (fidxAt i : Nat) : Res (Nat × UInt8) := do
  let off ← mul 64 i 6
  let at_ ← add 64 fidxAt off
  let stop ← add 64 at_ 6
  let r ← slice blob at_ stop
  let start ← field r 0 5
  let kind ← index r 5
  return (start, kind)

/-- How many numbers at the front of a sorted list are at most `n`. -/
def partitionPoint (bounds : List Nat) (n : Nat) : Nat := (bounds.takeWhile (· ≤ n)).length

/-- The boundaries in order, each once. -/
def sortedBounds (entries : List (Nat × UInt8)) : List Nat :=
  ((entries.map Prod.fst).insertionSort (· ≤ ·)).dedup

/-- The stretches no block covers, from a boundary of the gap type to the next one; an ordinary boundary
at the same place wins. -/
def gapsOf (entries : List (Nat × UInt8)) (bounds : List Nat) (mount : Nat) : List (Nat × Nat) :=
  let ordinary := (entries.filter fun e => e.2 ≠ gapType).map Prod.fst
  (entries.filter fun e => e.2 = gapType ∧ e.1 < mount ∧ e.1 ∉ ordinary).map fun e =>
    (e.1, (bounds[partitionPoint bounds e.1]?).getD mount)

/-- What the walk over the records looks up. -/
structure Tables where
  blob : Bytes
  recAt : Nat
  records : Nat
  patterns : List Nat
  mount : Nat
  bounds : List Nat
  gaps : List (Nat × Nat)
  strict : Bool

def readTables (blob : Bytes) : Res Tables := do
  let h ← readHeader blob
  let patterns ← collect (readPattern blob h.outer) (List.range h.shuffle)
  let entries ← collect (readEntry blob h.fidxAt) (List.range h.files)
  let mount := (entries.getLast?.map Prod.fst).getD 0
  match entries.find? fun e => mount < e.1 with
  | some e => fail s!"a file boundary at {hex e.1} lies past the mount's end {hex mount}"
  | none =>
    let bounds := sortedBounds entries
    let before ← sub h.recAt 3
    let three ← slice blob before h.recAt
    return ⟨blob, h.recAt, h.records, patterns, mount, bounds, gapsOf entries bounds mount,
      three = [0x00, 0x00, 0x04]⟩

/-! ## The walk -/

def Tables.record (c : Tables) (i : Nat) : Res Nat := do
  let off ← mul 64 i 9
  let at_ ← add 64 c.recAt off
  let _ ← add 64 at_ 9
  field c.blob at_ 9

/-- Bits `lo` up to `lo + w` of a record. -/
def bits (v lo w : Nat) : Nat := v / 2 ^ lo % 2 ^ w

def gapAt (gaps : List (Nat × Nat)) (logical : Nat) : Option Nat :=
  (gaps.find? fun g => g.1 = logical).map Prod.snd

/-- Over the stretches that start here; no more turns than stretches are ever taken. -/
def skipGaps (gaps : List (Nat × Nat)) : Nat → Nat → Res Nat
  | turns, logical =>
    match gapAt gaps logical with
    | none => .ok logical
    | some stop =>
      match turns with
      | 0 => panic
      | turns + 1 => skipGaps gaps turns stop

def Tables.skip (c : Tables) (logical : Nat) : Res Nat := skipGaps c.gaps c.gaps.length logical

structure Walk where
  cursor : Nat
  logical : Nat
  nextIsAnchor : Bool
  carriedNibble : Nat
  out : List DescribedBlock

/-- Where a block of full length would end. -/
def Tables.cap (c : Tables) (logical : Nat) : Res Nat := do
  let nextBound := (c.bounds.find? fun b => logical < b).getD c.mount
  let room ← sub (min nextBound c.mount) logical
  add 64 logical (min room ublock)

/-- The low nibble of the next record's key. -/
def Tables.carried (c : Tables) (next : Nat) : Res Nat := do
  let prev ← sub next 1
  let v ← c.record prev
  return bits v 68 4

/-- A block's length: to the cap, or to where the next record says the next block starts. -/
def Tables.blockLen (c : Tables) (i v logical : Nat) : Res Nat := do
  let cap ← c.cap logical
  let next ← (if bits v 66 1 = 1 then add 64 i 2 else add 64 i 1 : Res Nat)
  let afterCap ← c.skip cap
  let last ← sub c.records 1
  let nextRec ← c.record (min next last)
  let nextKey := bits nextRec 0 14
  let leavesOffAtCap ←
    (if nextKey = afterCap % window / 16 then
      if c.strict then do
        let low ← c.carried next
        return low = afterCap % 16
      else .ok true
    else .ok false : Res Bool)
  let after ← add 64 next 1
  if after < c.records ∧ leavesOffAtCap = false then do
    let at16 := (logical / window * window) ||| (nextKey <<< 4)
    let at16 ← (if at16 ≤ logical / 16 * 16 then add 64 at16 window else .ok at16 : Res Nat)
    let low ← (if c.strict then c.carried next else .ok (logical % 16) : Res Nat)
    let exact := at16 ||| low
    let end16 ← add 64 at16 16
    if end16 ≤ cap ∨ (c.strict = true ∧ exact < cap) then sub exact logical else sub cap logical
  else sub cap logical

/-- Where a block's stored bytes end. -/
def storedEnd (v cursor len : Nat) : Res Nat := do
  let stop := (cursor / window * window) ||| bits v 48 18
  let stop ← (if stop < cursor then add 64 stop window else .ok stop : Res Nat)
  let even ← add 64 (bits v 14 17) 1
  let evenRaw : Bool := bits v 33 1 = 0 ∧ even = min len Kraken.half
  let oddRaw : Bool := bits v 36 1 = 0
  -- a whole raw block ends where it began, modulo the window
  if stop = cursor ∧ evenRaw ∧ oddRaw ∧ Kraken.half < len then add 64 stop window else return stop

/-- The block's shuffle. -/
def Tables.shuffleOf (c : Tables) (i v : Nat) : Res Nat :=
  if bits v 44 4 = 0 then .ok 0
  else do
    let k ← sub (bits v 44 4) 1
    getOr c.patterns k
      s!"record {i}: shuffle index {bits v 44 4} is past the table's {c.patterns.length} pattern(s)"

def Tables.anchorTurn (c : Tables) (i v nibble : Nat) (s : Walk) : Res Walk := do
  let high ← shl 64 (bits v 26 22) 18
  let cursor := high ||| bits v 48 18
  let second ← add 64 i 2
  -- the terminator is the one key nobody carries
  if c.strict ∧ 0 < i ∧ second ≠ c.records ∧ nibble ≠ cursor / 2 ^ 16 % 16 then
    fail s!"record {i}: the anchor's position nibble disagrees"
  else return { s with cursor := cursor }

def Tables.blockTurn (c : Tables) (i v nibble : Nat) (s : Walk) : Res Walk := do
  let logical ← c.skip s.logical
  if c.strict ∧ 0 < i ∧ nibble ≠ logical % 16 then
    fail s!"record {i}: the exact start's low nibble disagrees (the console would read the block at the wrong offset)"
  else if c.mount ≤ logical then
    fail s!"record {i}: a block starts at {hex logical}, at or past the mount's end {hex c.mount}"
  else if logical % window / 16 ≠ bits v 0 14 then
    fail s!"record {i}: logical offset disagrees"
  else do
    let len ← c.blockLen i v logical
    let stop ← storedEnd v s.cursor len
    let shuffle ← c.shuffleOf i v
    let evenLen ← add 64 (bits v 14 17) 1
    let storedLen ← sub stop s.cursor
    let after ← add 64 logical len
    return { s with
      cursor := stop
      logical := after
      out := s.out ++ [⟨logical, len, s.cursor, evenLen, storedLen, bits v 33 1 = 1, bits v 36 1 = 1,
        bits v 32 5, shuffle⟩] }

def Tables.turn (c : Tables) (s : Walk) (i : Nat) : Res Walk := do
  let v ← c.record i
  let anchor := s.nextIsAnchor
  let t := { s with nextIsAnchor := bits v 66 1 = 1 && !anchor, carriedNibble := bits v 68 4 }
  if anchor then c.anchorTurn i v s.carriedNibble t else c.blockTurn i v s.carriedNibble t

def describe (blob : Bytes) : Res (List DescribedBlock) := do
  let c ← readTables blob
  let s ← fold c.turn ⟨0, 0, true, 0, []⟩ (List.range (c.records - 1))
  let logical ← c.skip s.logical
  if logical ≠ c.mount then fail s!"blocks tile to {hex logical}, the mount is {hex c.mount}"
  else return s.out

/-! ## Decoding a described block -/

/-- A field of a vector put back in its place. -/
def putField (unit : Bytes) (stride off f : Nat) (s : Bytes × Nat) (v : Nat) : Res (Bytes × Nat) := do
  let row ← mul 64 v stride
  let at_ ← add 64 row off
  let stop ← add 64 s.2 f
  let bytes ← slice unit s.2 stop
  let chunk ← blit s.1 at_ bytes
  return (chunk, stop)

/-- A field of every vector, at its offset in them. -/
def putFields (unit : Bytes) (stride vectors : Nat) (s : Nat × Bytes × Nat) (f : UInt8) :
    Res (Nat × Bytes × Nat) := do
  let t ← fold (putField unit stride s.1 f.toNat) s.2 (List.range vectors)
  let off ← add 64 s.1 f.toNat
  return (off, t)

def deshuffleUnit (fields : Bytes) (stride : Nat) (unit : Bytes) : Res Bytes := do
  let s ← fold (putFields unit stride (unit.length / stride)) (0, unit, 0) fields
  return s.2.1

def shuffleUnit : Nat := 0x10000

/-- A shuffle undone, one unit of 64 KiB after another. -/
def deshuffle (data : Bytes) (pattern : Nat) : Res Bytes := do
  let fields ← getOr shuffles pattern s!"shuffle pattern {pattern} is not one of the 13 known"
  let stride := (fields.map UInt8.toNat).sum
  if stride = 0 then return data
  else do
    let units := (List.range ((data.length + shuffleUnit - 1) / shuffleUnit)).map fun i =>
      (data.drop (i * shuffleUnit)).take shuffleUnit
    let units ← collect (deshuffleUnit fields stride) units
    return units.flatten

def halfOf (bytes : Bytes) (isLz delta : Bool) (logical : Nat) : Kraken.Half :=
  if isLz then if delta then .lzDelta bytes else .lz bytes
  else if bytes.length < logical then .entropy bytes
  else .raw bytes

def decodeDescribed (image : Bytes) (b : DescribedBlock) : Res Bytes :=
  if b.len = 0 ∨ ublock < b.len then fail s!"a block of {hex b.len} bytes is not a Kraken block"
  else if 2 * window < b.storedLen ∨ b.storedLen < b.evenLen then
    fail s!"a block stored in {hex b.storedLen} bytes ({hex b.evenLen} even) is not a Kraken block"
  else if 2 ^ 64 ≤ b.storedAt + b.storedLen ∨ image.length < b.storedAt + b.storedLen then
    fail "a block runs past the image"
  else do
    let src ← slice image b.storedAt (b.storedAt + b.storedLen)
    let e ← slice src 0 (min b.evenLen src.length)
    let o ← slice src (min b.evenLen src.length) src.length
    let even := halfOf e b.evenLz (b.modeBits % 2 = 1) (min b.len Kraken.half)
    let halves ←
      (if Kraken.half < b.len then do
        let oddLogical ← sub b.len Kraken.half
        return [even, halfOf o b.oddLz (b.modeBits / 8 % 2 = 1) oddLogical]
      else .ok [even] : Res (List Kraken.Half))
    let data ← Kraken.decodeBlock halves b.len
    deshuffle data b.shuffle

end Ps5Upload.KrakenImage
