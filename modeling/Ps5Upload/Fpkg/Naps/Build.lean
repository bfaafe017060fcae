import Ps5Upload.Fpkg.Pfsc.Container

/-!
# Flat layout descriptors

`naps.rs`: the map from an image to its mount.  Every file is cut into blocks, and the blocks become
records with run bases between them: a run base anchors the stored cursor again where the blocks stop
being contiguous, and at the start of every window of sixteen records.

* `plansOf` — the blocks of the files, of the tail and of the metadata region;
* `walk` — their records;
* `buildWithMeta` — the descriptor.
-/

namespace Ps5Upload.Naps

open ByteFile

/-! ## Constants -/

/-- `BLOCK` -/
def block : Nat := 0x10000

/-- `UBLOCK` -/
def ublock : Nat := 0x40000

/-- `CLEN_MAX` -/
def clenMax : Nat := 0x1FFFF

/-- `KDE_PAYLOAD` -/
def kdePayload : Nat := 0

/-- One `cblockinfo` record.  The encoder cuts every field to its width. -/
inductive Cblock where
  | runBase (coffsetEndMod256k tweak keySlot coffsetStart256k : Nat)
  | block (coffsetStartMod256k : Nat) (reserved19 : Bool)
      (uoffsetStart clenEvenMinus1 even odd kde shuffle : Nat)
  deriving DecidableEq, Repr

/-- A planned record, before the walk. -/
structure BlockPlan where
  startRun : Bool
  onDisk : Nat
  logical : Nat
  evenChunkLen : Nat
  streamLen : Nat
  even : Nat
  odd : Nat
  kde : Nat
  shuffle : Nat
  terminator : Bool
  deriving DecidableEq, Repr

/-- `stored` -/
def stored (startRun : Bool) (onDisk logical streamLen : Nat) : BlockPlan :=
  { startRun, onDisk, logical, evenChunkLen := min streamLen 0x20000, streamLen, even := 1
    odd := if 0x20000 < streamLen then 1 else 0
    kde := kdePayload, shuffle := 0, terminator := false }

/-- Where a file is in the mount and in the image, and its size. -/
structure FilePlace where
  logical : Nat
  onDisk : Nat
  size : Nat
  deriving DecidableEq, Repr

/-- The pieces of a file: whole ublocks and a tail, as offsets and lengths. -/
def pieces (size : Nat) : List (Nat × Nat) :=
  let full := size / ublock
  let tail := size - full * ublock
  (List.range full).map (fun k => (k * ublock, ublock)) ++
    if 0 < tail ∨ full = 0 then [(full * ublock, tail)] else []

/-- The blocks of pieces: a run opens where a piece is not behind the one before it. -/
def placeFile (f : FilePlace) : List (Nat × Nat) → Nat → List BlockPlan × Nat
  | [], expected => ([], expected)
  | (off, len) :: rest, expected =>
    let (plans, stop) := placeFile f rest (f.onDisk + off + len)
    (stored (f.onDisk + off ≠ expected) (f.onDisk + off) (f.logical + off) len :: plans, stop)

/-- The data region: the blocks of every file, and where the last one ends. -/
def placeFiles : List FilePlace → Nat → List BlockPlan × Nat
  | [], expected => ([], expected)
  | f :: files, expected =>
    let (plans, stop) := placeFile f (pieces f.size) expected
    let (rest, stop) := placeFiles files stop
    (plans ++ rest, stop)

/-- The ublocks of the metadata region. -/
def metaUblocks (mountSize metaBase : Nat) : Nat := (mountSize - metaBase) ⌈/⌉ ublock

/-- The blocks of a metadata region with nothing encoded. -/
def plainMeta (mountSize metaBase : Nat) : List BlockPlan :=
  (List.range (metaUblocks mountSize metaBase)).map fun i =>
    stored (i = 0) (metaBase + i * ublock) (metaBase + i * ublock)
      (min ublock (mountSize - (metaBase + i * ublock)))

/-- The blocks of a metadata region in a container. -/
def packedMeta (metaBase : Nat) (metaBlocks : List Pfsc.BlockInfo) : List BlockPlan :=
  metaBlocks.mapIdx fun i b =>
    let p := stored (i = 0) (metaBase + b.payloadAt) (metaBase + i * ublock) b.payloadLen
    if b.compressed then { p with evenChunkLen := b.payloadLen } else p

/-- The plan that closes the walk. -/
def terminatorPlan (mountSize metaBase : Nat) : BlockPlan :=
  { startRun := true, onDisk := metaBase + metaUblocks mountSize metaBase * ublock, logical := mountSize
    evenChunkLen := 0, streamLen := 0, even := 0, odd := 0, kde := 0, shuffle := 0, terminator := true }

/-- The whole plan: the data, the padding behind it, the metadata and the terminator. -/
def plansOf (mountSize : Nat) (files : List FilePlace) (dataEnd metaBase : Nat)
    (metaBlocks : List Pfsc.BlockInfo) : List BlockPlan :=
  (placeFiles files 0).1 ++ stored false dataEnd (dataEnd / ublock * ublock) 0x10 ::
    ((if metaBlocks = [] then plainMeta mountSize metaBase else packedMeta metaBase metaBlocks) ++
      [terminatorPlan mountSize metaBase])

/-! ## The walk -/

/-- `needs_cursor_preserving_run` -/
def needsRun : List BlockPlan → Nat → Bool
  | [], _ => false
  | p :: plans, counter =>
    if counter % 16 = 0 then false
    else if p.startRun ∧ (counter + 1) % 16 = 0 then true
    else needsRun plans (counter + 1)

/-- The run base of an offset: its tweak and its window are numbers of 32 bits. -/
def runBaseOf (cursor tweak offset : Nat) : Cblock :=
  .runBase (cursor % 2 ^ 18) (tweak % 2 ^ 32) 0 (offset / ublock % 2 ^ 32)

/-- The run bases in front of a block when there are `count` records, and the cursor behind them. -/
def basesOf (p : BlockPlan) (plans : List BlockPlan) (count cursor : Nat) : List Cblock × Nat :=
  let kept := if ¬ p.startRun ∧ needsRun (p :: plans) count then
      [runBaseOf cursor (cursor >>> 15) cursor]
    else []
  let count := count + kept.length
  if p.startRun ∨ (0 < count ∧ count % 16 = 0) then
    let offset := if p.startRun then p.onDisk else cursor
    (kept ++ [runBaseOf cursor (if p.terminator then 0 else offset >>> 15) offset], offset)
  else (kept, cursor)

/-- The record of a block. -/
def blockRecord (p : BlockPlan) (cursor : Nat) : Cblock :=
  .block (cursor % 2 ^ 18) p.terminator (p.logical % 2 ^ 18)
    (if p.terminator then 0 else min (p.evenChunkLen - 1) clenMax) p.even p.odd p.kde p.shuffle

/-- `walk`, with `count` records written: the records, and the record and the logical offset of every
block. -/
def walk : List BlockPlan → Nat → Nat → List Cblock × List (Nat × Nat)
  | [], _, _ => ([], [])
  | p :: plans, count, cursor =>
    let (bases, cursor) := basesOf p plans count cursor
    let (entries, byStd) := walk plans (count + bases.length + 1) (cursor + p.streamLen)
    (bases ++ blockRecord p cursor :: entries, (count + bases.length, p.logical) :: byStd)

/-! ## The tables -/

/-- The size of the mount, a number of 64 bits. -/
def mountSizeOf (ndblock : Nat) : Nat := ndblock * block % 2 ^ 64

end Ps5Upload.Naps
