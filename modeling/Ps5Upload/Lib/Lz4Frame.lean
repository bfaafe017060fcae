import Ps5Upload.Lib.Lz4

/-!
# LZ4 frames

The frame format, its legacy form and skippable frames: what a stream of them consists of, the bytes it
is written as and the data it spells.  Checksums are any four bytes here: a stream is read in the same
way whether they are right or not.

* `Block.Decodes` — a block behind its history;
* `Contents`, `LegacyContents` — the blocks of a frame and of a legacy stream, one behind the other;
* `Item.Spells`, `Spells` — what a frame of any kind and a stream of them decode to.
-/

namespace Ps5Upload.Lz4Frame

open ByteFile Lz4

/-! ## Frames -/

/-- The flags of a frame's descriptor, version 01 and without a dictionary id. -/
structure Head where
  independent : Bool
  blockChecksum : Bool
  contentChecksum : Bool
  contentSize : Option UInt64
  /-- The code of the largest block: 4 to 7. -/
  maxCode : Fin 4
  headerChecksum : UInt8

/-- The largest block: 64 KiB, 256 KiB, 1 MiB or 4 MiB. -/
def Head.maxBlock (h : Head) : Nat := 2 ^ (16 + 2 * h.maxCode.val)

def Head.flg (h : Head) : UInt8 :=
  UInt8.ofNat (0x40 + (if h.independent then 0x20 else 0) + (if h.blockChecksum then 0x10 else 0) +
    (if h.contentSize.isSome then 0x08 else 0) + (if h.contentChecksum then 0x04 else 0))

def Head.bd (h : Head) : UInt8 := UInt8.ofNat ((h.maxCode.val + 4) * 16)

def frameMagic : Nat := 0x184D2204

def Head.bytes (h : Head) : Bytes :=
  h.flg :: h.bd :: ((h.contentSize.elim [] fun n => le 8 n.toNat) ++ [h.headerChecksum])

/-- A block of a frame: its data as it is, or compressed. -/
structure Block where
  stored : Bool
  data : Bytes
  checksum : UInt32

def Block.bytes (h : Head) (b : Block) : Bytes :=
  le 4 (b.data.length + if b.stored then 0x80000000 else 0) ++
    (b.data ++ if h.blockChecksum then le 4 b.checksum.toNat else [])

/-- What a block decodes to behind its history; a compressed block is not empty. -/
def Block.Decodes (b : Block) (history out : Bytes) : Prop :=
  if b.stored then out = b.data else b.data ≠ [] ∧ decodeAfter history b.data = some out

/-- The blocks of a frame behind `history`: linked blocks see all that the frame has spelled so far. -/
inductive Contents (h : Head) : Bytes → List Block → List Bytes → Prop
  | nil (history : Bytes) : Contents h history [] []
  | cons {history out : Bytes} {b : Block} {bs : List Block} {outs : List Bytes}
      (hdata : b.data.length ≤ h.maxBlock)
      (hb : b.Decodes (if h.independent then [] else history) out)
      (hout : out.length ≤ h.maxBlock) (hbs : Contents h (history ++ out) bs outs) :
      Contents h history (b :: bs) (out :: outs)

/-! ## Legacy streams -/

def legacyMagic : Nat := 0x184C2102

/-- A legacy block decodes to at most this. -/
def legacyBlock : Nat := 8 * 1024 * 1024

/-- `LZ4_COMPRESSBOUND`: the longest a block of so many bytes can be compressed to. -/
def compressBound (n : Nat) : Nat := n + n / 255 + 16

/-- The blocks of a legacy stream, each on its own. -/
inductive LegacyContents : List Bytes → List Bytes → Prop
  | nil : LegacyContents [] []
  | cons {data out : Bytes} {bs outs : List Bytes} (hdata : data ≠ [])
      (hlen : data.length ≤ compressBound legacyBlock) (hb : decode data = some out)
      (hout : out.length ≤ legacyBlock) (hbs : LegacyContents bs outs) :
      LegacyContents (data :: bs) (out :: outs)

def legacyBytes (data : Bytes) : Bytes := le 4 data.length ++ data

/-! ## Streams -/

/-- A frame, a legacy stream or a skippable frame. -/
inductive Item where
  | frame (head : Head) (blocks : List Block) (checksum : UInt32)
  | legacy (blocks : List Bytes)
  | skip (nibble : Fin 16) (data : Bytes)

def skipMagic (nibble : Fin 16) : Nat := 0x184D2A50 + nibble.val

namespace Item

def magic : Item → Nat
  | frame .. => frameMagic
  | legacy _ => legacyMagic
  | skip nibble _ => skipMagic nibble

/-- What follows the magic. -/
def body : Item → Bytes
  | frame head blocks checksum =>
    head.bytes ++ (blocks.flatMap (Block.bytes head) ++
      (le 4 0 ++ if head.contentChecksum then le 4 checksum.toNat else []))
  | legacy blocks => blocks.flatMap legacyBytes
  | skip _ data => le 4 data.length ++ data

def bytes (i : Item) : Bytes := le 4 i.magic ++ i.body

def isData : Item → Bool
  | skip .. => false
  | _ => true

def isLegacy : Item → Bool
  | legacy _ => true
  | _ => false

/-- The blocks that an item decodes to. -/
inductive Spells : Item → List Bytes → Prop
  | frame {head : Head} {blocks : List Block} {outs : List Bytes} (checksum : UInt32)
      (h : Contents head [] blocks outs) : Spells (.frame head blocks checksum) outs
  | legacy {blocks outs : List Bytes} (h : LegacyContents blocks outs) : Spells (.legacy blocks) outs
  | skip (nibble : Fin 16) {data : Bytes} (h : data.length < 2 ^ 32) : Spells (.skip nibble data) []

end Item

/-- A stream: one item after another. -/
def streamBytes (items : List Item) : Bytes := items.flatMap Item.bytes

/-- What a stream spells: the data of its items, one after the other. -/
inductive Spells : List Item → Bytes → Prop
  | nil : Spells [] []
  | cons {i : Item} {items : List Item} {outs : List Bytes} {data : Bytes} (hi : i.Spells outs)
      (h : Spells items data) : Spells (i :: items) (outs.flatten ++ data)

/-! ## Sizes and magics -/

theorem length_bytes (i : Item) : i.bytes.length = 4 + i.body.length := by
  rw [Item.bytes, List.length_append, length_le]

theorem magic_lt (i : Item) : i.magic < 2 ^ 32 := by
  cases i with
  | skip nibble _ =>
    have := nibble.isLt
    rw [Item.magic, skipMagic]
    omega
  | frame => exact (by decide : frameMagic < 2 ^ 32)
  | legacy => exact (by decide : legacyMagic < 2 ^ 32)

end Ps5Upload.Lz4Frame
