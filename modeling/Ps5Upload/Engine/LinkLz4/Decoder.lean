import Ps5Upload.Lib.Bytes
import Ps5Upload.Lib.Loops
import Mathlib.Data.UInt

/-!
# The decoder of `.lz4` links

`Decoder` and `decode_into` of `link_lz4.rs`: frames, legacy streams and skippable frames one after
another, decoded block by block and delivered to a sink that wants an exact size.

* The reader hands out the stream in pieces of any size; a read that was interrupted is read again.
* The block decompressor is a parameter: `decompress_into`, `decompress_into_with_dict` and
  `get_maximum_output_size`.
* The release build is modelled: `frames` wraps around.
-/

namespace Ps5Upload.LinkLz4

open ByteFile Loops

def FRAME_MAGIC : UInt32 := 0x184D2204
def LEGACY_MAGIC : UInt32 := 0x184C2102
def SKIPPABLE_MASK : UInt32 := 0xFFFFFFF0
def SKIPPABLE_BASE : UInt32 := 0x184D2A50
def LEGACY_BLOCK : Nat := 8 * 1024 * 1024
def DICT : Nat := 64 * 1024
def SLICE : Nat := 1024 * 1024

/-- The errors, named after their texts. -/
inductive LinkErr where
  /-- "the LZ4 stream ends in the middle of a block" -/
  | midBlock
  /-- "the LZ4 stream ends in the middle of a frame" -/
  | midFrame
  /-- "the LZ4 stream ends inside a skippable frame" -/
  | midSkippable
  /-- "the link is empty, not an LZ4 stream" -/
  | empty
  /-- "unexpected data after the end of the LZ4 stream" -/
  | trailing
  /-- "not an LZ4 stream" -/
  | notLz4
  /-- "the LZ4 frame header is cut short" -/
  | midHeader
  /-- "unsupported LZ4 frame version …" -/
  | version (v : UInt8)
  /-- "the LZ4 frame needs a separate dictionary, which a link cannot supply" -/
  | dictionary
  /-- "invalid LZ4 block size code …" -/
  | blockCode (n : UInt8)
  /-- "invalid LZ4 legacy block size …" -/
  | legacySize (n : Nat)
  /-- "an LZ4 block is larger (… bytes) than its frame allows" -/
  | blockSize (n : Nat)
  /-- "the LZ4 data is damaged: …" -/
  | damaged
  /-- "the unpacked data is larger than the … bytes it was announced as" -/
  | larger (size : Nat)
  /-- "the LZ4 stream unpacked to … bytes, not the … announced; the link is cut short or damaged" -/
  | short (pos size : Nat)
  /-- "transfer_cancelled" -/
  | cancelled
  /-- What the sink answers when it refuses a piece. -/
  | sink
  /-- A loop that went on without reading anything. -/
  | stuck
  deriving DecidableEq, Repr

/-! ## Reading -/

/-- The stream that is left, and how much each of the reads to come brings at most. -/
structure Reader where
  rest : Bytes
  splits : Nat → Nat

/-- One `read` into `n` bytes: some bytes, and none only at the end. -/
def Reader.read (r : Reader) (n : Nat) : Bytes × Reader :=
  let k := min n (max 1 (r.splits 0))
  (r.rest.take k, ⟨r.rest.drop k, fun i => r.splits (i + 1)⟩)

/-- The loop of `fill` with `got` read: `none` at a clean end. -/
def fillLoop (r : Reader) (n : Nat) (got : Bytes) : Except LinkErr (Option Bytes × Reader) :=
  if _hn : got.length < n then
    let p := r.read (n - got.length)
    if _h : p.1 = [] then (if got = [] then .ok (none, p.2) else .error .midBlock)
    else fillLoop p.2 n (got ++ p.1)
  else .ok (some got, r)
termination_by n - got.length
decreasing_by
  have hread : 0 < (r.read (n - got.length)).1.length := List.length_pos_iff.2 _h
  rw [List.length_append]
  omega

inductive Container where
  | frame (independent blockChecksum contentChecksum : Bool) (maxBlock : Nat)
  | legacy
  deriving DecidableEq, Repr

structure Decoder where
  r : Reader
  /-- The current frame or legacy stream; `none` between frames. -/
  cur : Option Container
  /-- The last `DICT` bytes decoded in this frame. -/
  dict : Bytes
  contentSize : Option UInt64
  frames : UInt32
  /-- A legacy stream ended by the next frame's magic, already read. -/
  pendingMagic : Option UInt32
  /-- The last container was a frame that ended with its end mark. -/
  closed : Bool

/-- `Decoder::new` -/
def Decoder.new (r : Reader) : Decoder := ⟨r, none, [], none, 0, none, false⟩

abbrev Dec (α : Type) := StateT Decoder (Except LinkErr) α

def fail {α : Type} (e : LinkErr) : Dec α := fun _ => .error e

/-- `fill`: the bytes, or `none` on a clean end of input. -/
def fill (n : Nat) : Dec (Option Bytes) := fun d =>
  match fillLoop d.r n [] with
  | .ok (b, r) => .ok (b, { d with r := r })
  | .error e => .error e

def le32 (b : Bytes) : UInt32 := UInt32.ofNat (leAt b 0 4)

def le64 (b : Bytes) : UInt64 := UInt64.ofNat (leAt b 0 8)

def readU32 : Dec (Option UInt32) := do
  match ← fill 4 with
  | none => return none
  | some b => return some (le32 b)

def needU32 : Dec UInt32 := do
  match ← readU32 with
  | some n => return n
  | none => fail .midFrame

/-- `fill` where the stream must not end. -/
def need (n : Nat) (e : LinkErr) : Dec Bytes := do
  match ← fill n with
  | some b => return b
  | none => fail e

def skip (n : Nat) : Dec Unit :=
  if _h : 0 < n then do
    let _ ← need (min n (1024 * 1024)) .midSkippable
    skip (n - min n (1024 * 1024))
  else return ()
termination_by n

/-! ## Frames -/

/-- What has not been read yet is less after each turn. -/
def Decoder.left (d : Decoder) : Nat := d.r.rest.length

def isSkippable (m : UInt32) : Bool := m &&& SKIPPABLE_MASK = SKIPPABLE_BASE

/-- The magic of the next frame; `none` at the end of the stream. -/
def nextMagic : Dec (Option UInt32) := do
  match (← get).pendingMagic with
  | some m =>
    modify fun d => { d with pendingMagic := none }
    return some m
  | none => readU32

/-- The header of a frame, from behind its magic. -/
def startHeader : Dec Unit := do
  let b ← need 2 .midHeader
  let flg := b.headD 0
  let bd := (b.drop 1).headD 0
  if flg >>> 6 ≠ 1 then fail (.version (flg >>> 6))
  else if flg &&& 0x01 ≠ 0 then fail .dictionary
  else
    let code := (bd >>> 4) &&& 0x7
    if code.toNat < 4 then fail (.blockCode code)
    else
      let maxBlock := 2 ^ (8 + 2 * code.toNat)
      if flg &&& 0x08 ≠ 0 then
        let b ← need 8 .midHeader
        modify fun d => { d with
          contentSize :=
            if d.frames = 0 then some (le64 b)
            else d.contentSize.map fun total =>
              if total.toNat + (le64 b).toNat < 2 ^ 64 then total + le64 b else UInt64.ofNat (2 ^ 64 - 1) }
      else modify fun d => { d with contentSize := if d.frames ≠ 0 then none else d.contentSize }
      let _ ← need 1 .midHeader
      modify fun d => { d with
        cur := some (.frame (flg &&& 0x20 ≠ 0) (flg &&& 0x10 ≠ 0) (flg &&& 0x04 ≠ 0) maxBlock)
        dict := []
        frames := d.frames + 1
        closed := false }

/-- One turn of the loop in `start_frame`: `none` goes on. -/
def startTurn : Dec (Option Bool) := do
  match ← nextMagic with
  | none =>
    if (← get).frames ≠ 0 then return some false else fail .empty
  | some magic =>
    if isSkippable magic then
      let n ← needU32
      skip n.toNat
      return none
    else if magic = LEGACY_MAGIC then
      modify fun d => { d with closed := false, cur := some .legacy, frames := d.frames + 1 }
      return some true
    else if magic ≠ FRAME_MAGIC then
      if (← get).frames ≠ 0 then fail .trailing else fail .notLz4
    else
      startHeader
      return some true

/-- `start_frame`: `false` at the end of the stream. -/
def startFrame : Dec Bool := loop Decoder.left .stuck startTurn

/-! ## Blocks -/

/-- The block decompressor of `lz4_flex`. -/
structure Flex where
  /-- `decompress_into` an output of that size. -/
  decompressInto : Bytes → Nat → Option Bytes
  /-- `decompress_into_with_dict` -/
  decompressIntoWithDict : Bytes → Nat → Bytes → Option Bytes
  getMaximumOutputSize : Nat → Nat

/-- The window once a linked block has been decoded. -/
def slide (dict block : Bytes) : Bytes :=
  if DICT ≤ block.length then block.drop (block.length - DICT)
  else
    let keep := DICT - block.length
    (if keep < dict.length then dict.drop (dict.length - keep) else dict) ++ block

def undamaged (o : Option Bytes) : Dec Bytes :=
  match o with
  | some out => return out
  | none => fail .damaged

/-- One turn inside a legacy stream. -/
def legacyTurn (fx : Flex) : Dec (Option (Option Bytes)) := do
  match ← readU32 with
  | none =>
    modify fun d => { d with cur := none }
    return some none
  | some word =>
    if word = FRAME_MAGIC ∨ word = LEGACY_MAGIC ∨ isSkippable word then
      modify fun d => { d with cur := none, pendingMagic := some word }
      return none
    else
      let n := word.toNat
      if n = 0 ∨ n > fx.getMaximumOutputSize LEGACY_BLOCK then fail (.legacySize n)
      else
        let input ← need n .midBlock
        let out ← undamaged (fx.decompressInto input LEGACY_BLOCK)
        return some (some out)

/-- One turn inside a frame. -/
def frameTurn (fx : Flex) (independent blockChecksum contentChecksum : Bool) (maxBlock : Nat) :
    Dec (Option (Option Bytes)) := do
  let word ← needU32
  if word = 0 then
    if contentChecksum then let _ ← needU32
    modify fun d => { d with cur := none, closed := true }
    return none
  else
    let stored := word &&& 0x80000000 ≠ 0
    let n := (word &&& 0x7FFFFFFF).toNat
    if n > maxBlock then fail (.blockSize n)
    else
      let input ← need n .midBlock
      let dict := (← get).dict
      let out ← (if stored then return input
        else if independent ∨ dict = [] then undamaged (fx.decompressInto input maxBlock)
        else undamaged (fx.decompressIntoWithDict input maxBlock dict) : Dec Bytes)
      if blockChecksum then let _ ← needU32
      if !independent then modify fun d => { d with dict := slide d.dict out }
      return some (some out)

/-- One turn of the loop in `next_block`: `none` goes on, `some none` is the end. -/
def blockTurn (fx : Flex) : Dec (Option (Option Bytes)) := do
  match (← get).cur with
  | none =>
    if ← startFrame then return none else return some none
  | some .legacy => legacyTurn fx
  | some (.frame independent blockChecksum contentChecksum maxBlock) =>
    frameTurn fx independent blockChecksum contentChecksum maxBlock

/-- What is left, counting that a container has still to be started. -/
def Decoder.work (d : Decoder) : Nat := 2 * d.left + if d.cur.isNone then 1 else 0

/-- `next_block`: the next decoded block, or `none` at the end of the stream. -/
def nextBlock (fx : Flex) : Dec (Option Bytes) := loop Decoder.work .stuck (blockTurn fx)

/-! ## The whole stream -/

/-- All the blocks, from a decoder on, with what has been decoded in front. -/
def blocksTurn (fx : Flex) : StateT (Decoder × List Bytes) (Except LinkErr) (Option Unit) :=
  fun (d, bs) =>
    match nextBlock fx d with
    | .error e => .error e
    | .ok (none, d') => .ok (some (), (d', bs))
    | .ok (some b, d') => .ok (none, (d', bs ++ [b]))

def Decoder.blocks (fx : Flex) (d : Decoder) : Except LinkErr (List Bytes) :=
  match loop (fun s => s.1.work) .stuck (blocksTurn fx) (d, []) with
  | .error e => .error e
  | .ok (_, s) => .ok s.2

/-- What answers while data is delivered: whether the transfer has been cancelled when that many pieces
have gone out, and whether the sink takes the piece. -/
structure Env where
  cancelled : Nat → Bool
  takes : Nat → Bool

/-- What has gone to the sink: the bytes, and in how many pieces. -/
structure Sunk where
  data : Bytes
  pieces : Nat

/-- The pieces of a slice, at most `SLICE` bytes each, delivered one after another. -/
def deliver (env : Env) (b : Bytes) (s : Sunk) : Except LinkErr Sunk :=
  if _h : b = [] then .ok s
  else if env.cancelled s.pieces then .error .cancelled
  else if !env.takes s.pieces then .error .sink
  else deliver env (b.drop SLICE) ⟨s.data ++ b.take SLICE, s.pieces + 1⟩
termination_by b.length
decreasing_by
  have := List.length_pos_iff.2 _h
  have : SLICE = 1048576 := rfl
  rw [List.length_drop]
  omega

/-- Where `decode_into` is: the decoder, `pos`, and what the sink has. -/
structure Decoding where
  d : Decoder
  pos : Nat
  sunk : Sunk

/-- One turn of the loop in `decode_into`. -/
def decodeTurn (fx : Flex) (env : Env) (size : Nat) :
    StateT Decoding (Except LinkErr) (Option Unit) := fun s =>
  match nextBlock fx s.d with
  | .error e => .error e
  | .ok (none, d) => .ok (some (), { s with d := d })
  | .ok (some block, d) =>
    let take := min block.length (size - s.pos)
    if (block.drop take).any (· ≠ 0) then .error (.larger size)
    else
      match deliver env (block.take take) s.sunk with
      | .error e => .error e
      | .ok sunk => .ok (none, ⟨d, s.pos + take, sunk⟩)

/-- The rest of the image, zeros. -/
def padOut (env : Env) (size : Nat) (s : Decoding) : Except LinkErr Decoding :=
  if _h : s.pos < size then
    match deliver env (List.replicate (min (size - s.pos) SLICE) 0) s.sunk with
    | .error e => .error e
    | .ok sunk => padOut env size ⟨s.d, s.pos + min (size - s.pos) SLICE, sunk⟩
  else .ok s
termination_by size - s.pos
decreasing_by
  have : SLICE = 1048576 := rfl
  omega

/-- `decode_into`: what the sink has got. -/
def decodeInto (fx : Flex) (r : Reader) (size : Nat) (padShort : Bool) (env : Env) :
    Except LinkErr Bytes :=
  match loop (fun s => s.d.work) .stuck (decodeTurn fx env size) ⟨Decoder.new r, 0, ⟨[], 0⟩⟩ with
  | .error e => .error e
  | .ok (_, s) =>
    match (if s.pos < size ∧ padShort ∧ s.d.closed then padOut env size s else .ok s : Except LinkErr Decoding) with
    | .error e => .error e
    | .ok s => if s.pos ≠ size then .error (.short s.pos size) else .ok s.sunk.data

end Ps5Upload.LinkLz4
