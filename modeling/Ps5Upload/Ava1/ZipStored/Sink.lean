import Mathlib.Data.Finset.Card
import Mathlib.Data.List.Sort
import Mathlib.Tactic.Common
import Ps5Upload.Ava1.ZipStored.Layout
import Ps5Upload.Lib.BTreeMap

/-!
# Stored zips: the sink

The model of `StoredZipSink` in `engine/crates/ps5upload-ava1/src/zip_stored.rs`.  A call is a
function from the sink to the sink it leaves, or to an error and the sink it leaves then; the
part file and the destination on the disk are two fields of it.  The disk itself never refuses:
the only errors are the sink's own, and a read past the end of the part file.

`append` is cut in two: `beginFile` is its branch for a file that is not the current one,
`putData` what it does once the file is open.  `position` counts the finished files and leaves
the rest to `positionAt`, whose loops are `scanParts`, `readFinished`, `closeWhole` and
`rebuildCrc`.
-/

namespace Ps5Upload.ZipStored

open ByteFile Crc32

structure Sink where
  single : Bool
  base : String
  /-- The `.ava-part` file next to the destination, while there is one. -/
  part : Option Bytes
  /-- The destination. -/
  dest : Option Bytes
  m : Option Manifest := none
  layout : Layout := {}
  /-- `file` holds a handle of the part file. -/
  opened : Bool := false
  /-- The next byte to write. -/
  pos : Nat := 0
  positioned : Bool := false
  /-- The slot being written, how much of it is in the archive, and its running CRC-32. -/
  current : Option Nat := none
  written : Nat := 0
  crc : Hasher := Hasher.new
  /-- Finished slots' CRC-32s. -/
  crcs : List (Option UInt32) := []
  /-- Highest file id started. -/
  last : Option Nat := none
  started : Nat := 0
  finished : Bool := false
  deriving DecidableEq, Repr

/-- An error, and the sink as the failed call left it. -/
abbrev Failed := IoError × Sink

namespace Sink

def fail {α : Type} (s : Sink) (e : IoError) : Except Failed α := .error (e, s)

/-- A step of a call that leaves the sink alone. -/
def lift {α : Type} (s : Sink) (r : Except IoError α) : Except Failed α :=
  r.mapError fun e => (e, s)

/-- The contents of the open part file. -/
def file (s : Sink) : Except Failed Bytes :=
  if s.opened then .ok (s.part.getD []) else s.fail (invalid "archive not open")

/-- `layout.slots[k]`, which panics past the end. -/
def slotAt (s : Sink) (k : Nat) : Except Failed Slot :=
  match s.layout.slots[k]? with
  | some t => .ok t
  | none => s.fail ⟨.panic, "index out of bounds"⟩

def writeAllAt (s : Sink) (d : Bytes) (off : Nat) : Sink :=
  { s with part := some (writeAt (s.part.getD []) off d) }

/-- The writes of a slot's end: its descriptor, with the running checksum. -/
def endSlot (s : Sink) (k : Nat) (slot : Slot) : Sink :=
  let crc := s.crc.finalize
  { s.writeAllAt (slot.descriptor crc) s.pos with
    pos := s.pos + descLen, crcs := s.crcs.set k (some crc), current := none }

/-- The writes of a slot's start: its header. -/
def startSlot (s : Sink) (id k : Nat) (slot : Slot) : Sink :=
  { s.writeAllAt slot.header s.pos with
    pos := s.pos + slot.headerLen, current := some k, last := some id, written := 0,
    crc := Hasher.new, started := s.started + 1 }

/-- The writes of a piece of the current file. -/
def addData (s : Sink) (data : Bytes) : Sink :=
  { s.writeAllAt data s.pos with
    pos := s.pos + data.length, crc := s.crc.update data, written := s.written + data.length }

/-- Writes the descriptor of slot `k`, every byte of it written, and closes it. -/
def finishCurrent (s : Sink) (k : Nat) : Except Failed Sink := do
  let slot ← s.slotAt k
  let _ ← s.file
  .ok (s.endSlot k slot)

def startOver (s : Sink) : Except Failed Sink := do
  let f ← s.file
  .ok { s with
    part := some (setLen f 0), pos := 0, positioned := true, current := none, written := 0,
    last := none, started := 0, crcs := List.replicate s.layout.slots.length none }

/-- A job nobody positioned starts over. -/
def ensurePositioned (s : Sink) : Except Failed Sink :=
  if s.positioned then .ok s else s.startOver

/-- The current file, when another one's first byte comes: it must be whole, and is closed. -/
def closeCurrent (s : Sink) : Except Failed Sink :=
  match s.current with
  | none => .ok s
  | some cur => do
    let t ← s.slotAt cur
    if s.written ≠ t.size then
      let id := t.id
      let size := t.size
      let written := s.written
      s.fail (invalid s!"file {id} ended at {written} of {size} bytes")
    else s.finishCurrent cur

/-- `append`'s branch for a file that is not the current one. -/
def beginFile (s : Sink) (id off k : Nat) (slot : Slot) : Except Failed Sink :=
  if s.last.any (fun l => id ≤ l) then
    -- From the start of a file already written: a retry, not a violation.
    if off = 0 then s.fail (zipRestart s!"file {id} was sent again")
    else s.fail (invalid s!"file {id} arrived out of order")
  else do
    let s ← s.closeCurrent
    if off ≠ 0 then
      s.fail (invalid s!"file {id} starts at offset {off}: a gap in the archive stream")
    else if s.pos ≠ slot.hdrOff then
      let pos := s.pos
      let hdrOff := slot.hdrOff
      s.fail (invalid s!"file {id} would start at {pos} but the layout puts it at {hdrOff}")
    else .ok (s.startSlot id k slot)

/-- The rest of `append`, the file `id` being the current one. -/
def putData (s : Sink) (id k : Nat) (slot : Slot) (data : Bytes) : Except Failed Sink :=
  if slot.size < s.written + data.length then
    s.fail (invalid s!"file {id} wrote past its size")
  else
    let s := s.addData data
    if s.written = slot.size then .ok (s.endSlot k slot) else .ok s

/-- The part of `append` for a non-empty file, the archive being positioned. -/
def appendFile (s : Sink) (id off : Nat) (data : Bytes) : Except Failed Sink :=
  match s.layout.byId id with
  | none => s.fail ⟨.panic, "by_id has no such file"⟩
  | some k => do
    let slot ← s.slotAt k
    let _ ← s.file
    if s.current ≠ some k then
      let s ← s.beginFile id off k slot
      s.putData id k slot data
    else if off = 0 ∧ 0 < s.written then s.fail (zipRestart s!"file {id} was sent again")
    else if off ≠ s.written then
      let written := s.written
      s.fail (invalid s!"file {id} wrote at offset {off} but the archive is at {written}")
    else s.putData id k slot data

def append (s : Sink) (id off : Nat) (data : Bytes) : Except Failed Sink :=
  match s.m with
  | none => s.fail (invalid "data before the manifest")
  | some m =>
    match (m.entry id).filter fun e => e.kind = .file with
    | none => s.fail (invalid s!"data for {id}, which is not a file")
    | some e =>
      if e.size = 0 then
        -- Written at `finish`; the receiver's up-front empty write lands here.
        if data = [] then .ok s else s.fail (invalid s!"data for empty file {id}")
      else do
        let s ← s.ensurePositioned
        s.appendFile id off data

def writeAt_ (s : Sink) (id off : Nat) (data : Bytes) : Except Failed Sink := s.append id off data

def writeWhole (s : Sink) (id : Nat) (data : Bytes) : Except Failed Sink := s.append id 0 data

/-- Opens the part file without truncating it. -/
def prepare (checkPath : String → Option String) (s : Sink) (m : Manifest) :
    Except Failed Sink := do
  s.lift (checkShape checkPath m s.single)
  let layout ← s.lift (Layout.build m s.single s.base)
  .ok { s with
    part := some (s.part.getD []), m := some m, layout := layout, opened := true,
    crcs := List.replicate layout.slots.length none, pos := 0, positioned := false,
    current := none, written := 0, last := none, started := 0 }

/-- Finishes a file that was whole but unfinished at a resume; any other commit does nothing. -/
def commit (s : Sink) (id : Nat) : Except Failed Sink :=
  match s.layout.byId id with
  | none => .ok s
  | some k => do
    let slot ← s.slotAt k
    if s.current = some k ∧ s.written = slot.size then s.finishCurrent k else .ok s

end Sink

/-! ## Resume -/

/-- Runs of bytes, each from its start to before its end. -/
abbrev RangeSet := List (Nat × Nat)

/-- The recorded parts of non-empty files, in archive order: slot, id and runs. -/
def partsOf (l : Layout) (durable : BTreeMap Nat RangeSet) : List (Nat × Nat × RangeSet) :=
  (durable.entries.filterMap fun p => (l.byId p.1).map fun k => (k, p.1, p.2)).insertionSort
    fun a b => a.1 ≤ b.1

/-- What `position` reads off the parts. -/
structure Cut where
  cut : Nat
  need : Nat
  partialBytes : Nat := 0
  inFlight : Option Nat := none
  whole : List Nat := []
  deriving DecidableEq, Repr

/-- The loop over the parts, `j` of them behind it: all but the last are whole, the last one
is a prefix. -/
def scanParts (l : Layout) (k : Nat) :
    Nat → List (Nat × Nat × RangeSet) → Cut → Except IoError Cut
  | _, [], c => .ok c
  | j, (pk, id, rs) :: rest, c =>
    if pk ≠ k + j then .error (invalid s!"file {id} is partly durable out of order")
    else match rs, l.slots[pk]? with
      | [(0, x)], some slot =>
        if slot.size < x then .error (invalid s!"file {id} is longer than its size")
        else if rest ≠ [] then
          if x ≠ slot.size then
            .error (invalid s!"file {id} is partly durable but not the last in flight")
          else
            scanParts l k (j + 1) rest
              { c with whole := c.whole ++ [pk], need := slot.dataOff + slot.size }
        else
          scanParts l k (j + 1) rest
            { c with
              partialBytes := x, cut := slot.dataOff + x, need := slot.dataOff + x,
              inFlight := some pk }
      | _, _ => .error (invalid s!"file {id}'s durable bytes are not a prefix")

/-- The header of an entry as the file has it, or nothing when it is another one. -/
def headerStands (f : Bytes) (t : Slot) : Except IoError Bool :=
  match readAt f t.hdrOff t.headerLen with
  | none => .error eof
  | some got => .ok (got = t.header)

/-- The checksums of the finished entries, read from their descriptors. -/
def readFinished (f : Bytes) :
    Nat → List Slot → List (Option UInt32) → Except IoError (List (Option UInt32))
  | _, [], crcs => .ok crcs
  | i, t :: ts, crcs => do
    let stands ← headerStands f t
    match readAt f (t.end_ - descLen) descLen with
    | none => .error eof
    | some desc =>
      let crc := Slot.crcOf desc
      let id := t.id
      if stands = false ∨ desc ≠ t.descriptor crc then
        .error (invalid s!"entry {id} is not what the archive recorded")
      else readFinished f (i + 1) ts (crcs.set i (some crc))

/-- The checksum of the first `total` bytes from `dataOff` on, read back a buffer at a time;
`total` rounds are enough. -/
def rebuildCrc (f : Bytes) (dataOff total : Nat) : Nat → Nat → Hasher → Except IoError Hasher
  | 0, _, h => .ok h
  | fuel + 1, at_, h =>
    if at_ < total then
      let n := min (total - at_) readback
      match readAt f (dataOff + at_) n with
      | none => .error eof
      | some buf => rebuildCrc f dataOff total fuel (at_ + n) (h.update buf)
    else .ok h

/-- The header of an entry whose bytes are read back, and the checksum of its first `total`
bytes. -/
def readBack (f : Bytes) (t : Slot) (total : Nat) : Except IoError Hasher := do
  let stands ← headerStands f t
  let id := t.id
  if stands = false then .error (invalid s!"entry {id} has a different header")
  else rebuildCrc f t.dataOff total total 0 Hasher.new

/-- Whole files without a `Done`: their checksums are rebuilt and their descriptors written. -/
def closeWhole : List Nat → Sink → List (Option UInt32) →
    Except Failed (Sink × List (Option UInt32))
  | [], s, crcs => .ok (s, crcs)
  | wk :: rest, s, crcs => do
    let t ← s.slotAt wk
    let f ← s.file
    let h ← s.lift (readBack f t t.size)
    closeWhole rest (s.writeAllAt (t.descriptor h.finalize) (t.dataOff + t.size))
      (crcs.set wk (some h.finalize))

namespace Sink

/-- The last part of `position`: the file in flight is read back, the file cut. -/
def cutTo (s : Sink) (k : Nat) (c : Cut) (crcs : List (Option UInt32)) : Except Failed Sink := do
  let f ← s.file
  let finished := k + c.whole.length
  match c.inFlight with
  | some pk =>
    let t ← s.slotAt pk
    let h ← s.lift (readBack f t c.partialBytes)
    .ok { s with
      part := some (setLen f c.cut), pos := c.cut, positioned := true, current := some pk,
      written := c.partialBytes, crc := h, crcs := crcs, last := some t.id,
      started := finished + 1 }
  | none =>
    .ok { s with
      part := some (setLen f c.cut), pos := c.cut, positioned := true, current := none,
      written := c.partialBytes, crc := Hasher.new, crcs := crcs,
      last := if finished = 0 then none else s.layout.slots[finished - 1]?.map Slot.id,
      started := finished }

/-- `position` with `k` finished files and the given parts after them. -/
def positionAt (s : Sink) (f : Bytes) (k : Nat) (parts : List (Nat × Nat × RangeSet)) :
    Except Failed Sink := do
  let slots := s.layout.slots
  let done := (slots.take k).getLast?.elim 0 Slot.end_
  let c ← s.lift (scanParts s.layout k 0 parts { cut := done, need := done })
  let c := match c.inFlight, c.whole.getLast? with
    | none, some wk => { c with cut := slots[wk]?.elim c.cut Slot.end_ }
    | _, _ => c
  if f.length < c.need then
    let len := f.length
    let need := c.need
    s.fail (invalid s!"the archive is {len} bytes; the journal needs {need}")
  else do
    let crcs ← s.lift (readFinished f 0 (slots.take k) (List.replicate slots.length none))
    let (s, crcs) ← closeWhole c.whole s crcs
    s.cutTo k c crcs

/-- Cuts the archive back to what the journal holds. -/
def position (s : Sink) (done : Finset Nat) (durable : BTreeMap Nat RangeSet) :
    Except Failed Sink := do
  let f ← s.file
  if done = ∅ ∧ durable.entries = [] then s.startOver
  else
    -- Files are finished in manifest order, so the finished non-empty files come first.
    let k := (s.layout.slots.takeWhile fun t => t.id ∈ done).length
    let finishedNonempty := (done.filter fun i => (s.layout.byId i).isSome).card
    if finishedNonempty ≠ k then
      s.fail (invalid
        s!"{finishedNonempty} finished files are not the first {k} of the archive")
    else s.positionAt f k (partsOf s.layout durable)

/-- The last writes of `finish`: the tail, and the rename over the destination. -/
def writeTail (s : Sink) : Sink :=
  let tail := tailBytes s.layout (s.crcs.filterMap id) s.pos
  let f := writeAt (s.part.getD []) s.pos tail
  { s with part := none, dest := some (setLen f (s.pos + tail.length)), finished := true }

/-- Completes the archive and moves it to its destination. -/
def finish (s : Sink) : Except Failed Sink :=
  match s.m with
  | none => s.fail (invalid "finished before the manifest")
  | some _ =>
    match s.current with
    | some cur => do
      let t ← s.slotAt cur
      let id := t.id
      let size := t.size
      let written := s.written
      s.fail (invalid s!"file {id} ended at {written} of {size}")
    | none =>
      if s.started ≠ s.layout.slots.length ∨ s.crcs.any Option.isNone then
        let started := s.started
        let n := s.layout.slots.length
        s.fail (invalid s!"the archive holds {started} of {n} files")
      else do
        let _ ← s.file
        let s ← s.ensurePositioned
        .ok s.writeTail

end Sink

end Ps5Upload.ZipStored
