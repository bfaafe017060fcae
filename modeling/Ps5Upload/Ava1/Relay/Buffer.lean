import Mathlib.Data.Finset.Basic
import Mathlib.Data.Prod.Lex
import Ps5Upload.Ava1.ZipStored.Layout
import Ps5Upload.Lib.BTreeMap
import Ps5Upload.Lib.Runs

/-!
# The relay buffer

The model of `Relay`, `Turn` and `RelayReader` in `engine/crates/ps5upload-ava1/src/relay.rs`.
Chunks of the files one console sends are put into a buffer by several writers at once, and one
reader at a time takes them out for the other console, file after file.

Both `put` and `take` hold the lock for one turn of their loop and then wait on a condition
variable, so `putTurn` and `takeTurn` are what a call does between two waits, and a step of
`World` is one such turn.  A call that waits is kept in the world (`puts`, `Reader.parked`)
with the note whether it has been notified since; it may run again at any time, for a wait
also ends by itself.  Time is a choice of the step: `late` says that the deadline has passed.

`RangeSet` is a set of byte positions.  `wanted` loses a position by `swap_remove`, which may
change the order of the rest; nothing looks at the order.
-/

namespace Ps5Upload.RelayBuffer

open ByteFile
open ZipStored (Manifest Entry)

/-! ## What the relay expects -/

/-- A set of byte positions of one file. -/
abbrev RangeSet := Nat → Bool

def RangeSet.empty : RangeSet := fun _ => false

/-- The positions of a file of this size that are not in the set. -/
def RangeSet.missing (r : RangeSet) (size : Nat) : RangeSet := fun p => p < size && !r p

/-- The set has every position from `start` to before `end_`. -/
def RangeSet.covers (r : RangeSet) (start end_ : Nat) : Bool :=
  (List.range' start (end_ - start)).all r

/-- Files held whole, and the parts held of others. -/
structure Need where
  done : Finset Nat
  part : BTreeMap Nat RangeSet

inductive ErrorKind where
  | invalidData
  | brokenPipe
  | timedOut
  | interrupted
  deriving DecidableEq, Repr

structure Error where
  kind : ErrorKind
  why : String
  deriving DecidableEq, Repr

def relayCap : Nat := 64 <<< 20

/-- A relay without its locked state. -/
structure Relay where
  cap : Nat
  count : Nat
  /-- The positions still to come, for each file that has any to come. -/
  expected : Nat → Option RangeSet

namespace Relay

def new (m : Manifest) (skip : Need) : Relay where
  cap := relayCap
  count := m.entries.length
  expected id :=
    match m.entry id with
    | none => none
    | some e =>
      if e.kind ≠ .file ∨ id ∈ skip.done then none
      else some (((skip.part.get id).getD .empty).missing e.size)

def withCap (r : Relay) (cap : Nat) : Relay := { r with cap }

def permitted (r : Relay) (id off : Nat) : Bool :=
  match r.expected id with
  | none => false
  | some set => set.covers off (off + 1)

end Relay

/-! ## The buffer -/

/-- A file and a position in it, in the order of files and then of positions. -/
abbrev Key := Nat ×ₗ Nat

/-- A piece of a file, as one `put` brings it. -/
structure Chunk where
  id : Nat
  off : Nat
  data : Bytes
  deriving DecidableEq, Repr

def Chunk.key (c : Chunk) : Key := toLex (c.id, c.off)

/-- The chunk has the byte at this position. -/
def Chunk.holds (c : Chunk) (id p : Nat) : Prop :=
  c.id = id ∧ c.off ≤ p ∧ p < c.off + c.data.length

instance (c : Chunk) (id p : Nat) : Decidable (c.holds id p) :=
  inferInstanceAs (Decidable (_ ∧ _ ∧ _))

structure State where
  chunks : BTreeMap Key Bytes
  bytes : Nat
  failed : Bool
  sourceDone : Bool
  /-- Offsets a reader is parked on. -/
  wanted : List (Nat × Nat)

def State.new : State :=
  { chunks := ∅, bytes := 0, failed := false, sourceDone := false, wanted := [] }

/-- What one turn of a waiting loop comes to. -/
inductive Polled (α : Type) where
  | ready (r : Except Error α)
  | waits
  deriving DecidableEq

/-- What `put` says before it looks at the buffer, if it says anything. -/
def putCheck (r : Relay) (c : Chunk) : Option (Except Error Unit) :=
  if c.data = [] ∧ c.off = 0 ∧ c.id < r.count then some (.ok ())
  else if r.count ≤ c.id ∨ r.permitted c.id c.off = false then
    some (.error ⟨.invalidData, s!"unexpected relay data {c.id}@{c.off}"⟩)
  else if r.cap < c.data.length then
    some (.error ⟨.invalidData, "relay frame exceeds capacity"⟩)
  else none

/-- A reader is parked on a byte of the chunk. -/
def needed (s : State) (c : Chunk) : Bool := s.wanted.any fun w => c.holds w.1 w.2

/-- The chunk goes into the buffer, in the place of one with the same start. -/
def State.store (s : State) (c : Chunk) : State :=
  { s with
    chunks := s.chunks.insert c.key c.data
    bytes := s.bytes - ((s.chunks.get c.key).map List.length).getD 0 + c.data.length }

/-- One turn of the loop of `put`. -/
def putTurn (r : Relay) (s : State) (c : Chunk) (late : Bool) : Polled Unit × State :=
  if s.failed then (.ready (.error ⟨.brokenPipe, "relay stopped"⟩), s)
  else if s.bytes + c.data.length ≤ r.cap ∨ needed s c then (.ready (.ok ()), s.store c)
  else if late then
    (.ready (.error ⟨.timedOut, s!"relay put timed out at {c.id}@{c.off}"⟩), s)
  else (.waits, s)

/-- The buffered chunk with this byte: the last one to start at or before it, if it is long
enough. -/
def State.find (s : State) (id off : Nat) : Option (Key × Bytes) :=
  (s.chunks.lastLe (toLex (id, off))).filter fun p =>
    (ofLex p.1).1 = id && off - (ofLex p.1).2 < p.2.length

/-- The buffer without a chunk. -/
def State.remove (s : State) (k : Key) (data : Bytes) : State :=
  { s with chunks := s.chunks.erase k, bytes := s.bytes - data.length }

/-- The reader no longer waits for a position. -/
def State.unwant (s : State) (id off : Nat) : State :=
  { s with wanted := s.wanted.erase (id, off) }

/-- One turn of the loop of `take`. -/
def takeTurn (s : State) (id off : Nat) (late : Bool) : Polled Bytes × State :=
  match s.find id off with
  | some (k, data) =>
    (.ready (.ok (data.drop (off - (ofLex k).2))), (s.remove k data).unwant id off)
  | none =>
    if s.failed ∨ s.sourceDone then
      (.ready (.error ⟨.brokenPipe, s!"relay ended before {id}@{off}"⟩), s.unwant id off)
    else if late then
      (.ready (.error ⟨.timedOut, s!"relay take timed out at {id}@{off}"⟩), s.unwant id off)
    else (.waits, s)

/-! ## Turns -/

/-- The files the destination reads, in the order it reads them. -/
def turnIds (m : Manifest) (bNeed : Need) : List Nat :=
  (List.range m.entries.length).filter fun id =>
    (m.entry id).any (fun e => e.kind = .file) && id ∉ bNeed.done

/-- One turn of the loop of `Turn::enter`; the last text goes on with the time that passed. -/
def enter (ids : List Nat) (next id : Nat) (failed cancelled late : Bool) : Polled Unit :=
  if ids[next]? = some id then .ready (.ok ())
  else if failed then .ready (.error ⟨.brokenPipe, "relay stopped"⟩)
  else if (match ids[next]? with | none => true | some i => id < i) then
    .ready (.error ⟨.invalidData, s!"relay read order passed file {id}"⟩)
  else if cancelled then .ready (.error ⟨.interrupted, "relay cancelled"⟩)
  else if late then
    .ready (.error ⟨.timedOut, s!"relay read order stalled before file {id}: no progress for"⟩)
  else .waits

/-- The turn after a file is dropped. -/
def leave (ids : List Nat) (next id : Nat) : Nat :=
  if ids[next]? = some id then next + 1 else next

/-! ## Readers and writers -/

/-- A call of `read_at` that waits in `take`. -/
structure Parked where
  off : Nat
  len : Nat
  woken : Bool
  deriving DecidableEq, Repr

structure Reader where
  id : Nat
  pending : Bytes := []
  pendingOff : Nat := 0
  parked : Option Parked := none
  deriving DecidableEq, Repr

/-- A call of `put` that waits. -/
structure Waiting where
  chunk : Chunk
  woken : Bool
  deriving DecidableEq, Repr

/-- The relay, the one reader there is and the writers that wait.  `accepted` lists the chunks
whose `put` returned, `reads` what `read_at` returned, and `cursor` is where the reader is: the
position after the last byte it was given, or the start of the file after one it dropped. -/
structure World where
  state : State
  next : Nat
  reader : Option Reader
  puts : List Waiting
  cursor : Key
  accepted : List Chunk
  reads : List (Nat × Nat × Bytes)

def World.new : World :=
  { state := .new, next := 0, reader := none, puts := [], cursor := toLex (0, 0), accepted := [],
    reads := [] }

namespace World

/-- `notify_all`. -/
def notifyAll (w : World) : World :=
  { w with
    puts := w.puts.map fun p => { p with woken := true }
    reader := w.reader.map fun rd =>
      { rd with parked := rd.parked.map fun p => { p with woken := true } } }

/-- A turn of a `put` that is not in `puts`. -/
def runPut (r : Relay) (w : World) (c : Chunk) (late : Bool) : World :=
  match putTurn r w.state c late with
  | (.ready (.ok _), s) => { w with state := s, accepted := c :: w.accepted }.notifyAll
  | (.ready (.error _), _) => w
  | (.waits, _) => { w with puts := ⟨c, false⟩ :: w.puts }

/-- What `read_at` copies out of the pending bytes. -/
def serve (w : World) (rd : Reader) (off len : Nat) : World :=
  let out := (rd.pending.drop (off - rd.pendingOff)).take len
  { w with
    reader := some { rd with parked := none }
    cursor := toLex (rd.id, off + out.length)
    reads := w.reads ++ [(rd.id, off, out)] }

/-- A turn of the reader's `take`, with the position among the wanted ones. -/
def runTake (w : World) (rd : Reader) (off len : Nat) (late : Bool) : World :=
  match takeTurn w.state rd.id off late with
  | (.ready (.ok data), s) =>
    { w with state := s }.notifyAll.serve { rd with pending := data, pendingOff := off } off len
  | (.ready (.error _), s) => { w with state := s, reader := some { rd with parked := none } }
  | (.waits, _) => { w with reader := some { rd with parked := some ⟨off, len, false⟩ } }

end World

/-- A turn of one of the parties. -/
inductive Action where
  /-- A writer calls `put`. -/
  | put (c : Chunk) (late : Bool)
  /-- The `i`-th waiting `put` runs again. -/
  | putAgain (i : Nat) (late : Bool)
  /-- The sender opens a file. -/
  | open_ (id : Nat) (cancelled late : Bool)
  /-- The reader calls `read_at` with a buffer of this length. -/
  | readAt (off len : Nat) (late : Bool)
  /-- The reader's `take` runs again. -/
  | takeAgain (late : Bool)
  /-- The reader is dropped. -/
  | drop
  | fail
  | sourceEnded (ok : Bool)
  deriving DecidableEq, Repr

/-- The call of `read_at` the reader makes. -/
def World.readAt (r : Relay) (w : World) (rd : Reader) (off len : Nat) (late : Bool) : World :=
  if len = 0 then w
  else if off < rd.pendingOff ∨ rd.pendingOff + rd.pending.length ≤ off then
    if r.permitted rd.id off = false then w
    else
      { w with state.wanted := w.state.wanted ++ [(rd.id, off)] }.notifyAll.runTake rd off len late
  else w.serve rd off len

def World.fail (w : World) : World := { w with state.failed := true }.notifyAll

/-- The state after a turn; `none` when the party has no such turn.  A file is opened only
while no reader is alive. -/
def step (r : Relay) (ids : List Nat) (w : World) : Action → Option World
  | .put c late =>
    match putCheck r c with
    | some _ => some w
    | none => some (w.runPut r c late)
  | .putAgain i late =>
    match w.puts[i]? with
    | none => none
    | some p => some ({ w with puts := w.puts.eraseIdx i }.runPut r p.chunk late)
  | .open_ id cancelled late =>
    match w.reader with
    | some _ => none
    | none =>
      match enter ids w.next id w.state.failed cancelled late with
      | .ready (.ok _) => some { w with reader := some { id } }
      | _ => some w
  | .readAt off len late =>
    match w.reader with
    | none => none
    | some rd =>
      match rd.parked with
      | some _ => none
      | none => some (w.readAt r rd off len late)
  | .takeAgain late =>
    match w.reader with
    | none => none
    | some rd =>
      match rd.parked with
      | none => none
      | some p => some (w.runTake rd p.off p.len late)
  | .drop =>
    match w.reader with
    | none => none
    | some rd =>
      match rd.parked with
      | some _ => none
      | none =>
        some { w with
          reader := none, next := leave ids w.next rd.id, cursor := toLex (rd.id + 1, 0) }
  | .fail => some w.fail
  | .sourceEnded ok =>
    if ok then some { w with state.sourceDone := true }.notifyAll else some w.fail

end Ps5Upload.RelayBuffer
