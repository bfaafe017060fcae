import Mathlib.Data.List.Basic
import Mathlib.Tactic.Common
import Ps5Upload.Engine.MeshDrive.Plan
import Ps5Upload.Lib.Bytes

/-!
# Mesh Drive: a pass, one read or write at a time

The model of `Pass::run` in `engine/crates/ps5upload-engine/src/mesh_drive.rs`, with the parts
of `LocalSide` and `ConsoleSide` it goes through.  A state holds the two folders, their trashes,
the base and where the pass is; an action is one read or write of the pass, with what the
outside answers (`Outcome`), or a change a user makes to one of the folders.  Each call of a
side that reads or changes a folder is an action of its own, so that a user's change may fall
between any two of them:

* `list` and `plan` are the two listings a pass starts with; the second one also loads the base,
  plans and leaves out what the filters leave out;
* `go` is the next step of the pass: of a batch of uploads, of the operation at hand (`opStep`,
  whose places are `At`), of the look at both sides after it, or of the refresh of the base
  from two more listings at the end;
* `halt` ends the loop early: the pass was stopped, a console went away, or the drive's lock
  was lost; `die` ends the whole engine, wherever the pass is;
* a pass that was not cut short then looks at the folders its deletes emptied (`pruning`): one on
  this device goes with the clutter in it, one on a console is moved to the trash.

A step that can fail may do so before or after its effect.  Passes that return before they list
anything (no marker, an install, nothing new) change nothing and are left out.
-/

namespace Ps5Upload.MeshDrive

open ByteFile

/-! ## Folders -/

/-- A file of a drive's folder. -/
structure File where
  bytes : Bytes
  mtime : Int
  deriving DecidableEq, Repr

/-- What a listing or a status call says of a file. -/
def File.stat (f : File) : Meta := ⟨f.bytes.length, f.mtime⟩

abbrev Folder := BTreeMap Path File

/-- Both sides, what they agreed on as the pass has it, and as it was last saved.  A folder is
here with the files that a listing leaves out; a trash has a folder for each day. -/
structure Sides where
  member : Folder
  hub : Folder
  memberTrash : BTreeMap String Folder
  hubTrash : BTreeMap String Folder
  base : Base
  saved : Base
  deriving DecidableEq

def Sides.folder (s : Sides) : Side → Folder
  | .member => s.member
  | .hub => s.hub

def Sides.setFolder (s : Sides) (side : Side) (f : Folder) : Sides :=
  match side with
  | .member => { s with member := f }
  | .hub => { s with hub := f }

def Sides.trash (s : Sides) : Side → BTreeMap String Folder
  | .member => s.memberTrash
  | .hub => s.hubTrash

def Sides.setTrash (s : Sides) (side : Side) (t : BTreeMap String Folder) : Sides :=
  match side with
  | .member => { s with memberTrash := t }
  | .hub => { s with hubTrash := t }

/-- The trash of one day. -/
def Sides.dayTrash (s : Sides) (side : Side) (day : String) : Folder :=
  ((s.trash side).get day).getD ∅

def Sides.stat (s : Sides) (side : Side) (p : Path) : Option Meta :=
  ((s.folder side).get p).map File.stat

/-- `path` is `at_`, or something inside it. -/
def atOrUnder (path at_ : Path) : Bool :=
  decide (path = at_) || (match at_.toList.isPrefixOf? path.toList with
    | some ('/' :: _) => true
    | _ => false)

def components (rel : Path) : List (List Char) := rel.toList.splitOn '/'

/-- The clutter operating systems leave. -/
def isOsClutter (name : List Char) : Bool :=
  [".DS_Store".toList, "Thumbs.db".toList, "desktop.ini".toList].contains name ||
    "._".toList.isPrefixOf name

/-- Names a sync never touches: its own markers and trash, half-written files, clutter. -/
def ignored (name : List Char) : Bool :=
  [".ps5upload-mesh".toList, ".ps5upload-trash".toList, ".ps5upload-mesh-tmp".toList,
    ".ps5upload-mesh-base".toList].contains name || isOsClutter name ||
    [".partial".toList, ".ps5upload-tmp".toList, ".ava-part".toList].any (·.isSuffixOf name)

/-- A side as a listing shows it: without ignored names, and what is at or under an unread path
is not known. -/
def walk (f : Folder) (unread : List Path) : Listing :=
  (f.filter fun p => ¬ (components p).any ignored ∧ ¬ unread.any (atOrUnder p)).map File.stat

/-- A file or a folder has this name; `others` are those of empty folders and links. -/
def inUse (f : Folder) (others : List Path) (q : Path) : Bool :=
  f.keys.any (atOrUnder · q) ∨ q ∈ others

/-- The day folders named by ten characters that come before `cutoff` go. -/
def emptyTrash (trash : BTreeMap String Folder) (cutoff : String) : BTreeMap String Folder :=
  trash.filter fun day => ¬ (day.length = 10 ∧ day < cutoff)

/-! ## The filters -/

/-- What a pass is run with: the member's side and the hash of both. -/
structure Cfg (δ : Type) where
  device : String
  /-- The member's folder is on a second console, not on this device. -/
  console : Bool
  /-- BLAKE3. -/
  hash : Bytes → δ
  caseInsensitive : Bool
  /-- `to_lowercase`. -/
  low : Path → Path
  windows : Bool

/-- What a pass finds besides the folders: the time, the paths that could not be read, those
that failed too often and rest, whether a person has confirmed many deletes, and for the first
pass through a linked console what the folder agreed with its own (`seed`). -/
structure Env where
  now : Nat
  unread : List Path := []
  resting : List Path := []
  confirmed : Bool := false
  seed : Option Base := none
  deriving DecidableEq

/-- What a pass through a linked console starts from, the first time: a file of the size agreed
on counts as agreed on. -/
def seedViaBase (home : Base) (viaHub : Listing) : Base :=
  home.filterMap fun path agreed => (viaHub.get path).map fun there =>
    ⟨agreed.m, if there.size = agreed.h.size then there else agreed.h⟩

/-- What a pass takes as agreed. -/
def Env.base (e : Env) (saved : Base) (hub : Listing) : Base :=
  match e.seed with
  | none => saved
  | some home => seedViaBase home hub

def settleSecs : Int := 10
def trashDays : Int := 30

/-- No path that leaves the folder, whatever a listing said. -/
def safeRel (rel : Path) : Bool :=
  rel.toList ≠ [] ∧ rel.toList.head? ≠ some '/' ∧
    (components rel).all fun c => c ≠ [] ∧ c ≠ ['.'] ∧ c ≠ ['.', '.'] ∧ '\\' ∉ c

/-- A name Windows cannot hold. -/
def unstorableName (c : List Char) : Bool :=
  let stem := (c.takeWhile (· ≠ '.')).map Char.toUpper
  c.getLast? = some '.' ∨ c.getLast? = some ' ' ∨
    c.any (fun ch => ch ∈ "<>:\"|?*".toList ∨ ch.toNat < 32) ∨
    String.ofList stem ∈ ["CON", "PRN", "AUX", "NUL"] ∨
    ((String.ofList (stem.take 3) = "COM" ∨ String.ofList (stem.take 3) = "LPT") ∧
      stem.length = 4 ∧ (stem.getLast?.any Char.isDigit))

variable {δ : Type} [DecidableEq δ]

namespace Cfg

variable (c : Cfg δ)

/-- A name this side cannot hold. -/
def unstorable (rel : Path) : Bool :=
  ¬ c.console ∧ c.windows ∧ (components rel).any unstorableName

def ignoresCase : Bool := ¬ c.console ∧ c.caseInsensitive

/-- The last of the hub's paths with these letters. -/
def lastSpelling (hub : Listing) (letters : Path) : Option Path :=
  hub.keys.reverse.find? fun h => c.low h = letters

/-- Paths here and on the console that differ only in case, where case is ignored. -/
def caseClash (member hub : Listing) (p : Path) : Bool :=
  c.ignoresCase ∧ member.keys.any fun k =>
    (c.lastSpelling hub (c.low k)).any fun h => h ≠ k ∧ (p = k ∨ p = h)

/-- A path of the hub that differs only in case from an earlier one. -/
def caseTwin (hub : Listing) (p : Path) : Bool :=
  c.ignoresCase ∧ p ∈ hub.keys ∧ hub.keys.any fun k => k < p ∧ c.low k = c.low p

/-- Still being written: left for the next pass. -/
def settling (e : Env) (member : Listing) (p : Path) : Bool :=
  ¬ c.console ∧ (member.get p).any fun m =>
    0 ≤ (e.now : Int) - m.mtime ∧ (e.now : Int) - m.mtime < settleSecs

/-- The operations that are not left out for what the path is called or how it fared. -/
def keeps (e : Env) (member hub : Listing) (o : Op) : Bool :=
  ¬ (o.path ∈ e.resting ∨ c.caseClash member hub o.path ∨ e.unread.any (atOrUnder o.path) ∨
    (o.fetches ∧ (c.unstorable o.path ∨ c.caseTwin hub o.path)))

/-- What is left of the plan.  A pass that starts from a guess deletes nothing there. -/
def retained (e : Env) (member hub : Listing) (base : Base) : List Op :=
  let ops := (plan member hub base).filter fun o =>
    safeRel o.path ∧ ¬ c.settling e member o.path
  let ops := ops.filter (c.keeps e member hub)
  let ops := ops.filter fun o => ¬ (e.seed.isSome ∧ o.deletesHub)
  if tooManyDeletes ops base.entries.length ∧ ¬ e.confirmed then
    ops.filter fun o => ¬ o.isDelete
  else ops

end Cfg

/-! ## A pass -/

/-- Why the loop over the operations ended early. -/
inductive Halt where
  /-- Another device took the drive's lock. -/
  | lost
  /-- Stopped, or a console went away. -/
  | stopped
  deriving DecidableEq, Repr

/-- What a pass keeps while it runs. -/
structure Run where
  /-- The listings it started from; `member` loses what a conflict renames. -/
  member : Listing
  hub : Listing
  /-- The operations after the one at hand. -/
  ops : List Op
  now : Nat
  /-- It started from a guess. -/
  seeded : Bool
  batched : List Path := []
  batching : Bool := ¬ seeded
  /-- Uploaded while being edited. -/
  edited : List Path := []
  /-- What each operation left on both sides. -/
  touched : BTreeMap Path (Option Meta × Option Meta) := ∅
  /-- Uploads, downloads, deletes and conflicts done. -/
  count : Nat := 0
  /-- What was deleted, the last first. -/
  gone : List (Side × Path) := []
  halt : Option Halt := none
  deriving DecidableEq

def Run.today (r : Run) : String := (dateParts r.now).1
def Run.stamp (r : Run) : String := (dateParts r.now).2
def Run.cutoff (r : Run) : String := (dateParts (r.now - trashDays * 86400)).1

/-- Where the operation at hand is. -/
inductive At where
  | start
  /-- An upload over a file that is agreed on by a guess: that one goes to the trash first. -/
  | upTrash (before : Option Meta)
  /-- An upload: the status before it has been read. -/
  | upBefore (before : Option Meta)
  | upRead (before : Option Meta) (bytes : Bytes)
  | upSent (before : Option Meta)
  | upAfter (before : Option Meta)
  /-- An upload sent in a batch: the status has been read. -/
  | batchAfter
  /-- A fetch, never over a file that is no longer `expect`. -/
  | fetch (expect : Option Meta)
  | fetched (expect : Option Meta) (bytes : Bytes)
  | checked (expect : Option Meta) (bytes : Bytes)
  | cleared (bytes : Bytes)
  | placed
  /-- A comparison: the member's hash has been taken, of these bytes. -/
  | hashed (bytes : Bytes)
  /-- A comparison that found a difference. -/
  | differ
  /-- The name of the conflict copy has been picked. -/
  | copy (name : Path)
  deriving DecidableEq

/-- Where the pass is. -/
inductive Pc where
  | idle
  | listed (member : Listing) (unread : List Path)
  | next (r : Run)
  | batch (r : Run) (chunk rest : List Path)
  | batchRead (r : Run) (chunk rest : List Path) (p : Path) (bytes : Bytes)
  | op (r : Run) (o : Op) (agreed : Option BaseEntry) (at_ : At)
  | touch (r : Run) (p : Path)
  | touchHub (r : Run) (p : Path) (m : Option Meta)
  | closing (r : Run)
  | closingHub (r : Run) (sideNow : Listing)
  /-- The folders that the deletes emptied, each with its side. -/
  | pruning (r : Run) (todo : List (Side × Path))
  /-- The clutter in a folder of this device goes. -/
  | clearing (r : Run) (todo : List (Side × Path)) (dir : Path) (names : List (List Char))
  /-- A folder on a console goes to the trash; `again` when one name has failed. -/
  | moving (r : Run) (todo : List (Side × Path)) (side : Side) (dir dest : Path) (again : Bool)
  | saving (r : Run)
  deriving DecidableEq

structure World where
  sides : Sides
  pc : Pc
  deriving DecidableEq

inductive Fault where
  | none
  | before
  | after
  deriving DecidableEq, Repr

/-- What the outside answers to one step: whether it fails, the time a file it places gets, a
new id should one be asked for, what a listing could not read, whether saving the base on the
way fails, the names in use by empty folders and links, and what a console lists of a folder. -/
structure Outcome where
  fault : Fault := .none
  mtime : Int := 0
  newId : String := ""
  unread : List Path := []
  unsaved : Bool := false
  others : List Path := []
  shown : List (List Char) := []
  deriving DecidableEq, Repr

inductive Act where
  | edit (side : Side) (p : Path) (f : Option File)
  | list (unread : List Path)
  | plan (e : Env)
  | go (x : Outcome)
  | halt (h : Halt)
  | die
  deriving DecidableEq

/-- What a step of an operation comes to. -/
inductive OpResult where
  | goto (s : Sides) (r : Run) (at_ : At)
  | ok (s : Sides) (r : Run)
  | err (s : Sides) (r : Run)

/-- A step that changes a folder: it may fail with nothing done, or with everything done. -/
def OpResult.effect (x : Outcome) (s s' : Sides) (r : Run) (next : OpResult) : OpResult :=
  match x.fault with
  | .none => next
  | .before => .err s r
  | .after => .err s' r

/-- A step that reads a file: it fails when there is none. -/
def OpResult.read (x : Outcome) (s : Sides) (r : Run) (f : Option File)
    (next : File → OpResult) : OpResult :=
  match x.fault, f with
  | .none, some f => next f
  | _, _ => .err s r

/-- The agreement on `p`, when both sides have it. -/
def Sides.record (s : Sides) (p : Path) (m h : Option Meta) : Sides :=
  match m, h with
  | some m, some h => { s with base := s.base.insert p ⟨m, h⟩ }
  | _, _ => s

def Sides.place (s : Sides) (side : Side) (p : Path) (f : File) : Sides :=
  s.setFolder side ((s.folder side).insert p f)

def Sides.remove (s : Sides) (side : Side) (p : Path) : Sides :=
  s.setFolder side ((s.folder side).erase p)

def Sides.forget (s : Sides) (p : Path) : Sides := { s with base := s.base.erase p }

def Run.counted (r : Run) : Run := { r with count := r.count + 1 }

/-- `p` was saved again while it went up. -/
def Run.markEdited (r : Run) (p : Path) : Run := { r with edited := p :: r.edited }

def Run.deleted (r : Run) (side : Side) (p : Path) : Run :=
  { r with count := r.count + 1, gone := (side, p) :: r.gone }

/-- The part of an outcome that says whether the step could begin. -/
def Outcome.first (x : Outcome) : Outcome :=
  { x with fault := if x.fault = .before then .before else .none }

namespace Cfg

variable (c : Cfg δ)

def onConsole : Side → Bool
  | .member => c.console
  | .hub => true

/-- Moves a file into the trash of one day, under a name that nothing there has.  On a console
only files count when the name is picked, and a folder of that name then stops the move. -/
def toTrash (x : Outcome) (s : Sides) (side : Side) (p : Path) (f : File) (day : String) :
    Option Sides :=
  let there := s.dayTrash side day
  let dest := freeName p (fun q =>
    if c.onConsole side then (there.get q).isSome else inUse there x.others q) x.newId
  if c.onConsole side ∧ inUse there x.others dest then none
  else some ((s.remove side p).setTrash side ((s.trash side).insert day (there.insert dest f)))

/-- `trash`, and what follows it. -/
def trashOp (x : Outcome) (s : Sides) (r : Run) (side : Side) (p : Path)
    (next : Sides → OpResult) : OpResult :=
  .read x.first s r ((s.folder side).get p) fun f =>
    match c.toTrash x s side p f r.today with
    | none => .err s r
    | some s' => .effect x s s' r (next s')

/-- The fetched file goes into place; on a console never over another. -/
def placeFetched (x : Outcome) (s : Sides) (r : Run) (p : Path) (bytes : Bytes) : OpResult :=
  if c.console ∧ (s.member.get p).isSome then .err s r
  else
    let s' := s.place .member p ⟨bytes, x.mtime⟩
    .effect x s s' r (.goto s' r .placed)

/-- The name the member's copy of a conflicting file moves to, never one already used there. -/
def conflictCopy (x : Outcome) (s : Sides) (stamp : String) (p : Path) : Path :=
  freeName (conflictName p c.device stamp) (inUse s.member x.others) x.newId

/-- Picks the name of the conflict copy.  A new id is random hex digits: no name in use. -/
def chooseCopy (x : Outcome) (s : Sides) (r : Run) (p : Path) : Option OpResult :=
  let name := c.conflictCopy x s r.stamp p
  if (s.member.get name).isSome ∨ '/' ∈ x.newId.toList then none
  else some (.goto s r (.copy name))

/-- The first step of an operation. -/
def opStart (x : Outcome) (s : Sides) (r : Run) : Op → Option OpResult
  | .upload p =>
    let before := s.stat .member p
    if p ∈ r.batched then
      -- Sent in a batch: what went is what the listing showed.
      some (.goto s (if before ≠ r.member.get p then r.counted.markEdited p else r.counted)
        .batchAfter)
    else if r.seeded ∧ (r.hub.get p).isSome then some (.goto s r (.upTrash before))
    else some (.goto s r (.upBefore before))
  | .download p => some (.goto s r (.fetch (r.member.get p)))
  | .conflict p => c.chooseCopy x s r p
  | .compare p => some (.read x s r (s.member.get p) fun f => .goto s r (.hashed f.bytes))
  | .deleteMember p =>
    some (c.trashOp x s r .member p fun s' => .ok (s'.forget p) (r.deleted .member p))
  | .deleteHub p =>
    some (c.trashOp x s r .hub p fun s' => .ok (s'.forget p) (r.deleted .hub p))
  | .forget p => some (.ok (s.forget p) r)

/-- A later step of an operation on `p`. -/
def opStep (x : Outcome) (s : Sides) (r : Run) (p : Path) : At → Option OpResult
  | .start => none
  | .upTrash before =>
    -- Nothing that may be someone's edit is overwritten.
    some (c.trashOp x s r .hub p fun s' => .goto s' r (.upBefore before))
  | .upBefore before =>
    some (.read x s r (s.member.get p) fun f => .goto s r (.upRead before f.bytes))
  | .upRead before bytes =>
    let s' := s.place .hub p ⟨bytes, x.mtime⟩
    some (.effect x s s' r (.goto s' r.counted (.upSent before)))
  | .upSent before =>
    -- Saved again while it went up: the agreement is on the bytes that went.
    let r := if s.stat .member p ≠ before then r.markEdited p else r
    some (.goto s r (.upAfter before))
  | .upAfter before => some (.ok (s.record p before (s.stat .hub p)) r)
  | .batchAfter => some (.ok (s.record p (r.member.get p) (s.stat .hub p)) r)
  | .fetch expect =>
    some (.read x s r (s.hub.get p) fun f => .goto s r (.fetched expect f.bytes))
  | .fetched expect bytes =>
    if x.fault ≠ .none ∨ s.stat .member p ≠ expect then some (.err s r)
    else some (.goto s r (.checked expect bytes))
  | .checked expect bytes =>
    if c.console ∧ expect.isSome then
      let s' := s.remove .member p
      some (.effect x s s' r (.goto s' r (.cleared bytes)))
    else some (c.placeFetched x s r p bytes)
  | .cleared bytes => some (c.placeFetched x s r p bytes)
  | .placed => some (.ok (s.record p (s.stat .member p) (r.hub.get p)) r.counted)
  | .hashed bytes =>
    some (.read x s r (s.hub.get p) fun f =>
      if c.hash f.bytes = c.hash bytes then
        .ok (s.record p (r.member.get p) (r.hub.get p)) r
      else .goto s r .differ)
  | .differ => c.chooseCopy x s r p
  | .copy name =>
    some (.read x.first s r (s.member.get p) fun f =>
      if c.console ∧ (s.member.get name).isSome then .err s r
      else
        let s' := (s.remove .member p).place .member name f
        .effect x s s' r (.goto s' { r with member := r.member.erase p } (.fetch none)))

end Cfg

/-! ## The loop -/

/-- A pass with its plan made. -/
def Cfg.begin (c : Cfg δ) (e : Env) (member hub : Listing) (base : Base) : Run :=
  { member := member, hub := hub, ops := c.retained e member hub base,
    now := e.now, seeded := e.seed.isSome }

def batchFiles : Nat := 200
def batchBytes : Nat := 512 * 2 ^ 20

/-- The uploads that go in one batch. -/
def batchChunk (member : Listing) : Nat → Nat → List Op → List Path
  | _, _, [] => []
  | n, bytes, o :: ops =>
    if batchFiles ≤ n ∨ batchBytes ≤ bytes then []
    else if o.isUpload then
      o.path :: batchChunk member (n + 1) (bytes + (member.get o.path).elim 0 Meta.size) ops
    else batchChunk member n bytes ops

/-- Progress survives an interrupted pass: the base is saved at every twentieth change. -/
def Sides.checkpoint (s : Sides) (x : Outcome) (r : Run) : Sides :=
  if 0 < r.count ∧ r.count % 20 = 0 ∧ ¬ x.unsaved then { s with saved := s.base } else s

/-- Same size, and times at most two seconds apart. -/
def close (a b : Option Meta) : Bool :=
  match a, b with
  | some a, some b => a.size = b.size ∧ (a.mtime - b.mtime).natAbs ≤ 2
  | _, _ => false

/-- One entry of the base, from the listings at the end. -/
def refreshOne (sideNow hubNow : Listing) (base : Base)
    (t : Path × (Option Meta × Option Meta)) : Base :=
  if close (sideNow.get t.1) t.2.1 ∧ close (hubNow.get t.1) t.2.2 then
    match sideNow.get t.1, hubNow.get t.1 with
    | some m, some h => base.insert t.1 ⟨m, h⟩
    | _, _ => base
  else base

/-- The base with what the operations touched as the listings at the end show it. -/
def refresh (sideNow hubNow : Listing) (base : Base)
    (touched : BTreeMap Path (Option Meta × Option Meta)) : Base :=
  touched.entries.foldl (refreshOne sideNow hubNow) base

/-- The end of the pass: a base that cannot be saved ends it there. -/
def Sides.finish (s : Sides) (r : Run) (x : Outcome) : Sides :=
  let s := if x.fault = .before then s else { s with saved := s.base }
  if r.halt = some .stopped ∨ x.fault ≠ .none then s
  else { s with
    memberTrash := emptyTrash s.memberTrash r.cutoff, hubTrash := emptyTrash s.hubTrash r.cutoff }

/-! ## The folders that deletes emptied -/

/-- The folders that a path lies in, without the drive's root. -/
def foldersOf (p : Path) : List Path :=
  ((List.range p.toList.length).filter fun i => p.toList[i]? = some '/').map fun i =>
    String.ofList (p.toList.take i)

/-- The folders `deleted` files lay in, deepest first. -/
def emptiedFolders (deleted : List Path) : List Path :=
  let depth := fun d : Path => d.toList.count '/'
  ((deleted.flatMap foldersOf).dedup.insertionSort (· ≤ ·)).insertionSort fun a b =>
    depth b ≤ depth a

/-- What the pass looks at in the end: the member's emptied folders, then the hub's. -/
def Run.emptied (r : Run) : List (Side × Path) :=
  [Side.member, .hub].flatMap fun side =>
    (emptiedFolders (r.gone.filterMap fun g => if g.1 = side then some g.2 else none)).map
      fun dir => (side, dir)

def inDir (dir : Path) (name : List Char) : Path := String.ofList (dir.toList ++ '/' :: name)

/-- The names in a folder. -/
def namesIn (f : Folder) (others : List Path) (dir : Path) : List (List Char) :=
  ((f.keys ++ others).filterMap fun p => match dir.toList.isPrefixOf? p.toList with
    | some ('/' :: rest) => some (rest.takeWhile (· ≠ '/'))
    | _ => none).dedup

/-- `shown` are the first eight entries of a listing of `names`, in some order, maybe with the
folder itself and the one above it. -/
def listsFirst (shown names : List (List Char)) : Bool :=
  shown.Nodup && shown.length ≤ 8 && shown.all (['.'] :: ['.', '.'] :: names).contains &&
    (8 ≤ shown.length || names.all shown.contains)

/-- `p`, at or under `dir`, once `dir` is called `dest`. -/
def rebase (dir dest p : Path) : Path :=
  String.ofList (dest.toList ++ p.toList.drop dir.toList.length)

/-- Moves a folder into the trash of one day as `dest`. -/
def Sides.moveToTrash (s : Sides) (side : Side) (dir : Path) (day : String) (dest : Path) : Sides :=
  let f := s.folder side
  let moved := f.filter (atOrUnder · dir)
  (s.setFolder side (f.filter fun p => ¬ atOrUnder p dir)).setTrash side
    ((s.trash side).insert day
      ((s.dayTrash side day).insertAll (rebase dir dest) moved.entries))

/-- The next step of a prune. -/
def Cfg.prune (c : Cfg δ) (x : Outcome) (s : Sides) (r : Run) (todo : List (Side × Path))
    (side : Side) (dir : Path) : Option World :=
  let names := namesIn (s.folder side) x.others dir
  if x.fault ≠ .none then some ⟨s, .pruning r todo⟩
  else if c.onConsole side then
    -- Eight entries are looked at, whatever else the folder holds.
    if ¬ listsFirst x.shown names then none
    else if x.shown.all fun n => n = ['.'] ∨ n = ['.', '.'] ∨ isOsClutter n then
      some ⟨s, .moving r todo side dir
        (freeName dir (fun q => ((s.dayTrash side r.today).get q).isSome) x.newId) false⟩
    else some ⟨s, .pruning r todo⟩
  else if names.all isOsClutter then some ⟨s, .clearing r todo dir names⟩
  else some ⟨s, .pruning r todo⟩

/-- A folder's move to the trash, never over anything there; a new id names a second try. -/
def moveDir (x : Outcome) (s : Sides) (r : Run) (todo : List (Side × Path)) (side : Side)
    (dir dest : Path) (again : Bool) : World :=
  let failed := if again then Pc.pruning r todo
    else .moving r todo side dir (dest ++ " (" ++ x.newId ++ ")") true
  if x.fault = .before ∨ inUse (s.dayTrash side r.today) x.others dest then ⟨s, failed⟩
  else ⟨s.moveToTrash side dir r.today dest,
    if x.fault = .none then .pruning r todo else failed⟩

/-! ## The steps -/

/-- What follows a step of an operation. -/
def afterStep (x : Outcome) (o : Op) (agreed : Option BaseEntry) : OpResult → World
  | .goto s r at_ => ⟨s, .op r o agreed at_⟩
  | .err s r => ⟨s.checkpoint x r, .next r⟩
  | .ok s r =>
    -- Only where the operation recorded a new agreement.
    if o.path ∉ r.edited ∧ (s.base.get o.path).isSome ∧ s.base.get o.path ≠ agreed then
      ⟨s, .touch r o.path⟩
    else ⟨s.checkpoint x r, .next r⟩

/-- The next step of a pass. -/
def go (c : Cfg δ) (x : Outcome) (w : World) : Option World :=
  let s := w.sides
  match w.pc with
  | .idle | .listed _ _ => none
  | .next r =>
    match r.ops with
    | [] =>
      if r.halt ≠ none then some ⟨s, .saving r⟩
      else if r.touched.entries ≠ [] then some ⟨s, .closing r⟩
      else some ⟨s, .pruning r r.emptied⟩
    | o :: rest =>
      let chunk := batchChunk r.member 0 0 (o :: rest)
      if r.batching ∧ o.isUpload ∧ o.path ∉ r.batched ∧ 2 ≤ chunk.length then
        if c.console then some ⟨s, .next { r with batching := false }⟩
        else some ⟨s, .batch r chunk chunk⟩
      else some ⟨s, .op { r with ops := rest } o (s.base.get o.path) .start⟩
  | .batch r chunk rest =>
    if x.fault ≠ .none then some ⟨s, .next { r with batching := false }⟩
    else match rest with
      | [] => some ⟨s, .next { r with batched := r.batched ++ chunk }⟩
      | p :: rest =>
        match s.member.get p with
        | none => some ⟨s, .next { r with batching := false }⟩
        | some f => some ⟨s, .batchRead r chunk rest p f.bytes⟩
  | .batchRead r chunk rest p bytes =>
    let s' := s.place .hub p ⟨bytes, x.mtime⟩
    match x.fault with
    | .none => some ⟨s', .batch r chunk rest⟩
    | .before => some ⟨s, .next { r with batching := false }⟩
    | .after => some ⟨s', .next { r with batching := false }⟩
  | .op r o agreed .start => (c.opStart x s r o).map (afterStep x o agreed)
  | .op r o agreed at_ => (c.opStep x s r o.path at_).map (afterStep x o agreed)
  | .touch r p => some ⟨s, .touchHub r p (s.stat .member p)⟩
  | .touchHub r p m =>
    let r := { r with touched := r.touched.insert p (m, s.stat .hub p) }
    some ⟨s.checkpoint x r, .next r⟩
  | .closing r =>
    if x.fault = .none then some ⟨s, .closingHub r (walk s.member x.unread)⟩
    else some ⟨s, .pruning r r.emptied⟩
  | .closingHub r sideNow =>
    if x.fault = .none then
      some ⟨{ s with base := refresh sideNow (walk s.hub x.unread) s.base r.touched },
        .pruning r r.emptied⟩
    else some ⟨s, .pruning r r.emptied⟩
  | .pruning r [] => some ⟨s, .saving r⟩
  | .pruning r ((side, dir) :: todo) => c.prune x s r todo side dir
  | .clearing r todo _ [] => some ⟨s, .pruning r todo⟩
  | .clearing r todo dir (n :: names) =>
    some ⟨if x.fault = .before then s else s.remove .member (inDir dir n),
      .clearing r todo dir names⟩
  | .moving r todo side dir dest again => some (moveDir x s r todo side dir dest again)
  | .saving r => some ⟨s.finish r x, .idle⟩

def editFolder (f : Folder) (p : Path) : Option File → Folder
  | none => f.erase p
  | some file => f.insert p file

/-- One action of anyone. -/
def step (c : Cfg δ) (w : World) : Act → Option World
  | .edit side p f =>
    some { w with sides := w.sides.setFolder side (editFolder (w.sides.folder side) p f) }
  | .list unread =>
    match w.pc with
    | .idle => some { w with pc := .listed (walk w.sides.member unread) unread }
    | _ => none
  | .plan e =>
    match w.pc with
    | .listed member unread =>
      let hub := walk w.sides.hub e.unread
      let s := { w.sides with base := e.base w.sides.saved hub }
      some ⟨s, .next (c.begin { e with unread := unread ++ e.unread } member hub s.base)⟩
    | _ => none
  | .go x => go c x w
  | .halt h =>
    match w.pc with
    | .next r => some { w with pc := .next { r with ops := [], halt := some h } }
    | _ => none
  | .die => some { w with pc := .idle }

/-! ## What a listing shows, and what is left of the plan -/

theorem get_walk (f : Folder) (unread : List Path) (p : Path) :
    (walk f unread).get p
      = if (components p).any ignored = false ∧ unread.any (atOrUnder p) = false then
          (f.get p).map File.stat
        else none := by
  rw [walk, BTreeMap.get_map, BTreeMap.get_filter]
  by_cases h : (components p).any ignored = false ∧ unread.any (atOrUnder p) = false
  · simp [h]
  · rw [if_neg h, if_neg (by simpa using h)]
    rfl

theorem get_walk_eq_some {f : Folder} {unread : List Path} {p : Path} {m : Meta}
    (h : (walk f unread).get p = some m) : (f.get p).map File.stat = some m := by
  rw [get_walk] at h
  split at h
  · exact h
  · simp at h

namespace Sides

variable (s : Sides) (r : Run) (p : Path) (f : File)

@[simp] theorem stat_hub : s.stat .hub p = (s.hub.get p).map File.stat := rfl

theorem stat_eq (side : Side) {p : Path} {f : File} (hf : (s.folder side).get p = some f) :
    s.stat side p = some f.stat := congrArg (Option.map File.stat) hf

@[simp] theorem place_member_hub : (s.place .member p f).hub = s.hub := rfl
@[simp] theorem place_hub_member : (s.place .hub p f).member = s.member := rfl
@[simp] theorem place_hub_hub : (s.place .hub p f).hub = s.hub.insert p f := rfl
@[simp] theorem place_base (side : Side) : (s.place side p f).base = s.base := by cases side <;> rfl
@[simp] theorem place_saved (side : Side) : (s.place side p f).saved = s.saved := by
  cases side <;> rfl

@[simp] theorem remove_member_hub : (s.remove .member p).hub = s.hub := rfl
@[simp] theorem remove_hub_member : (s.remove .hub p).member = s.member := rfl
@[simp] theorem remove_hub_hub : (s.remove .hub p).hub = s.hub.erase p := rfl
@[simp] theorem remove_base (side : Side) : (s.remove side p).base = s.base := by cases side <;> rfl
@[simp] theorem remove_saved (side : Side) : (s.remove side p).saved = s.saved := by
  cases side <;> rfl

@[simp] theorem setTrash_member (side : Side) (t : BTreeMap String Folder) :
    (s.setTrash side t).member = s.member := by cases side <;> rfl
@[simp] theorem setTrash_hub (side : Side) (t : BTreeMap String Folder) :
    (s.setTrash side t).hub = s.hub := by cases side <;> rfl
@[simp] theorem setTrash_base (side : Side) (t : BTreeMap String Folder) :
    (s.setTrash side t).base = s.base := by cases side <;> rfl
@[simp] theorem setTrash_saved (side : Side) (t : BTreeMap String Folder) :
    (s.setTrash side t).saved = s.saved := by cases side <;> rfl

theorem moveToTrash_base (side : Side) (dir : Path) (day : String) (dest : Path) :
    (s.moveToTrash side dir day dest).base = s.base := by cases side <;> rfl
theorem moveToTrash_saved (side : Side) (dir : Path) (day : String) (dest : Path) :
    (s.moveToTrash side dir day dest).saved = s.saved := by cases side <;> rfl

@[simp] theorem forget_member : (s.forget p).member = s.member := rfl
@[simp] theorem forget_hub : (s.forget p).hub = s.hub := rfl
@[simp] theorem forget_base : (s.forget p).base = s.base.erase p := rfl
@[simp] theorem forget_saved : (s.forget p).saved = s.saved := rfl

@[simp] theorem record_member (m h : Option Meta) : (s.record p m h).member = s.member := by
  unfold record
  split <;> rfl
@[simp] theorem record_hub (m h : Option Meta) : (s.record p m h).hub = s.hub := by
  unfold record
  split <;> rfl
@[simp] theorem record_saved (m h : Option Meta) : (s.record p m h).saved = s.saved := by
  unfold record
  split <;> rfl

@[simp] theorem checkpoint_member (x : Outcome) : (s.checkpoint x r).member = s.member := by
  unfold checkpoint
  split <;> rfl
@[simp] theorem checkpoint_hub (x : Outcome) : (s.checkpoint x r).hub = s.hub := by
  unfold checkpoint
  split <;> rfl
@[simp] theorem checkpoint_base (x : Outcome) : (s.checkpoint x r).base = s.base := by
  unfold checkpoint
  split <;> rfl

@[simp] theorem finish_member (x : Outcome) : (s.finish r x).member = s.member := by
  unfold finish
  split <;> split <;> rfl
@[simp] theorem finish_hub (x : Outcome) : (s.finish r x).hub = s.hub := by
  unfold finish
  split <;> split <;> rfl
@[simp] theorem finish_base (x : Outcome) : (s.finish r x).base = s.base := by
  unfold finish
  split <;> split <;> rfl

theorem checkpoint_saved (x : Outcome) :
    (s.checkpoint x r).saved = s.saved ∨ (s.checkpoint x r).saved = s.base := by
  unfold checkpoint
  split
  · exact .inr rfl
  · exact .inl rfl

theorem finish_saved (x : Outcome) :
    (s.finish r x).saved = s.saved ∨ (s.finish r x).saved = s.base := by
  unfold finish
  split
  · split <;> exact .inl rfl
  · split <;> exact .inr rfl

end Sides

end Ps5Upload.MeshDrive
