import Mathlib.Data.List.Sort
import Ps5Upload.Engine.Collection.Tree

/-!
# Organizing a collection folder

`apply` of `ps5upload-engine/src/collection/organize.rs`: the moves of a plan are carried out one by
one, the parts of a split set together, with a log on the disk that `revert` goes by.

* `moveOne`, `runGroup` — one move, and the moves of one set, which go back when one of them fails;
* `pruneEmpty` — the folders the moves emptied;
* `apply` — the run.  A crash leaves the state of any of its moments.
-/

namespace Ps5Upload.Collection

open Moments

/-! ## Moves and the log -/

/-- A component of a relative path: a name, or a root, `.` or `..`. -/
inductive Component where
  | normal (name : Name)
  | other
  deriving DecidableEq, Repr

def Component.name? : Component → Option Name
  | .normal name => some name
  | .other => none

/-- `contained` -/
def contained (rel : List Component) : Bool := rel ≠ [] && rel.all fun c => c.name?.isSome

/-- One move; `set` names the split set it is a part of, if any. -/
structure Move where
  from' : List Component
  to' : List Component
  set : String
  deriving DecidableEq, Repr

namespace Move

/-- `container.join(&mv.from)` -/
def src (mv : Move) : Path := mv.from'.filterMap Component.name?

/-- `container.join(&mv.to')` -/
def dst (mv : Move) : Path := mv.to'.filterMap Component.name?

def Contained (mv : Move) : Bool := contained mv.from' && contained mv.to'

end Move

/-- Why a move has failed. -/
inductive Why where
  | leavesFolder
  | notThere (mv : Move)
  | appeared
  | failed (e : OpError)
  /-- The server stopped answering during this move. -/
  | stopped
  /-- Not tried: the server stopped answering. -/
  | notTried
  /-- Not tried: another part of this set could not move. -/
  | otherPart (why : Why)
  /-- Put back: another part of this set could not move. -/
  | putBack (why : Why)
  | movedFileGone
  | nameTaken
  deriving DecidableEq, Repr

structure FailedMove where
  mv : Move
  error : Why
  /-- The connection dropped during this move: it may have happened. -/
  uncertain : Bool
  deriving DecidableEq, Repr

/-- `FailedMove::new` -/
def FailedMove.new (mv : Move) (error : Why) : FailedMove := ⟨mv, error, false⟩

structure UndoLog where
  moves : List Move
  completed : List Move
  failed : List FailedMove
  removedDirs : List Path
  keptDirs : List Path
  /-- Whether `reverted_at` is set. -/
  reverted : Bool
  deriving DecidableEq, Repr

abbrev State := View UndoLog

abbrev Act (α : Type) := Prog UndoLog α

/-- `write_log`: the log takes its name on the disk as a whole, or not at all. -/
def writeLog (log : UndoLog) : Act (Except OpError Unit) :=
  call fun fate v => if fate = .works then (.ok (), { v with disk := some log }) else (.error .other, v)

/-! ## Folders -/

section Folders

variable (server : Bool)

/-- Whether one of the entries of `dir` is no file of Finder's. -/
def anyOther (dir : Path) : List Name → Act Bool
  | [] => return false
  | name :: names => do
    if ← isRemovable server (dir ++ [name]) then anyOther dir names else return true

/-- Deletes the entries of `dir`, files of Finder's as they are. -/
def removeAll (dir : Path) : List Name → Act Unit
  | [] => return ()
  | name :: names => do
    removeJunk server (dir ++ [name])
    removeAll dir names

/-- The loop of `try_remove_dir`. -/
def tryRemoveDirLoop (dir : Path) : Nat → Act Bool
  | 0 => return false
  | tries + 1 => do
    match ← list dir with
    | none => return decide ((← exists' dir) = .ok false)
    | some names =>
      if ← anyOther server dir names then return false
      else
        removeAll server dir names
        match ← removeDir dir with
        | .ok _ => return true
        | .error _ =>
          if (← exists' dir) = .ok false then return true else tryRemoveDirLoop dir tries

/-- `try_remove_dir` -/
def tryRemoveDir (dir : Path) : Act Bool := tryRemoveDirLoop server dir 3

/-- The `while` of `prune_empty`: the first `n` names of `start`, and the folders above. -/
def pruneUp (start : Path) : Nat → List Path × List Path → Act (List Path × List Path)
  | 0, acc => return acc
  | n + 1, (removed, kept) => do
    let dir := start.take (n + 1)
    match ← list dir with
    | none => return (removed, kept)
    | some names =>
      if ← anyOther server dir names then return (removed, kept)
      else if ← tryRemoveDir server dir then pruneUp start n (removed ++ [dir], kept)
      else return (removed, kept ++ [dir])

def pruneAll : List Path → List Path × List Path → Act (List Path × List Path)
  | [], acc => return acc
  | start :: dirs, acc => do pruneAll dirs (← pruneUp server start start.length acc)

/-- The length of a path's text below the collection folder. -/
def textLen (p : Path) : Nat := (p.map fun name => 1 + (name.map Char.utf8Size).sum).sum

/-- `prune_empty`: the longest paths first, and those of one length in the set's own order. -/
def pruneEmpty (startedIn : List Path) : Act (List Path × List Path) := do
  let place ← Prog.look fun w => w.sets 0
  let dirs := startedIn.insertionSort fun a b => place a ≤ place b
  pruneAll server (dirs.insertionSort fun a b => textLen b ≤ textLen a) ([], [])

/-- The loop of `make_dirs`: `below` is what is left of the path under `at'`. -/
def makeDirsFrom (at' : Path) : List Name → List Path → Act (Except OpError Unit × List Path)
  | [], known => return (.ok (), known)
  | name :: below, known => do
    if at' ++ [name] ∈ known then makeDirsFrom (at' ++ [name]) below known
    else
      match ← createDir (at' ++ [name]) with
      | .error e => return (.error e, known)
      | .ok _ => makeDirsFrom (at' ++ [name]) below (known ++ [at' ++ [name]])

/-- `make_dirs` -/
def makeDirs (dir : Path) (known : List Path) : Act (Except OpError Unit × List Path) :=
  makeDirsFrom [] dir known

end Folders

/-! ## One group of moves -/

/-- The parts of one split set together, each set where its first part is. -/
def addToSets (groups : List (List Move)) (mv : Move) : List (List Move) :=
  if mv.set = "" then groups ++ [[mv]]
  else
    match groups.findIdx? fun g => g.any fun m => m.set = mv.set with
    | some i => groups.modify i (· ++ [mv])
    | none => groups ++ [[mv]]

/-- `by_set` -/
def bySet (moves : List Move) : List (List Move) := moves.foldl addToSets []

/-- `move_one` -/
def moveOne (mv : Move) (made : List Path) : Act (Except OpError Unit × List Path) := do
  if !mv.Contained then return (.error .other, made)
  else
    match ← exists' mv.dst with
    | .error e => return (.error e, made)
    | .ok true => return (.error .exists', made)
    | .ok false =>
      match ← makeDirs mv.dst.dropLast made with
      | (.error e, made) => return (.error e, made)
      | (.ok _, made) => return (← renameNew mv.src mv.dst, made)

/-- `set_cannot_start` -/
def setCannotStart : List Move → Act (Except OpError (Option Why))
  | [] => return .ok none
  | mv :: group => do
    if !mv.Contained then return .ok (some .leavesFolder)
    else
      match ← exists' mv.src with
      | .error e => return .error e
      | .ok false => return .ok (some (.notThere mv))
      | .ok true =>
        match ← exists' mv.dst with
        | .error e => return .error e
        | .ok true => return .ok (some .appeared)
        | .ok false => setCannotStart group

structure GroupRun where
  moved : List Move
  failed : List FailedMove
  /-- Folders a move that was put back may have left empty. -/
  emptied : List Path
  lost : Bool
  deriving DecidableEq, Repr

/-- The parts that went, back; `why` is what stopped the set. -/
def putBack (why : Why) : List Move → GroupRun → Act GroupRun
  | [], run => return run
  | mv :: done, run => do
    match ← renameNew mv.dst mv.src with
    | .ok _ =>
      putBack why done
        { run with
          emptied := run.emptied ++ [mv.dst.dropLast]
          failed := run.failed ++ [.new mv (.putBack why)] }
    | .error .lost => putBack why done { run with lost := true, moved := run.moved ++ [mv] }
    | .error _ => putBack why done { run with moved := run.moved ++ [mv] }

/-- The loop of `run_group`. -/
def moveAll : List Move → List Path → GroupRun → Act (GroupRun × List Path)
  | [], made, run => return (run, made)
  | mv :: rest, made, run => do
    match ← moveOne mv made with
    | (.ok _, made) => moveAll rest made { run with moved := run.moved ++ [mv] }
    | (.error .lost, made) =>
      return ({ run with
        failed := run.failed ++ ⟨mv, .stopped, true⟩ :: rest.map (FailedMove.new · .notTried)
        lost := true }, made)
    | (.error e, made) =>
      let why : Why := if e = .exists' then .appeared else .failed e
      let stopped : GroupRun :=
        { run with
          moved := []
          failed := run.failed ++ .new mv why :: rest.map (FailedMove.new · (.otherPart why)) }
      return (← putBack why run.moved.reverse stopped, made)

/-- `run_group` -/
def runGroup (group : List Move) (made : List Path) : Act (GroupRun × List Path) := do
  if 1 < group.length then
    match ← setCannotStart group with
    | .ok none => moveAll group made ⟨[], [], [], false⟩
    | .ok (some why) => return (⟨[], group.map (FailedMove.new · why), [], false⟩, made)
    | .error .lost => return (⟨[], group.map (FailedMove.new · .notTried), [], true⟩, made)
    | .error e => return (⟨[], group.map (FailedMove.new · (.failed e)), [], false⟩, made)
  else moveAll group made ⟨[], [], [], false⟩

/-! ## The run -/

/-- `LOG_EVERY` -/
def logEvery : Nat := 16

section Run

variable (server : Bool)

/-- Finder's file that goes with the file at `p`. -/
def companion (p : Path) : Path := p.dropLast ++ ['.' :: '_' :: p.getLast?.getD []]

/-- The loop over `run.moved`. -/
def logMoved : List Move → UndoLog → List Path → Act (UndoLog × List Path)
  | [], log, started => return (log, started)
  | mv :: moved, log, started => do
    removeJunk server (companion mv.src)
    let log := { log with completed := log.completed ++ [mv] }
    if log.completed.length % logEvery = 0 then
      let _ ← writeLog log
      logMoved moved log (started.insert mv.src.dropLast)
    else logMoved moved log (started.insert mv.src.dropLast)

/-- The loop of `apply` over the groups. -/
def applyGroups : List (List Move) → UndoLog → List Path → List Path → Bool →
    Act (UndoLog × List Path × Bool)
  | [], log, started, _, lost => return (log, started, lost)
  | group :: groups, log, started, made, true =>
    applyGroups groups { log with failed := log.failed ++ group.map (FailedMove.new · .notTried) }
      started made true
  | group :: groups, log, started, made, false => do
    let (run, made) ← runGroup group made
    let (log, started) ← logMoved server run.moved log (run.emptied.foldl (·.insert ·) started)
    let log := { log with failed := log.failed ++ run.failed }
    if run.failed.any (·.uncertain) then
      let _ ← writeLog log
      applyGroups groups log started made run.lost
    else applyGroups groups log started made run.lost

/-- `apply` -/
def apply (moves : List Move) : Act (Except OpError UndoLog) := do
  let log : UndoLog := ⟨moves, [], [], [], [], false⟩
  match ← writeLog log with
  | .error e => return .error e
  | .ok _ =>
    let (log, started, lost) ← applyGroups server (bySet moves) log [] [] false
    let (removed, kept) ← if lost then pure ([], []) else pruneEmpty server started
    let log := { log with removedDirs := removed, keptDirs := kept }
    match ← writeLog log with
    | .error e => return .error e
    | .ok _ => return .ok log

end Run

end Ps5Upload.Collection
