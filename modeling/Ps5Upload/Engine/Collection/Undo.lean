import Ps5Upload.Engine.Collection.Organize
import Ps5Upload.Lib.Runs

/-!
# Undoing a run

`revert` of `ps5upload-engine/src/collection/organize.rs`: the moves a run has made, newest first,
from the log it left on the disk.  A move that is in the log neither as done nor as failed for
certain is judged by which of its two names something is at.

* `guess` — which moves happened;
* `undoMoves`, `revert` — putting them back;
* `undoStep` — one attempt that may stop at any of its moments, as a step of a system.
-/

namespace Ps5Upload.Collection

open Moments

/-- `RevertResult` -/
structure RevertResult where
  reverted : List Move
  problems : List FailedMove
  deriving DecidableEq, Repr

/-- Why `revert` answers with an error. -/
inductive RevertError where
  | noLog
  | alreadyUndone
  | cannotOpen
  | rootGone
  | op (e : OpError)
  /-- The server stopped answering part way. -/
  | stopped (putBack : Nat)
  | logNotWritten
  deriving DecidableEq, Repr

/-! ## Which moves happened -/

/-- The log says for certain that the move did not happen. -/
def UndoLog.ruledOut (log : UndoLog) (mv : Move) : Bool :=
  log.failed.any fun f => f.mv = mv && !f.uncertain

/-- The loop over `log.moves`; `done` is what is known to have happened. -/
def guess (log : UndoLog) : List Move → List Move → Act (List Move)
  | [], done => return done
  | mv :: moves, done => do
    if mv ∈ done ∨ log.ruledOut mv = true ∨ mv.Contained = false then guess log moves done
    else if (← exists' mv.dst) = .ok true then
      if (← exists' mv.src) = .ok false then guess log moves (done ++ [mv])
      else guess log moves done
    else guess log moves done

/-! ## Putting them back -/

/-- What has come of the moves so far: the result, the folders made, and whether the server has
stopped answering. -/
structure Undoing where
  out : RevertResult
  made : List Path
  lost : Bool

/-- One move of the loop: its problem, if any. -/
def undoMove (mv : Move) (made : List Path) : Act (Option (Why × Bool) × List Path) := do
  if !mv.Contained then return (some (.leavesFolder, false), made)
  else
    let atNew ← exists' mv.dst
    let atOld ← exists' mv.src
    match atNew, atOld with
    | .ok false, .ok true => return (none, made)
    | .ok false, _ => return (some (.movedFileGone, false), made)
    | _, .ok true => return (some (.nameTaken, false), made)
    | .ok true, .ok false =>
      match ← makeDirs mv.src.dropLast made with
      | (.error e, made) => return (some (.failed e, e = .lost), made)
      | (.ok _, made) =>
        match ← renameNew mv.dst mv.src with
        | .error e => return (some (.failed e, e = .lost), made)
        | .ok _ => return (none, made)
    | .error e, _ | _, .error e => return (some (.failed e, e = .lost), made)

/-- The loop over the moves that happened, newest first. -/
def undoMoves : List Move → Undoing → Act Undoing
  | [], u => return u
  | mv :: rest, u => do
    if u.lost then
      undoMoves rest { u with out.problems := u.out.problems ++ [.new mv .notTried] }
    else
      match ← undoMove mv u.made with
      | (some (why, lost), made) =>
        undoMoves rest ⟨{ u.out with problems := u.out.problems ++ [.new mv why] }, made, lost⟩
      | (none, made) =>
        undoMoves rest ⟨{ u.out with reverted := u.out.reverted ++ [mv] }, made, false⟩

section Revert

variable (server : Bool)

/-- What `revert` does with a log that is open. -/
def revertLog (log : UndoLog) : Act (Except RevertError RevertResult) := do
  let done ← guess log log.moves log.completed
  let u ← undoMoves done.reverse ⟨⟨[], []⟩, [], false⟩
  if u.lost then return .error (.stopped u.out.reverted.length)
  else
    let _ ← pruneEmpty server
      (u.out.reverted.foldl (fun dirs mv => dirs.insert mv.dst.dropLast) [])
    if u.out.problems = [] then
      match ← writeLog { log with reverted := true } with
      | .error _ => return .error .logNotWritten
      | .ok _ => return .ok u.out
    else return .ok u.out

/-- `revert` -/
def revert : Act (Except RevertError RevertResult) := do
  match ← Prog.look fun w => w.view.disk with
  | none => return .error .noLog
  | some log =>
    if log.reverted then return .error .alreadyUndone
    else
      match ← ask fun _ => () with
      | .error _ => return .error .cannotOpen
      | .ok _ =>
        match ← exists' [] with
        | .error e => return .error (.op e)
        | .ok false => return .error .rootGone
        | .ok true => revertLog server log

end Revert

/-! ## Runs -/

/-- The state a program leaves when it stops at its `n`-th moment; `0` is before the first, and a
number past the last is a program that ends. -/
def stopAt {α : Type} (p : Act α) (w : World UndoLog) (n : Nat) : World UndoLog :=
  (w :: (p w).seen).getD n (p w).last

/-- One attempt to undo, up to the moment where it stops. -/
def undoStep (server : Bool) (w : World UndoLog) (stop : Nat) : Option (World UndoLog) :=
  some (stopAt (revert server) w stop)

end Ps5Upload.Collection
