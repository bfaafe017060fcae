import Mathlib.Data.List.Infix
import Mathlib.Tactic.Common

/-!
# Rows of the upload queue

`QueueItem` of `client/src/state/uploadQueue.ts` with the fields that the queue's order, its retries and
its runner read, and `hostOf` of `client/src/lib/addr.ts`.  A field that is absent and one that is null
are both `none`.
-/

namespace Ps5Upload.UploadQueue

abbrev Text := List Char

/-- `QueueItemStatus` -/
inductive Status where
  | pending
  | running
  | done
  | failed
  deriving DecidableEq, Repr

/-- `QueueSourceKind` -/
inductive SourceKind where
  | file
  | image
  | folder
  | gameFolder
  | archive
  | pkg
  | install
  | ps5
  deriving DecidableEq, Repr

inductive Pause where
  | user
  | sendNow
  deriving DecidableEq, Repr

inductive InstallPhase where
  | installing
  | done
  | warn
  | unverified
  | error
  deriving DecidableEq, Repr

inductive UploadStrategy where
  | overwrite
  | resume
  deriving DecidableEq, Repr

inductive ReconcileMode where
  | fast
  | safe
  deriving DecidableEq, Repr

inductive Route where
  | auto
  | direct
  | relay
  deriving DecidableEq, Repr

inductive Adopt where
  | take
  | watch
  deriving DecidableEq, Repr

inductive LinkInstallMode where
  | direct
  | stream
  | download
  deriving DecidableEq, Repr

inductive InstallRequest where
  | library (path : Text) (forceStream : Bool)
  | consolePath (path : Text)
  | external (path : Text)
  | stream (source : Text)
  | link (url : Text) (mode : LinkInstallMode) (insecureTls : Bool)
  deriving DecidableEq, Repr

inductive ProgressPhase where
  | stage
  | transfer
  | install
  deriving DecidableEq, Repr

structure InstallProgress where
  phase : ProgressPhase
  current : Nat
  total : Nat
  bytesPerSec : Nat
  originBytesPerSec : Option Nat
  deriving DecidableEq, Repr

structure QueueItem where
  id : Text
  sourceKind : SourceKind
  sourcePath : Text
  resolvedDest : Text
  addr : Text
  fromConsole : Option Text := none
  route : Option Route := none
  directAddr : Option Text := none
  adopt : Option Adopt := none
  strategy : UploadStrategy := .resume
  reconcileMode : ReconcileMode := .fast
  excludes : List Text := []
  rarPassword : Option Text := none
  mountAfterUpload : Bool := false
  mountReadOnly : Bool := true
  registerAfterUpload : Bool := false
  contentId : Option Text := none
  category : Option Text := none
  install : Option InstallRequest := none
  fallbackToUpload : Option Bool := none
  installAfterUpload : Option Bool := none
  deletePkgAfterInstall : Option Bool := none
  installPhase : Option InstallPhase := none
  installPct : Option Nat := none
  installProgress : Option InstallProgress := none
  installNote : Option Text := none
  installJobId : Option Text := none
  txIdHex : Text
  status : Status
  paused : Option Pause := none
  sendNowAt : Option Nat := none
  uploadDone : Option Bool := none
  jobId : Option Text := none
  attachJobId : Option Text := none
  error : Option Text := none
  errorReason : Option Text := none
  errorDetail : Option Text := none
  completedAt : Option Nat := none
  deriving DecidableEq

/-! ## Consoles -/

def isBareIpv6 (addr : Text) : Bool :=
  let colons := addr.count ':'
  if colons < 2 then false else '.' ∉ addr || [':', ':'] <:+: addr || 2 < colons

/-- The bare host of an address. -/
def hostOf (addr : Text) : Text :=
  match addr with
  | [] => []
  | '[' :: rest => rest.takeWhile (· ≠ ']')
  | _ => if isBareIpv6 addr then addr else addr.takeWhile (· ≠ ':')

/-! ## Tiers -/

/-- Whether the last folder of a path is the one of a name with its slashes. -/
def inFolder (folder path : Text) : Bool := folder.isSuffixOf (path.reverse.dropWhile (· ≠ '/')).reverse

/-- A base game before its update, and that before its DLC. -/
def installOrderPriority (it : QueueItem) : Nat :=
  if it.sourceKind ≠ .pkg ∧ it.sourceKind ≠ .install then 0
  else if it.category = some "gp".toList then 1
  else if it.category = some "ac".toList then 2
  else if it.category = some "gd".toList then 0
  else if inFolder "/updates/".toList it.resolvedDest then 1
  else if inFolder "/dlc/".toList it.resolvedDest then 2
  else 0

theorem priority_lt (it : QueueItem) : installOrderPriority it < 3 := by
  unfold installOrderPriority
  split_ifs <;> omega

end Ps5Upload.UploadQueue
