import Ps5Upload.Client.UploadQueue.Item

/-!
# Retries

`retryItem`, `retryPatch` and `retryFailed` of `client/src/state/uploadQueue.ts`, and what its runner makes
of a row: `runOne`, `runInstallItem` and `runUploadItem` up to the job that they start, and what they do
once it is done.

* `work` — the job of a row;
* `retryFailed_iff` — when Retry failed does to every row what Retry does.
-/

namespace Ps5Upload.UploadQueue

/-! ## What a row does when it runs -/

/-- What the runner asks others for. -/
structure Env where
  bandwidthCapMbps : Nat
  /-- `liveJobFor` -/
  liveJobFor : Text → Text → Option Text
  /-- `resumableTxId`, of a console, a folder on it and an id. -/
  resumableTxId : Text → Text → Text → Text
  /-- `archiveSourceFor`, of a row and its path. -/
  archiveSourceFor : Text → Text → Text
  /-- `fileResumeTxId`, of a host, a file, its place on the console and an id. -/
  fileResumeTxId : Text → Text → Text → Text → Text

inductive ArchiveFormat where
  | zip
  | sevenz
  | rar
  deriving DecidableEq, Repr

def lower (c : Char) : Char := if 'A' ≤ c ∧ c ≤ 'Z' then Char.ofNat (c.toNat + 32) else c

def archiveFormat (path : Text) : Option ArchiveFormat :=
  let p := path.map lower
  if ".zip".toList.isSuffixOf p then some .zip
  else if ".7z".toList.isSuffixOf p then some .sevenz
  else if ".rar".toList.isSuffixOf p then some .rar
  else none

/-- The job of a row, with what it is started with. -/
inductive Started where
  /-- The details of an install are lost. -/
  | installLost
  | install (host : Text) (request : InstallRequest)
  | adopted (job : Text)
  | ps5ToPs5 (fromConsole sourcePath addr dest tx : Text) (route : Option Route) (directAddr : Option Text)
      (adopt : Option Adopt)
  | transferRar (path dest addr : Text) (password : Option Text) (tx : Text) (excludes : List Text) (cap : Nat)
  | transferArchive (sevenz : Bool) (path dest addr tx : Text) (excludes : List Text) (cap : Nat)
  | transferDirReconcile (source dest addr : Text) (mode : ReconcileMode) (tx : Text) (excludes : List Text)
      (cap : Nat)
  | transferDir (source dest addr tx : Text) (excludes : List Text) (cap : Nat)
  | transferFile (source dest addr tx : Text) (cap : Nat)
  deriving DecidableEq

/-- What follows an upload that is done. -/
structure Finisher where
  mount : Option Bool
  register : Bool
  /-- The content id and whether the staged package is deleted. -/
  install : Option (Option Text × Bool)
  deriving DecidableEq

/-- `runUploadItem`: the job. -/
def startUpload (env : Env) (it : QueueItem) : Started :=
  match it.attachJobId.or (it.jobId.bind fun job => env.liveJobFor job it.addr) with
  | some job => .adopted job
  | none =>
    match it.sourceKind with
    | .ps5 => .ps5ToPs5 (it.fromConsole.getD []) it.sourcePath it.addr it.resolvedDest it.txIdHex it.route
        it.directAddr it.adopt
    | .archive =>
      let path := env.archiveSourceFor it.id it.sourcePath
      match archiveFormat it.sourcePath with
      | some .rar => .transferRar path it.resolvedDest it.addr it.rarPassword it.txIdHex it.excludes
          env.bandwidthCapMbps
      | fmt => .transferArchive (fmt = some .sevenz) path it.resolvedDest it.addr it.txIdHex it.excludes
          env.bandwidthCapMbps
    | .folder | .gameFolder =>
      if it.strategy = .resume then
        .transferDirReconcile it.sourcePath it.resolvedDest it.addr it.reconcileMode
          (env.resumableTxId it.addr it.resolvedDest it.txIdHex) it.excludes env.bandwidthCapMbps
      else .transferDir it.sourcePath it.resolvedDest it.addr it.txIdHex it.excludes env.bandwidthCapMbps
    | _ => .transferFile it.sourcePath it.resolvedDest it.addr
        (env.fileResumeTxId (hostOf it.addr) it.sourcePath it.resolvedDest it.txIdHex) env.bandwidthCapMbps

/-- `runUploadItem`: the mount, the registration and the install behind the job. -/
def finisherOf (it : QueueItem) : Finisher where
  mount := if it.sourceKind = .image ∧ it.mountAfterUpload then some it.mountReadOnly else none
  register := it.sourceKind = .gameFolder && it.registerAfterUpload
  install :=
    if it.sourceKind = .pkg ∧ it.installAfterUpload ≠ some false then
      some (it.contentId, it.deletePkgAfterInstall ≠ some false)
    else none

/-- `runOne` -/
def work (env : Env) (it : QueueItem) : Started × Option Finisher :=
  if it.sourceKind = .install then
    match it.install with
    | none => (.installLost, none)
    | some request => (.install (hostOf it.addr) request, none)
  else (startUpload env it, some (finisherOf it))

/-! ## Retries -/

/-- `installKey` -/
def installKey : InstallRequest → Text
  | .library path _ | .consolePath path | .external path => "ps5:".toList ++ path
  | .stream source => "pc:".toList ++ source
  | .link url _ _ => "url:".toList ++ url

/-- Whether a failed row is a package whose upload was done: it failed at its install. -/
def failedAtInstall (it : QueueItem) : Bool :=
  it.sourceKind = .pkg && it.uploadDone = some true && it.installAfterUpload ≠ some false

/-- A row with `retryPatch` applied. -/
def retryRow (it : QueueItem) : QueueItem :=
  let cleared := { it with
    status := .pending, error := none, errorReason := none, errorDetail := none, completedAt := none }
  if failedAtInstall it then
    let install := InstallRequest.library it.resolvedDest false
    { cleared with
      sourceKind := .install, sourcePath := installKey install, install := some install, uploadDone := some false
      installPhase := none, installPct := none, installProgress := none, installNote := none
      installJobId := none }
  else cleared

def retryItem (id : Text) (items : List QueueItem) : List QueueItem :=
  match items.find? (fun it => it.id = id) with
  | none => items
  | some it =>
    if it.status ≠ .failed then items
    else items.map fun it => if it.id = id then retryRow it else it

/-- What `retryFailed` makes of a failed row. -/
def retryFailedRow (it : QueueItem) : QueueItem :=
  let pending := { it with status := .pending }
  if it.sourceKind = .install ∧ it.installPhase.isSome then
    { pending with
      installPhase := none, installPct := none, installProgress := none, installNote := none
      fallbackToUpload := some false }
  else pending

/-- Whether a row is of the console, or any row where none is named. -/
def mine (host : Option Text) (it : QueueItem) : Bool :=
  match host with
  | none | some [] => true
  | some h => hostOf it.addr = hostOf h

def retryFailed (host : Option Text) (items : List QueueItem) : List QueueItem :=
  items.map fun it => if !(mine host it) || it.status ≠ .failed then it else retryFailedRow it

/-! ## The same work -/

/-- The failure of a row is cleared. -/
def Cleared (it : QueueItem) : Prop :=
  it.error = none ∧ it.errorReason = none ∧ it.errorDetail = none ∧ it.completedAt = none

/-- Work that does not look at how the row has fared. -/
theorem work_congr (env : Env) {it r : QueueItem} {status : Status} {error errorReason errorDetail : Option Text}
    {completedAt installPct : Option Nat} {installPhase : Option InstallPhase}
    {installProgress : Option InstallProgress} {installNote : Option Text} {fallbackToUpload : Option Bool}
    (h : r = { it with
      status, error, errorReason, errorDetail, completedAt, installPct, installPhase, installProgress,
      installNote, fallbackToUpload }) : work env r = work env it := by
  subst h
  rfl

theorem retryFailedRow_work (env : Env) (it : QueueItem) : work env (retryFailedRow it) = work env it := by
  unfold retryFailedRow
  split <;> exact work_congr env rfl

/-- **Retry repeats the work of a row**, except that a package which failed at its install is installed
from the copy on the console. -/
theorem work_retryRow (env : Env) (it : QueueItem) : work env (retryRow it) =
    if failedAtInstall it then (.install (hostOf it.addr) (.library it.resolvedDest false), none)
    else work env it := by
  unfold retryRow
  split
  · rfl
  · exact work_congr env rfl

theorem cleared_retryFailedRow (it : QueueItem) : Cleared (retryFailedRow it) ↔ Cleared it := by
  unfold retryFailedRow Cleared
  split <;> rfl

theorem retryItem_alone {it : QueueItem} (h : it.status = .failed) : retryItem it.id [it] = [retryRow it] := by
  have hfind : [it].find? (fun a => a.id = it.id) = some it := by simp
  rw [retryItem, hfind]
  dsimp only
  rw [if_neg (not_not.2 h), List.map_singleton, if_pos rfl]

/-- An upload is no install. -/
theorem work_upload_ne {it : QueueItem} (h : it.sourceKind ≠ .install) (env : Env) (host : Text)
    (request : InstallRequest) : work env it ≠ (.install host request, none) := by
  rw [work, if_neg h]
  exact fun heq => by cases (Prod.mk.inj heq).2

/-- A row is retried as Retry retries it alone. -/
structure RetriedAlike (it r : QueueItem) : Prop where
  pending : r.status = .pending
  work : ∀ one, retryItem it.id [it] = [one] → ∀ env, work env r = work env one
  cleared : Cleared r

/-- **Retry failed does to each row what Retry does**, exactly where no failed row is a package that failed
at its install and none has anything to be cleared. -/
theorem retryFailed_iff (host : Option Text) (items : List QueueItem) :
    (∀ (k : Nat) (it : QueueItem), items[k]? = some it → ∃ r, (retryFailed host items)[k]? = some r ∧
      if mine host it ∧ it.status = .failed then RetriedAlike it r else r = it) ↔
    ∀ it ∈ items, mine host it → it.status = .failed → failedAtInstall it = false ∧ Cleared it := by
  have hrow : ∀ (k : Nat) (it : QueueItem), items[k]? = some it → (retryFailed host items)[k]? =
      some (if !(mine host it) || it.status ≠ .failed then it else retryFailedRow it) := fun k it hk => by
    rw [retryFailed, List.getElem?_map, hk, Option.map_some]
  have hfailed : ∀ it : QueueItem, mine host it → it.status = .failed →
      (if !(mine host it) || it.status ≠ .failed then it else retryFailedRow it) = retryFailedRow it :=
    fun it hmine hstatus => if_neg (by simp [hmine, hstatus])
  constructor
  · intro h it hit hmine hstatus
    obtain ⟨k, hk⟩ := List.getElem?_of_mem hit
    obtain ⟨r, hr, hlike⟩ := h k it hk
    rw [hrow k it hk, hfailed it hmine hstatus] at hr
    cases hr
    rw [if_pos ⟨hmine, hstatus⟩] at hlike
    refine ⟨Bool.eq_false_iff.2 fun hinstall => ?_, (cleared_retryFailedRow it).1 hlike.cleared⟩
    -- With nothing to ask others for, the row is uploaded again.
    have hwork := hlike.work _ (retryItem_alone hstatus) ⟨0, fun _ _ => none, fun _ _ t => t, fun _ p => p,
      fun _ _ _ t => t⟩
    rw [work_retryRow, if_pos hinstall, retryFailedRow_work] at hwork
    unfold failedAtInstall at hinstall
    simp only [Bool.and_eq_true, decide_eq_true_eq] at hinstall
    exact work_upload_ne (by rw [hinstall.1.1]; decide) _ _ _ hwork
  · intro h k it hk
    refine ⟨_, hrow k it hk, ?_⟩
    by_cases hboth : mine host it ∧ it.status = .failed
    · obtain ⟨hmine, hstatus⟩ := hboth
      obtain ⟨hinstall, hcleared⟩ := h it (List.mem_of_getElem? hk) hmine hstatus
      rw [if_pos ⟨hmine, hstatus⟩, hfailed it hmine hstatus]
      refine ⟨?_, fun one hone env => ?_, (cleared_retryFailedRow it).2 hcleared⟩
      · unfold retryFailedRow
        split <;> rfl
      · rw [retryItem_alone hstatus] at hone
        cases hone
        rw [work_retryRow, hinstall, if_neg Bool.false_ne_true, retryFailedRow_work]
    · rw [if_neg hboth]
      refine if_pos ?_
      rw [Bool.or_eq_true, Bool.not_eq_true', decide_eq_true_eq]
      by_cases hmine : mine host it = true
      · exact .inr fun hstatus => hboth ⟨hmine, hstatus⟩
      · exact .inl (Bool.eq_false_iff.2 hmine)

/-- A package that failed at its install is uploaded again, and its error stays. -/
theorem retryFailed_uploads_again :
    let it : QueueItem := {
      id := ['p'], sourceKind := .pkg, sourcePath := "/pc/p.pkg".toList, resolvedDest := "/data/p.pkg".toList
      addr := ['h'], txIdHex := ['7'], status := .failed, uploadDone := some true
      error := some ['e'], completedAt := some 1 }
    ¬ ∀ (k : Nat) (a : QueueItem), [it][k]? = some a → ∃ r, (retryFailed none [it])[k]? = some r ∧
      if mine none a ∧ a.status = .failed then RetriedAlike a r else r = a := by
  intro it h
  obtain ⟨r, hr, hlike⟩ := h 0 it rfl
  rw [if_pos ⟨rfl, rfl⟩] at hlike
  cases hr
  have hwork := hlike.work (retryRow it) (retryItem_alone rfl) ⟨0, fun _ _ => none, fun _ _ t => t, fun _ p => p,
    fun _ _ _ t => t⟩
  exact absurd hwork (by decide)

end Ps5Upload.UploadQueue
