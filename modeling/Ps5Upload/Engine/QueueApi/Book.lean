import Mathlib.Data.List.Basic
import Mathlib.Logic.Function.Basic

/-!
# The engine's queue: the book and its locked sections

The model of `Book` in `engine/crates/ps5upload-engine/src/queue_api.rs`: one list of items,
a line per console in it, and everything that is done to that list while its lock is held.
Each function below is one locked section — of a request, of a console's driver, or of a
restart; `Driver.lean` interleaves them.
-/

namespace Ps5Upload.QueueApi

/-! ## Items -/

/-- What an item does: one route of the API. -/
inductive ItemKind where
  | uploadFile
  | uploadDir
  | uploadZip
  | upload7z
  | uploadRar
  | uploadFileList
  | linkDownload
  | download
  | install
  | imageBuild
  | packageBuild
  | folderBuild
  deriving DecidableEq, Repr

/-- The route takes a `tx_id`, so a stopped run picks up where it was. -/
def ItemKind.resumes : ItemKind → Bool
  | .install | .download | .imageBuild | .packageBuild | .folderBuild => false
  | _ => true

inductive Status where
  /-- Waits for its turn. -/
  | queued
  /-- Its route has been called, or is being called. -/
  | running
  /-- Skipped until resumed. It keeps its place. -/
  | paused
  | done
  | failed
  /-- Someone stopped its job or install directly. -/
  | cancelled
  /-- Was running when the engine stopped, or its job can no longer be found. -/
  | interrupted
  deriving DecidableEq, Repr

def Status.waiting : Status → Bool
  | .queued | .paused => true
  | _ => false

def Status.finished (s : Status) : Bool := !s.waiting && s ≠ .running

inductive Intent where
  /-- Stop the running job and keep the item, paused. -/
  | pause
  /-- Stop the running job and drop the item. -/
  | remove
  deriving DecidableEq, Repr

structure Secrets where
  password : Option String := none
  url : Option String := none
  deriving DecidableEq, Repr

def Secrets.isEmpty (s : Secrets) : Bool := s.password.isNone && s.url.isNone

structure Item where
  id : String
  /-- The console's host, lower case: what groups the line. -/
  console : String
  kind : ItemKind
  status : Status := .queued
  stopOnFailure : Bool := false
  startedAtMs : Option Nat := none
  finishedAtMs : Option Nat := none
  jobId : Option String := none
  /-- Runs started, this one included. -/
  runs : Nat := 0
  error : Option String := none
  code : Option String := none
  verdict : Option String := none
  hint : Option String := none
  /-- The request had a secret, which `secrets` holds until the engine stops. -/
  secretInMemory : Bool := false
  secrets : Secrets := {}
  intent : Option Intent := none
  deriving DecidableEq, Repr

/-- What of an item reaches the disk. -/
def Item.stored (item : Item) : Item := { item with secrets := {}, intent := none }

/-- How a run ended. -/
structure End where
  status : Status
  error : Option String := none
  code : Option String := none
  verdict : Option String := none
  hint : Option String := none
  deriving DecidableEq, Repr

/-- A refusal: the HTTP status, the error's code and its text. -/
structure Refusal where
  status : Nat
  code : String
  error : String
  deriving DecidableEq, Repr

def noSuchItem (id : String) : Refusal := ⟨404, "not_found", "no queue item " ++ id⟩

/-! ## The book -/

/-- A client's hold of a console. -/
structure Hold where
  console : String
  holder : String
  until_ : Nat
  deriving DecidableEq, Repr

structure Book where
  items : List Item := []
  holds : List Hold := []
  /-- Consoles with a driver task. -/
  drivers : List String := []
  /-- When a console's last item ended. -/
  lastEnded : String → Option Nat := fun _ => none
  /-- Numbers the saves, so an older one never lands after a newer one. -/
  generation : Nat := 0

/-- Waiting items one console may have. -/
def maxWaiting : Nat := 1000

/-- Finished items kept per console; the oldest go first. -/
def maxFinished : Nat := 200

def defaultHoldS : Nat := 30

def maxHoldS : Nat := 300

/-- How long the queue waits between two items of a console. -/
def settleMs : Nat := 3000

/-- Where an item is in the list, and the item. -/
def findItem (items : List Item) (id : String) : Option (Nat × Item) :=
  (items.findIdx? (·.id = id)).bind fun at_ => items[at_]?.map fun item => (at_, item)

def runningOn (items : List Item) (console : String) : Option Item :=
  items.find? fun item => item.console = console ∧ item.status = .running

def nextOn (items : List Item) (console : String) : Option Item :=
  items.find? fun item => item.console = console ∧ item.status = .queued

/-- The holds of a console that have lapsed go. -/
def Book.dropLapsed (b : Book) (now : Nat) (console : String) : Book :=
  { b with holds := b.holds.filter fun h => h.console ≠ console ∨ now < h.until_ }

/-- The holds of a console that last. -/
def Book.holders (b : Book) (now : Nat) (console : String) : List String :=
  (b.holds.filter fun h => h.console = console ∧ now < h.until_).map (·.holder)

/-- The loop of `place`: the index of the waiting item of `console` that comes after
`position - seen` others. -/
def placeIndex (console : String) (position : Nat) : Nat → Nat → List Item → Option Nat
  | _, _, [] => none
  | seen, index, other :: rest =>
    if other.console = console ∧ other.status.waiting then
      if seen = position then some index
      else placeIndex console position (seen + 1) (index + 1) rest
    else placeIndex console position seen (index + 1) rest

/-- The item at `at` moves to `position` among the waiting items of its console. -/
def place (items : List Item) (at_ position : Nat) : List Item :=
  match items[at_]? with
  | none => items
  | some item =>
    let rest := items.eraseIdx at_
    match placeIndex item.console position 0 0 rest with
    | some index => rest.insertIdx index item
    | none => rest ++ [item]

/-- The item waits for someone to look. -/
def Item.held (item : Item) (after : String) : Item :=
  { item with
    status := .paused
    code := some "held_after_failure"
    error := some ("Held because " ++ after ++ " did not finish.") }

/-- Items after a failed `stop_on_failure` item wait for someone to look. -/
def holdLaterItems (items : List Item) (at_ : Nat) : List Item :=
  match items[at_]? with
  | none => items
  | some failed =>
    items.take (at_ + 1) ++ (items.drop (at_ + 1)).map fun item =>
      if item.console = failed.console ∧ item.status = .queued then item.held failed.id
      else item

/-- The loop of `prune`: `over_` finished items of the console are still to go. -/
def pruneLoop (console : String) : Nat → List Item → List Item
  | _, [] => []
  | over_, item :: rest =>
    if 0 < over_ ∧ item.console = console ∧ item.status.finished then
      pruneLoop console (over_ - 1) rest
    else item :: pruneLoop console over_ rest

/-- The oldest finished items of a console go past the limit. -/
def prune (items : List Item) (console : String) : List Item :=
  let finished := (items.filter fun item => item.console = console ∧ item.status.finished).length
  pruneLoop console (finished - maxFinished) items

/-! ## Requests -/

/-- `add_handler`, from the lock on: the item is built, and goes to its place. -/
def Book.add (b : Book) (item : Item) (position : Option Nat) : Except Refusal Book :=
  let waiting := (b.items.filter fun other =>
    other.console = item.console ∧ other.status.waiting).length
  if maxWaiting ≤ waiting then
    .error ⟨409, "queue_full",
      item.console ++ " already has " ++ toString maxWaiting ++ " items waiting"⟩
  else
    let items := b.items ++ [item]
    match position with
    | none => .ok { b with items := items }
    | some position => .ok { b with items := place items b.items.length position }

def Book.pause (b : Book) (id : String) : Except Refusal Book :=
  match findItem b.items id with
  | none => .error (noSuchItem id)
  | some (at_, item) =>
    match item.status with
    | .queued =>
      .ok { b with items := b.items.modify at_ fun item => { item with status := .paused } }
    | .paused => .ok b
    | .running =>
      if item.kind = .install then
        .error ⟨409, "install_cannot_pause",
          "a running install cannot pause: the console goes on with it"⟩
      else if !item.kind.resumes then
        .error ⟨409, "cannot_pause",
          "a running download cannot pause: remove it with cancel to stop it"⟩
      else if item.intent = some .remove then
        .error ⟨409, "item_stopping", "this item is already being removed"⟩
      else
        -- it says `paused` once its job has stopped
        .ok { b with
          items := b.items.modify at_ fun item => { item with intent := some .pause } }
    | _ => .error ⟨409, "item_finished", "this item has finished: there is nothing to pause"⟩

/-- The item waits for its turn again. -/
def Item.resumed (item : Item) : Item :=
  { item with status := .queued, error := none, code := none, finishedAtMs := none }

def Book.resume (b : Book) (id : String) : Except Refusal Book :=
  match findItem b.items id with
  | none => .error (noSuchItem id)
  | some (at_, item) =>
    match item.status with
    | .queued => .ok b
    | .running =>
      if item.intent.isSome then
        .error ⟨409, "item_stopping", "this item is stopping: resume it once it says paused"⟩
      else .ok b
    | .done =>
      .error ⟨409, "item_finished", "this item has finished: add it again to run it again"⟩
    | _ =>
      if item.secretInMemory ∧ item.secrets.isEmpty then
        .error ⟨409, "secret_not_kept",
          "this item's password or link token was not kept over a restart: add it again"⟩
      else .ok { b with items := b.items.modify at_ Item.resumed }

def Book.remove (b : Book) (id : String) (cancel : Bool) : Except Refusal Book :=
  match findItem b.items id with
  | none => .error (noSuchItem id)
  | some (at_, item) =>
    if item.status = .running then
      if item.kind = .install then
        .error ⟨409, "install_running",
          "a running install cannot be removed: POST /api/pkg/install/stop stops " ++
          "following it, then the item can go"⟩
      else if !cancel then
        .error ⟨409, "item_running",
          "this item is running: send \x7b\"cancel\": true\x7d to stop it and remove it"⟩
      else
        .ok { b with
          items := b.items.modify at_ fun item => { item with intent := some .remove } }
    else .ok { b with items := b.items.eraseIdx at_ }

def Book.move (b : Book) (id : String) (position : Nat) : Except Refusal Book :=
  match findItem b.items id with
  | none => .error (noSuchItem id)
  | some (at_, item) =>
    if item.status.waiting then .ok { b with items := place b.items at_ position }
    else .error ⟨409, "not_waiting", "only an item that is waiting can move"⟩

/-- The time a client's hold lasts. -/
def holdTtlS (ttlS : Option Nat) : Nat := max 1 (min (ttlS.getD defaultHoldS) maxHoldS)

/-- `hold_handler`, from the lock on. -/
def Book.hold (b : Book) (now : Nat) (console holder : String) (ttlS : Option Nat) :
    Except Refusal Book :=
  match runningOn b.items console with
  | some _ =>
    .error ⟨409, "queue_running", "the engine's queue is running an item on this console"⟩
  | none =>
    let others := b.holds.filter fun h => h.console ≠ console ∨ h.holder ≠ holder
    let hold : Hold := ⟨console, holder, now + 1000 * holdTtlS ttlS⟩
    .ok (Book.dropLapsed { b with holds := others ++ [hold] } now console)

def Book.release (b : Book) (now : Nat) (console holder : String) : Book :=
  Book.dropLapsed
    { b with holds := b.holds.filter fun h => h.console ≠ console ∨ h.holder ≠ holder }
    now console

/-! ## The driver's sections -/

/-- What the first section of `next_step` decides. -/
inductive Look where
  | stop
  | wait
  | probe (head : String)
  deriving DecidableEq, Repr

/-- The first section of `next_step`. -/
def Book.look (b : Book) (now : Nat) (console : String) : Look × Book :=
  match nextOn b.items console with
  | none =>
    -- under the lock: an item added from now on starts a new driver
    (.stop, { b with drivers := b.drivers.erase console })
  | some head =>
    let b := b.dropLapsed now console
    if b.holders now console ≠ [] then (.wait, b)
    else if (b.lastEnded console).all fun ended => settleMs ≤ now - ended then
      (.probe head.id, b)
    else (.wait, b)

/-- The item runs. -/
def Item.started (item : Item) (now : Nat) : Item :=
  { item with
    status := .running, startedAtMs := some now, finishedAtMs := none, jobId := none,
    error := none, code := none, verdict := none, hint := none, runs := item.runs + 1 }

/-- The second section of `next_step`: the head starts, unless the line or the holds have
changed while the console was probed. -/
def Book.start (b : Book) (now : Nat) (console head : String) : Bool × Book :=
  if (nextOn b.items console).map (·.id) ≠ some head then (false, b)
  else
    let b := b.dropLapsed now console
    if b.holders now console ≠ [] then (false, b)
    else match findItem b.items head with
      | none => (false, b)
      | some (at_, _) =>
        (true, { b with items := b.items.modify at_ fun item => item.started now })

/-- The item is back in line. -/
def Item.requeued (item : Item) : Item :=
  { item with status := .queued, startedAtMs := none, runs := item.runs - 1 }

/-- The busy reply of an install: back in line, ahead of the rest. -/
def Book.requeue (b : Book) (now : Nat) (id : String) : Option Book :=
  (findItem b.items id).map fun (at_, item) =>
    { b with
      items := b.items.modify at_ Item.requeued
      lastEnded := Function.update b.lastEnded item.console (some now) }

/-- The job an item's route started. -/
def Book.setJob (b : Book) (id job : String) : Book :=
  match findItem b.items id with
  | none => b
  | some (at_, _) =>
    { b with items := b.items.modify at_ fun item => { item with jobId := some job } }

/-- The status an end leaves an item in. -/
def endStatus (item : Item) (end_ : End) : Status :=
  if end_.status = .cancelled ∧ item.intent = some .pause then .paused else end_.status

/-- The item ended. -/
def Item.ended (item : Item) (now : Nat) (end_ : End) : Item :=
  { item with
    status := endStatus item end_, intent := none, finishedAtMs := some now,
    error := end_.error, code := end_.code, verdict := end_.verdict, hint := end_.hint }

/-- A failure or an interruption: what `stop_on_failure` is about. -/
def Status.stops (s : Status) : Bool := s = .failed ∨ s = .interrupted

/-- The list after the item at `at` ended; the later items are held where it asks for that. -/
def finishAt (items : List Item) (at_ : Nat) (item : Item) (now : Nat) (end_ : End) :
    List Item :=
  let items := items.modify at_ fun item => item.ended now end_
  if item.stopOnFailure ∧ (endStatus item end_).stops then holdLaterItems items at_ else items

/-- The list after an item ended: one that someone asked to remove goes away instead. -/
def endItem (items : List Item) (now : Nat) (id : String) (end_ : End) : List Item :=
  match findItem items id with
  | none => items
  | some (at_, item) =>
    if item.intent = some .remove then items.eraseIdx at_ else finishAt items at_ item now end_

/-- `finish`. -/
def Book.finish (b : Book) (now : Nat) (id : String) (end_ : End) : Book :=
  match findItem b.items id with
  | none => b
  | some (_, item) =>
    { b with
      items := prune (endItem b.items now id end_) item.console
      lastEnded := Function.update b.lastEnded item.console (some now) }

/-- The running item of a driver that died. -/
def Item.orphaned (item : Item) (now : Nat) : Item :=
  { item with
    status := .interrupted, code := some "interrupted",
    error := some "The queue stopped following this item.",
    finishedAtMs := some now, intent := none }

/-- `DriverEnd::drop`: the driver gives its console up, its running item is interrupted. -/
def Book.orphan (b : Book) (now : Nat) (console : String) : Book :=
  let b := { b with drivers := b.drivers.erase console }
  match b.items.findIdx? fun item => item.console = console ∧ item.status = .running with
  | none => b
  | some at_ => { b with items := b.items.modify at_ fun item => item.orphaned now }

/-! ## A restart -/

/-- An item that was running when the engine stopped. -/
def Item.interrupted (item : Item) (now : Nat) : Item :=
  { item with
    status := .interrupted
    code := some "interrupted"
    error := some (if item.kind = .install then
      "The engine stopped during this install, and the console may have gone on with it. " ++
      "Check the console first: resume runs the install again."
    else "The engine stopped during this item. Resume runs it again.")
    finishedAtMs := some now }

/-- A waiting item whose secret was not kept. -/
def Item.secretNotKept (item : Item) (now : Nat) : Item :=
  { item with
    status := .interrupted
    code := some "secret_not_kept"
    error := some ("The engine stopped, and this item's password or link token is not kept " ++
      "on disk. Add it again.")
    finishedAtMs := some now }

/-- One turn of the loop of `after_restart`. -/
def restartAt (now : Nat) (items : List Item) (at_ : Nat) : List Item :=
  match items[at_]? with
  | none => items
  | some item =>
    if item.status = .running then
      let items := items.modify at_ fun item => item.interrupted now
      if item.stopOnFailure then holdLaterItems items at_ else items
    else if item.status.waiting ∧ item.secretInMemory then
      items.modify at_ fun item => item.secretNotKept now
    else items

/-- The list after the first `n` turns. -/
def restartTo (now : Nat) (items : List Item) : Nat → List Item
  | 0 => items
  | n + 1 => restartAt now (restartTo now items n) n

/-- What a restart means for what was on the list. -/
def afterRestart (now : Nat) (items : List Item) : List Item := restartTo now items items.length

/-- Whether the loop changed anything. -/
def restartChanges (now : Nat) (items : List Item) : Bool :=
  (List.range items.length).any fun n =>
    ((restartTo now items n)[n]?).any fun item =>
      item.status = .running || (item.status.waiting && item.secretInMemory)

end Ps5Upload.QueueApi
