import Mathlib.Data.List.Basic
import Mathlib.Logic.Function.Basic
import Mathlib.Tactic.Common
import Ps5Upload.Engine.QueueApi.Changes
import Ps5Upload.Lib.Runs

/-!
# The engine's queue: drivers, saves and restarts

The model of `QueueState` in `queue_api.rs` as a system that takes one locked section at a
time.  A state holds the book, the driver tasks that have been spawned and where each of them
is, the snapshots handed to the blocking pool, and the file.  The actions are

* the requests (`add`, `pause`, `resume`, `remove`, `move`, `hold`, `release`), each its
  locked section.  What a handler does after it — a save, and for `add` and `resume` a kick —
  are the actions `save` and `kick`: a handler may be dropped before either, and anything may
  come in between, so both may come at any time;
* `write`, the blocking pool carrying out one of the saves, in any order;
* the steps of a driver, given by its place in the list of tasks: `look` and `start` are the
  two sections of `next_step`, `away` a check between them that says to wait, `saveRun` the
  save of a started item, `call` the call of its route once that save has landed or has been
  overtaken, `busy`, `job` and `finish` what comes of the call, and `die` a driver that does
  not reach its end;
* `crash`, the engine stopping at any point and starting again from the file.

The last section of a driver that stops and the mark that it finished have no await between
them, so `look` does both.  A restart reads the file, goes over the list and saves it before
anything else runs: a crash before that save has changed nothing, so `crash` does all three.
-/

namespace Ps5Upload.QueueApi

/-- Where a driver is in `drive`. -/
inductive Pc where
  /-- About to look for the next item, or asleep before that. -/
  | loop
  /-- Between the two sections of `next_step`. -/
  | probing (head : String)
  /-- The item is marked running. -/
  | started (id : String)
  /-- The save with that mark is on its way. -/
  | saving (id : String) (generation : Nat)
  /-- The item's route has been called. -/
  | calling (id : String) (kind : ItemKind)
  /-- The item's job is being followed. -/
  | following (id : String)
  deriving DecidableEq, Repr

/-- The item a driver runs. -/
def Pc.owns : Pc → Option String
  | .loop | .probing _ => none
  | .started id | .saving id _ | .calling id _ | .following id => some id

/-- A driver task. -/
structure Task where
  console : String
  pc : Pc
  deriving DecidableEq, Repr

/-- The list as one save takes it, and that save's number. -/
structure Snapshot where
  generation : Nat
  items : List Item
  deriving DecidableEq, Repr

/-- What has happened to an item so far: how often its route was called, a resume of it
accepted and it was put back in line by a busy reply; and whether it was added, resumed or
put back since its route was last called. -/
structure Tally where
  calls : Nat := 0
  resumes : Nat := 0
  busies : Nat := 0
  open_ : Bool := true
  deriving DecidableEq, Repr

def Tally.called (t : Tally) : Tally := { t with calls := t.calls + 1, open_ := false }

def Tally.resumed (t : Tally) : Tally := { t with resumes := t.resumes + 1, open_ := true }

def Tally.putBack (t : Tally) : Tally := { t with busies := t.busies + 1, open_ := true }

structure System where
  book : Book := {}
  now : Nat := 0
  tasks : List Task := []
  /-- Saves handed to the blocking pool. -/
  pending : List Snapshot := []
  /-- The number of the last save that landed. -/
  written : Nat := 0
  /-- The items in the file. -/
  disk : List Item := []
  /-- The ids given out: a new item gets one of its own. -/
  issued : List String := []
  tally : String → Tally := fun _ => {}

inductive Act where
  | tick (ms : Nat)
  | add (id console : String) (kind : ItemKind) (stopOnFailure : Bool) (secrets : Secrets)
      (position : Option Nat)
  | pause (id : String)
  | resume (id : String)
  | remove (id : String) (cancel : Bool)
  | move (id : String) (position : Nat)
  | hold (console holder : String) (ttlS : Option Nat)
  | release (console holder : String)
  | save
  | write (i : Nat)
  | kick (console : String)
  | look (t : Nat)
  | away (t : Nat)
  | start (t : Nat)
  | saveRun (t : Nat)
  | call (t : Nat)
  | busy (t : Nat)
  | job (t : Nat) (job : String)
  | finish (t : Nat) (end_ : End)
  | die (t : Nat)
  | crash
  deriving DecidableEq, Repr

/-- A request's section: a refusal leaves the book as it was. -/
def System.request (s : System) (reply : Except Refusal Book) : System :=
  match reply with
  | .ok book => { s with book := book }
  | .error _ => s

/-- `snapshot`, and the snapshot handed to the blocking pool. -/
def System.save (s : System) : System :=
  { s with
    book := { s.book with generation := s.book.generation + 1 }
    pending := s.pending ++ [⟨s.book.generation + 1, s.book.items.map Item.stored⟩] }

/-- `write_snapshot`: an older save never lands after a newer one. -/
def System.writeSnapshot (s : System) (snapshot : Snapshot) : System :=
  if snapshot.generation ≤ s.written then s
  else { s with disk := snapshot.items, written := snapshot.generation }

def System.setPc (s : System) (t : Nat) (task : Task) (pc : Pc) : System :=
  { s with tasks := s.tasks.set t { task with pc := pc } }

/-- The engine starts from the file. -/
def System.restart (s : System) : System :=
  let items := afterRestart s.now s.disk
  let up : System := { s with book := { items := items }, tasks := [], pending := [], written := 0 }
  if restartChanges s.now s.disk then
    { up with
      book := { items := items, generation := 1 }
      disk := items.map Item.stored
      written := 1 }
  else up

/-- One step of one driver task. -/
def stepTask (s : System) (t : Nat) (task : Task) : Act → Option System
  | .look _ =>
    if task.pc = .loop then
      match s.book.look s.now task.console with
      | (.stop, book) => some { s with book := book, tasks := s.tasks.eraseIdx t }
      | (.wait, book) => some { s with book := book }
      | (.probe head, book) => some (System.setPc { s with book := book } t task (.probing head))
    else none
  | .away _ =>
    match task.pc with
    | .probing _ => some (s.setPc t task .loop)
    | _ => none
  | .start _ =>
    match task.pc with
    | .probing head =>
      match s.book.start s.now task.console head with
      | (true, book) => some (System.setPc { s with book := book } t task (.started head))
      | (false, book) => some (System.setPc { s with book := book } t task .loop)
    | _ => none
  | .saveRun _ =>
    match task.pc with
    | .started id => some (s.save.setPc t task (.saving id (s.book.generation + 1)))
    | _ => none
  | .call _ =>
    match task.pc with
    | .saving id generation =>
      if generation ≤ s.written then
        match findItem s.book.items id with
        | none => some (s.setPc t task .loop)
        | some (_, item) =>
          some (System.setPc
            { s with tally := Function.update s.tally id (s.tally id).called }
            t task (.calling id item.kind))
      else none
    | _ => none
  | .busy _ =>
    match task.pc with
    | .calling id .install =>
      match s.book.requeue s.now id with
      | none => some (s.setPc t task .loop)
      | some book =>
        some (System.setPc
          { s with
            book := book
            tally := Function.update s.tally id (s.tally id).putBack } t task .loop)
    | _ => none
  | .job _ job =>
    match task.pc with
    | .calling id _ =>
      some (System.setPc { s with book := s.book.setJob id job } t task (.following id))
    | _ => none
  | .finish _ end_ =>
    match task.pc with
    | .calling id _ =>
      -- the route refused, or its answer names no job
      if end_.status = .failed then
        some (System.setPc { s with book := s.book.finish s.now id end_ } t task .loop)
      else none
    | .following id =>
      if end_.status.finished then
        some (System.setPc { s with book := s.book.finish s.now id end_ } t task .loop)
      else none
    | _ => none
  | .die _ =>
    some { s with
      book := s.book.orphan s.now task.console
      tasks := s.tasks.eraseIdx t }
  | _ => none

/-- The task an action is a step of. -/
def Act.task : Act → Option Nat
  | .look t | .away t | .start t | .saveRun t | .call t | .busy t | .job t _ | .finish t _
  | .die t => some t
  | _ => none

/-- The queue's steps. -/
def step (s : System) (a : Act) : Option System :=
  match a with
  | .tick ms => some { s with now := s.now + ms }
  | .add id console kind stopOnFailure secrets position =>
    if id ∈ s.issued then none
    else
      let item : Item :=
        { id := id, console := console, kind := kind, stopOnFailure := stopOnFailure
          secretInMemory := !secrets.isEmpty, secrets := secrets }
      some { s.request (s.book.add item position) with issued := id :: s.issued }
  | .pause id => some (s.request (s.book.pause id))
  | .resume id =>
    match s.book.resume id with
    | .ok book =>
      some { s with book := book, tally := Function.update s.tally id (s.tally id).resumed }
    | .error _ => some s
  | .remove id cancel => some (s.request (s.book.remove id cancel))
  | .move id position => some (s.request (s.book.move id position))
  | .hold console holder ttlS => some (s.request (s.book.hold s.now console holder ttlS))
  | .release console holder => some { s with book := s.book.release s.now console holder }
  | .save => some s.save
  | .write i =>
    (s.pending[i]?).map fun snapshot =>
      { s.writeSnapshot snapshot with pending := s.pending.eraseIdx i }
  | .kick console =>
    if console ∈ s.book.drivers then some s
    else some { s with
      book := { s.book with drivers := console :: s.book.drivers }
      tasks := s.tasks ++ [⟨console, .loop⟩] }
  | .crash => some s.restart
  | _ => a.task.bind fun t => (s.tasks[t]?).bind fun task => stepTask s t task a

/-! ## What one step can do -/

/-- The book with another list. -/
def System.withItems (s : System) (items : List Item) : System :=
  { s with book := { s.book with items := items } }

/-- What one step can do: the sections, by what they do to the list. -/
inductive Effect (s : System) : Act → System → Prop where
  | same (a : Act) : Effect s a s
  | ticked (ms : Nat) : Effect s (.tick ms) { s with now := s.now + ms }
  | refusedAdd (a : Act) (id : String) : Effect s a { s with issued := id :: s.issued }
  | added (a : Act) (item : Item) (items : List Item) (hnew : item.id ∉ s.issued)
      (hqueued : item.status = .queued) (h : items.Perm (s.book.items ++ [item])) :
      Effect s a { s.withItems items with issued := item.id :: s.issued }
  /-- A pause, a removal or a move. -/
  | edited (a : Act) (items : List Item) (h : Changed Quiet s.book.items items) :
      Effect s a (s.withItems items)
  | resumed (id : String) (items : List Item) (h : Changed (Resumes id) s.book.items items) :
      Effect s (.resume id)
        { s.withItems items with tally := Function.update s.tally id (s.tally id).resumed }
  | held (a : Act) (holds : List Hold) :
      Effect s a { s with book := { s.book with holds := holds } }
  | saved : Effect s .save s.save
  | wrote (i : Nat) (snapshot : Snapshot) (hi : s.pending[i]? = some snapshot) :
      Effect s (.write i) { s.writeSnapshot snapshot with pending := s.pending.eraseIdx i }
  | kicked (console : String) (h : console ∉ s.book.drivers) :
      Effect s (.kick console) { s with
        book := { s.book with drivers := console :: s.book.drivers }
        tasks := s.tasks ++ [⟨console, .loop⟩] }
  | stopped (t : Nat) (task : Task) (ht : s.tasks[t]? = some task) (hpc : task.pc = .loop) :
      Effect s (.look t) { s with
        book := { s.book with drivers := s.book.drivers.erase task.console }
        tasks := s.tasks.eraseIdx t }
  /-- A driver goes on with nothing of its own running: it waits, probes, or finds its item
  gone. -/
  | turned (a : Act) (t : Nat) (task : Task) (holds : List Hold) (pc : Pc)
      (ht : s.tasks[t]? = some task) (hpc : pc.owns = none)
      (hgone : ∀ id, task.pc.owns = some id → ∀ x ∈ s.book.items, x.id ≠ id) :
      Effect s a (System.setPc { s with book := { s.book with holds := holds } } t task pc)
  | started (t : Nat) (task : Task) (head : String) (items : List Item)
      (ht : s.tasks[t]? = some task) (hpc : task.pc = .probing head)
      (hholds : ∀ k ∈ s.book.holds, k.console = task.console → k.until_ ≤ s.now)
      (hhead : ∃ x ∈ s.book.items, x.id = head ∧ x.status = .queued)
      (h : Changed (Sets head fun x y =>
        x.console = task.console ∧ x.status = .queued ∧ y.status = .running)
        s.book.items items) :
      Effect s (.start t) (System.setPc
        { s with book := { s.book.dropLapsed s.now task.console with items := items } }
        t task (.started head))
  | savedRun (t : Nat) (task : Task) (id : String) (ht : s.tasks[t]? = some task)
      (hpc : task.pc = .started id) :
      Effect s (.saveRun t) (s.save.setPc t task (.saving id (s.book.generation + 1)))
  | called (t : Nat) (task : Task) (id : String) (generation : Nat) (item : Item)
      (ht : s.tasks[t]? = some task) (hpc : task.pc = .saving id generation)
      (hlanded : generation ≤ s.written) (hitem : item ∈ s.book.items) (hid : item.id = id) :
      Effect s (.call t) (System.setPc
        { s with tally := Function.update s.tally id (s.tally id).called }
        t task (.calling id item.kind))
  | putBack (t : Nat) (task : Task) (id : String) (items : List Item)
      (ended : String → Option Nat) (ht : s.tasks[t]? = some task)
      (hpc : task.pc = .calling id .install)
      (h : Changed (Sets id fun _ y => y.status = .queued) s.book.items items) :
      Effect s (.busy t) (System.setPc
        { s with
          book := { s.book with items := items, lastEnded := ended }
          tally := Function.update s.tally id (s.tally id).putBack } t task .loop)
  | gotJob (t : Nat) (task : Task) (id job : String) (kind : ItemKind) (items : List Item)
      (ht : s.tasks[t]? = some task) (hpc : task.pc = .calling id kind)
      (h : Changed Quiet s.book.items items) :
      Effect s (.job t job) ((s.withItems items).setPc t task (.following id))
  | finished (t : Nat) (task : Task) (id : String) (end_ : End) (items : List Item)
      (ended : String → Option Nat) (ht : s.tasks[t]? = some task)
      (hpc : task.pc.owns = some id)
      (hbook : s.book.finish s.now id end_ =
        { s.book with items := items, lastEnded := ended })
      (h : Changed (Sets id fun _ y => y.status ≠ .running ∧ y.status ≠ .queued)
        s.book.items items) :
      Effect s (.finish t end_) (System.setPc
        { s with book := { s.book with items := items, lastEnded := ended } } t task .loop)
  | died (t : Nat) (task : Task) (ht : s.tasks[t]? = some task) :
      Effect s (.die t) { s with
        book := s.book.orphan s.now task.console
        tasks := s.tasks.eraseIdx t }
  | crashed : Effect s .crash s.restart

theorem look_cases (b : Book) (now : Nat) (console : String) :
    (b.look now console = (.stop, { b with drivers := b.drivers.erase console })) ∨
    ∃ look, look ≠ .stop ∧ b.look now console = (look, b.dropLapsed now console) := by
  unfold Book.look
  split
  · exact Or.inl rfl
  · simp only
    split
    · exact Or.inr ⟨.wait, by simp, rfl⟩
    · split
      · exact Or.inr ⟨_, by simp, rfl⟩
      · exact Or.inr ⟨.wait, by simp, rfl⟩

/-- A start that does not come about leaves the list alone. -/
theorem start_false {b b' : Book} {now : Nat} {console head : String}
    (h : b.start now console head = (false, b')) :
    ∃ holds, b' = { b with holds := holds } := by
  unfold Book.start at h
  split at h
  · cases h
    exact ⟨b.holds, rfl⟩
  · simp only at h
    split at h
    · cases h
      exact ⟨_, rfl⟩
    · split at h
      · cases h
        exact ⟨_, rfl⟩
      · simp at h

theorem stepTask_effect {s s' : System} {t : Nat} {task : Task} {a : Act}
    (hn : (s.book.items.map Item.id).Nodup) (ht : s.tasks[t]? = some task)
    (ha : a.task = some t) (h : stepTask s t task a = some s') : Effect s a s' := by
  have hnone : ∀ {id : String}, findItem s.book.items id = none →
      ∀ x ∈ s.book.items, x.id ≠ id := by
    rintro id hf x hx rfl
    have := findItem_isSome hx
    rw [hf] at this
    simp at this
  cases a <;> simp only [Act.task, Option.some.injEq, reduceCtorEq] at ha <;> subst ha
  case look =>
    simp only [stepTask] at h
    split at h
    · rename_i hpc
      rcases look_cases s.book s.now task.console with hl | ⟨look, hne, hl⟩
      · rw [hl] at h
        cases h
        exact .stopped _ task ht hpc
      · rw [hl] at h
        cases look with
        | stop => exact absurd rfl hne
        | wait =>
          cases h
          exact .held _ _
        | probe head =>
          cases h
          exact .turned _ _ task _ (.probing head) ht rfl (by simp [hpc, Pc.owns])
    · simp at h
  case away =>
    simp only [stepTask] at h
    split at h
    · rename_i head hpc
      cases h
      exact .turned _ _ task s.book.holds .loop ht rfl (by simp [hpc, Pc.owns])
    · simp at h
  case start =>
    simp only [stepTask] at h
    split at h
    · rename_i head hpc
      split at h
      · rename_i book hstart
        cases h
        obtain ⟨hholds, hhead, items, rfl, hch⟩ := start_cases hn hstart
        exact .started _ task head items ht hpc hholds hhead hch
      · rename_i book hstart
        cases h
        obtain ⟨holds, rfl⟩ := start_false hstart
        exact .turned _ _ task holds .loop ht rfl (by simp [hpc, Pc.owns])
    · simp at h
  case saveRun =>
    simp only [stepTask] at h
    split at h
    · rename_i id hpc
      cases h
      exact .savedRun _ task id ht hpc
    · simp at h
  case call =>
    simp only [stepTask] at h
    split at h
    · rename_i id generation hpc
      split at h
      · rename_i hg
        split at h
        · rename_i hf
          cases h
          refine .turned _ _ task s.book.holds .loop ht rfl fun id' hid' => ?_
          simp only [hpc, Pc.owns, Option.some.injEq] at hid'
          exact hid' ▸ hnone hf
        · rename_i item hf
          cases h
          obtain ⟨pre, post, hitems, -, hid⟩ := findItem_split hf
          exact .called _ task id generation item ht hpc hg (by rw [hitems]; simp) hid
      · simp at h
    · simp at h
  case busy =>
    simp only [stepTask] at h
    split at h
    · rename_i id hpc
      split at h
      · rename_i hf
        cases h
        refine .turned _ _ task s.book.holds .loop ht rfl fun id' hid' => ?_
        simp only [hpc, Pc.owns, Option.some.injEq] at hid'
        simp only [Book.requeue, Option.map_eq_none_iff] at hf
        exact hid' ▸ hnone hf
      · rename_i book hf
        cases h
        obtain ⟨items, ended, rfl, hch⟩ := requeue_cases hn hf
        exact .putBack _ task id items ended ht hpc hch
    · simp at h
  case job t' name =>
    simp only [stepTask] at h
    split at h
    · rename_i id kind hpc
      cases h
      obtain ⟨items, heq, hch⟩ := setJob_changed s.book id name
      rw [heq]
      exact .gotJob _ task id _ kind items ht hpc hch
    · simp at h
  case finish =>
    simp only [stepTask] at h
    split at h
    · rename_i id kind hpc
      split at h
      · rename_i hend
        cases h
        obtain ⟨items, ended, heq, hch⟩ :=
          finish_changed hn s.now id (by rw [hend]; rfl)
        rw [heq]
        exact .finished _ task id _ items ended ht (by rw [hpc]; rfl) heq hch
      · simp at h
    · rename_i id hpc
      split at h
      · rename_i hend
        cases h
        obtain ⟨items, ended, heq, hch⟩ := finish_changed hn s.now id hend
        rw [heq]
        exact .finished _ task id _ items ended ht (by rw [hpc]; rfl) heq hch
      · simp at h
    · simp at h
  case die =>
    cases h
    exact .died _ task ht

/-- A request's section, by what it did to the list. -/
theorem request_effect {s : System} {a : Act} {reply : Except Refusal Book}
    (h : ∀ book, reply = .ok book →
      ∃ items, book = { s.book with items := items } ∧ Changed Quiet s.book.items items) :
    Effect s a (s.request reply) := by
  unfold System.request
  split
  · rename_i book
    obtain ⟨items, rfl, hch⟩ := h book rfl
    exact .edited a items hch
  · exact .same a

theorem step_effect {s s' : System} {a : Act} (hn : (s.book.items.map Item.id).Nodup)
    (h : step s a = some s') : Effect s a s' := by
  have htask : ∀ {t}, a.task = some t →
      (a.task.bind fun t => (s.tasks[t]?).bind fun task => stepTask s t task a) = some s' →
      Effect s a s' := by
    intro t ha h
    simp only [ha, Option.bind_some, Option.bind_eq_some_iff] at h
    obtain ⟨task, ht, hs⟩ := h
    exact stepTask_effect hn ht ha hs
  cases a with
  | tick ms =>
    cases h
    exact .ticked ms
  | add id console kind stopOnFailure secrets position =>
    simp only [step] at h
    split at h
    · simp at h
    · rename_i hnew
      cases h
      unfold System.request
      split
      · rename_i book hadd
        obtain ⟨items, rfl, hperm⟩ := add_perm hadd
        exact .added _ { id := id, console := console, kind := kind,
                         stopOnFailure := stopOnFailure, secretInMemory := !secrets.isEmpty,
                         secrets := secrets } items hnew rfl hperm
      · exact .refusedAdd _ id
  | pause id =>
    cases h
    exact request_effect fun _ hb => pause_changed hb
  | resume id =>
    simp only [step] at h
    split at h
    · rename_i book hres
      cases h
      obtain ⟨items, rfl, hch⟩ := resume_changed hres
      exact .resumed id items hch
    · cases h
      exact .same _
  | remove id cancel =>
    cases h
    exact request_effect fun _ hb => remove_changed hb
  | move id position =>
    cases h
    exact request_effect fun _ hb => move_changed hb
  | hold console holder ttlS =>
    cases h
    unfold System.request
    split
    · rename_i book hhold
      unfold Book.hold at hhold
      split at hhold
      · simp at hhold
      · cases hhold
        exact .held _ _
    · exact .same _
  | release console holder =>
    cases h
    exact .held _ _
  | save =>
    cases h
    exact .saved
  | write i =>
    simp only [step, Option.map_eq_some_iff] at h
    obtain ⟨snapshot, hi, rfl⟩ := h
    exact .wrote i snapshot hi
  | kick console =>
    simp only [step] at h
    split at h
    · cases h
      exact .same _
    · rename_i hnew
      cases h
      exact .kicked console hnew
  | crash =>
    cases h
    exact .crashed
  | look t => exact htask rfl h
  | away t => exact htask rfl h
  | start t => exact htask rfl h
  | saveRun t => exact htask rfl h
  | call t => exact htask rfl h
  | busy t => exact htask rfl h
  | job t job => exact htask rfl h
  | finish t end_ => exact htask rfl h
  | die t => exact htask rfl h

end Ps5Upload.QueueApi
