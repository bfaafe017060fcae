import Mathlib.Algebra.BigOperators.Group.List.Basic
import Mathlib.Algebra.Order.BigOperators.Group.List
import Mathlib.Algebra.Order.Ring.Nat
import Mathlib.Tactic.Common
import Ps5Upload.Lib.Runs

/-!
# Upload admission: the free-space gate and its ledger

The model of `engine/crates/ps5upload-ava1/src/space.rs`.  Before an upload starts, its
gate asks the console how much room the destination's drive has (`probe`, a network call)
and then, under the ledger's lock, takes off what the other running uploads have promised
and not yet written (`gateCheck`).  An admitted job leaves a `Promise` in the ledger, which
is removed when its `Reservation` is dropped.

The probe is never made under the lock, so other gates, writes and job ends may fall
between a gate's probe and its check.  `System` holds the drives, the ledger and the gate
calls that are between the two, and `step` is one move of anyone: a probe, a ledger check,
a write by an admitted job, the end of a job, or the drive gaining or losing room for
another reason.

* `check_refuses_of_short` — a refusal is right at the moment of the probe, whatever has
  happened since: the job needs more than the probed room less what the others had still
  to write then, as long as a drive gains room only while no upload counts on its room
  (`GrowsUnused`);
* `stale_promise_refuses` — not so where room is freed between a gate's probe and its check:
  the promise stands on the room there was before;
* `stillToWrite_le_room` — the drive is never promised more than it has, in every run in
  which each promise is credited with its own job's writes only (`CreditsOwnWrites`);
* `two_writers_overcommit` — without that proviso it is: a promise is credited with the
  whole loss of room since it was made, so one job's writes pay another job's promise.
-/

namespace Ps5Upload.Space

/-! ## The room a console reports -/

/-- What the destination's volume offers right now. -/
structure Room where
  /-- What the message calls the drive: its mount path, or the destination asked about. -/
  volume : String
  /-- The drive's device id, when the console said it. -/
  dev : Option Nat
  freeBytes : Nat
  reserveBytes : Nat
  /-- What an upload may fill. -/
  allocatableBytes : Nat
  totalBytes : Nat
  image : Bool
  deriving DecidableEq, Repr

/-- The sender's figures for one job; `toAllocate` is the sender crate's `to_allocate()`. -/
structure SpaceFigures where
  jobBytes : Nat
  toAllocate : Nat
  deriving DecidableEq, Repr

/-- A ledger key: the console's host, and the drive on it. -/
abbrev Key := String × String

/-- Uploads to different folders of one drive share a key when the console named the
device; otherwise the volume's name is the key. -/
def ledgerKey (host : String) (room : Room) : Key :=
  (host, room.dev.elim room.volume fun d => "dev:" ++ toString d)

/-! ## Promises -/

/-- One running upload's promise: the bytes it still has to allocate, and the room the
volume offered when it was admitted. -/
structure Promise where
  key : Key
  toAllocate : Nat
  roomThen : Nat
  volume : String
  freeBytes : Nat
  reserveBytes : Nat
  image : Bool
  deriving DecidableEq, Repr

/-- What the job has still to take from the volume: its promise less what the volume has
lost since it was admitted. -/
def Promise.outstanding (p : Promise) (roomNow : Nat) : Nat :=
  p.toAllocate - (p.roomThen - roomNow)

/-- Why an upload does not fit, as figures. -/
structure SpaceRefusal where
  volume : String
  needBytes : Nat
  availBytes : Nat
  freeBytes : Nat
  reserveBytes : Nat
  promisedBytes : Nat
  reusedBytes : Nat
  image : Bool
  late : Bool
  deriving DecidableEq, Repr

/-- The verdict for one job: whether what it must still allocate fits the room left after
the other jobs' promises. -/
def judge (figures : SpaceFigures) (room : Room) (promisedElsewhere : Nat) :
    Except SpaceRefusal Unit :=
  let need := figures.toAllocate
  let avail := room.allocatableBytes - promisedElsewhere
  if need ≤ avail then .ok ()
  else .error
    { volume := room.volume
      needBytes := need
      availBytes := avail
      freeBytes := room.freeBytes
      reserveBytes := room.reserveBytes
      promisedBytes := promisedElsewhere
      reusedBytes := figures.jobBytes - need
      image := room.image
      late := false }

theorem judge_eq_ok_iff {figures : SpaceFigures} {room : Room} {n : Nat} :
    judge figures room n = .ok () ↔ figures.toAllocate ≤ room.allocatableBytes - n := by
  simp only [judge]
  split <;> simp_all

theorem judge_eq_error_iff {figures : SpaceFigures} {room : Room} {n : Nat} :
    (∃ why, judge figures room n = .error why) ↔
      room.allocatableBytes - n < figures.toAllocate := by
  simp only [judge]
  split <;> simp_all

/-! ## The ledger -/

/-- The largest `u64`. -/
def u64Max : Nat := 2 ^ 64 - 1

/-- `u64::saturating_add`. -/
def saturatingAdd (a b : Nat) : Nat := min (a + b) u64Max

/-- Adding up with saturation stops at the largest `u64` and is exact below it. -/
theorem foldl_saturatingAdd (l : List Nat) {a : Nat} (ha : a ≤ u64Max) :
    l.foldl saturatingAdd a = min (a + l.sum) u64Max := by
  induction l generalizing a with
  | nil => simp [ha]
  | cons x l ih =>
    have hle : saturatingAdd a x ≤ u64Max := min_le_right _ _
    rw [List.foldl_cons, ih hle, List.sum_cons, saturatingAdd]
    omega

variable {Job : Type} [DecidableEq Job]

/-- The running uploads' promises, one a job. -/
abbrev Ledger (Job : Type) := List (Job × Promise)

namespace Ledger

/-- `HashMap::remove`. -/
def remove (l : Ledger Job) (job : Job) : Ledger Job := l.filter fun e => e.1 ≠ job

/-- `HashMap::insert`. -/
def insert (l : Ledger Job) (job : Job) (p : Promise) : Ledger Job := (job, p) :: l.remove job

/-- The promises that count against `job` on the drive `key`. -/
def others (l : Ledger Job) (job : Job) (key : Key) : Ledger Job :=
  l.filter fun e => e.1 ≠ job ∧ e.2.key = key

/-- The promises on the drive `key`. -/
def onDrive (l : Ledger Job) (key : Key) : Ledger Job := l.filter fun e => e.2.key = key

variable {l : Ledger Job} {job : Job} {e : Job × Promise}

theorem mem_remove : e ∈ l.remove job ↔ e ∈ l ∧ e.1 ≠ job := by simp [remove]

theorem mem_insert {p : Promise} :
    e ∈ l.insert job p ↔ e = (job, p) ∨ e ∈ l ∧ e.1 ≠ job := by simp [insert, mem_remove]

theorem mem_others {key : Key} :
    e ∈ l.others job key ↔ e ∈ l ∧ e.1 ≠ job ∧ e.2.key = key := by simp [others]

theorem onDrive_remove (l : Ledger Job) (job : Job) (key : Key) :
    (l.remove job).onDrive key = l.others job key := by
  simp only [onDrive, remove, others, List.filter_filter]
  refine List.filter_congr fun e _ => ?_
  simp [Bool.and_comm]

theorem onDrive_insert_self (l : Ledger Job) (job : Job) (p : Promise) :
    (l.insert job p).onDrive p.key = (job, p) :: l.others job p.key := by
  rw [insert, onDrive, List.filter_cons_of_pos (by simp), ← onDrive, onDrive_remove]

theorem onDrive_insert_of_ne (l : Ledger Job) (job : Job) (p : Promise) {key : Key}
    (h : p.key ≠ key) : (l.insert job p).onDrive key = l.others job key := by
  rw [insert, onDrive, List.filter_cons_of_neg (by simpa using h), ← onDrive, onDrive_remove]

theorem others_sublist_onDrive (l : Ledger Job) (job : Job) (key : Key) :
    (l.others job key).Sublist (l.onDrive key) := by
  rw [← onDrive_remove]
  exact List.filter_sublist.filter _

/-- One promise a job, as a map has it. -/
def Unique (l : Ledger Job) : Prop := ∀ e ∈ l, ∀ e' ∈ l, e.1 = e'.1 → e = e'

theorem Unique.remove (h : l.Unique) (job : Job) : (l.remove job).Unique :=
  fun e he e' he' => h e (mem_remove.1 he).1 e' (mem_remove.1 he').1

theorem Unique.insert (h : l.Unique) (job : Job) (p : Promise) : (l.insert job p).Unique := by
  intro e he e' he' hee
  rcases mem_insert.1 he with rfl | ⟨he1, hne⟩ <;>
    rcases mem_insert.1 he' with rfl | ⟨he1', hne'⟩
  · rfl
  · exact absurd hee.symm hne'
  · exact absurd hee hne
  · exact h e he1 e' he1' hee

end Ledger

/-- What the other jobs of the drive have promised and not written, judged at `roomNow`. -/
def elsewhere (l : Ledger Job) (job : Job) (key : Key) (roomNow : Nat) : Nat :=
  ((l.others job key).map fun e => e.2.outstanding roomNow).foldl saturatingAdd 0

theorem elsewhere_eq (l : Ledger Job) (job : Job) (key : Key) (roomNow : Nat) :
    elsewhere l job key roomNow =
      min (((l.others job key).map fun e => e.2.outstanding roomNow).sum) u64Max := by
  rw [elsewhere, foldl_saturatingAdd _ (Nat.zero_le _), Nat.zero_add]

/-- The promise an admitted job leaves. -/
def promiseOf (host : String) (figures : SpaceFigures) (room : Room) : Promise :=
  { key := ledgerKey host room
    toAllocate := figures.toAllocate
    roomThen := room.allocatableBytes
    volume := room.volume
    freeBytes := room.freeBytes
    reserveBytes := room.reserveBytes
    image := room.image }

/-- The second half of a gate, under the ledger's lock: the verdict, the ledger after it
and the refusals kept for the failed jobs to pick up. -/
def gateCheck (l : Ledger Job) (refusals : List (Job × SpaceRefusal)) (job : Job)
    (host : String) (figures : SpaceFigures) (room : Room) :
    Except SpaceRefusal Unit × Ledger Job × List (Job × SpaceRefusal) :=
  match judge figures room
      (elsewhere l job (ledgerKey host room) room.allocatableBytes) with
  | .ok () =>
    (.ok (), l.insert job (promiseOf host figures room), refusals)
  | .error why =>
    (.error why, l.remove job, (job, why) :: refusals.filter fun e => e.1 ≠ job)

/-- What a ledger check can do: admit the job on a fitting figure, or refuse it. -/
theorem gateCheck_cases (l : Ledger Job) (refusals : List (Job × SpaceRefusal)) (job : Job)
    (host : String) (figures : SpaceFigures) (room : Room) :
    (figures.toAllocate ≤ room.allocatableBytes -
        elsewhere l job (ledgerKey host room) room.allocatableBytes ∧
      gateCheck l refusals job host figures room =
        (.ok (), l.insert job (promiseOf host figures room), refusals)) ∨
    (room.allocatableBytes - elsewhere l job (ledgerKey host room) room.allocatableBytes <
        figures.toAllocate ∧
      ∃ why, gateCheck l refusals job host figures room =
        (.error why, l.remove job, (job, why) :: refusals.filter fun e => e.1 ≠ job)) := by
  unfold gateCheck
  cases h : judge figures room
      (elsewhere l job (ledgerKey host room) room.allocatableBytes) with
  | ok u => exact Or.inl ⟨judge_eq_ok_iff.1 h, rfl⟩
  | error why => exact Or.inr ⟨judge_eq_error_iff.1 ⟨why, h⟩, why, rfl⟩

/-! ## Jobs, drives and gates, interleaved -/

/-- A gate call between its probe and its ledger check: whose it is, what the probe
answered (`none` is never a refusal), and, for the statements below, what every running
job had written under its promise when the probe was made, and how many promises had been
made by then. -/
structure Call (Job : Type) where
  job : Job
  host : String
  answer : Option Room
  wroteThen : Job → Nat
  madeThen : Nat

/-- The drive a gate call is about. -/
def Call.key? (c : Call Job) : Option Key := c.answer.map (ledgerKey c.host)

/-- The drives, the ledger and the gate calls under way; and, for the statements below, what
each admitted job has written under its standing promise, how many promises have been made,
and how many there were before a job's standing one. -/
structure System (Job : Type) where
  room : Key → Nat
  ledger : Ledger Job
  refusals : List (Job × SpaceRefusal)
  wrote : Job → Nat
  made : Nat
  madeBefore : Job → Nat
  calls : List (Call Job)

/-- No uploads yet, drives with the given room. -/
def System.start (room : Key → Nat) : System Job :=
  { room := room, ledger := [], refusals := [], wrote := fun _ => 0, made := 0,
    madeBefore := fun _ => 0, calls := [] }

/-- What a job had written under its standing promise when the probe of a call was made:
nothing, where the promise was made since. -/
def System.writtenBy (s : System Job) (c : Call Job) (job : Job) : Nat :=
  if s.madeBefore job < c.madeThen then c.wroteThen job else 0

/-- One move of anyone. -/
inductive Act (Job : Type) where
  /-- A gate asks the console for the room under its destination. -/
  | probe (job : Job) (host : String) (answer : Option Room)
  /-- The `i`-th gate call under way checks the ledger. -/
  | check (i : Nat) (figures : SpaceFigures)
  /-- An admitted job writes bytes of its own. -/
  | write (job : Job) (n : Nat)
  /-- The upload ends, by any path: its `Reservation` is dropped. -/
  | drop (job : Job)
  /-- Something else on the drive takes room. -/
  | lose (key : Key) (n : Nat)
  /-- Something else on the drive frees room. -/
  | grow (key : Key) (n : Nat)

/-- `f` with `b` at `a`. -/
def setAt {β : Type} (f : Job → β) (a : Job) (b : β) : Job → β := fun x => if x = a then b else f x

@[simp] theorem setAt_self {β : Type} (f : Job → β) (a : Job) (b : β) : setAt f a b a = b := by
  simp [setAt]

theorem setAt_of_ne {β : Type} (f : Job → β) {a x : Job} (b : β) (h : x ≠ a) :
    setAt f a b x = f x := by simp [setAt, h]

/-- The room of one drive changed. -/
def setRoom (room : Key → Nat) (key : Key) (n : Nat) : Key → Nat :=
  fun k => if k = key then n else room k

/-- A ledger check carried out. -/
def System.check (s : System Job) (c : Call Job) (rest : List (Call Job))
    (figures : SpaceFigures) : System Job :=
  match c.answer with
  | none => { s with calls := rest }
  | some room =>
    match gateCheck s.ledger s.refusals c.job c.host figures room with
    | (.ok (), ledger, refusals) =>
      { s with
        ledger := ledger
        refusals := refusals
        wrote := setAt s.wrote c.job 0
        made := s.made + 1
        madeBefore := setAt s.madeBefore c.job s.made
        calls := rest }
    | (.error _, ledger, refusals) =>
      { s with ledger := ledger, refusals := refusals, calls := rest }

/-- One move.  A probe reports the drive as it is, in a `u64`; a job writes no more than it
promised, into room the drive has. -/
def step (s : System Job) : Act Job → Option (System Job)
  | .probe job host answer =>
    if ∀ r ∈ answer, r.allocatableBytes = s.room (ledgerKey host r) ∧
        r.allocatableBytes ≤ u64Max then
      some { s with calls := s.calls ++ [⟨job, host, answer, s.wrote, s.made⟩] }
    else none
  | .check i figures =>
    match s.calls[i]? with
    | none => none
    | some c => some (s.check c (s.calls.eraseIdx i) figures)
  | .write job n =>
    match s.ledger.find? fun e => e.1 = job with
    | none => none
    | some e =>
      if s.wrote job + n ≤ e.2.toAllocate ∧ n ≤ s.room e.2.key then
        some { s with
          room := setRoom s.room e.2.key (s.room e.2.key - n)
          wrote := setAt s.wrote job (s.wrote job + n) }
      else none
  | .drop job =>
    some { s with
      ledger := s.ledger.remove job
      refusals := s.refusals.filter fun e => e.1 ≠ job }
  | .lose key n =>
    if n ≤ s.room key then some { s with room := setRoom s.room key (s.room key - n) } else none
  | .grow key n => some { s with room := setRoom s.room key (s.room key + n) }

/-! ### What each move does -/

variable {s s' : System Job} {job : Job} {n : Nat} {c : Call Job}

theorem step_probe {host : String} {answer : Option Room}
    (h : step s (.probe job host answer) = some s') :
    (∀ r ∈ answer, r.allocatableBytes = s.room (ledgerKey host r) ∧
        r.allocatableBytes ≤ u64Max) ∧
      s' = { s with calls := s.calls ++ [⟨job, host, answer, s.wrote, s.made⟩] } := by
  simp only [step] at h
  split at h
  · rename_i hg
    exact ⟨hg, (Option.some.inj h).symm⟩
  · simp at h

theorem step_check {i : Nat} {figures : SpaceFigures} (h : step s (.check i figures) = some s') :
    ∃ c, s.calls[i]? = some c ∧ s' = s.check c (s.calls.eraseIdx i) figures := by
  simp only [step] at h
  split at h
  · simp at h
  · rename_i c hc
    exact ⟨c, hc, (Option.some.inj h).symm⟩

theorem step_write (h : step s (.write job n) = some s') :
    ∃ e ∈ s.ledger, e.1 = job ∧ s.wrote job + n ≤ e.2.toAllocate ∧ n ≤ s.room e.2.key ∧
      s' = { s with
        room := setRoom s.room e.2.key (s.room e.2.key - n)
        wrote := setAt s.wrote job (s.wrote job + n) } := by
  simp only [step] at h
  split at h
  · simp at h
  · rename_i e he
    split at h
    · rename_i hg
      exact ⟨e, List.mem_of_find?_eq_some he, by simpa using List.find?_some he, hg.1, hg.2,
        (Option.some.inj h).symm⟩
    · simp at h

theorem step_lose {key : Key} (h : step s (.lose key n) = some s') :
    n ≤ s.room key ∧ s' = { s with room := setRoom s.room key (s.room key - n) } := by
  simp only [step] at h
  split at h
  · rename_i hg
    exact ⟨hg, (Option.some.inj h).symm⟩
  · simp at h

/-- What a ledger check leaves: nothing but the call gone when the probe had no answer,
the job's promise put in place of its old one when it fits, its old one gone otherwise. -/
theorem check_cases (s : System Job) (c : Call Job) (rest : List (Call Job))
    (figures : SpaceFigures) :
    (c.answer = none ∧ s.check c rest figures = { s with calls := rest }) ∨
    (∃ r, c.answer = some r ∧
      figures.toAllocate ≤ r.allocatableBytes -
        elsewhere s.ledger c.job (ledgerKey c.host r) r.allocatableBytes ∧
      s.check c rest figures =
        { s with
          ledger := s.ledger.insert c.job (promiseOf c.host figures r)
          wrote := setAt s.wrote c.job 0
          made := s.made + 1
          madeBefore := setAt s.madeBefore c.job s.made
          calls := rest }) ∨
    (∃ r refusals, c.answer = some r ∧
      s.check c rest figures =
        { s with ledger := s.ledger.remove c.job, refusals := refusals, calls := rest }) := by
  cases hr : c.answer with
  | none => exact Or.inl ⟨rfl, by simp [System.check, hr]⟩
  | some r =>
    refine Or.inr ?_
    rcases gateCheck_cases s.ledger s.refusals c.job c.host figures r with
      ⟨hfit, heq⟩ | ⟨-, why, heq⟩
    · exact Or.inl ⟨r, rfl, hfit, by simp [System.check, hr, heq]⟩
    · exact Or.inr ⟨r, (c.job, why) :: s.refusals.filter fun e => e.1 ≠ c.job, rfl, by
        simp only [System.check, hr, heq]⟩

omit [DecidableEq Job] in
theorem writtenBy_congr (h : s'.madeBefore = s.madeBefore) : s'.writtenBy = s.writtenBy := by
  funext c job
  rw [System.writtenBy, System.writtenBy, h]

omit [DecidableEq Job] in
/-- At the moment of a probe, a job has written what it has written. -/
theorem writtenBy_le (s : System Job) (h : c.wroteThen job ≤ n) : s.writtenBy c job ≤ n := by
  unfold System.writtenBy
  split
  · exact h
  · exact Nat.zero_le _

/-- A promise made now had written nothing at a probe made before. -/
theorem writtenBy_made
    (hs : s'.madeBefore = setAt s.madeBefore job s.made) (hc : c.madeThen ≤ s.made) :
    s'.writtenBy c job = 0 := by
  rw [System.writtenBy, hs, setAt_self, if_neg (Nat.not_lt.2 hc)]

/-- The promises of the others are those they were. -/
theorem writtenBy_made_of_ne {other : Job}
    (hs : s'.madeBefore = setAt s.madeBefore job s.made) (h : other ≠ job) :
    s'.writtenBy c other = s.writtenBy c other := by
  rw [System.writtenBy, System.writtenBy, hs, setAt_of_ne _ _ h]

/-! ## A refusal is right at the moment of its probe -/

/-- No promise stands on a drive that gains room. -/
def GrowsUnpromised : System Job → Act Job → Prop
  | s, .grow key _ => ∀ e ∈ s.ledger, e.2.key ≠ key
  | _, _ => True

/-- A drive gains room only while no upload counts on the room it has: none is promised
there, and none is about to be, on a figure already taken. -/
def GrowsUnused : System Job → Act Job → Prop
  | s, .grow key _ => (∀ e ∈ s.ledger, e.2.key ≠ key) ∧ ∀ c ∈ s.calls, c.key? ≠ some key
  | _, _ => True

instance (s : System Job) : DecidablePred (GrowsUnpromised s)
  | .grow key _ => inferInstanceAs (Decidable (∀ e ∈ s.ledger, e.2.key ≠ key))
  | .probe .. | .check .. | .write .. | .drop _ | .lose .. => .isTrue trivial

instance (s : System Job) : DecidablePred (GrowsUnused s)
  | .grow key _ => inferInstanceAs (Decidable ((∀ e ∈ s.ledger, e.2.key ≠ key) ∧ _))
  | .probe .. | .check .. | .write .. | .drop _ | .lose .. => .isTrue trivial

/-- What the ledger and the calls under way know about the drives.  Room only falls under a
promise, so the drive has at most the room the promise was made on, and has lost since at
least what the promise's own job wrote; a call under way knows the same of the moment its
probe was made. -/
structure Tracked (s : System Job) : Prop where
  unique : s.ledger.Unique
  room_le_then : ∀ e ∈ s.ledger, s.room e.2.key ≤ e.2.roomThen
  wrote_le_lost : ∀ e ∈ s.ledger, s.wrote e.1 ≤ e.2.roomThen - s.room e.2.key
  room_le_answer : ∀ c ∈ s.calls, ∀ r ∈ c.answer,
    s.room (ledgerKey c.host r) ≤ r.allocatableBytes
  writtenBy_le_lost : ∀ c ∈ s.calls, ∀ r ∈ c.answer, ∀ e ∈ s.ledger,
    e.2.key = ledgerKey c.host r → s.writtenBy c e.1 ≤ e.2.roomThen - r.allocatableBytes
  madeThen_le : ∀ c ∈ s.calls, c.madeThen ≤ s.made

omit [DecidableEq Job] in
theorem tracked_start (room : Key → Nat) : Tracked (System.start room : System Job) := by
  constructor <;> simp [System.start, Ledger.Unique]

omit [DecidableEq Job] in
/-- Forgetting promises and calls keeps what is known about the rest. -/
theorem Tracked.shrink (h : Tracked s) (hroom : s'.room = s.room)
    (hwrote : s'.wrote = s.wrote) (hmade : s'.made = s.made)
    (hbefore : s'.madeBefore = s.madeBefore) (hl : s'.ledger ⊆ s.ledger) (hc : s'.calls ⊆ s.calls) :
    Tracked s' where
  unique e he e' he' := h.unique e (hl he) e' (hl he')
  room_le_then e he := by rw [hroom]; exact h.room_le_then e (hl he)
  wrote_le_lost e he := by rw [hroom, hwrote]; exact h.wrote_le_lost e (hl he)
  room_le_answer c hcc r hr := by rw [hroom]; exact h.room_le_answer c (hc hcc) r hr
  writtenBy_le_lost c hcc r hr e he hk := by
    rw [writtenBy_congr hbefore]
    exact h.writtenBy_le_lost c (hc hcc) r hr e (hl he) hk
  madeThen_le c hcc := by rw [hmade]; exact h.madeThen_le c (hc hcc)

omit [DecidableEq Job] in
/-- Room that falls on one drive, and by at least what one of its jobs writes meanwhile. -/
theorem Tracked.fall (h : Tracked s) {key : Key} {wrote : Job → Nat} (hn : n ≤ s.room key)
    (hw : ∀ e ∈ s.ledger, wrote e.1 = s.wrote e.1 ∨
      e.2.key = key ∧ wrote e.1 = s.wrote e.1 + n) :
    Tracked { s with room := setRoom s.room key (s.room key - n), wrote := wrote } where
  unique := h.unique
  room_le_then e he := by
    have := h.room_le_then e he
    simp only [setRoom]
    split
    · simp_all
      omega
    · simp_all
  wrote_le_lost e he := by
    have h1 := h.room_le_then e he
    have h2 := h.wrote_le_lost e he
    simp only [setRoom]
    rcases hw e he with hwe | ⟨hk, hwe⟩
    · split
      · simp_all
        omega
      · simp_all
    · rw [if_pos hk, hwe]
      rw [hk] at h1 h2
      omega
  room_le_answer c hc r hr := by
    have := h.room_le_answer c hc r hr
    simp only [setRoom]
    split
    · simp_all
      omega
    · simp_all
  writtenBy_le_lost := h.writtenBy_le_lost
  madeThen_le := h.madeThen_le

theorem Tracked.step {a : Act Job} (h : Tracked s) (hok : GrowsUnused s a)
    (hs : step s a = some s') : Tracked s' := by
  cases a with
  | probe job host answer =>
    obtain ⟨hg, rfl⟩ := step_probe hs
    refine ⟨h.unique, h.room_le_then, h.wrote_le_lost, ?_, ?_, ?_⟩
    · intro c hc r hr
      rcases List.mem_append.1 hc with hc | hc
      · exact h.room_le_answer c hc r hr
      · rw [List.mem_singleton] at hc
        subst hc
        exact (hg r hr).1.ge
    · intro c hc r hr e he hk
      rcases List.mem_append.1 hc with hc | hc
      · exact h.writtenBy_le_lost c hc r hr e he hk
      · rw [List.mem_singleton] at hc
        subst hc
        have := h.wrote_le_lost e he
        rw [hk, ← (hg r hr).1] at this
        exact writtenBy_le _ this
    · intro c hc
      rcases List.mem_append.1 hc with hc | hc
      · exact h.madeThen_le c hc
      · rw [List.mem_singleton] at hc
        subst hc
        exact le_rfl
  | check i figures =>
    obtain ⟨c, hc, rfl⟩ := step_check hs
    have hmem : c ∈ s.calls := List.mem_of_getElem? hc
    have hrest : s.calls.eraseIdx i ⊆ s.calls := (List.eraseIdx_sublist ..).subset
    rcases check_cases s c (s.calls.eraseIdx i) figures with
      ⟨-, heq⟩ | ⟨r, hr, -, heq⟩ | ⟨r, refusals, -, heq⟩
    · rw [heq]
      exact h.shrink rfl rfl rfl rfl (List.Subset.refl _) hrest
    · -- admitted: the new promise stands on the probe's own figure
      rw [heq]
      have hroom := h.room_le_answer c hmem r hr
      refine ⟨?_, ?_, ?_, ?_, ?_, ?_⟩
      · exact h.unique.insert c.job _
      · intro e he
        rcases Ledger.mem_insert.1 he with rfl | ⟨he1, -⟩
        · exact hroom
        · exact h.room_le_then e he1
      · intro e he
        rcases Ledger.mem_insert.1 he with rfl | ⟨he1, hne⟩
        · simp
        · change setAt s.wrote c.job 0 e.1 ≤ _
          rw [setAt_of_ne _ _ hne]
          exact h.wrote_le_lost e he1
      · exact fun d hd => h.room_le_answer d (hrest hd)
      · intro d hd r' hr' e he hk
        rcases Ledger.mem_insert.1 he with rfl | ⟨he1, hne⟩
        · rw [writtenBy_made rfl (h.madeThen_le d (hrest hd))]
          exact Nat.zero_le _
        · rw [writtenBy_made_of_ne rfl hne]
          exact h.writtenBy_le_lost d (hrest hd) r' hr' e he1 hk
      · exact fun d hd => (h.madeThen_le d (hrest hd)).trans (Nat.le_succ _)
    · rw [heq]
      exact h.shrink rfl rfl rfl rfl (fun e he => (Ledger.mem_remove.1 he).1) hrest
  | write job n =>
    obtain ⟨e, he, rfl, -, hn, rfl⟩ := step_write hs
    refine h.fall hn fun e' he' => ?_
    by_cases hee : e'.1 = e.1
    · obtain rfl := h.unique e' he' e he hee
      exact Or.inr ⟨rfl, setAt_self ..⟩
    · exact Or.inl (setAt_of_ne _ _ hee)
  | drop job =>
    obtain rfl : s' = _ := (Option.some.inj hs).symm
    exact h.shrink rfl rfl rfl rfl (fun e he => (Ledger.mem_remove.1 he).1) (List.Subset.refl _)
  | lose key n =>
    obtain ⟨hn, rfl⟩ := step_lose hs
    exact h.fall hn fun _ _ => Or.inl rfl
  | grow key n =>
    obtain rfl : s' = _ := (Option.some.inj hs).symm
    obtain ⟨hl, hc⟩ := hok
    refine ⟨h.unique, ?_, ?_, ?_, h.writtenBy_le_lost, h.madeThen_le⟩
    · intro e he
      simpa [setRoom, hl e he] using h.room_le_then e he
    · intro e he
      simpa [setRoom, hl e he] using h.wrote_le_lost e he
    · intro c hcm r hr
      have hne : ledgerKey c.host r ≠ key := by
        intro hk
        refine hc c hcm ?_
        rw [Call.key?, Option.mem_def.1 hr, Option.map_some, hk]
      simpa [setRoom, hne] using h.room_le_answer c hcm r hr

theorem tracked_exec {room : Key → Nat} {as : List (Act Job)}
    (hgrow : Runs.Meets Space.step GrowsUnused (System.start room) as)
    (h : Runs.exec Space.step (System.start room) as = some s) : Tracked s :=
  Runs.exec_inv_of_meets (fun _ _ _ => Tracked.step) (tracked_start room) hgrow h

/-- What the jobs that count against a gate call had still to write when its probe was
made: everything, of a promise made since. -/
def leftAtProbe (s : System Job) (c : Call Job) (key : Key) : Nat :=
  ((s.ledger.others c.job key).map fun e => e.2.toAllocate - s.writtenBy c e.1).sum

omit [DecidableEq Job] in
/-- A promise, judged at the probed room, never counts for more than its job had still to
write then. -/
theorem outstanding_le_leftAtProbe (h : Tracked s)
    (hc : c ∈ s.calls) {r : Room} (hr : c.answer = some r) {e : Job × Promise}
    (he : e ∈ s.ledger) (hk : e.2.key = ledgerKey c.host r) :
    e.2.outstanding r.allocatableBytes ≤ e.2.toAllocate - s.writtenBy c e.1 := by
  have := h.writtenBy_le_lost c hc r hr e he hk
  unfold Promise.outstanding
  omega

/-- **A gate refuses only what cannot fit.**  In every run of gates, writes, job ends and
losses of room, in which a drive gains room only while no upload counts on it, a job that is
refused needs more than the probed room less what the other admitted jobs of the drive had
still to write at the moment of the probe, however stale the probe is by the time the ledger
is checked. -/
theorem check_refuses_of_short {room : Key → Nat} {as : List (Act Job)} {s : System Job}
    (hgrow : Runs.Meets step GrowsUnused (System.start room) as)
    (h : Runs.exec step (System.start room) as = some s) {c : Call Job} (hc : c ∈ s.calls)
    {r : Room} (hr : c.answer = some r) {figures : SpaceFigures} {why : SpaceRefusal}
    (href : (gateCheck s.ledger s.refusals c.job c.host figures r).1 = .error why) :
    r.allocatableBytes < figures.toAllocate + leftAtProbe s c (ledgerKey c.host r) := by
  have ht := tracked_exec hgrow h
  have hle : elsewhere s.ledger c.job (ledgerKey c.host r) r.allocatableBytes ≤
      leftAtProbe s c (ledgerKey c.host r) := by
    rw [elsewhere_eq]
    refine le_trans (min_le_left _ _) (List.sum_le_sum fun e he => ?_)
    obtain ⟨hel, -, hk⟩ := Ledger.mem_others.1 he
    exact outstanding_le_leftAtProbe ht hc hr hel hk
  rcases gateCheck_cases s.ledger s.refusals c.job c.host figures r with
    ⟨-, heq⟩ | ⟨hshort, -⟩
  · rw [heq] at href
    simp at href
  · omega

/-- The drive of the runs below: one volume with a device id. -/
def sampleRoom (n : Nat) : Room :=
  { volume := "/data", dev := some 7, freeBytes := n, reserveBytes := 0, allocatableBytes := n,
    totalBytes := 100, image := false }

/-- Job 1 is admitted into the 100 freed before, writes 20 of its 60, and job 2, which probes
then, is refused its 60, and rightly. -/
theorem check_refuses_of_short_second_job :
    (sampleRoom 80).allocatableBytes < 60 + leftAtProbe
      { room := setRoom (setRoom (fun _ => 40) ("ps5", "dev:7") 100) ("ps5", "dev:7") 80
        ledger := [(1, promiseOf "ps5" ⟨60, 60⟩ (sampleRoom 100))]
        refusals := []
        wrote := setAt (setAt (fun _ => 0) 1 0) 1 20
        made := 1
        madeBefore := setAt (fun _ => 0) 1 0
        calls := [⟨2, "ps5", some (sampleRoom 80), setAt (setAt (fun _ => 0) 1 0) 1 20, 1⟩] }
      ⟨2, "ps5", some (sampleRoom 80), setAt (setAt (fun _ => 0) 1 0) 1 20, 1⟩
      ("ps5", "dev:7") :=
  have h : Runs.exec step (System.start fun _ => 40)
      [.grow ("ps5", "dev:7") 60, .probe 1 "ps5" (some (sampleRoom 100)), .check 0 ⟨60, 60⟩,
        .write 1 20, .probe 2 "ps5" (some (sampleRoom 80))] = some
      { room := setRoom (setRoom (fun _ => 40) ("ps5", "dev:7") 100) ("ps5", "dev:7") 80
        ledger := [(1, promiseOf "ps5" ⟨60, 60⟩ (sampleRoom 100))]
        refusals := []
        wrote := setAt (setAt (fun _ => 0) 1 0) 1 20
        made := 1
        madeBefore := setAt (fun _ => 0) 1 0
        calls := [⟨2, "ps5", some (sampleRoom 80), setAt (setAt (fun _ => 0) 1 0) 1 20, 1⟩] } :=
    rfl
  check_refuses_of_short (by decide) h (List.mem_singleton_self _) rfl
    (show (gateCheck _ _ 2 "ps5" ⟨60, 60⟩ (sampleRoom 80)).1 =
      .error ⟨"/data", 60, 40, 80, 0, 40, 0, false, false⟩ from rfl)

/-- What the last gate call of a run is judged by: the verdict, the room less what the others
had still to write at its probe, and how many of them stood admitted then. -/
def lastGate (s : System Job) (figures : SpaceFigures) : Option (Bool × Nat × Nat) :=
  s.calls.getLast?.bind fun c => c.answer.map fun r =>
    ((gateCheck s.ledger s.refusals c.job c.host figures r).1.isOk,
      r.allocatableBytes - leftAtProbe s c (ledgerKey c.host r),
      ((s.ledger.others c.job (ledgerKey c.host r)).filter fun e =>
        s.madeBefore e.1 < c.madeThen).length)

/-- **A promise may stand on a figure from before the drive gained room.**  Job 1 probes 50;
with nothing promised 50 more are freed, job 1 is admitted and writes 20 of its 50, and job 2
is refused 40 although the room of 80 less the 30 left of job 1 holds 50.  And a job that is
admitted after another's probe counts against it: job 2, who probed 100 while nothing was
promised, is refused 60. -/
theorem stale_promise_refuses :
    (Runs.Meets step GrowsUnpromised (System.start fun _ => 50 : System Nat)
        [.probe 1 "ps5" (some (sampleRoom 50)), .grow ("ps5", "dev:7") 50, .check 0 ⟨50, 50⟩,
          .write 1 20, .probe 2 "ps5" (some (sampleRoom 80))] ∧
      ((Runs.exec step (System.start fun _ => 50 : System Nat)
        [.probe 1 "ps5" (some (sampleRoom 50)), .grow ("ps5", "dev:7") 50, .check 0 ⟨50, 50⟩,
          .write 1 20, .probe 2 "ps5" (some (sampleRoom 80))]).bind
        fun s => lastGate s ⟨40, 40⟩) = some (false, 50, 1)) ∧
    Runs.Meets step GrowsUnpromised (System.start fun _ => 100 : System Nat)
      [.probe 1 "ps5" (some (sampleRoom 100)), .probe 2 "ps5" (some (sampleRoom 100)),
        .check 0 ⟨60, 60⟩] ∧
    ((Runs.exec step (System.start fun _ => 100 : System Nat)
      [.probe 1 "ps5" (some (sampleRoom 100)), .probe 2 "ps5" (some (sampleRoom 100)),
        .check 0 ⟨60, 60⟩]).bind fun s => lastGate s ⟨60, 60⟩) = some (false, 40, 0) := by
  decide

/-! ## The drive is not promised more than it has -/

/-- What the admitted, unfinished jobs of a drive have still to write. -/
def stillToWrite (s : System Job) (key : Key) : Nat :=
  ((s.ledger.onDrive key).map fun e => e.2.toAllocate - s.wrote e.1).sum

/-- The drive's room changes only because admitted jobs write their own bytes. -/
def OnlyJobsWrite (key : Key) : System Job → Act Job → Prop
  | _, .lose k _ => k ≠ key
  | _, .grow k _ => k ≠ key
  | _, _ => True

/-- Each promise is credited with its own job's writes only.  When a job checks the ledger
of the drive, every other job standing there that was not through at the probe had itself
written what the drive lost between its own admission's figure and the probe, and whatever
the drive lost between the probe and the check was written by jobs that still stand. -/
def CreditsOwnWrites (key : Key) (s : System Job) : Act Job → Prop
  | .check i _ => ∀ c ∈ s.calls[i]?, ∀ r ∈ c.answer, ledgerKey c.host r = key →
      (∀ e ∈ s.ledger.others c.job key,
        e.2.roomThen - r.allocatableBytes ≤ s.writtenBy c e.1 ∨
          e.2.toAllocate ≤ s.writtenBy c e.1) ∧
      r.allocatableBytes - s.room key ≤
        ((s.ledger.others c.job key).map fun e => s.wrote e.1 - s.writtenBy c e.1).sum
  | _ => True

instance (key : Key) (s : System Job) : DecidablePred (OnlyJobsWrite key s)
  | .lose k _ => inferInstanceAs (Decidable (k ≠ key))
  | .grow k _ => inferInstanceAs (Decidable (k ≠ key))
  | .probe .. | .check .. | .write .. | .drop _ => .isTrue trivial

instance (key : Key) (s : System Job) : DecidablePred (CreditsOwnWrites key s)
  | .check i _ => inferInstanceAs (Decidable (∀ c ∈ s.calls[i]?, ∀ r ∈ c.answer, _ → _))
  | .probe .. | .lose .. | .grow .. | .write .. | .drop _ => .isTrue trivial

/-- The drive holds what is promised on it; the rest is what the accounts say of the jobs
and the calls under way. -/
structure Within (key : Key) (s : System Job) : Prop where
  le_room : stillToWrite s key ≤ s.room key
  unique : s.ledger.Unique
  wrote_le : ∀ e ∈ s.ledger, s.wrote e.1 ≤ e.2.toAllocate
  answer_le : ∀ c ∈ s.calls, ∀ r ∈ c.answer, r.allocatableBytes ≤ u64Max
  writtenBy_le : ∀ c ∈ s.calls, ∀ e ∈ s.ledger, s.writtenBy c e.1 ≤ s.wrote e.1
  madeThen_le : ∀ c ∈ s.calls, c.madeThen ≤ s.made

omit [DecidableEq Job] in
theorem within_start (room : Key → Nat) (key : Key) :
    Within key (System.start room : System Job) := by
  constructor <;> simp [System.start, Ledger.Unique, stillToWrite, Ledger.onDrive]

/-- A sum falls by at least what one of its terms falls. -/
theorem sum_map_add_le {α : Type} {l : List α} {f g : α → Nat} {e : α} (he : e ∈ l)
    (hle : ∀ x ∈ l, g x ≤ f x) (hn : g e + n ≤ f e) : (l.map g).sum + n ≤ (l.map f).sum := by
  induction l with
  | nil => cases he
  | cons x l ih =>
    have hx := hle x (List.mem_cons_self ..)
    have htail : ∀ y ∈ l, g y ≤ f y := fun y hy => hle y (List.mem_cons_of_mem _ hy)
    simp only [List.map_cons, List.sum_cons]
    rcases List.mem_cons.1 he with rfl | he
    · have := List.sum_le_sum htail
      omega
    · have := ih he htail
      omega

/-- Without some of its promises a drive has no more to take. -/
theorem sum_others_le (s : System Job) (job : Job) (key : Key) :
    ((s.ledger.others job key).map fun e => e.2.toAllocate - s.wrote e.1).sum ≤
      stillToWrite s key :=
  ((Ledger.others_sublist_onDrive s.ledger job key).map _).sum_le_sum (by simp)

/-- **The admitted job fits.**  With every promise credited with its own writes, what the
others have still to write and what the new job promises fit the room there is. -/
theorem admitted_fits {key : Key} (h : Within key s)
    (hc : c ∈ s.calls) {r : Room} (hr : c.answer = some r) {need : Nat}
    (hneed : need ≤ r.allocatableBytes - elsewhere s.ledger c.job key r.allocatableBytes)
    (hown : ∀ e ∈ s.ledger.others c.job key,
      e.2.roomThen - r.allocatableBytes ≤ s.writtenBy c e.1 ∨ e.2.toAllocate ≤ s.writtenBy c e.1)
    (hlost : r.allocatableBytes - s.room key ≤
      ((s.ledger.others c.job key).map fun e => s.wrote e.1 - s.writtenBy c e.1).sum) :
    need + ((s.ledger.others c.job key).map fun e => e.2.toAllocate - s.wrote e.1).sum ≤
      s.room key := by
  have hfew := sum_others_le s c.job key
  have hroom := h.le_room
  rcases Nat.eq_zero_or_pos need with rfl | hpos
  · omega
  · -- a positive figure was admitted, so the sum of the others' promises did not saturate
    have hu := h.answer_le c hc r hr
    rw [elsewhere_eq] at hneed
    have hsum : ((s.ledger.others c.job key).map fun e => e.2.toAllocate - s.wrote e.1).sum +
        ((s.ledger.others c.job key).map fun e => s.wrote e.1 - s.writtenBy c e.1).sum ≤
        ((s.ledger.others c.job key).map fun e =>
          e.2.outstanding r.allocatableBytes).sum := by
      rw [← List.sum_map_add]
      refine List.sum_le_sum fun e he => ?_
      have hel := (Ledger.mem_others.1 he).1
      have h1 := h.wrote_le e hel
      have h2 := h.writtenBy_le c hc e hel
      unfold Promise.outstanding
      rcases hown e he with h3 | h3 <;> omega
    omega

theorem Within.step {key : Key} {a : Act Job} (h : Within key s)
    (hok : OnlyJobsWrite key s a ∧ CreditsOwnWrites key s a) (hs : step s a = some s') :
    Within key s' := by
  cases a with
  | probe job host answer =>
    obtain ⟨hg, rfl⟩ := step_probe hs
    refine ⟨h.le_room, h.unique, h.wrote_le, ?_, ?_, ?_⟩
    · intro c hc r hr
      rcases List.mem_append.1 hc with hc | hc
      · exact h.answer_le c hc r hr
      · rw [List.mem_singleton] at hc
        subst hc
        exact (hg r hr).2
    · intro c hc e he
      rcases List.mem_append.1 hc with hc | hc
      · exact h.writtenBy_le c hc e he
      · rw [List.mem_singleton] at hc
        subst hc
        exact Space.writtenBy_le _ le_rfl
    · intro c hc
      rcases List.mem_append.1 hc with hc | hc
      · exact h.madeThen_le c hc
      · rw [List.mem_singleton] at hc
        subst hc
        exact le_rfl
  | check i figures =>
    obtain ⟨c, hc, rfl⟩ := step_check hs
    have hmem : c ∈ s.calls := List.mem_of_getElem? hc
    have hrest : s.calls.eraseIdx i ⊆ s.calls := (List.eraseIdx_sublist ..).subset
    rcases check_cases s c (s.calls.eraseIdx i) figures with
      ⟨-, heq⟩ | ⟨r, hr, hfit, heq⟩ | ⟨r, refusals, -, heq⟩
    · rw [heq]
      exact ⟨h.le_room, h.unique, h.wrote_le, fun d hd => h.answer_le d (hrest hd),
        fun d hd => h.writtenBy_le d (hrest hd), fun d hd => h.madeThen_le d (hrest hd)⟩
    · rw [heq]
      refine ⟨?_, ?_, ?_, ?_, ?_, ?_⟩
      · -- the others' writes are not touched by the new promise
        have hkeep : ∀ k, ((s.ledger.others c.job k).map fun e =>
            e.2.toAllocate - setAt s.wrote c.job 0 e.1) =
            (s.ledger.others c.job k).map fun e => e.2.toAllocate - s.wrote e.1 := by
          intro k
          refine List.map_congr_left fun e he => ?_
          rw [setAt_of_ne _ _ (Ledger.mem_others.1 he).2.1]
        change (((s.ledger.insert c.job (promiseOf c.host figures r)).onDrive key).map
          fun e => e.2.toAllocate - setAt s.wrote c.job 0 e.1).sum ≤ s.room key
        by_cases hk : ledgerKey c.host r = key
        · subst hk
          obtain ⟨hown, hlost⟩ := hok.2 c hc r hr rfl
          have hins := Ledger.onDrive_insert_self s.ledger c.job (promiseOf c.host figures r)
          rw [show (promiseOf c.host figures r).key = ledgerKey c.host r from rfl] at hins
          rw [hins, List.map_cons, List.sum_cons, hkeep, setAt_self, Nat.sub_zero]
          exact admitted_fits h hmem hr hfit hown hlost
        · rw [Ledger.onDrive_insert_of_ne _ _ _ hk, hkeep]
          exact le_trans (sum_others_le s c.job key) h.le_room
      · exact h.unique.insert c.job _
      · intro e he
        rcases Ledger.mem_insert.1 he with rfl | ⟨he1, hne⟩
        · simp
        · change setAt s.wrote c.job 0 e.1 ≤ _
          rw [setAt_of_ne _ _ hne]
          exact h.wrote_le e he1
      · exact fun d hd => h.answer_le d (hrest hd)
      · intro d hd e he
        rcases Ledger.mem_insert.1 he with rfl | ⟨he1, hne⟩
        · rw [writtenBy_made rfl (h.madeThen_le d (hrest hd))]
          exact Nat.zero_le _
        · change _ ≤ setAt s.wrote c.job 0 e.1
          rw [writtenBy_made_of_ne rfl hne, setAt_of_ne _ _ hne]
          exact h.writtenBy_le d (hrest hd) e he1
      · exact fun d hd => (h.madeThen_le d (hrest hd)).trans (Nat.le_succ _)
    · rw [heq]
      refine ⟨?_, h.unique.remove c.job, fun e he => h.wrote_le e (Ledger.mem_remove.1 he).1,
        fun d hd => h.answer_le d (hrest hd),
        fun d hd e he => h.writtenBy_le d (hrest hd) e (Ledger.mem_remove.1 he).1,
        fun d hd => h.madeThen_le d (hrest hd)⟩
      rw [stillToWrite, Ledger.onDrive_remove]
      exact le_trans (sum_others_le s c.job key) h.le_room
  | write job n =>
    obtain ⟨e, he, rfl, hle, hn, rfl⟩ := step_write hs
    have hsame : ∀ e' ∈ s.ledger, e'.1 = e.1 → e' = e := fun e' he' => h.unique e' he' e he
    have hcases : ∀ e' ∈ s.ledger, setAt s.wrote e.1 (s.wrote e.1 + n) e'.1 = s.wrote e'.1 ∨
        e' = e := by
      intro e' he'
      by_cases hee : e'.1 = e.1
      · exact Or.inr (hsame e' he' hee)
      · exact Or.inl (setAt_of_ne _ _ hee)
    refine ⟨?_, h.unique, ?_, h.answer_le, ?_, h.madeThen_le⟩
    · change (((s.ledger.onDrive key).map fun e' =>
        e'.2.toAllocate - setAt s.wrote e.1 (s.wrote e.1 + n) e'.1).sum ≤
        setRoom s.room e.2.key (s.room e.2.key - n) key)
      have hroom := h.le_room
      have hmono : ∀ e' ∈ s.ledger.onDrive key,
          e'.2.toAllocate - setAt s.wrote e.1 (s.wrote e.1 + n) e'.1 ≤
            e'.2.toAllocate - s.wrote e'.1 := by
        intro e' he'
        rcases hcases e' (List.mem_of_mem_filter he') with hc | rfl
        · rw [hc]
        · rw [setAt_self]
          omega
      by_cases hk : e.2.key = key
      · subst hk
        have hmem : e ∈ s.ledger.onDrive e.2.key := by simpa [Ledger.onDrive] using he
        have := sum_map_add_le hmem hmono (n := n) (by rw [setAt_self]; omega)
        rw [setRoom, if_pos rfl]
        unfold stillToWrite at hroom
        omega
      · rw [setRoom, if_neg fun hc => hk hc.symm]
        exact le_trans (List.sum_le_sum hmono) hroom
    · intro e' he'
      change setAt s.wrote e.1 (s.wrote e.1 + n) e'.1 ≤ _
      rcases hcases e' he' with hc | rfl
      · rw [hc]
        exact h.wrote_le e' he'
      · rw [setAt_self]
        exact hle
    · intro c hc e' he'
      have : s.writtenBy c e'.1 ≤ s.wrote e'.1 := h.writtenBy_le c hc e' he'
      change s.writtenBy c e'.1 ≤ setAt s.wrote e.1 (s.wrote e.1 + n) e'.1
      rcases hcases e' he' with hc' | rfl
      · rw [hc']
        exact this
      · rw [setAt_self]
        omega
  | drop job =>
    obtain rfl : s' = _ := (Option.some.inj hs).symm
    refine ⟨?_, h.unique.remove job, fun e he => h.wrote_le e (Ledger.mem_remove.1 he).1,
      h.answer_le, fun d hd e he => h.writtenBy_le d hd e (Ledger.mem_remove.1 he).1,
      h.madeThen_le⟩
    rw [stillToWrite, Ledger.onDrive_remove]
    exact le_trans (sum_others_le s job key) h.le_room
  | lose k n =>
    obtain ⟨-, rfl⟩ := step_lose hs
    refine ⟨?_, h.unique, h.wrote_le, h.answer_le, h.writtenBy_le, h.madeThen_le⟩
    change stillToWrite s key ≤ setRoom s.room k (s.room k - n) key
    rw [setRoom, if_neg fun hc => hok.1 hc.symm]
    exact h.le_room
  | grow k n =>
    obtain rfl : s' = _ := (Option.some.inj hs).symm
    refine ⟨?_, h.unique, h.wrote_le, h.answer_le, h.writtenBy_le, h.madeThen_le⟩
    change stillToWrite s key ≤ setRoom s.room k (s.room k + n) key
    rw [setRoom, if_neg fun hc => hok.1 hc.symm]
    exact h.le_room

/-- **The drive is never promised more than it has**, in every state of every run in which
the drive's room changes only by its jobs' own writes and each promise is credited with its
own job's writes only. -/
theorem stillToWrite_le_room (room : Key → Nat) (key : Key) (as : List (Act Job))
    (hjobs : Runs.Meets step (OnlyJobsWrite key) (System.start room) as)
    (hown : Runs.Meets step (CreditsOwnWrites key) (System.start room) as) :
    ∀ t ∈ Runs.States step (System.start room) as, stillToWrite t key ≤ t.room key :=
  fun t ht => (Runs.exec_forall_inv_of_meets (fun _ _ _ => Within.step)
    (within_start room key) (hjobs.and hown) t ht).le_room

/-- Two jobs side by side, each credited with its own writes: the drive holds both. -/
theorem stillToWrite_le_room_two_jobs :
    (Runs.exec step (System.start (fun _ => 100) : System Nat)
      [.probe 1 "ps5" (some (sampleRoom 100)), .check 0 ⟨60, 60⟩, .write 1 20,
        .probe 2 "ps5" (some (sampleRoom 80)), .check 0 ⟨40, 40⟩]).map
      (fun t => stillToWrite t ("ps5", "dev:7")) = some 80 ∧
    ∀ t ∈ Runs.States step (System.start (fun _ => 100) : System Nat)
      [.probe 1 "ps5" (some (sampleRoom 100)), .check 0 ⟨60, 60⟩, .write 1 20,
        .probe 2 "ps5" (some (sampleRoom 80)), .check 0 ⟨40, 40⟩],
      stillToWrite t ("ps5", "dev:7") ≤ t.room ("ps5", "dev:7") :=
  ⟨by decide, stillToWrite_le_room _ _ _ (by decide) (by decide)⟩

/-- **One job's writes pay another job's promise.**  Two jobs of 40 are admitted into 100;
the first writes its 40, and the second's promise, credited with the same loss, is taken for
paid: a third job of 60 is admitted into the 60 left, of which the second still needs 40. -/
theorem two_writers_overcommit :
    Runs.Meets step (OnlyJobsWrite ("ps5", "dev:7")) (System.start (fun _ => 100) : System Nat)
      [.probe 1 "ps5" (some (sampleRoom 100)), .check 0 ⟨40, 40⟩,
        .probe 2 "ps5" (some (sampleRoom 100)), .check 0 ⟨40, 40⟩, .write 1 40,
        .probe 3 "ps5" (some (sampleRoom 60)), .check 0 ⟨60, 60⟩] ∧
    (Runs.exec step (System.start (fun _ => 100) : System Nat)
      [.probe 1 "ps5" (some (sampleRoom 100)), .check 0 ⟨40, 40⟩,
        .probe 2 "ps5" (some (sampleRoom 100)), .check 0 ⟨40, 40⟩, .write 1 40,
        .probe 3 "ps5" (some (sampleRoom 60)), .check 0 ⟨60, 60⟩]).map
      (fun t => (stillToWrite t ("ps5", "dev:7"), t.room ("ps5", "dev:7"))) =
      some (100, 60) := by
  decide

end Ps5Upload.Space
