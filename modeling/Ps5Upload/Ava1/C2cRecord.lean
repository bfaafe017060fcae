import Mathlib.Data.Fintype.Basic
import Mathlib.Data.Fintype.Pi
import Mathlib.Logic.Function.Basic
import Mathlib.Tactic.Common
import Ps5Upload.Lib.Runs

/-!
# The shared record of a console-to-console send, and its lease

The model of `Keeper` in `engine/crates/ps5upload-ava1/src/c2c_record.rs` and of `Lease` in
`c2c.rs`.  The device that drives a send keeps a small file on the receiving console that
names it; another device takes the send over by writing its own name there, and a device
that finds another's name in the record stops driving.

The record is one register, read and written whole, but a refresh and a finish are each a
read followed by a write: anything may happen in between.  `World` holds the register and
every device's keeper, and `step` is a single read or write of one device:

* `Keeper::start` — a claim read (`startRead`), or none when it takes the send over
  (`startTake`), then `startWrite`;
* the refresh thread — `refreshRead`, which marks the lease taken when it has moved, else
  `refreshWrite`;
* `Lease::confirm` — `confirmRead`, the main thread's own look at the record;
* `Keeper::finish` — `finish` (the send ended here; the thread is told to stop), `joined`,
  `finishRead`, and `finishWrite`, which removes the record or leaves it paused or failed.

`world_stood_down_for_driver` says when a device that stands down does so for a device that
drives: in the runs in which a device that no longer drives the send writes the record only
while no other device drives it (`NoStaleWrite`).  `stood_down_for_paused` is the run the
proviso excludes: a take-over that lands between a finish's read and its write.
-/

namespace Ps5Upload.C2cRecord

/-! ## The record -/

/-- `running`, `paused` or `failed`. -/
inductive SendState where
  | running
  | paused
  | failed
  deriving DecidableEq, Repr

/-- One send, as the receiving console keeps it: what the lease goes by. -/
structure SendRecord (Dev : Type) where
  /-- The driving device's key. -/
  owner : Dev
  ownerName : String
  leaseUntilMs : Nat
  updatedMs : Nat
  state : SendState
  error : Option String
  deriving DecidableEq, Repr

/-- A lease not refreshed for this long has lapsed. -/
def leaseMs : Nat := 45000

variable {Dev : Type} [DecidableEq Dev]

def SendRecord.leaseFresh (r : SendRecord Dev) (nowMs : Nat) : Bool := nowMs < r.leaseUntilMs

/-- The time of a write, and the lease from it. -/
def stamp (r : SendRecord Dev) (nowMs : Nat) : SendRecord Dev :=
  { r with updatedMs := nowMs, leaseUntilMs := nowMs + leaseMs }

/-- Who may drive a send whose record is `existing`. -/
inductive Claim where
  /-- No record, or one nobody drives now. -/
  | free
  /-- This device's own. -/
  | mine
  /-- Another device drives it. -/
  | held (by_ : String)
  deriving DecidableEq, Repr

def claim (existing : Option (SendRecord Dev)) (me : Dev) (nowMs : Nat) : Claim :=
  match existing with
  | none => .free
  | some r =>
    if r.owner = me then .mine
    else if r.state = .running ∧ r.leaseFresh nowMs then .held r.ownerName
    else .free

/-- The device the lease moved to, if it moved away from `me`. -/
def moved (existing : Option (SendRecord Dev)) (me : Dev) : Option String :=
  (existing.filter fun r => r.owner ≠ me).map (·.ownerName)

theorem moved_eq_some {existing : Option (SendRecord Dev)} {me : Dev} {name : String}
    (h : moved existing me = some name) : ∃ r, existing = some r ∧ r.owner ≠ me := by
  cases existing with
  | none => simp [moved] at h
  | some r =>
    refine ⟨r, rfl, fun hc => ?_⟩
    simp [moved, Option.filter, hc] at h

/-! ## Devices -/

/-- How a send this engine drove ended, for its record. -/
inductive Outcome where
  | done
  | paused
  | failed (why : String)
  deriving DecidableEq, Repr

/-- Where a device's main thread is with the send. -/
inductive Phase where
  | idle
  /-- The claim is made, the record not yet written. -/
  | starting
  | driving
  /-- `finish` was called: the refresh thread is being joined. -/
  | ending (outcome : Outcome)
  /-- `finish` has read the record and may write it. -/
  | closing (outcome : Outcome)
  deriving DecidableEq, Repr

/-- The refresh thread: not running, between two refreshes, or between its read and write. -/
inductive Refresh where
  | off
  | waiting
  | writing
  deriving DecidableEq, Repr

/-- One device's part in the send. -/
structure Keeper where
  phase : Phase
  thread : Refresh
  /-- `Lease::taken_by`: the device that took the send over, as last seen. -/
  taken : Option String
  deriving DecidableEq, Repr

def Keeper.idle : Keeper := { phase := .idle, thread := .off, taken := none }

/-- A device that stopped driving because the lease had moved: the record it read, and
whether the device named there was driving the send when it wrote that record. -/
structure StoodDown (Dev : Type) where
  device : Dev
  record : SendRecord Dev
  ownerDrove : Bool
  deriving DecidableEq, Repr

/-- The register on the console and every device.  `drove` tells of the record's last
writer whether it was driving when it wrote; `stoodDown` lists who stopped for whom. -/
structure World (Dev : Type) where
  record : Option (SendRecord Dev)
  drove : Bool
  keeper : Dev → Keeper
  stoodDown : List (StoodDown Dev)

/-- No device drives the send yet; a record of an earlier try may be there. -/
def World.start (record : Option (SendRecord Dev)) : World Dev :=
  { record := record, drove := false, keeper := fun _ => .idle, stoodDown := [] }

/-- The device drives the send: it has not ended it and has not seen it taken. -/
def World.drives (w : World Dev) (d : Dev) : Prop :=
  (w.keeper d).phase = .driving ∧ (w.keeper d).taken = none

instance (w : World Dev) (d : Dev) : Decidable (w.drives d) :=
  inferInstanceAs (Decidable (_ ∧ _))

/-- The keeper of one device changed. -/
def World.set (w : World Dev) (d : Dev) (k : Keeper) : World Dev :=
  { w with keeper := Function.update w.keeper d k }

/-- `Lease::mark_taken` after a read that found the lease moved to `name`: the device stops,
and if it was driving, it stood down for the record it read. -/
def World.markTaken (w : World Dev) (d : Dev) (name : String) (k : Keeper) : World Dev :=
  { w.set d { k with taken := some name } with
    stoodDown := match w.record with
      | some r => if w.drives d then w.stoodDown ++ [⟨d, r, w.drove⟩] else w.stoodDown
      | none => w.stoodDown }

/-- The record a driving device writes. -/
def runningRecord (name : Dev → String) (d : Dev) (nowMs : Nat) : SendRecord Dev :=
  stamp { owner := d, ownerName := name d, leaseUntilMs := 0, updatedMs := 0,
          state := .running, error := none } nowMs

/-- The record a finish leaves: nobody drives it now. -/
def endedRecord (name : Dev → String) (d : Dev) (nowMs : Nat) (outcome : Outcome) :
    SendRecord Dev :=
  { stamp { owner := d, ownerName := name d, leaseUntilMs := 0, updatedMs := 0,
            state := .running, error := none } nowMs with
    leaseUntilMs := 0
    state := match outcome with
      | .failed _ => .failed
      | _ => .paused
    error := match outcome with
      | .failed why => some why
      | _ => none }

/-- One read or write of one device, or a step of its threads. -/
inductive Act (Dev : Type) where
  | startRead (d : Dev) (nowMs : Nat)
  | startTake (d : Dev)
  | startWrite (d : Dev) (nowMs : Nat)
  | refreshRead (d : Dev)
  | refreshWrite (d : Dev) (nowMs : Nat)
  | confirmRead (d : Dev)
  | finish (d : Dev) (outcome : Outcome)
  | joined (d : Dev)
  | finishRead (d : Dev)
  | finishWrite (d : Dev) (nowMs : Nat)
  deriving DecidableEq, Repr

section
variable (name : Dev → String)

/-- The keepers' steps.  The refresh thread looks at its stop flag only while it sleeps, so
a refresh may still be under way after `finish` was called, until it is joined. -/
def step (w : World Dev) : Act Dev → Option (World Dev)
  | .startRead d nowMs =>
    if (w.keeper d).phase = .idle then
      match claim w.record d nowMs with
      | .held _ => some w
      | _ => some (w.set d { Keeper.idle with phase := .starting })
    else none
  | .startTake d =>
    if (w.keeper d).phase = .idle then some (w.set d { Keeper.idle with phase := .starting })
    else none
  | .startWrite d nowMs =>
    if (w.keeper d).phase = .starting then
      some { w.set d { phase := .driving, thread := .waiting, taken := none } with
        record := some (runningRecord name d nowMs)
        drove := true }
    else none
  | .refreshRead d =>
    if (w.keeper d).thread = .waiting then
      match moved w.record d with
      | some by_ => some (w.markTaken d by_ { w.keeper d with thread := .off })
      | none => some (w.set d { w.keeper d with thread := .writing })
    else none
  | .refreshWrite d nowMs =>
    if (w.keeper d).thread = .writing then
      some { w.set d { w.keeper d with thread := .waiting } with
        record := some (runningRecord name d nowMs)
        drove := decide (w.drives d) }
    else none
  | .confirmRead d =>
    if w.drives d then
      match moved w.record d with
      | some by_ => some (w.markTaken d by_ (w.keeper d))
      | none => some w
    else none
  | .finish d outcome =>
    if (w.keeper d).phase = .driving then
      some (w.set d { w.keeper d with phase := .ending outcome })
    else none
  | .joined d =>
    match (w.keeper d).phase with
    | .ending _ =>
      if (w.keeper d).thread = .waiting then
        some (w.set d { w.keeper d with thread := .off })
      else none
    | _ => none
  | .finishRead d =>
    match (w.keeper d).phase with
    | .ending outcome =>
      if (w.keeper d).thread = .off then
        if (w.keeper d).taken.isSome ∨ (moved w.record d).isSome then some (w.set d .idle)
        else some (w.set d { w.keeper d with phase := .closing outcome })
      else none
    | _ => none
  | .finishWrite d nowMs =>
    match (w.keeper d).phase with
    | .closing .done => some { w.set d .idle with record := none }
    | .closing outcome =>
      some { w.set d .idle with
        record := some (endedRecord name d nowMs outcome)
        drove := false }
    | _ => none

/-! ### What each step does to the record and to who drives -/

@[simp] theorem drives_set_self (w : World Dev) (d : Dev) (k : Keeper) :
    (w.set d k).drives d ↔ k.phase = .driving ∧ k.taken = none := by
  simp [World.drives, World.set]

variable {d : Dev} {w w' : World Dev} {a : Act Dev}

theorem drives_set_of_ne (w : World Dev) {e : Dev} (k : Keeper) (h : e ≠ d) :
    (w.set d k).drives e ↔ w.drives e := by
  simp [World.drives, World.set, h]

/-- A keeper changed without its driving changing leaves everybody driving as before. -/
theorem drives_set_iff {k : Keeper}
    (h : (k.phase = .driving ∧ k.taken = none) ↔ w.drives d) (e : Dev) :
    (w.set d k).drives e ↔ w.drives e := by
  by_cases he : e = d
  · subst he
    rw [drives_set_self, h]
  · exact drives_set_of_ne w k he

/-- What one step can do. -/
inductive Effect (w w' : World Dev) : Act Dev → Prop where
  /-- The register is left alone; only `finish` stops a device that drives. -/
  | quiet (a : Act Dev) (hrec : w'.record = w.record) (hdrove : w'.drove = w.drove)
      (hstood : w'.stoodDown = w.stoodDown)
      (hdrives : (∀ e, w'.drives e ↔ w.drives e) ∨
        ∃ d o, a = .finish d o ∧ ∀ e, w'.drives e ↔ w.drives e ∧ e ≠ d) : Effect w w' a
  /-- A device starts to drive by writing its name. -/
  | took (d : Dev) (nowMs : Nat) (hrec : w'.record = some (runningRecord name d nowMs))
      (hdrove : w'.drove = true) (hstood : w'.stoodDown = w.stoodDown)
      (hdrives : ∀ e, w'.drives e ↔ w.drives e ∨ e = d) : Effect w w' (.startWrite d nowMs)
  /-- A device reads another's name. -/
  | stoodDown (a : Act Dev) (d : Dev) (r : SendRecord Dev) (hr : w.record = some r)
      (howner : r.owner ≠ d) (hrec : w'.record = w.record) (hdrove : w'.drove = w.drove)
      (hstood : w'.stoodDown = w.stoodDown ∨
        w.drives d ∧ w'.stoodDown = w.stoodDown ++ [⟨d, r, w.drove⟩])
      (hdrives : ∀ e, w'.drives e ↔ w.drives e ∧ e ≠ d) : Effect w w' a
  /-- A refresh writes the device's name again. -/
  | refreshed (d : Dev) (nowMs : Nat) (hrec : w'.record = some (runningRecord name d nowMs))
      (hdrove : w'.drove = decide (w.drives d)) (hstood : w'.stoodDown = w.stoodDown)
      (hdrives : ∀ e, w'.drives e ↔ w.drives e) : Effect w w' (.refreshWrite d nowMs)
  /-- The send is done: the record goes. -/
  | removed (d : Dev) (nowMs : Nat) (hrec : w'.record = none)
      (hstood : w'.stoodDown = w.stoodDown) (hdrives : ∀ e, w'.drives e ↔ w.drives e) :
      Effect w w' (.finishWrite d nowMs)
  /-- The send is paused or failed: the record says so. -/
  | ended (d : Dev) (nowMs : Nat) (outcome : Outcome)
      (hphase : (w.keeper d).phase = .closing outcome) (hout : outcome ≠ .done)
      (hrec : w'.record = some (endedRecord name d nowMs outcome)) (hdrove : w'.drove = false)
      (hstood : w'.stoodDown = w.stoodDown) (hdrives : ∀ e, w'.drives e ↔ w.drives e) :
      Effect w w' (.finishWrite d nowMs)

/-- A device that reads another's name stops driving, if it drove. -/
theorem markTaken_effect {by_ : String} {k : Keeper} (a : Act Dev)
    (h : moved w.record d = some by_) : Effect name w (w.markTaken d by_ k) a := by
  obtain ⟨r, hr, howner⟩ := moved_eq_some h
  refine .stoodDown a d r hr howner rfl rfl ?_ fun e => ?_
  · by_cases hd : w.drives d
    · exact Or.inr ⟨hd, by simp [World.markTaken, hr, hd]⟩
    · exact Or.inl (by simp [World.markTaken, hr, hd])
  · by_cases he : e = d
    · subst he
      simp [World.markTaken, World.drives, World.set]
    · simp [World.markTaken, World.drives, World.set, he]

theorem step_effect (h : step name w a = some w') : Effect name w w' a := by
  cases a with
  | startRead d nowMs =>
    simp only [step] at h
    split at h
    · rename_i hp
      have hnd : ¬ w.drives d := fun hc => by simp [hc.1] at hp
      split at h <;> cases h
      · exact .quiet _ rfl rfl rfl (Or.inl fun _ => Iff.rfl)
      · exact .quiet _ rfl rfl rfl (Or.inl (drives_set_iff (by simp [hnd])))
    · simp at h
  | startTake d =>
    simp only [step] at h
    split at h
    · rename_i hp
      have hnd : ¬ w.drives d := fun hc => by simp [hc.1] at hp
      cases h
      exact .quiet _ rfl rfl rfl (Or.inl (drives_set_iff (by simp [hnd])))
    · simp at h
  | startWrite d nowMs =>
    simp only [step] at h
    split at h
    · cases h
      refine .took d nowMs rfl rfl rfl fun e => ?_
      by_cases he : e = d
      · subst he
        simp [World.drives, World.set]
      · simp [World.drives, World.set, he]
    · simp at h
  | refreshRead d =>
    simp only [step] at h
    split at h
    · split at h
      · rename_i by_ hm
        cases h
        exact markTaken_effect name _ hm
      · cases h
        exact .quiet _ rfl rfl rfl (Or.inl (drives_set_iff Iff.rfl))
    · simp at h
  | refreshWrite d nowMs =>
    simp only [step] at h
    split at h
    · cases h
      exact .refreshed d nowMs rfl rfl rfl (drives_set_iff Iff.rfl)
    · simp at h
  | confirmRead d =>
    simp only [step] at h
    split at h
    · split at h
      · rename_i by_ hm
        cases h
        exact markTaken_effect name _ hm
      · cases h
        exact .quiet _ rfl rfl rfl (Or.inl fun _ => Iff.rfl)
    · simp at h
  | finish d outcome =>
    simp only [step] at h
    split at h
    · cases h
      refine .quiet _ rfl rfl rfl (Or.inr ⟨d, outcome, rfl, fun e => ?_⟩)
      by_cases he : e = d
      · subst he
        simp
      · simp [drives_set_of_ne _ _ he, he]
    · simp at h
  | joined d =>
    simp only [step] at h
    split at h
    · split at h
      · cases h
        exact .quiet _ rfl rfl rfl (Or.inl (drives_set_iff Iff.rfl))
      · simp at h
    · simp at h
  | finishRead d =>
    simp only [step] at h
    split at h
    · rename_i outcome hp
      have hnd : ¬ w.drives d := fun hc => by simp [hc.1] at hp
      split at h
      · split at h <;> cases h <;>
          exact .quiet _ rfl rfl rfl (Or.inl (drives_set_iff (by simp [hnd, Keeper.idle])))
      · simp at h
    · simp at h
  | finishWrite d nowMs =>
    simp only [step] at h
    split at h
    · rename_i hp
      have hnd : ¬ w.drives d := fun hc => by simp [hc.1] at hp
      cases h
      exact .removed d nowMs rfl rfl (drives_set_iff (by simp [hnd, Keeper.idle]))
    · rename_i outcome hout hp
      have hnd : ¬ w.drives d := fun hc => by simp [hc.1] at hp
      cases h
      exact .ended d nowMs outcome hp (fun hc => hout (by rw [hc])) rfl rfl rfl
        (drives_set_iff (by simp [hnd, Keeper.idle]))
    · simp at h

/-! ## Who stands down for whom -/

/-- A device that does not drive the send writes its name only while no other device drives
it: no take-over lands between the read and the write of a refresh or a finish. -/
def NoStaleWrite (w : World Dev) : Act Dev → Prop
  | .refreshWrite d _ => w.drives d ∨ ∀ e, e ≠ d → ¬ w.drives e
  | .finishWrite d _ => (w.keeper d).phase = .closing .done ∨ ∀ e, e ≠ d → ¬ w.drives e
  | _ => True

instance [Fintype Dev] (w : World Dev) (a : Act Dev) : Decidable (NoStaleWrite w a) := by
  cases a <;> unfold NoStaleWrite <;> infer_instance

/-- No device that drives the send ends it. -/
def NobodyEnds (w : World Dev) : Act Dev → Prop
  | .finish d _ => ¬ w.drives d
  | _ => True

instance (w : World Dev) (a : Act Dev) : Decidable (NobodyEnds w a) := by
  cases a <;> unfold NobodyEnds <;> infer_instance

/-- A record its owner wrote while it was not driving has no other device driving under it,
and every device that stood down did so for one that drove. -/
structure Honest (w : World Dev) : Prop where
  alone : ∀ r, w.record = some r → w.drove = false → ∀ e, e ≠ r.owner → ¬ w.drives e
  stood : ∀ s ∈ w.stoodDown, s.ownerDrove = true

omit [DecidableEq Dev] in
theorem honest_start (record : Option (SendRecord Dev)) : Honest (World.start record) where
  alone := fun _ _ _ e _ hd => by simp [World.drives, World.start, Keeper.idle] at hd
  stood := fun s hs => by simp [World.start] at hs

omit [DecidableEq Dev] in
/-- A step that leaves the register alone and sets nobody driving keeps the record honest. -/
theorem Honest.alone_of_quiet (hw : Honest w) (hrec : w'.record = w.record)
    (hdrove : w'.drove = w.drove) (hdrives : ∀ e, w'.drives e → w.drives e) :
    ∀ r, w'.record = some r → w'.drove = false → ∀ e, e ≠ r.owner → ¬ w'.drives e := by
  intro r hr hf e he hd
  rw [hrec] at hr
  rw [hdrove] at hf
  exact hw.alone r hr hf e he (hdrives e hd)

theorem honest_step (hw : Honest w) (ha : NoStaleWrite w a)
    (h : step name w a = some w') : Honest w' := by
  cases step_effect name h with
  | quiet _ hrec hdrove hstood hdrives =>
    refine ⟨hw.alone_of_quiet hrec hdrove fun e hd => ?_, by rw [hstood]; exact hw.stood⟩
    rcases hdrives with hiff | ⟨d, o, -, hiff⟩
    · exact (hiff e).1 hd
    · exact ((hiff e).1 hd).1
  | took d nowMs hrec hdrove hstood hdrives =>
    refine ⟨fun r _ hf => ?_, by rw [hstood]; exact hw.stood⟩
    rw [hdrove] at hf
    simp at hf
  | stoodDown _ d r hr howner hrec hdrove hstood hdrives =>
    refine ⟨hw.alone_of_quiet hrec hdrove fun e hd => ((hdrives e).1 hd).1, ?_⟩
    rcases hstood with hs | ⟨hd, hs⟩
    · rw [hs]
      exact hw.stood
    · intro s hmem
      rw [hs, List.mem_append, List.mem_singleton] at hmem
      rcases hmem with hmem | rfl
      · exact hw.stood s hmem
      · -- had the owner not driven, the device that reads it would not be driving either
        by_contra hf
        exact hw.alone r hr (by simpa using hf) d howner.symm hd
  | refreshed d nowMs hrec hdrove hstood hdrives =>
    refine ⟨fun r hr hf e he hd => ?_, by rw [hstood]; exact hw.stood⟩
    rw [hrec, Option.some.injEq] at hr
    subst hr
    rw [hdrove, decide_eq_false_iff_not] at hf
    rcases ha with hdr | halone
    · exact hf hdr
    · exact halone e he ((hdrives e).1 hd)
  | removed d nowMs hrec hstood hdrives =>
    refine ⟨fun r hr => ?_, by rw [hstood]; exact hw.stood⟩
    rw [hrec] at hr
    simp at hr
  | ended d nowMs outcome hphase hout hrec hdrove hstood hdrives =>
    refine ⟨fun r hr _ e he hd => ?_, by rw [hstood]; exact hw.stood⟩
    rw [hrec, Option.some.injEq] at hr
    subst hr
    rcases ha with hdone | halone
    · rw [hphase, Phase.closing.injEq] at hdone
      exact hout hdone
    · exact halone e he ((hdrives e).1 hd)

/-- Some device drives the send, and the record, if there is one, names it. -/
def Live (w : World Dev) : Prop :=
  ∃ e, w.drives e ∧ ∀ r, w.record = some r → r.owner = e

/-- Taking the send over sets it going. -/
theorem live_of_startWrite {nowMs : Nat}
    (h : step name w (.startWrite d nowMs) = some w') : Live w' := by
  simp only [step] at h
  split at h
  · cases h
    refine ⟨d, by simp [World.drives, World.set], fun r hr => ?_⟩
    cases hr
    rfl
  · simp at h

theorem live_step (hw : Live w)
    (ha : NoStaleWrite w a ∧ NobodyEnds w a) (h : step name w a = some w') : Live w' := by
  obtain ⟨e, he, howns⟩ := hw
  cases step_effect name h with
  | quiet _ hrec hdrove hstood hdrives =>
    refine ⟨e, ?_, by rwa [hrec]⟩
    rcases hdrives with hiff | ⟨d, o, rfl, hiff⟩
    · exact (hiff e).2 he
    · refine (hiff e).2 ⟨he, fun hed => ha.2 ?_⟩
      exact hed ▸ he
  | took d nowMs hrec hdrove hstood hdrives => exact live_of_startWrite name h
  | stoodDown _ d r hr howner hrec hdrove hstood hdrives =>
    -- the reader is not the device the record names, which goes on
    refine ⟨e, (hdrives e).2 ⟨he, ?_⟩, by rwa [hrec]⟩
    rw [← howns r hr]
    exact howner
  | refreshed d nowMs hrec hdrove hstood hdrives =>
    have hd : w.drives d := by
      rcases ha.1 with hd | halone
      · exact hd
      · by_cases hed : e = d
        · exact hed ▸ he
        · exact absurd he (halone e hed)
    refine ⟨d, (hdrives d).2 hd, fun r hr => ?_⟩
    rw [hrec, Option.some.injEq] at hr
    rw [← hr]
    rfl
  | removed d nowMs hrec hstood hdrives =>
    refine ⟨e, (hdrives e).2 he, fun r hr => ?_⟩
    rw [hrec] at hr
    simp at hr
  | ended d nowMs outcome hphase hout hrec hdrove hstood hdrives =>
    -- a device that ends the send does not drive it, so nobody would
    exfalso
    rcases ha.1 with hdone | halone
    · rw [hphase, Phase.closing.injEq] at hdone
      exact hout hdone
    · refine halone e (fun hed => ?_) he
      rw [hed] at he
      have := he.1
      rw [hphase] at this
      simp at this

/-- **A device stands down only for one that drives.**  From any record an earlier try left,
in every run in which no device that has stopped driving writes the record under a device
that drives: whoever stood down read the name of a device that was driving when it wrote it;
and after a take-over, as long as no device that drives ends the send, some device drives. -/
theorem world_stood_down_for_driver (record : Option (SendRecord Dev)) (as : List (Act Dev))
    (w : World Dev) (hstale : Runs.Meets (step name) NoStaleWrite (World.start record) as)
    (h : Runs.exec (step name) (World.start record) as = some w) :
    (∀ s ∈ w.stoodDown, s.ownerDrove = true) ∧
    ∀ bs d nowMs cs u, as = bs ++ .startWrite d nowMs :: cs →
      Runs.exec (step name) (World.start record) (bs ++ [.startWrite d nowMs]) = some u →
      Runs.Meets (step name) NobodyEnds u cs → ∃ e, w.drives e := by
  refine ⟨?_, ?_⟩
  · exact (Runs.exec_inv_of_meets (fun _ _ _ hs ha => honest_step name hs ha)
      (honest_start record) hstale h).stood
  · rintro bs d nowMs cs u rfl hu hends
    have happ : bs ++ Act.startWrite d nowMs :: cs = (bs ++ [.startWrite d nowMs]) ++ cs := by
      simp
    rw [happ] at h hstale
    obtain ⟨u', hu', hw⟩ := (Runs.exec_append _).1 h
    obtain rfl : u = u' := by
      rw [hu, Option.some.injEq] at hu'
      exact hu'
    -- the take-over's own write makes the send live; every later step keeps it so
    have hlive : Live u := by
      obtain ⟨v, -, hv⟩ := (Runs.exec_append _).1 hu
      obtain ⟨v', hv', hlast⟩ := (Runs.exec_cons_eq_some _).1 hv
      rw [Runs.exec_nil, Option.some.injEq] at hlast
      exact hlast ▸ live_of_startWrite name hv'
    obtain ⟨e, he, -⟩ := Runs.exec_inv_of_meets (fun _ _ _ hs ha => live_step name hs ha) hlive
      ((hstale.of_append hu).and hends) hw
    exact ⟨e, he⟩

end

/-! ### Two devices -/

/-- The names two devices go by. -/
def deviceName (d : Bool) : String := if d then "Living room PC" else "Steam Deck"

/-- One device drives the send, the other takes it over; the first sees the move at its next
refresh and leaves the record to the second. -/
def takeOver : List (Act Bool) :=
  [.startRead false 0, .startWrite false 0, .refreshRead false, .refreshWrite false 15000,
   .startTake true, .startWrite true 20000, .refreshRead false, .finish false .paused,
   .finishRead false, .refreshRead true, .refreshWrite true 35000]

theorem world_stood_down_for_driver_takeOver :
    (Runs.exec (step deviceName) (World.start none) takeOver).map
        (fun w => w.stoodDown.map (·.device)) = some [false] ∧
    ∀ w, Runs.exec (step deviceName) (World.start none) takeOver = some w →
      (∀ s ∈ w.stoodDown, s.ownerDrove = true) ∧ ∃ e, w.drives e := by
  refine ⟨by decide, fun w h => ?_⟩
  obtain ⟨hstood, hlive⟩ :=
    world_stood_down_for_driver deviceName none takeOver w (by decide) h
  refine ⟨hstood, ?_⟩
  have hu : (Runs.exec (step deviceName) (World.start none) (takeOver.take 6)).isSome := by
    decide
  obtain ⟨u, hu⟩ := Option.isSome_iff_exists.1 hu
  refine hlive (takeOver.take 5) true 20000 (takeOver.drop 6) u rfl hu ?_
  have hm : ∀ v ∈ Runs.exec (step deviceName) (World.start none) (takeOver.take 6),
      Runs.Meets (step deviceName) NobodyEnds v (takeOver.drop 6) := by
    decide
  exact hm u hu

/-- A take-over between a pausing finish's read and its write: the first device's paused
record replaces the second's, and the second stands down for it. -/
def pausedOver : List (Act Bool) :=
  [.startRead false 0, .startWrite false 0, .finish false .paused, .joined false,
   .finishRead false, .startTake true, .startWrite true 20000, .finishWrite false 20100,
   .refreshRead true]

/-- **The device a device stood down for may have paused.**  Nobody drives the send at the
end of the run, and no device ended it after the take-over. -/
theorem stood_down_for_paused :
    (Runs.exec (step deviceName) (World.start none) pausedOver).map
        (fun w => w.stoodDown.map fun s => (s.device, s.record.owner, s.record.state,
          s.ownerDrove)) = some [(true, false, .paused, false)] ∧
    (∀ u ∈ Runs.exec (step deviceName) (World.start none) (pausedOver.take 7),
      Runs.Meets (step deviceName) NobodyEnds u (pausedOver.drop 7)) ∧
    ∀ w ∈ Runs.exec (step deviceName) (World.start none) pausedOver, ∀ e, ¬ w.drives e := by
  refine ⟨by decide, by decide, by decide⟩

end Ps5Upload.C2cRecord
