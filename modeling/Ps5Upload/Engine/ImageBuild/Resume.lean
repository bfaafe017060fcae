import Ps5Upload.Fpkg.Exfat.Skip
import Ps5Upload.Lib.Runs

/-!
# Image builds: going on after a crash

`resume_point`, `CheckpointWriter` and the resumable part of `build_any` of
`ps5upload-engine/src/image_build.rs`, with `Writing::claim` of `fpkg_api.rs` in front, as a system
over the partial file and its checkpoint.  The writer's output comes in pieces of any size, of which
the buffered file takes any part; a checkpoint is due every so many bytes and its file is replaced or
is not; a crash leaves at least the bytes the checkpoint on the disk says, followed by anything.

* `resumed_build_same_image` — the build that finishes has written the image of one whole run, and
  none that went on read a file whose clusters end where it went on from, or before.
-/

namespace Ps5Upload.ImageBuild

open ByteFile Runs Exfat

/-! ## The checkpoint -/

/-- What a build left to go on from: which plan it is for and the bytes on disk for certain. -/
structure Checkpoint where
  key : String
  done : Nat
  deriving DecidableEq, Repr

/-- `<output>.partial`, and its checkpoint file. -/
structure Disk where
  file : Option Bytes
  saved : Option Checkpoint
  deriving DecidableEq

/-- Where to go on from, when the partial file holds what its checkpoint says for this plan. -/
def resumePoint (d : Disk) (key : String) : Option Nat :=
  match d.saved, d.file with
  | some c, some f => if c.key = key ∧ 0 < c.done ∧ c.done ≤ f.length then some c.done else none
  | _, _ => none

/-- Drops the first `skip` bytes it is given and writes the rest; `out` is the file with what is still
buffered. -/
structure CheckpointWriter where
  out : Bytes
  skip : Nat
  pos : Nat
  since : Nat
  key : String
  every : Nat
  deriving DecidableEq

/-- One call with `buf`, of which the buffered file takes `taken` bytes; also, whether a checkpoint is
due after it. -/
def CheckpointWriter.write (w : CheckpointWriter) (buf : Bytes) (taken : Nat) :
    CheckpointWriter × Bool :=
  if w.pos < w.skip then ({ w with pos := w.pos + min (w.skip - w.pos) buf.length }, false)
  else
    let n := min taken buf.length
    ({ w with out := w.out ++ buf.take n, pos := w.pos + n, since := w.since + n },
      decide (w.every ≤ w.since + n))

/-- A checkpoint; a file that cannot be replaced costs a later resume, not this build. -/
def CheckpointWriter.checkpoint (w : CheckpointWriter) (replaced : Bool) (d : Disk) :
    CheckpointWriter × Disk :=
  ({ w with since := 0 }, if replaced then { d with saved := some ⟨w.key, w.pos⟩ } else d)

/-! ## The build -/

/-- The leftover of a build that is not running any more goes, unless it has a checkpoint. -/
def claim (d : Disk) : Disk := if d.saved.isSome then d else { d with file := none }

/-- The partial file opened, cut to what is sure, or made anew. -/
def openPartial (d : Disk) (key : String) (every : Nat) : Disk × CheckpointWriter :=
  match resumePoint d key with
  | some done =>
    let kept := (d.file.getD []).take done
    ({ d with file := some kept }, ⟨kept, done, 0, 0, key, every⟩)
  | none => (⟨some [], none⟩, ⟨[], 0, 0, 0, key, every⟩)

/-- A build that is running: its output, and the run of the image writer that feeds it. -/
structure Build where
  writer : CheckpointWriter
  run : Run

structure State where
  disk : Disk
  build : Option Build
  /-- The image, once it has its own name. -/
  image : Option Bytes

inductive Act where
  | start
  /-- The next `n` bytes are offered; `taken` and `replaced` are the disk's part. -/
  | write (n taken : Nat) (replaced : Bool)
  /-- The process dies; the partial file is left so. -/
  | crash (left : Bytes)
  /-- The build fails or is cancelled, and its partial file goes; `all` when its checkpoint does too
  before the process can die. -/
  | giveUp (all : Bool)
  /-- The process dies between removing a useless partial file and removing its checkpoint. -/
  | crashClearing
  | finish
  deriving DecidableEq, Repr

/-- What a crash may leave of a file: what its checkpoint says, followed by anything. -/
def MayLeave (d : Disk) (out left : Bytes) : Prop :=
  ∀ c ∈ d.saved, c.done ≤ left.length ∧ left.take c.done = out.take c.done

instance (d : Disk) (out left : Bytes) : Decidable (MayLeave d out left) :=
  inferInstanceAs (Decidable (∀ c ∈ d.saved, _))

section System

variable (p : ExfatPlan) (source : Source) (key : String) (every : Nat)

def step (s : State) : Act → Option State
  | .start =>
    match s.build with
    | none =>
      let (d, w) := openPartial (claim s.disk) key every
      some { s with disk := d, build := some ⟨w, writeExfatAfter p source w.skip⟩ }
    | some _ => none
  | .write n taken replaced => s.build.bind fun b =>
    let (w, due) := b.writer.write ((b.run.out.drop b.writer.pos).take n) taken
    if due then
      let (w, d) := w.checkpoint replaced s.disk
      some { s with disk := d, build := some { b with writer := w } }
    else some { s with build := some { b with writer := w } }
  | .crash left => s.build.bind fun b =>
    if MayLeave s.disk b.writer.out left then
      some { s with disk := { s.disk with file := some left }, build := none }
    else none
  | .giveUp all => s.build.bind fun _ =>
    some { s with disk := ⟨none, if all then none else s.disk.saved⟩, build := none }
  | .crashClearing =>
    if s.build.isNone ∧ resumePoint s.disk key = none then
      some { s with disk := { s.disk with file := none } }
    else none
  | .finish => s.build.bind fun b =>
    -- the writer has given out everything, all of it was taken, and it did not fail
    if b.writer.pos = b.run.out.length ∧ b.run.failed = none then
      some ⟨⟨none, none⟩, none, some b.writer.out⟩
    else none

/-- No checkpoint on the disk is this plan's. -/
def Fresh (d : Disk) : Prop := ∀ c ∈ d.saved, c.key ≠ key

instance (d : Disk) : Decidable (Fresh key d) := inferInstanceAs (Decidable (∀ c ∈ d.saved, _))

/-! ## The invariant -/

/-- What a checkpoint of this plan says is there is there. -/
def Sound (d : Disk) : Prop := ∀ c f, d.saved = some c → c.key = key → d.file = some f →
  c.done ≤ f.length → c.done ≤ (writeExfat p source).out.length ∧
    f.take c.done = (writeExfat p source).out.take c.done

/-- A running build has the image's first bytes: those it skips and those it took. -/
structure Going (d : Disk) (b : Build) : Prop where
  key_eq : b.writer.key = key
  run_eq : b.run = writeExfatAfter p source b.writer.skip
  skip_le : b.writer.skip ≤ (writeExfat p source).out.length
  pos_le : b.writer.pos ≤ (writeExfat p source).out.length
  out_eq : b.writer.out = (writeExfat p source).out.take (max b.writer.skip b.writer.pos)
  saved : ∀ c ∈ d.saved, c.done ≤ max b.writer.skip b.writer.pos

structure Inv (s : State) : Prop where
  disk : s.build = none → Sound p source key s.disk
  build : ∀ b, s.build = some b → Going p source key s.disk b
  image : ∀ f, s.image = some f →
    (writeExfat p source).failed = none ∧ f = (writeExfat p source).out

/-! ## Steps -/

variable {p source key every} {upcase : Bytes} {t : Tree}

theorem resumePoint_some {d : Disk} {done : Nat} (h : resumePoint d key = some done) :
    ∃ c f, d.saved = some c ∧ d.file = some f ∧ c.key = key ∧ 0 < c.done ∧ c.done ≤ f.length ∧
      done = c.done := by
  unfold resumePoint at h
  split at h
  · rename_i c f hc hf
    split at h
    · rename_i hfits
      cases h
      exact ⟨c, f, hc, hf, hfits.1, hfits.2.1, hfits.2.2, rfl⟩
    · cases h
  · cases h

theorem sound_of_missing {d : Disk} (h : d.file = none) : Sound p source key d := by
  intro c f _ _ hf
  rw [h] at hf
  cases hf

theorem claim_sound {d : Disk} (h : Sound p source key d) : Sound p source key (claim d) := by
  unfold claim
  split
  · exact h
  · exact sound_of_missing rfl

/-- A build starts with the bytes its checkpoint says, or from nothing. -/
theorem openPartial_going {d : Disk} (h : Sound p source key d) :
    Going p source key (openPartial d key every).1
      ⟨(openPartial d key every).2, writeExfatAfter p source (openPartial d key every).2.skip⟩ := by
  unfold openPartial
  cases hr : resumePoint d key with
  | none => exact ⟨rfl, rfl, Nat.zero_le _, Nat.zero_le _, rfl, nofun⟩
  | some done =>
    obtain ⟨c, f, hc, hf, hkey, -, hle, rfl⟩ := resumePoint_some hr
    obtain ⟨hdone, htake⟩ := h c f hc hkey hf hle
    dsimp only
    refine ⟨rfl, rfl, hdone, Nat.zero_le _, ?_, fun c' hc' => ?_⟩
    · dsimp only
      rw [hf, Nat.max_eq_left (Nat.zero_le _)]
      exact htake
    · have : c' = c := Option.some.inj ((Option.mem_def.1 hc').symm.trans hc)
      rw [this]
      exact Nat.le_max_left _ _

section Laid

variable (hlaid : Laid upcase t p.tree p.l)
include hlaid

variable {d : Disk} {b : Build}

/-- What a build is still to take is the rest of the image. -/
theorem Going.rest (h : Going p source key d b) (hpos : b.writer.skip ≤ b.writer.pos) :
    b.run.out.drop b.writer.pos = (writeExfat p source).out.drop b.writer.pos := by
  have hdrop := (writeExfatAfter_resumes hlaid h.skip_le).drop_eq
  rw [← h.run_eq, Nat.sub_zero] at hdrop
  have hsum : b.writer.pos = b.writer.skip + (b.writer.pos - b.writer.skip) := by omega
  rw [hsum, ← List.drop_drop, ← List.drop_drop, hdrop]

theorem Going.length_run (h : Going p source key d b) :
    b.run.out.length = (writeExfat p source).out.length := by
  rw [h.run_eq]
  exact (writeExfatAfter_resumes hlaid h.skip_le).length_eq

theorem Going.failed_run (h : Going p source key d b) :
    b.run.failed = (writeExfat p source).failed := by
  rw [h.run_eq]
  exact (writeExfatAfter_resumes hlaid h.skip_le).failed_eq

/-- A write call keeps the first bytes of the image. -/
theorem Going.write (h : Going p source key d b) (n taken : Nat) : Going p source key d { b with
      writer := (b.writer.write ((b.run.out.drop b.writer.pos).take n) taken).1 } := by
  have hlen := h.length_run hlaid
  have hpos := h.pos_le
  have hskip := h.skip_le
  unfold CheckpointWriter.write
  by_cases hlt : b.writer.pos < b.writer.skip
  · rw [if_pos hlt]
    have hmax : ∀ k, max b.writer.skip (b.writer.pos + min (b.writer.skip - b.writer.pos) k) =
        b.writer.skip := fun k => by omega
    have hmax' : max b.writer.skip b.writer.pos = b.writer.skip := by omega
    refine ⟨h.key_eq, h.run_eq, hskip, ?_, ?_, fun c hc => ?_⟩
    · dsimp only
      omega
    · dsimp only
      rw [hmax, ← hmax']
      exact h.out_eq
    · dsimp only
      rw [hmax, ← hmax']
      exact h.saved c hc
  · rw [if_neg hlt]
    have hrest := h.rest hlaid (by omega)
    have hmax : ∀ k, max b.writer.skip (b.writer.pos + k) = b.writer.pos + k := fun k => by omega
    have hmax' : max b.writer.skip b.writer.pos = b.writer.pos := by omega
    refine ⟨h.key_eq, h.run_eq, hskip, ?_, ?_, fun c hc => ?_⟩
    · dsimp only
      rw [hrest, List.length_take, List.length_drop]
      omega
    · dsimp only
      rw [hmax, h.out_eq, hmax', hrest, List.take_take, List.take_add]
      congr 2
      rw [List.length_take]
      omega
    · dsimp only
      rw [hmax]
      have := h.saved c hc
      omega

omit hlaid in
/-- A checkpoint says what is there: it comes behind the bytes that are skipped. -/
theorem Going.checkpoint (h : Going p source key d b) (replaced : Bool) :
    Going p source key (b.writer.checkpoint replaced d).2
      { b with writer := (b.writer.checkpoint replaced d).1 } := by
  refine ⟨h.key_eq, h.run_eq, h.skip_le, h.pos_le, h.out_eq, fun c hc => ?_⟩
  cases replaced with
  | false => exact h.saved c hc
  | true =>
    have hc' : some (⟨b.writer.key, b.writer.pos⟩ : Checkpoint) = some c := hc
    cases hc'
    exact Nat.le_max_right _ _

omit hlaid in
/-- What a crash leaves is what the next build may go on from. -/
theorem Going.crash (h : Going p source key d b) {left : Bytes}
    (hleft : MayLeave d b.writer.out left) : Sound p source key { d with file := some left } := by
  intro c f hc _ hf _
  cases hf
  have hsaved := h.saved c hc
  have hskip := h.skip_le
  have hpos := h.pos_le
  refine ⟨by omega, ?_⟩
  rw [(hleft c hc).2, h.out_eq, List.take_take]
  congr 1
  omega

/-- **One action keeps the invariant.** -/
theorem inv_step {s s' : State} (a : Act) (h : Inv p source key s)
    (hs : step p source key every s a = some s') : Inv p source key s' := by
  cases a with
  | start =>
    rw [step] at hs
    cases hb : s.build with
    | some b =>
      rw [hb] at hs
      cases hs
    | none =>
      rw [hb] at hs
      cases hs
      refine ⟨nofun, fun b hb' => ?_, h.image⟩
      cases hb'
      exact openPartial_going (claim_sound (h.disk hb))
  | write n taken replaced =>
    obtain ⟨b, hb, hs⟩ := Option.bind_eq_some_iff.1 hs
    have hgoing := (h.build b hb).write hlaid n taken
    dsimp only at hs
    split at hs
    · cases hs
      refine ⟨nofun, fun b' hb' => ?_, h.image⟩
      cases hb'
      exact hgoing.checkpoint replaced
    · cases hs
      refine ⟨nofun, fun b' hb' => ?_, h.image⟩
      cases hb'
      exact hgoing
  | crash left =>
    obtain ⟨b, hb, hs⟩ := Option.bind_eq_some_iff.1 hs
    split at hs
    · rename_i hleft
      cases hs
      exact ⟨fun _ => (h.build b hb).crash hleft, nofun, h.image⟩
    · cases hs
  | giveUp all =>
    obtain ⟨b, hb, hs⟩ := Option.bind_eq_some_iff.1 hs
    cases hs
    exact ⟨fun _ => sound_of_missing rfl, nofun, h.image⟩
  | crashClearing =>
    rw [step] at hs
    split at hs
    · rename_i h'
      cases hs
      refine ⟨fun _ => sound_of_missing rfl, fun b hb => ?_, h.image⟩
      rw [show s.build = some b from hb] at h'
      exact absurd h'.1 Bool.false_ne_true
    · cases hs
  | finish =>
    obtain ⟨b, hb, hs⟩ := Option.bind_eq_some_iff.1 hs
    split at hs
    · rename_i hdone
      cases hs
      have hgoing := h.build b hb
      refine ⟨fun _ => sound_of_missing rfl, nofun, fun f hf => ?_⟩
      cases hf
      have hpos : b.writer.pos = (writeExfat p source).out.length :=
        hdone.1.trans (hgoing.length_run hlaid)
      refine ⟨(hgoing.failed_run hlaid).symm.trans hdone.2, ?_⟩
      rw [hgoing.out_eq]
      exact List.take_of_length_le (by omega)
    · cases hs

end Laid

/-! ## Every run -/

theorem inv_start {d : Disk} (hd : Fresh key d) : Inv p source key ⟨d, none, none⟩ :=
  ⟨fun _ c _ hc hkey _ _ => absurd hkey (hd c hc), nofun, nofun⟩

/-- **An interrupted build goes on to the same image**: whatever the pieces the output comes in, the
checkpoints and the crashes, a build that finishes has written what the writer writes in one run, and
a build that goes on from some byte asks for no file whose clusters end there or before. -/
theorem resumed_build_same_image {isNfc : Text → Bool} {files : List SourceFile}
    {emptyDirs : List Text} {override : Option Nat} {extraFree : Nat}
    (hp : planExfat upcase isNfc files emptyDirs override extraFree = .ok p) {d : Disk}
    (hd : Fresh key d) {as : List Act} {s : State}
    (h : exec (step p source key every) ⟨d, none, none⟩ as = some s) :
    (∀ f, s.image = some f → (writeExfat p source).failed = none ∧ f = (writeExfat p source).out) ∧
    ∀ b, s.build = some b → 0 < b.writer.skip → ∀ c ∈ b.run.reads,
      b.writer.skip < startOf p c.file + (nodeAt p.tree c.file).clusters * p.l.cluster := by
  obtain ⟨t, -, -, hlaid, -, -⟩ := planExfat_laid hp
  have hinv : Inv p source key s := exec_inv (fun _ a _ => inv_step hlaid a) (inv_start hd) h
  refine ⟨hinv.image, fun b hb hskip c hc => ?_⟩
  rw [(hinv.build b hb).run_eq] at hc
  obtain ⟨-, hlt, hbehind⟩ := reads_after hc
  by_contra hle
  exact hbehind ⟨hskip, by omega, by omega⟩

/-- A build that goes on from a checkpoint behind `n` bytes. -/
def wentOn (p : ExfatPlan) (source : Source) (key : String) (n : Nat) : State :=
  ⟨⟨some ((writeExfat p source).out.take n), some ⟨key, n⟩⟩,
    some ⟨⟨(writeExfat p source).out.take n, n, 0, 0, key, 1⟩, writeExfatAfter p source n⟩, none⟩

/-- A checkpoint may come behind any byte of the image, and a crash right after it: the build goes on
from there. -/
theorem resumes_anywhere {n : Nat} (hn : 0 < n) (hle : n ≤ (writeExfat p source).out.length) :
    exec (step p source key 1) ⟨⟨none, none⟩, none, none⟩
      [.start, .write n n true, .crash ((writeExfat p source).out.take n), .start] =
      some (wentOn p source key n) := by
  have hlen : ((writeExfat p source).out.take n).length = n := by
    rw [List.length_take]
    omega
  have hstart : step p source key 1 ⟨⟨none, none⟩, none, none⟩ .start =
      some ⟨⟨some [], none⟩, some ⟨⟨[], 0, 0, 0, key, 1⟩, writeExfat p source⟩, none⟩ := rfl
  have hwrite : step p source key 1
      ⟨⟨some [], none⟩, some ⟨⟨[], 0, 0, 0, key, 1⟩, writeExfat p source⟩, none⟩ (.write n n true) =
      some ⟨⟨some [], some ⟨key, n⟩⟩,
        some ⟨⟨(writeExfat p source).out.take n, 0, n, 0, key, 1⟩, writeExfat p source⟩, none⟩ := by
    have hcall : CheckpointWriter.write ⟨[], 0, 0, 0, key, 1⟩ ((writeExfat p source).out.take n) n =
        (⟨(writeExfat p source).out.take n, 0, n, n, key, 1⟩, true) := by
      unfold CheckpointWriter.write
      rw [if_neg (Nat.lt_irrefl 0), hlen]
      simp only [Nat.min_self, Nat.zero_add, List.nil_append, List.take_take,
        decide_eq_true (show 1 ≤ n from hn)]
    rw [step, Option.bind_some]
    dsimp only
    rw [List.drop_zero, hcall]
    rfl
  have hcrash : step p source key 1 ⟨⟨some [], some ⟨key, n⟩⟩,
      some ⟨⟨(writeExfat p source).out.take n, 0, n, 0, key, 1⟩, writeExfat p source⟩, none⟩
      (.crash ((writeExfat p source).out.take n)) =
      some ⟨⟨some ((writeExfat p source).out.take n), some ⟨key, n⟩⟩, none, none⟩ := by
    rw [step, Option.bind_some]
    dsimp only
    rw [if_pos]
    intro c hc
    cases hc
    exact ⟨Nat.le_of_eq hlen.symm, rfl⟩
  have hagain : step p source key 1
      ⟨⟨some ((writeExfat p source).out.take n), some ⟨key, n⟩⟩, none, none⟩ .start =
      some (wentOn p source key n) := by
    have hpoint : resumePoint ⟨some ((writeExfat p source).out.take n), some ⟨key, n⟩⟩ key =
        some n := if_pos ⟨rfl, hn, Nat.le_of_eq hlen.symm⟩
    rw [step]
    dsimp only
    rw [claim, if_pos (by rfl), openPartial, hpoint]
    dsimp only
    rw [Option.getD_some, List.take_take, Nat.min_self, wentOn]
  rw [exec_cons, hstart, Option.bind_some, exec_cons, hwrite, Option.bind_some, exec_cons, hcrash,
    Option.bind_some, exec_cons, hagain, Option.bind_some, exec_nil]

/-- It passes over what is there, takes the rest, and finishes. -/
theorem wentOn_finishes (hlaid : Laid upcase t p.tree p.l) (hok : (writeExfat p source).failed = none)
    {n : Nat} (hlt : n < (writeExfat p source).out.length) :
    exec (step p source key 1) (wentOn p source key n) [.write n n true,
      .write (writeExfat p source).out.length (writeExfat p source).out.length true, .finish] =
      some ⟨⟨none, none⟩, none, some (writeExfat p source).out⟩ := by
  obtain ⟨hfailed, hlength, hdrop⟩ := writeExfatAfter_resumes hlaid (Nat.le_of_lt hlt)
  rw [Nat.sub_zero] at hdrop
  have hskip : CheckpointWriter.write ⟨(writeExfat p source).out.take n, n, 0, 0, key, 1⟩
      ((writeExfatAfter p source n).out.take n) n =
      (⟨(writeExfat p source).out.take n, n, n, 0, key, 1⟩, false) := by
    unfold CheckpointWriter.write
    dsimp only
    split
    · rw [List.length_take, hlength, Nat.min_eq_left (Nat.le_of_lt hlt), Nat.sub_zero, Nat.min_self,
        Nat.zero_add]
    · obtain rfl : n = 0 := by omega
      simp
  have htake : CheckpointWriter.write ⟨(writeExfat p source).out.take n, n, n, 0, key, 1⟩
      (((writeExfat p source).out.drop n).take (writeExfat p source).out.length)
      (writeExfat p source).out.length =
      (⟨(writeExfat p source).out, n, (writeExfat p source).out.length,
        (writeExfat p source).out.length - n, key, 1⟩, true) := by
    have hrest : ((writeExfat p source).out.drop n).take (writeExfat p source).out.length =
        (writeExfat p source).out.drop n := List.take_of_length_le (by rw [List.length_drop]; omega)
    have hall : ((writeExfat p source).out.drop n).take ((writeExfat p source).out.length - n) =
        (writeExfat p source).out.drop n := List.take_of_length_le (by rw [List.length_drop])
    unfold CheckpointWriter.write
    dsimp only
    rw [hrest, if_neg (Nat.lt_irrefl n), List.length_drop, Nat.min_eq_right (Nat.sub_le _ _), hall,
      List.take_append_drop, Nat.zero_add, Nat.add_sub_cancel' (Nat.le_of_lt hlt),
      decide_eq_true (show 1 ≤ (writeExfat p source).out.length - n from Nat.sub_pos_of_lt hlt)]
  rw [exec_cons, wentOn, step, Option.bind_some]
  dsimp only
  rw [List.drop_zero, hskip, if_neg Bool.false_ne_true, Option.bind_some, exec_cons, step,
    Option.bind_some]
  dsimp only
  rw [hdrop, htake, if_pos rfl, Option.bind_some, exec_cons, step, Option.bind_some]
  exact congrArg (Option.bind · _) (if_pos ⟨hlength.symm, hfailed.trans hok⟩)

end System

/-! ## One small image -/

/-- One file of one byte, laid out with a table of the real one's length. -/
def onePlan : Exfat.Res ExfatPlan :=
  planExfat (zeros 5836) (fun _ => true) [⟨['a'], 1⟩] [] none 0

def sevens : Source := fun _ _ n => .ok (List.replicate n 7)

/-- What is used of `onePlan` below. -/
def onePlanFacts (p : ExfatPlan) : Bool :=
  (writeExfat p sevens).failed.isNone && (nodeAt p.tree 1).size == 1 &&
    decide (startOf p 1 + 2 < p.imageBytes) &&
    decide (⟨1, 0, 1⟩ ∈ (writeExfatAfter p sevens (startOf p 1 + 2)).reads)

theorem onePlan_facts : ∃ p, onePlan = .ok p ∧ onePlanFacts p = true := by
  have h : (match onePlan with | .ok p => onePlanFacts p | .error _ => false) = true := by
    decide +kernel
  cases hp : onePlan with
  | error e =>
    rw [hp] at h
    cases h
  | ok p =>
    rw [hp] at h
    exact ⟨p, rfl, h⟩

/-- The build of the small image is interrupted two bytes behind the start of its file, and the file
is asked for again though its one byte is there: its cluster is not. -/
theorem resumed_reads_padded_file : ∃ p s b, onePlan = .ok p ∧
    exec (step p sevens "key" 1) ⟨⟨none, none⟩, none, none⟩
      [.start, .write (startOf p 1 + 2) (startOf p 1 + 2) true,
        .crash ((writeExfat p sevens).out.take (startOf p 1 + 2)), .start] = some s ∧
    s.build = some b ∧ startOf p 1 + (nodeAt p.tree 1).size < b.writer.skip ∧
    (⟨1, 0, 1⟩ : ReadCall) ∈ b.run.reads := by
  obtain ⟨p, hp, hfacts⟩ := onePlan_facts
  unfold onePlanFacts at hfacts
  simp only [Bool.and_eq_true, decide_eq_true_eq, Option.isNone_iff_eq_none, beq_iff_eq] at hfacts
  obtain ⟨⟨⟨hok, hsize⟩, hlen⟩, hread⟩ := hfacts
  obtain ⟨t, -, -, hlaid, hused, himage⟩ := planExfat_laid hp
  have hle : startOf p 1 + 2 ≤ (writeExfat p sevens).out.length := by
    rw [length_writeExfat hlaid hused hok, ← himage]
    exact Nat.le_of_lt hlen
  refine ⟨p, _, _, hp, resumes_anywhere (by omega) hle, rfl, ?_, hread⟩
  rw [hsize]
  exact Nat.lt_succ_self _

/-- The same build, whose checkpoint behind the file's first byte and one more is gone on from and which
then finishes. -/
theorem resumed_build_same_image_small : ∃ p, onePlan = .ok p ∧
    let out := (writeExfat p sevens).out
    let n := startOf p 1 + 2
    let begun : List Act := [.start, .write n n true, .crash (out.take n), .start]
    let ended : List Act := begun ++ [.write n n true, .write out.length out.length true, .finish]
    ∃ s b s', exec (step p sevens "key" 1) ⟨⟨none, none⟩, none, none⟩ begun = some s ∧
      s.build = some b ∧ b.writer.skip = n ∧ (⟨1, 0, 1⟩ : ReadCall) ∈ b.run.reads ∧
      (∀ c ∈ b.run.reads, n < startOf p c.file + (nodeAt p.tree c.file).clusters * p.l.cluster) ∧
      exec (step p sevens "key" 1) ⟨⟨none, none⟩, none, none⟩ ended = some s' ∧
      s'.image = some out ∧ (writeExfat p sevens).failed = none := by
  obtain ⟨p, hp, hfacts⟩ := onePlan_facts
  unfold onePlanFacts at hfacts
  simp only [Bool.and_eq_true, decide_eq_true_eq, Option.isNone_iff_eq_none, beq_iff_eq] at hfacts
  obtain ⟨⟨⟨hok, -⟩, hlen⟩, hread⟩ := hfacts
  obtain ⟨t, -, -, hlaid, hused, himage⟩ := planExfat_laid hp
  have hlt : startOf p 1 + 2 < (writeExfat p sevens).out.length := by
    rw [length_writeExfat hlaid hused hok, ← himage]
    exact hlen
  have hbegun := @resumes_anywhere p sevens "key" _ (by omega) (Nat.le_of_lt hlt)
  have hended := @wentOn_finishes _ _ "key" _ _ hlaid hok _ hlt
  have hall := (exec_append _).2 ⟨_, hbegun, hended⟩
  exact ⟨p, hp, _, _, _, hbegun, rfl, rfl, hread,
    (resumed_build_same_image hp (by decide) hbegun).2 _ rfl (Nat.succ_pos _), hall, rfl,
    ((resumed_build_same_image hp (by decide) hall).1 _ rfl).1⟩

end Ps5Upload.ImageBuild
