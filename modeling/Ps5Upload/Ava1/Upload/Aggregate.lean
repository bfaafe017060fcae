import Ps5Upload.Lib.Runs
import Mathlib.Algebra.BigOperators.Group.List.Basic
import Mathlib.Algebra.GroupWithZero.Nat
import Mathlib.Logic.Function.Basic

/-!
# The counters of several jobs

`run_aggregated` of `ps5upload-ava1/src/upload.rs`: each job of a list counts in counters of its own, and a
ticker thread mirrors them, on top of what the earlier jobs have counted, into the caller's counters.  The
steps of the job, of the ticker and of the calling thread come in any order their guards allow.
-/

namespace Ps5Upload.Upload

open Runs

/-- The five counters of a transfer. -/
inductive Counter where
  | bytesResumed | bytes | files | filesFinalized | bytesFinalized
  deriving DecidableEq

/-- In the order of `pairs`. -/
def pairs : List Counter := [.bytesResumed, .bytes, .files, .filesFinalized, .bytesFinalized]

theorem mem_pairs (c : Counter) : c ∈ pairs := by
  cases c <;> decide

/-- Where the calling thread is. -/
inductive Phase where
  | idle
  /-- The job runs, and the ticker. -/
  | running
  /-- The job has returned; the ticker has been told to stop, and finishes its pass. -/
  | joining
  /-- The calling thread mirrors what is left. -/
  | mirroring (left : List Counter)
  deriving DecidableEq

structure Counters where
  /-- The caller's counters. -/
  real : Counter → Nat
  /-- The running job's own. -/
  mine : Counter → Nat
  /-- `Done` -/
  done : Counter → Nat
  /-- What the ticker has read and is about to store. -/
  pending : Option (Counter × Nat)
  phase : Phase
  /-- What each job that has ended has counted. -/
  ended : List (Counter → Nat)

def Counters.fresh : Counters := ⟨fun _ => 0, fun _ => 0, fun _ => 0, none, .idle, []⟩

inductive Tick where
  /-- The next job starts, and its ticker. -/
  | start
  /-- The job's counter goes up to `n`. -/
  | work (c : Counter) (n : Nat)
  | load (c : Counter)
  | store
  /-- The job returns. -/
  | stop
  | join
  | mirror
  /-- What the job has counted is added to `Done`. -/
  | finish

def Counters.step (s : Counters) : Tick → Option Counters
  | .start => if s.phase = .idle then some { s with mine := fun _ => 0, pending := none, phase := .running } else none
  | .work c n =>
    if s.phase = .running ∧ s.mine c ≤ n then some { s with mine := Function.update s.mine c n } else none
  | .load c =>
    if (s.phase = .running ∨ s.phase = .joining) ∧ s.pending = none then
      some { s with pending := some (c, s.done c + s.mine c) }
    else none
  | .store =>
    match s.pending with
    | none => none
    | some (c, n) => some { s with real := Function.update s.real c n, pending := none }
  | .stop => if s.phase = .running then some { s with phase := .joining } else none
  | .join => if s.phase = .joining ∧ s.pending = none then some { s with phase := .mirroring pairs } else none
  | .mirror =>
    match s.phase with
    | .mirroring (c :: left) =>
      some { s with real := Function.update s.real c (s.done c + s.mine c), phase := .mirroring left }
    | _ => none
  | .finish =>
    if s.phase = .mirroring [] then
      some { s with done := fun c => s.done c + s.mine c, mine := fun _ => 0, phase := .idle,
                    ended := s.ended ++ [s.mine] }
    else none

/-- The sum of the ended jobs' counters. -/
def Counters.total (s : Counters) (c : Counter) : Nat := (s.ended.map fun job => job c).sum

/-- The counters to be mirrored still. -/
def Phase.behind : Phase → List Counter
  | .idle => []
  | .mirroring left => left
  | _ => pairs

structure Counters.Inv (s : Counters) : Prop where
  real_le : ∀ c, s.real c ≤ s.done c + s.mine c
  pending : ∀ c n, s.pending = some (c, n) → s.real c ≤ n ∧ n ≤ s.done c + s.mine c
  /-- The ticker is alive only while the job runs, and until it is joined. -/
  alone : s.pending ≠ none → s.phase = .running ∨ s.phase = .joining
  mirrored : ∀ c, c ∉ s.phase.behind → s.real c = s.done c + s.mine c
  idle : s.phase = .idle → ∀ c, s.mine c = 0
  done : ∀ c, s.done c = s.total c

theorem inv_fresh : Counters.fresh.Inv :=
  ⟨fun _ => Nat.zero_le _, fun _ _ h => (by cases h), fun h => absurd rfl h, fun _ _ => rfl, fun _ _ => rfl, fun _ => rfl⟩

variable {s t : Counters}

theorem Counters.Inv.start (hi : s.Inv) (h : s.phase = .idle) :
    ({ s with mine := fun _ => 0, pending := none, phase := .running } : Counters).Inv where
  real_le c := by
    have hle := hi.real_le c
    rwa [hi.idle h c] at hle
  pending c n hp := by cases hp
  alone _ := .inl rfl
  mirrored c hc := absurd (mem_pairs c) hc
  idle hp := by cases hp
  done := hi.done

theorem le_update {f : Counter → Nat} {c : Counter} {n : Nat} (h : f c ≤ n) (d : Counter) :
    f d ≤ Function.update f c n d := by
  by_cases hd : d = c
  · rw [hd, Function.update_self]
    exact h
  · exact Nat.le_of_eq (Function.update_of_ne hd _ _).symm

theorem Counters.Inv.work (hi : s.Inv) (h : s.phase = .running) {c : Counter} {n : Nat} (hn : s.mine c ≤ n) :
    ({ s with mine := Function.update s.mine c n } : Counters).Inv where
  real_le d := Nat.le_trans (hi.real_le d) (Nat.add_le_add_left (le_update hn d) _)
  pending d m hp :=
    ⟨(hi.pending d m hp).1, Nat.le_trans (hi.pending d m hp).2 (Nat.add_le_add_left (le_update hn d) _)⟩
  alone := hi.alone
  mirrored d hd := by
    refine absurd (mem_pairs d) ?_
    rwa [show s.phase = .running from h] at hd
  idle hp := by
    rw [show s.phase = .running from h] at hp
    cases hp
  done := hi.done

theorem Counters.Inv.load (hi : s.Inv) (h : s.phase = .running ∨ s.phase = .joining) (c : Counter) :
    ({ s with pending := some (c, s.done c + s.mine c) } : Counters).Inv where
  real_le := hi.real_le
  pending d n hp := by
    obtain ⟨rfl, rfl⟩ := Prod.mk.inj (Option.some.inj hp)
    exact ⟨hi.real_le c, Nat.le_refl _⟩
  alone _ := h
  mirrored := hi.mirrored
  idle := hi.idle
  done := hi.done

/-- Nothing is mirrored while the ticker is alive. -/
theorem Counters.Inv.behind (hi : s.Inv) (h : s.pending ≠ none) : s.phase.behind = pairs := by
  rcases hi.alone h with h | h <;> rw [h] <;> rfl

theorem Counters.Inv.store (hi : s.Inv) {c : Counter} {n : Nat} (h : s.pending = some (c, n)) :
    ({ s with real := Function.update s.real c n, pending := none } : Counters).Inv where
  real_le d := by
    show Function.update s.real c n d ≤ _
    by_cases hd : d = c
    · rw [hd, Function.update_self]
      exact (hi.pending c n h).2
    · rw [Function.update_of_ne hd]
      exact hi.real_le d
  pending d m hp := by cases hp
  alone hp := absurd rfl hp
  mirrored d hd := by
    have hbehind := hi.behind (by rw [h]; exact Option.some_ne_none _)
    refine absurd (mem_pairs d) ?_
    rwa [hbehind] at hd
  idle := hi.idle
  done := hi.done

theorem Counters.Inv.stop (hi : s.Inv) : ({ s with phase := .joining } : Counters).Inv where
  real_le := hi.real_le
  pending := hi.pending
  alone _ := .inr rfl
  mirrored c hc := absurd (mem_pairs c) hc
  idle hp := by cases hp
  done := hi.done

theorem Counters.Inv.join (hi : s.Inv) (h : s.pending = none) :
    ({ s with phase := .mirroring pairs } : Counters).Inv where
  real_le := hi.real_le
  pending := hi.pending
  alone hp := absurd h hp
  mirrored c hc := absurd (mem_pairs c) hc
  idle hp := by cases hp
  done := hi.done

theorem Counters.Inv.mirror (hi : s.Inv) {c : Counter} {left : List Counter} (h : s.phase = .mirroring (c :: left)) :
    ({ s with real := Function.update s.real c (s.done c + s.mine c), phase := .mirroring left } : Counters).Inv where
  real_le d := by
    show Function.update s.real c _ d ≤ _
    by_cases hd : d = c
    · rw [hd]
      exact Nat.le_of_eq (Function.update_self ..)
    · rw [Function.update_of_ne hd]
      exact hi.real_le d
  pending d n hp := by
    have halone := hi.alone (by rw [show s.pending = some (d, n) from hp]; exact Option.some_ne_none _)
    rw [h] at halone
    rcases halone with halone | halone <;> cases halone
  alone hp := by
    have halone := hi.alone hp
    rw [h] at halone
    rcases halone with halone | halone <;> cases halone
  mirrored d hd := by
    by_cases hdc : d = c
    · subst hdc
      exact Function.update_self ..
    · show Function.update s.real c _ d = _
      rw [Function.update_of_ne hdc]
      refine hi.mirrored d ?_
      rw [h]
      exact fun hmem => (List.mem_cons.1 hmem).elim hdc hd
  idle hp := by cases hp
  done := hi.done

theorem Counters.Inv.finish (hi : s.Inv) (h : s.phase = .mirroring []) :
    ({ s with done := fun c => s.done c + s.mine c, mine := fun _ => 0, phase := .idle,
              ended := s.ended ++ [s.mine] } : Counters).Inv where
  real_le := hi.real_le
  pending := hi.pending
  alone hp := by
    have halone := hi.alone hp
    rw [h] at halone
    rcases halone with halone | halone <;> cases halone
  mirrored c _ := hi.mirrored c (by rw [h]; exact List.not_mem_nil)
  idle _ _ := rfl
  done c := by
    show s.done c + s.mine c = ((s.ended ++ [s.mine]).map fun job => job c).sum
    rw [List.map_append, List.sum_append, hi.done c]
    rfl

/-- A step keeps the invariant, and makes no caller's counter smaller. -/
theorem step_inv (hi : s.Inv) {a : Tick} (h : s.step a = some t) : t.Inv ∧ ∀ c, s.real c ≤ t.real c := by
  cases a with
  | start =>
    rw [Counters.step, Option.ite_none_right_eq_some] at h
    obtain ⟨hp, h⟩ := h
    cases h
    exact ⟨hi.start hp, fun _ => Nat.le_refl _⟩
  | work c n =>
    rw [Counters.step, Option.ite_none_right_eq_some] at h
    obtain ⟨⟨hp, hn⟩, h⟩ := h
    cases h
    exact ⟨hi.work hp hn, fun _ => Nat.le_refl _⟩
  | load c =>
    rw [Counters.step, Option.ite_none_right_eq_some] at h
    obtain ⟨⟨hp, -⟩, h⟩ := h
    cases h
    exact ⟨hi.load hp c, fun _ => Nat.le_refl _⟩
  | store =>
    rw [Counters.step] at h
    split at h
    · cases h
    · rename_i c n hp
      cases h
      exact ⟨hi.store hp, le_update (hi.pending c n hp).1⟩
  | stop =>
    rw [Counters.step, Option.ite_none_right_eq_some] at h
    cases h.2
    exact ⟨hi.stop, fun _ => Nat.le_refl _⟩
  | join =>
    rw [Counters.step, Option.ite_none_right_eq_some] at h
    obtain ⟨⟨-, hp⟩, h⟩ := h
    cases h
    exact ⟨hi.join hp, fun _ => Nat.le_refl _⟩
  | mirror =>
    rw [Counters.step] at h
    split at h
    · rename_i c left hp
      cases h
      exact ⟨hi.mirror hp, le_update (hi.real_le c)⟩
    · cases h
  | finish =>
    rw [Counters.step, Option.ite_none_right_eq_some] at h
    obtain ⟨hp, h⟩ := h
    cases h
    exact ⟨hi.finish hp, fun _ => Nat.le_refl _⟩

theorem exec_inv_fresh {as : List Tick} (h : exec Counters.step .fresh as = some t) : t.Inv :=
  exec_inv (fun _ _ _ hi hs => (step_inv hi hs).1) inv_fresh h

/-- No run makes a caller's counter smaller. -/
theorem exec_real_le (hi : s.Inv) {as : List Tick} (h : exec Counters.step s as = some t) (c : Counter) :
    s.real c ≤ t.real c := by
  induction as generalizing s with
  | nil =>
    rw [exec_nil, Option.some.injEq] at h
    exact h ▸ Nat.le_refl _
  | cons a as ih =>
    obtain ⟨u, hu, h⟩ := (exec_cons_eq_some _).1 h
    obtain ⟨hi', hle⟩ := step_inv hi hu
    exact Nat.le_trans (hle c) (ih hi' h)

/-- Between two jobs the caller's counters are the sums over the jobs that have ended. -/
theorem real_eq_sum (hi : s.Inv) (h : s.phase = .idle) (c : Counter) : s.real c = s.total c := by
  rw [hi.mirrored c (by rw [h]; exact List.not_mem_nil), hi.idle h c, hi.done c]
  rfl

end Ps5Upload.Upload
