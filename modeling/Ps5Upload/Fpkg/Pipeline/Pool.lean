import Mathlib.Algebra.GroupWithZero.Nat
import Mathlib.Data.List.Range
import Mathlib.Tactic.Common
import Ps5Upload.Lib.ListAt
import Ps5Upload.Lib.Runs

/-!
# Worker pools

The part that `pipeline` in `engine/crates/ps5upload-fpkg/src/ffpfsc.rs` and `pipeline_local` in
`kraken_image.rs` share: a bounded channel of numbered items, the workers that take them from it
under a lock, and a bounded channel of results.  `Stages` are the three functions a pipeline is
given, as what each of their calls returns; any of them may fail on any item.

A step of the pool is one worker's: it takes the lock, takes an item (or learns that no more
will come), works on it, hands the result on (or learns that no one listens).  A blocked call
has no step.

* `step_sound` — every result in the pool is the one of its item;
* `step_weight` — every step brings the pool nearer to its end.
-/

namespace Ps5Upload.Pipeline

variable {T U E : Type}

/-! ## The stages -/

/-- What the calls of the three functions return: `produce` by its number, `work` by the item,
`sink` by its number. -/
structure Stages (T U E : Type) where
  produce : Nat → Except E (Option T)
  work : Nat → T → Except E U
  sink : Nat → U → Except E Unit

namespace Stages

variable (f : Stages T U E)

/-- What the workers make of an item, if nothing fails. -/
def result (i : Nat) : Option U :=
  match f.produce i with
  | .ok (some x) => (f.work i x).toOption
  | _ => none

/-- Every stage succeeds on the item. -/
def Passes (i : Nat) : Prop :=
  ∃ x u, f.produce i = .ok (some x) ∧ f.work i x = .ok u ∧ f.sink i u = .ok ()

/-- A stage fails on the item, with this error. -/
def FailsWith (i : Nat) (e : E) : Prop :=
  f.produce i = .error e ∨ ∃ x, f.produce i = .ok (some x) ∧
    (f.work i x = .error e ∨ ∃ u, f.work i x = .ok u ∧ f.sink i u = .error e)

/-- There is an item with this number, or the attempt to produce one. -/
def Reached (i : Nat) : Prop := ∀ j < i, ∃ x, f.produce j = .ok (some x)

/-- The first item a stage fails on, and the error. -/
def FirstFail (k : Nat) (e : E) : Prop := (∀ i < k, f.Passes i) ∧ f.FailsWith k e

/-- There are `n` items and no stage fails on any. -/
def Complete (n : Nat) : Prop := (∀ i < n, f.Passes i) ∧ f.produce n = .ok none

/-- How many items `sink` is called with when the first failure is item `k`'s: those before it,
and `k` itself when it is `sink` that fails. -/
def called (k : Nat) : Nat := if (f.result k).isSome then k + 1 else k

/-- `sink` has been called with the results of the first items, one after the other. -/
def CalledWith (calls : List U) : Prop :=
  calls.map some = (List.range calls.length).map f.result

/-- The result that belongs to an item. -/
def Outcome (i : Nat) (r : Except E U) : Prop :=
  (∃ x, f.produce i = .ok (some x) ∧ r = f.work i x) ∨ ∃ e, f.produce i = .error e ∧ r = .error e

variable {f}

theorem Passes.not_failsWith {i : Nat} (h : f.Passes i) (e : E) : ¬ f.FailsWith i e := by
  obtain ⟨x, u, hp, hw, hs⟩ := h
  rintro (he | ⟨x', hx', he | ⟨u', hu', he⟩⟩)
  · rw [hp] at he
    simp at he
  · rw [hp] at hx'
    obtain rfl : x = x' := by simpa using hx'
    rw [hw] at he
    simp at he
  · rw [hp] at hx'
    obtain rfl : x = x' := by simpa using hx'
    rw [hw] at hu'
    obtain rfl : u = u' := by simpa using hu'
    rw [hs] at he
    simp at he

theorem FirstFail.reached {k : Nat} {e : E} (h : f.FirstFail k e) : f.Reached k := by
  intro j hj
  obtain ⟨x, -, hp, -⟩ := h.1 j hj
  exact ⟨x, hp⟩

/-- Where no item fails, none is found to fail. -/
theorem Complete.not_failsWith {n i : Nat} (h : f.Complete n) (hi : f.Reached i) (e : E) :
    ¬ f.FailsWith i e := by
  rcases Nat.lt_trichotomy i n with hlt | rfl | hlt
  · exact (h.1 i hlt).not_failsWith e
  · rintro (he | ⟨x, hx, -⟩)
    · rw [h.2] at he
      simp at he
    · rw [h.2] at hx
      simp at hx
  · obtain ⟨x, hx⟩ := hi n hlt
    rw [h.2] at hx
    simp at hx

theorem Reached.succ {i : Nat} {x : T} (h : f.Reached i)
    (hx : f.produce i = .ok (some x)) : f.Reached (i + 1) := by
  intro j hj
  rcases Nat.lt_succ_iff_lt_or_eq.1 hj with hlt | rfl
  · exact h j hlt
  · exact ⟨x, hx⟩

/-- An item that was made comes before a call that makes none. -/
theorem Reached.lt {i n : Nat} {x : T} (h : f.Reached i)
    (hx : f.produce i = .ok (some x)) (hn : ∀ y, f.produce n ≠ .ok (some y)) : i < n := by
  by_contra hle
  rcases Nat.lt_or_eq_of_le (not_lt.1 hle) with hlt | rfl
  · obtain ⟨y, hy⟩ := h n hlt
    exact hn y hy
  · exact hn x hx

end Stages

/-! ## The pool -/

inductive Worker (T U E : Type) where
  /-- Before the lock. -/
  | waiting
  /-- In `recv`, with the lock. -/
  | receiving
  | working (i : Nat) (x : T)
  | sending (i : Nat) (r : Except E U)
  | exited

/-- The item a worker has in hand. -/
def Worker.item : Worker T U E → Option Nat
  | .working i _ => some i
  | .sending i _ => some i
  | _ => none

def Worker.isReceiving : Worker T U E → Bool
  | .receiving => true
  | _ => false

def Worker.isExited : Worker T U E → Bool
  | .exited => true
  | _ => false

/-- The workers and the channels to and from them. -/
structure Pool (T U E : Type) where
  inq : List (Nat × T)
  /-- Every sender of items is gone. -/
  inClosed : Bool
  workers : List (Worker T U E)
  outq : List (Nat × Except E U)
  /-- The receiver of results is gone. -/
  outClosed : Bool

/-- `IN_FLIGHT_PER_WORKER`. -/
def inFlightPerWorker : Nat := 8

def depth (threads : Nat) : Nat := threads * inFlightPerWorker

theorem depth_pos {threads : Nat} (ht : 0 < threads) : 0 < depth threads := by
  unfold depth inFlightPerWorker
  omega

namespace Pool

def start (threads : Nat) : Pool T U E :=
  { inq := [], inClosed := false, workers := List.replicate threads .waiting, outq := [],
    outClosed := false }

/-- Every worker, and with it the receiver of items, is gone. -/
def allExited (p : Pool T U E) : Bool := p.workers.all Worker.isExited

variable {p p' : Pool T U E} {d k : Nat}

theorem exited_mem (hlen : 0 < p.workers.length) (hall : p.allExited) :
    Worker.exited ∈ p.workers := by
  obtain ⟨w, ws, hw⟩ := List.exists_cons_of_length_pos hlen
  have hexit := List.all_eq_true.1 hall w (hw ▸ List.mem_cons_self)
  rw [hw]
  cases w with
  | exited => exact List.mem_cons_self
  | _ => simp [Worker.isExited] at hexit

def setWorker (p : Pool T U E) (k : Nat) (w : Worker T U E) : Pool T U E :=
  { p with workers := p.workers.set k w }

/-- The next step of worker `k`; `none` while it is blocked. -/
def step (f : Stages T U E) (d : Nat) (p : Pool T U E) (k : Nat) : Option (Pool T U E) :=
  match p.workers[k]? with
  | some .waiting =>
    if p.workers.any Worker.isReceiving then none else some (p.setWorker k .receiving)
  | some .receiving =>
    match p.inq with
    | (i, x) :: rest => some { p.setWorker k (.working i x) with inq := rest }
    | [] => if p.inClosed then some (p.setWorker k .exited) else none
  | some (.working i x) => some (p.setWorker k (.sending i (f.work i x)))
  | some (.sending i r) =>
    if p.outClosed then some (p.setWorker k .exited)
    else if p.outq.length < d then
      some { p.setWorker k .waiting with outq := p.outq ++ [(i, r)] }
    else none
  | _ => none

/-- **What a step of a worker can be.**  `pre` and `post` are the other workers. -/
theorem step_cases {f : Stages T U E} (h : step f d p k = some p') :
    ∃ pre post w w', p.workers = pre ++ w :: post ∧ p'.workers = pre ++ w' :: post ∧
      p'.inClosed = p.inClosed ∧ p'.outClosed = p.outClosed ∧
      ((w = .waiting ∧ w' = .receiving ∧ p'.inq = p.inq ∧ p'.outq = p.outq) ∨
       (∃ i x, w = .receiving ∧ w' = .working i x ∧ p.inq = (i, x) :: p'.inq ∧
          p'.outq = p.outq) ∨
       (w = .receiving ∧ w' = .exited ∧ p.inq = [] ∧ p.inClosed = true ∧ p'.inq = p.inq ∧
          p'.outq = p.outq) ∨
       (∃ i x, w = .working i x ∧ w' = .sending i (f.work i x) ∧ p'.inq = p.inq ∧
          p'.outq = p.outq) ∨
       (∃ i r, w = .sending i r ∧ w' = .exited ∧ p.outClosed = true ∧ p'.inq = p.inq ∧
          p'.outq = p.outq) ∨
       (∃ i r, w = .sending i r ∧ w' = .waiting ∧ p.outClosed = false ∧ p.outq.length < d ∧
          p'.inq = p.inq ∧ p'.outq = p.outq ++ [(i, r)])) := by
  unfold step at h
  split at h
  · rename_i hw
    obtain ⟨pre, post, hl, rfl⟩ := ListAt.getElem?_split hw
    split at h
    · simp at h
    · obtain rfl := Option.some.inj h
      refine ⟨pre, post, _, _, hl, by simp [setWorker, hl], rfl, rfl, .inl ⟨rfl, rfl, rfl, rfl⟩⟩
  · rename_i hw
    obtain ⟨pre, post, hl, rfl⟩ := ListAt.getElem?_split hw
    split at h
    · rename_i i x rest hin
      obtain rfl := Option.some.inj h
      exact ⟨pre, post, _, _, hl, by simp [setWorker, hl], rfl, rfl,
        .inr (.inl ⟨i, x, rfl, rfl, hin, rfl⟩)⟩
    · rename_i hin
      split at h
      · rename_i hc
        obtain rfl := Option.some.inj h
        exact ⟨pre, post, _, _, hl, by simp [setWorker, hl], rfl, rfl,
          .inr (.inr (.inl ⟨rfl, rfl, hin, hc, rfl, rfl⟩))⟩
      · simp at h
  · rename_i i x hw
    obtain ⟨pre, post, hl, rfl⟩ := ListAt.getElem?_split hw
    obtain rfl := Option.some.inj h
    exact ⟨pre, post, _, _, hl, by simp [setWorker, hl], rfl, rfl,
      .inr (.inr (.inr (.inl ⟨i, x, rfl, rfl, rfl, rfl⟩)))⟩
  · rename_i i r hw
    obtain ⟨pre, post, hl, rfl⟩ := ListAt.getElem?_split hw
    split at h
    · rename_i hc
      obtain rfl := Option.some.inj h
      exact ⟨pre, post, _, _, hl, by simp [setWorker, hl], rfl, rfl,
        .inr (.inr (.inr (.inr (.inl ⟨i, r, rfl, rfl, hc, rfl, rfl⟩))))⟩
    · rename_i hc
      split at h
      · rename_i hlen
        obtain rfl := Option.some.inj h
        exact ⟨pre, post, _, _, hl, by simp [setWorker, hl], rfl, rfl,
          .inr (.inr (.inr (.inr (.inr ⟨i, r, rfl, rfl, by simpa using hc, hlen, rfl, rfl⟩))))⟩
      · simp at h
  · simp at h

/-! ## Items in the pool -/

/-- How often an item is in the pool. -/
def tally (p : Pool T U E) (j : Nat) : Nat :=
  (p.inq.map Prod.fst).count j + (p.workers.filterMap Worker.item).count j +
    (p.outq.map Prod.fst).count j

@[simp] theorem tally_start (threads j : Nat) : (start threads : Pool T U E).tally j = 0 := by
  have hnone : List.filterMap Worker.item (List.replicate threads (Worker.waiting : Worker T U E))
      = [] := by
    simp [List.filterMap_eq_nil_iff, List.mem_replicate, Worker.item]
  simp [start, tally, hnone]

/-- A worker's step moves its item along. -/
theorem step_tally {f : Stages T U E}
    (h : step f d p k = some p') (hout : p.outClosed = false) (j : Nat) :
    p'.tally j = p.tally j := by
  obtain ⟨pre, post, w, w', hl, hl', -, -, hcases⟩ := step_cases h
  rcases hcases with ⟨rfl, rfl, hin, ho⟩ | ⟨i, x, rfl, rfl, hin, ho⟩ |
      ⟨rfl, rfl, -, -, hin, ho⟩ | ⟨i, x, rfl, rfl, hin, ho⟩ | ⟨i, r, -, -, hc, -⟩ |
      ⟨i, r, rfl, rfl, -, -, hin, ho⟩
  · simp [tally, hl, hl', hin, ho, Worker.item, List.filterMap_cons]
  · simp [tally, hl, hl', hin, ho, Worker.item, List.filterMap_cons, List.count_cons]
    omega
  · simp [tally, hl, hl', hin, ho, Worker.item, List.filterMap_cons]
  · simp [tally, hl, hl', hin, ho, Worker.item, List.count_cons]
  · rw [hout] at hc
    simp at hc
  · simp [tally, hl, hl', hin, ho, Worker.item, List.filterMap_cons, List.count_cons]
    omega

/-- Everything in the pool is what the stages say about its item. -/
structure Sound (f : Stages T U E) (p : Pool T U E) : Prop where
  inq : ∀ q ∈ p.inq, f.produce q.1 = .ok (some q.2)
  working : ∀ i x, Worker.working i x ∈ p.workers → f.produce i = .ok (some x)
  sending : ∀ i r, Worker.sending i r ∈ p.workers → f.Outcome i r
  outq : ∀ q ∈ p.outq, f.Outcome q.1 q.2

theorem sound_start (f : Stages T U E) (threads : Nat) : (start threads : Pool T U E).Sound f := by
  constructor <;> simp [start, List.mem_replicate]

theorem step_sound {f : Stages T U E}
    (h : step f d p k = some p') (hs : p.Sound f) : p'.Sound f := by
  obtain ⟨pre, post, w, w', hl, hl', -, -, hcases⟩ := step_cases h
  have hold : ∀ v, v ∈ pre ∨ v ∈ post → v ∈ p.workers := by
    intro v hv
    rw [hl, List.mem_append, List.mem_cons]
    rcases hv with hv | hv
    · exact .inl hv
    · exact .inr (.inr hv)
  have hw : w ∈ p.workers := by
    rw [hl]
    exact List.mem_append_right pre List.mem_cons_self
  -- the other workers keep what they have, so only the new state of this one is to be looked at
  have hworking : (∀ i x, w' = .working i x → f.produce i = .ok (some x)) →
      ∀ i x, Worker.working i x ∈ p'.workers → f.produce i = .ok (some x) := by
    intro hnew i x hmem
    rw [hl', List.mem_append, List.mem_cons] at hmem
    rcases hmem with hmem | hmem | hmem
    · exact hs.working i x (hold _ (.inl hmem))
    · exact hnew i x hmem.symm
    · exact hs.working i x (hold _ (.inr hmem))
  have hsending : (∀ i r, w' = .sending i r → f.Outcome i r) →
      ∀ i r, Worker.sending i r ∈ p'.workers → f.Outcome i r := by
    intro hnew i r hmem
    rw [hl', List.mem_append, List.mem_cons] at hmem
    rcases hmem with hmem | hmem | hmem
    · exact hs.sending i r (hold _ (.inl hmem))
    · exact hnew i r hmem.symm
    · exact hs.sending i r (hold _ (.inr hmem))
  rcases hcases with ⟨-, rfl, hin, ho⟩ | ⟨i, x, -, rfl, hin, ho⟩ |
      ⟨-, rfl, -, -, hin, ho⟩ | ⟨i, x, rfl, rfl, hin, ho⟩ | ⟨i, r, -, rfl, -, hin, ho⟩ |
      ⟨i, r, rfl, rfl, -, -, hin, ho⟩
  · exact ⟨hin ▸ hs.inq, hworking (by simp), hsending (by simp), ho ▸ hs.outq⟩
  · have hq : f.produce i = .ok (some x) := hs.inq (i, x) (hin ▸ List.mem_cons_self)
    refine ⟨?_, hworking ?_, hsending (by simp), ho ▸ hs.outq⟩
    · intro q hq'
      exact hs.inq q (hin ▸ List.mem_cons_of_mem _ hq')
    · rintro i' x' heq
      obtain ⟨rfl, rfl⟩ : i = i' ∧ x = x' := by simpa using heq
      exact hq
  · exact ⟨hin ▸ hs.inq, hworking (by simp), hsending (by simp), ho ▸ hs.outq⟩
  · refine ⟨hin ▸ hs.inq, hworking (by simp), hsending ?_, ho ▸ hs.outq⟩
    rintro i' r' heq
    obtain ⟨rfl, rfl⟩ : i = i' ∧ f.work i x = r' := by simpa using heq
    exact .inl ⟨x, hs.working i x hw, rfl⟩
  · exact ⟨hin ▸ hs.inq, hworking (by simp), hsending (by simp), ho ▸ hs.outq⟩
  · refine ⟨hin ▸ hs.inq, hworking (by simp), hsending (by simp), ?_⟩
    intro q hq
    rw [ho, List.mem_append, List.mem_singleton] at hq
    rcases hq with hq | rfl
    · exact hs.outq q hq
    · exact hs.sending i r hw

/-- While someone listens, a worker leaves only when nothing more can come. -/
def Dutiful (p : Pool T U E) : Prop :=
  p.outClosed = false → Worker.exited ∈ p.workers → p.inClosed = true ∧ p.inq = []

theorem dutiful_start (threads : Nat) : (start threads : Pool T U E).Dutiful := by
  intro _ hmem
  simp [start, List.mem_replicate] at hmem

theorem step_dutiful {f : Stages T U E}
    (h : step f d p k = some p') (hs : p.Dutiful) : p'.Dutiful := by
  obtain ⟨pre, post, w, w', hl, hl', hic, hoc, hcases⟩ := step_cases h
  intro hout hmem
  rw [hoc] at hout
  have hold : Worker.exited ∈ pre ∨ Worker.exited ∈ post → p.inClosed = true ∧ p.inq = [] := by
    intro hv
    refine hs hout ?_
    rw [hl, List.mem_append, List.mem_cons]
    rcases hv with hv | hv
    · exact .inl hv
    · exact .inr (.inr hv)
  rw [hl', List.mem_append, List.mem_cons] at hmem
  rcases hcases with ⟨-, rfl, hin, -⟩ | ⟨i, x, -, rfl, hin, -⟩ |
      ⟨-, rfl, hnil, hc, hin, -⟩ | ⟨i, x, -, rfl, hin, -⟩ | ⟨i, r, -, -, hc, -⟩ |
      ⟨i, r, -, rfl, -, -, hin, -⟩
  · have := hold (by simpa using hmem)
    rw [hic, hin]
    exact this
  · have := (hold (by simpa using hmem)).2
    rw [hin] at this
    simp at this
  · rw [hic, hin]
    exact ⟨hc, hnil⟩
  · have := hold (by simpa using hmem)
    rw [hic, hin]
    exact this
  · rw [hout] at hc
    simp at hc
  · have := hold (by simpa using hmem)
    rw [hic, hin]
    exact this

/-! ## Blocked pools -/

/-- **Where the workers are when none of them has a step.** -/
theorem stuck_cases {f : Stages T U E} (h : ∀ k, step f d p k = none) :
    (∀ w ∈ p.workers, w.isExited ∨ (p.inq = [] ∧ p.inClosed = false) ∨
      (d ≤ p.outq.length ∧ p.outClosed = false)) ∧
    (d ≤ p.outq.length ∧ p.outClosed = false ∨ ∀ w ∈ p.workers, w.item = none) := by
  -- one worker in `recv` tells what the channel of items looks like
  have hrecv : Worker.receiving ∈ p.workers → p.inq = [] ∧ p.inClosed = false := by
    intro hmem
    obtain ⟨k, hk⟩ := List.getElem?_of_mem hmem
    have := h k
    simp only [step, hk] at this
    split at this
    · simp at this
    · rename_i hnil
      split at this
      · simp at this
      · rename_i hc
        exact ⟨hnil, by simpa using hc⟩
  have hsend : ∀ i r, Worker.sending i r ∈ p.workers → d ≤ p.outq.length ∧ p.outClosed = false := by
    intro i r hmem
    obtain ⟨k, hk⟩ := List.getElem?_of_mem hmem
    have := h k
    simp only [step, hk] at this
    split at this
    · simp at this
    · rename_i hc
      split at this
      · simp at this
      · rename_i hlen
        exact ⟨not_lt.1 hlen, by simpa using hc⟩
  have hwork : ∀ i x, Worker.working i x ∉ p.workers := by
    intro i x hmem
    obtain ⟨k, hk⟩ := List.getElem?_of_mem hmem
    have := h k
    simp [step, hk] at this
  refine ⟨?_, ?_⟩
  · intro w hw
    cases w with
    | waiting =>
      obtain ⟨k, hk⟩ := List.getElem?_of_mem hw
      have := h k
      simp only [step, hk] at this
      split at this
      · rename_i hany
        obtain ⟨v, hv, hrv⟩ := List.any_eq_true.1 hany
        cases v with
        | receiving => exact .inr (.inl (hrecv hv))
        | _ => simp [Worker.isReceiving] at hrv
      · simp at this
    | receiving => exact .inr (.inl (hrecv hw))
    | working i x => exact absurd hw (hwork i x)
    | sending i r => exact .inr (.inr (hsend i r hw))
    | exited => exact .inl rfl
  · by_cases hs : ∃ i r, Worker.sending i r ∈ p.workers
    · obtain ⟨i, r, hmem⟩ := hs
      exact .inl (hsend i r hmem)
    · refine .inr ?_
      intro w hw
      cases w with
      | working i x => exact absurd hw (hwork i x)
      | sending i r => exact absurd ⟨i, r, hw⟩ hs
      | _ => rfl

/-! ## Progress -/

end Pool

/-- How far a worker is from its end. -/
def Worker.weight : Worker T U E → Nat
  | .waiting => 2
  | .receiving => 1
  | .working _ _ => 8
  | .sending _ _ => 7
  | .exited => 0

namespace Pool

/-- How far the pool is from its end: an item costs what is still to be done with it. -/
def weight (p : Pool T U E) : Nat :=
  8 * p.inq.length + (p.workers.map Worker.weight).sum + 4 * p.outq.length

theorem step_weight {f : Stages T U E} {d k : Nat} {p p' : Pool T U E}
    (h : step f d p k = some p') : p'.weight < p.weight := by
  obtain ⟨pre, post, w, w', hl, hl', -, -, hcases⟩ := step_cases h
  rcases hcases with ⟨rfl, rfl, hin, ho⟩ | ⟨i, x, rfl, rfl, hin, ho⟩ |
      ⟨rfl, rfl, -, -, hin, ho⟩ | ⟨i, x, rfl, rfl, hin, ho⟩ | ⟨i, r, rfl, rfl, -, hin, ho⟩ |
      ⟨i, r, rfl, rfl, -, -, hin, ho⟩ <;>
    simp [weight, hl, hl', hin, ho, Worker.weight] <;> omega

@[simp] theorem weight_start (threads : Nat) : (start threads : Pool T U E).weight = 2 * threads := by
  simp [weight, start, Worker.weight, Nat.mul_comm]


end Pool
end Ps5Upload.Pipeline
