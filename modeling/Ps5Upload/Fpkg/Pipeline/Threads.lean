import Ps5Upload.Fpkg.Pipeline.Reorder

/-!
# The pipeline with a producer thread

The model of `pipeline` in `engine/crates/ps5upload-fpkg/src/ffpfsc.rs`, from the point where its
threads are spawned: a producer that numbers the items, the pool, and the calling thread, which
puts the results in order and calls `sink`.  A party that returns drops its ends of the channels,
and that is how an error in one of them reaches the others.

`Inv` carries the accounting: while the calling thread listens, every item made and not yet sunk
is in one place (the producer's hand, the pool, the map) and in one only.  From it:

* `inv_step` — the calls of `sink` and the value returned are as they should be (`Returned`).
-/

namespace Ps5Upload.Pipeline
namespace Threads

variable {T U E : Type}

inductive Producer (T E : Type) where
  | producing (i : Nat)
  | sending (i : Nat) (x : T)
  | sendingErr (i : Nat) (e : E)
  /-- The thread returned; the number is how many items it had made. -/
  | done (n : Nat)

inductive Consumer (E : Type) where
  | receiving
  | draining
  | returned (r : Except E Unit)

structure State (T U E : Type) where
  pool : Pool T U E
  producer : Producer T E
  reorder : Reorder U E
  consumer : Consumer E

def start (threads : Nat) : State T U E :=
  { pool := .start threads, producer := .producing 0, reorder := .start, consumer := .receiving }

/-- The party that takes a step. -/
inductive Party where
  | producer
  | worker (k : Nat)
  | consumer
  deriving DecidableEq, Repr

/-- The producer thread returns, and drops its senders. -/
def State.leave (s : State T U E) (n : Nat) : State T U E :=
  { s with producer := .done n, pool.inClosed := true }

/-- The calling thread returns, and drops the receiver of results. -/
def State.finish (s : State T U E) (r : Except E Unit) (q : Reorder U E) : State T U E :=
  { s with consumer := .returned r, reorder := q, pool.outClosed := true }

def Producer.isDone : Producer T E → Bool
  | .done _ => true
  | _ => false

def stepProducer (f : Stages T U E) (d : Nat) (s : State T U E) : Option (State T U E) :=
  match s.producer with
  | .producing i =>
    match f.produce i with
    | .ok (some x) => some { s with producer := .sending i x }
    | .ok none => some (s.leave i)
    | .error e => some { s with producer := .sendingErr i e }
  | .sending i x =>
    if s.pool.allExited then some (s.leave (i + 1))
    else if s.pool.inq.length < d then
      some { s with pool.inq := s.pool.inq ++ [(i, x)], producer := .producing (i + 1) }
    else none
  | .sendingErr i e =>
    if s.pool.outClosed then some (s.leave (i + 1))
    else if s.pool.outq.length < d then
      some ({ s with pool.outq := s.pool.outq ++ [(i, Except.error e)] }.leave (i + 1))
    else none
  | .done _ => none

def stepConsumer (f : Stages T U E) (s : State T U E) : Option (State T U E) :=
  match s.consumer with
  | .receiving =>
    match s.pool.outq with
    | (i, r) :: rest =>
      some { s with pool.outq := rest, reorder := s.reorder.insert i r, consumer := .draining }
    | [] =>
      if s.pool.allExited && s.producer.isDone then some (s.finish (.ok ()) s.reorder) else none
  | .draining =>
    match s.reorder.drain f with
    | .empty => some { s with consumer := .receiving }
    | .failed e q => some (s.finish (.error e) q)
    | .sunk q => some { s with reorder := q }
  | .returned _ => none

def step (f : Stages T U E) (threads : Nat) (s : State T U E) : Party → Option (State T U E)
  | .producer => stepProducer f (depth threads) s
  | .worker k => (s.pool.step f (depth threads) k).map fun p => { s with pool := p }
  | .consumer => stepConsumer f s

/-- Every thread has returned. -/
def State.finished (s : State T U E) : Prop :=
  (∃ r, s.consumer = .returned r) ∧ s.producer.isDone ∧ s.pool.allExited

/-! ## The invariant -/

/-- How many items have been made. -/
def Producer.made : Producer T E → Nat
  | .producing i => i
  | .sending i _ => i + 1
  | .sendingErr i _ => i + 1
  | .done n => n

/-- How often the producer has an item in hand. -/
def Producer.tally : Producer T E → Nat → Nat
  | .sending i _, j => if i = j then 1 else 0
  | .sendingErr i _, j => if i = j then 1 else 0
  | _, _ => 0

/-- What the producer's state says about the items. -/
def ProducerOk (f : Stages T U E) (s : State T U E) : Prop :=
  match s.producer with
  | .producing i => f.Reached i
  | .sending i x => f.Reached i ∧ f.produce i = .ok (some x)
  | .sendingErr i e => f.Reached i ∧ f.produce i = .error e
  | .done n => f.produce n = .ok none ∨ (∃ i e, n = i + 1 ∧ f.produce i = .error e) ∨
      s.pool.outClosed = true

/-- While the calling thread listens. -/
structure Live (f : Stages T U E) (s : State T U E) : Prop where
  open_ : s.pool.outClosed = false
  tally : ∀ j, s.pool.tally j + s.reorder.tally j + s.producer.tally j
    = if s.reorder.next ≤ j ∧ j < s.producer.made then 1 else 0
  next_le : s.reorder.next ≤ s.producer.made
  reorder : s.reorder.Ok f
  drained : s.consumer = .receiving → s.reorder.pending.get s.reorder.next = none

/-- The value a pipeline returned, and the calls of `sink` it made: everything and all is well,
or everything up to the first failure and its error. -/
def Returned (f : Stages T U E) (r : Except E Unit) (calls : List U) : Prop :=
  f.CalledWith calls ∧ ((r = .ok () ∧ f.Complete calls.length) ∨
    ∃ k e, r = .error e ∧ f.FirstFail k e ∧ calls.length = f.called k)

structure Inv (f : Stages T U E) (threads : Nat) (s : State T U E) : Prop where
  workers : s.pool.workers.length = threads
  sound : s.pool.Sound f
  dutiful : s.pool.Dutiful
  producer : ProducerOk f s
  closed : s.pool.inClosed = s.producer.isDone
  live : (∀ r, s.consumer ≠ .returned r) → Live f s
  ended : ∀ r, s.consumer = .returned r → s.pool.outClosed = true ∧ Returned f r s.reorder.calls

theorem inv_start (f : Stages T U E) (threads : Nat) : Inv f threads (start threads) where
  workers := by simp [start, Pool.start]
  sound := Pool.sound_start f threads
  dutiful := Pool.dutiful_start threads
  producer := by
    intro j hj
    exact absurd hj (Nat.not_lt_zero j)
  closed := rfl
  live := by
    intro _
    refine ⟨rfl, ?_, Nat.zero_le _, Reorder.ok_start f, fun _ => rfl⟩
    intro j
    simp [start, Reorder.start, Reorder.tally, Producer.tally, Producer.made]
  ended := by
    intro r hr
    simp [start] at hr

variable {f : Stages T U E} {threads : Nat} {s s' : State T U E} {p : Pool T U E}

/-- While someone listens and items may come, no worker has left. -/
theorem Inv.not_allExited
    (h : Inv f threads s) (ht : 0 < threads) (hopen : s.pool.outClosed = false)
    (hdone : s.producer.isDone = false) : s.pool.allExited = false := by
  cases hall : s.pool.allExited with
  | false => rfl
  | true =>
    have := (h.dutiful hopen (Pool.exited_mem (h.workers ▸ ht) hall)).1
    rw [h.closed, hdone] at this
    simp at this

/-! ## One step of each party -/

theorem inv_worker {k : Nat} (h : Inv f threads s) (hp : s.pool.step f (depth threads) k = some p) :
    Inv f threads { s with pool := p } := by
  obtain ⟨pre, post, w, w', hl, hl', hic, hoc, -⟩ := Pool.step_cases hp
  refine ⟨?_, Pool.step_sound hp h.sound, Pool.step_dutiful hp h.dutiful, ?_, ?_, ?_, ?_⟩
  · rw [← h.workers, hl]
    simp [hl']
  · have := h.producer
    unfold ProducerOk at this ⊢
    simp only [hoc]
    exact this
  · simp only [hic]
    exact h.closed
  · intro hrun
    have hlive := h.live hrun
    refine ⟨hoc.trans hlive.open_, ?_, hlive.next_le, hlive.reorder, hlive.drained⟩
    intro j
    simp only [Pool.step_tally hp hlive.open_ j]
    exact hlive.tally j
  · intro r hr
    simp only [hoc]
    exact h.ended r hr

/-- A producer that leaves because nobody listens any more. -/
theorem inv_leave {n : Nat} (h : Inv f threads s)
    (hout : s.pool.outClosed = true) : Inv f threads (s.leave n) where
  workers := h.workers
  sound := ⟨h.sound.inq, h.sound.working, h.sound.sending, h.sound.outq⟩
  dutiful := by
    intro hopen
    exact absurd (hopen.symm.trans hout) (by simp)
  producer := .inr (.inr hout)
  closed := rfl
  live := by
    intro hrun
    exact absurd ((h.live hrun).open_.symm.trans hout) (by simp)
  ended := h.ended

/-- Making an item: it is in the producer's hand now. -/
theorem Live.made (h : Live f s) {i : Nat}
    (hi : s.producer = .producing i) {pr : Producer T E} (hmade : pr.made = i + 1)
    (htally : ∀ j, pr.tally j = if i = j then 1 else 0) :
    Live f { s with producer := pr } := by
  have hnext := h.next_le
  simp only [hi, Producer.made] at hnext
  refine ⟨h.open_, ?_, ?_, h.reorder, h.drained⟩
  · intro j
    have hold := h.tally j
    simp only [hi, Producer.tally, Producer.made, Nat.add_zero] at hold
    simp only [htally, hmade]
    rw [hold]
    by_cases hj : i = j
    · subst hj
      simp [hnext]
    · have hiff : j < i + 1 ↔ j < i := by omega
      simp [hj, hiff]
  · simp only [hmade]
    omega

/-- Handing an item on: it is in the pool now. -/
theorem Live.handed (h : Live f s)
    {pr : Producer T E} (hopen : p.outClosed = false) (hmade : pr.made = s.producer.made)
    (htally : ∀ j, p.tally j + pr.tally j = s.pool.tally j + s.producer.tally j) :
    Live f { s with pool := p, producer := pr } := by
  refine ⟨hopen, ?_, ?_, h.reorder, h.drained⟩
  · intro j
    have hold := h.tally j
    have hmove := htally j
    simp only [hmade]
    omega
  · simp only [hmade]
    exact h.next_le

theorem inv_stepProducer (ht : 0 < threads)
    (h : Inv f threads s) (hs : stepProducer f (depth threads) s = some s') :
    Inv f threads s' := by
  have hprod := h.producer
  have hclosed := h.closed
  unfold stepProducer at hs
  split at hs
  · rename_i i hi
    simp only [ProducerOk, hi] at hprod
    simp only [hi, Producer.isDone] at hclosed
    split at hs
    · rename_i x hx
      obtain rfl := Option.some.inj hs
      exact ⟨h.workers, h.sound, h.dutiful, ⟨hprod, hx⟩, hclosed,
        fun hrun => (h.live hrun).made hi rfl fun _ => rfl, h.ended⟩
    · rename_i hx
      obtain rfl := Option.some.inj hs
      refine ⟨h.workers, ⟨h.sound.inq, h.sound.working, h.sound.sending, h.sound.outq⟩, ?_,
        .inl hx, rfl, ?_, h.ended⟩
      · intro hopen hmem
        exact ⟨rfl, (h.dutiful hopen hmem).2⟩
      · intro hrun
        refine (h.live hrun).handed (h.live hrun).open_ (by rw [hi]; rfl) ?_
        intro j
        simp [hi, Producer.tally, Pool.tally]
    · rename_i e he
      obtain rfl := Option.some.inj hs
      exact ⟨h.workers, h.sound, h.dutiful, ⟨hprod, he⟩, hclosed,
        fun hrun => (h.live hrun).made hi rfl fun _ => rfl, h.ended⟩
  · rename_i i x hi
    simp only [ProducerOk, hi] at hprod
    simp only [hi, Producer.isDone] at hclosed
    split at hs
    · rename_i hall
      obtain rfl := Option.some.inj hs
      refine inv_leave h ?_
      by_contra hopen
      have := h.not_allExited ht (by simpa using hopen) (by rw [hi]; rfl)
      rw [hall] at this
      simp at this
    · split at hs
      · obtain rfl := Option.some.inj hs
        refine ⟨h.workers, ⟨?_, h.sound.working, h.sound.sending, h.sound.outq⟩, ?_,
          hprod.1.succ hprod.2, hclosed, ?_, h.ended⟩
        · intro q hq
          rw [List.mem_append, List.mem_singleton] at hq
          rcases hq with hq | rfl
          · exact h.sound.inq q hq
          · exact hprod.2
        · intro hopen hmem
          have := (h.dutiful hopen hmem).1
          rw [hclosed] at this
          simp at this
        · intro hrun
          refine (h.live hrun).handed (h.live hrun).open_ (by rw [hi]; rfl) ?_
          intro j
          simp only [hi, Producer.tally, Pool.tally, List.map_append, List.map_cons, List.map_nil,
            List.count_append, List.count_singleton, beq_iff_eq]
          omega
      · simp at hs
  · rename_i i e hi
    simp only [ProducerOk, hi] at hprod
    simp only [hi, Producer.isDone] at hclosed
    split at hs
    · rename_i hout
      obtain rfl := Option.some.inj hs
      exact inv_leave h hout
    · split at hs
      · obtain rfl := Option.some.inj hs
        refine ⟨h.workers, ⟨h.sound.inq, h.sound.working, h.sound.sending, ?_⟩, ?_,
          .inr (.inl ⟨i, e, rfl, hprod.2⟩), rfl, ?_, h.ended⟩
        · intro q hq
          rw [State.leave, List.mem_append, List.mem_singleton] at hq
          rcases hq with hq | rfl
          · exact h.sound.outq q hq
          · exact .inr ⟨e, hprod.2, rfl⟩
        · intro hopen hmem
          exact ⟨rfl, (h.dutiful hopen hmem).2⟩
        · intro hrun
          refine (h.live hrun).handed (h.live hrun).open_ (by rw [hi]; rfl) ?_
          intro j
          simp only [hi, Producer.tally, Pool.tally, List.map_append, List.map_cons, List.map_nil,
            List.count_append, List.count_singleton, beq_iff_eq]
          omega
      · simp at hs
  · simp at hs

/-- Nothing is left in a pool whose workers have left in order. -/
theorem tally_eq_zero (hin : p.inq = []) (hout : p.outq = [])
    (hall : p.allExited) (j : Nat) : p.tally j = 0 := by
  have hnone : p.workers.filterMap Worker.item = [] := by
    refine List.filterMap_eq_nil_iff.2 ?_
    intro w hw
    have := List.all_eq_true.1 hall w hw
    cases w with
    | exited => rfl
    | _ => simp [Worker.isExited] at this
  simp [Pool.tally, hin, hout, hnone]

/-- The calling thread runs out of results only when every item has been sunk. -/
theorem Inv.complete (ht : 0 < threads)
    (h : Inv f threads s) (hl : Live f s) (hrecv : s.consumer = .receiving)
    (hout : s.pool.outq = []) (hall : s.pool.allExited) (hdone : s.producer.isDone) :
    f.Complete s.reorder.calls.length := by
  have hin := (h.dutiful hl.open_ (Pool.exited_mem (h.workers ▸ ht) hall)).2
  have hprod := h.producer
  cases hp : s.producer with
  | done n =>
    -- the item whose turn it is is nowhere, so it was never made
    have hle : n ≤ s.reorder.next := by
      by_contra hlt
      have htally := hl.tally s.reorder.next
      rw [tally_eq_zero hin hout hall, hp] at htally
      simp only [Producer.tally, Producer.made, Nat.le_refl, true_and, Nat.zero_add,
        Nat.add_zero] at htally
      rw [if_pos (not_le.1 hlt)] at htally
      have hzero := Reorder.tally_eq_zero (hl.drained hrecv)
      omega
    have hge := hl.next_le
    simp only [hp, Producer.made] at hge
    obtain rfl : n = s.reorder.next := by omega
    rw [hl.reorder.length]
    refine ⟨hl.reorder.passes, ?_⟩
    simp only [ProducerOk, hp] at hprod
    rcases hprod with hnone | ⟨i, e, hi, he⟩ | hc
    · exact hnone
    · exact absurd (.inl he) ((hl.reorder.passes i (by omega)).not_failsWith e)
    · rw [hl.open_] at hc
      simp at hc
  | _ => rw [hp] at hdone; simp [Producer.isDone] at hdone

theorem producerOk_finish (h : ProducerOk f s)
    (r : Except E Unit) (q : Reorder U E) : ProducerOk f (s.finish r q) := by
  unfold ProducerOk State.finish at *
  simp only
  split at h
  · exact h
  · exact h
  · exact h
  · exact .inr (.inr trivial)

theorem inv_stepConsumer (ht : 0 < threads)
    (h : Inv f threads s) (hs : stepConsumer f s = some s') : Inv f threads s' := by
  unfold stepConsumer at hs
  split at hs
  · rename_i hrecv
    have hl := h.live (by simp [hrecv])
    split at hs
    · rename_i i r rest hout
      obtain rfl := Option.some.inj hs
      have hr : f.Outcome i r := h.sound.outq (i, r) (hout ▸ List.mem_cons_self)
      refine ⟨h.workers, ⟨h.sound.inq, h.sound.working, h.sound.sending, ?_⟩, h.dutiful,
        h.producer, h.closed, ?_, ?_⟩
      · intro q hq
        exact h.sound.outq q (hout ▸ List.mem_cons_of_mem _ hq)
      · intro _
        have hzero : s.reorder.tally i = 0 := by
          have := hl.tally i
          simp only [Pool.tally, hout, List.map_cons, List.count_cons_self] at this
          split at this <;> omega
        refine ⟨hl.open_, ?_, hl.next_le, hl.reorder.insert hr, by simp⟩
        intro j
        refine Eq.trans ?_ (hl.tally j)
        rw [Reorder.tally_insert hzero r j]
        simp only [Pool.tally, hout, List.map_cons, List.count_cons, beq_iff_eq]
        omega
      · intro r' hr'
        simp at hr'
    · rename_i hout
      split at hs
      · rename_i hend
        obtain rfl := Option.some.inj hs
        rw [Bool.and_eq_true] at hend
        have hcomplete := h.complete ht hl hrecv hout hend.1 hend.2
        refine ⟨h.workers, ⟨h.sound.inq, h.sound.working, h.sound.sending, h.sound.outq⟩, ?_, ?_,
          h.closed, ?_, ?_⟩
        · intro hopen
          simp [State.finish] at hopen
        · exact producerOk_finish h.producer _ _
        · intro hrun
          exact absurd rfl (hrun (.ok ()))
        · intro r hr
          obtain rfl : Except.ok () = r := by simpa [State.finish] using hr
          exact ⟨rfl, hl.reorder.calls, .inl ⟨rfl, hcomplete⟩⟩
      · simp at hs
  · rename_i hdrain
    have hl := h.live (by simp [hdrain])
    split at hs
    · rename_i hempty
      obtain rfl := Option.some.inj hs
      refine ⟨h.workers, h.sound, h.dutiful, h.producer, h.closed, ?_, ?_⟩
      · intro _
        exact ⟨hl.open_, hl.tally, hl.next_le, hl.reorder, fun _ => Reorder.drain_empty hempty⟩
      · intro r hr
        simp at hr
    · rename_i e q hfail
      obtain rfl := Option.some.inj hs
      obtain ⟨hfirst, hlen, hcalls, -⟩ := Reorder.drain_failed hl.reorder hfail
      refine ⟨h.workers, ⟨h.sound.inq, h.sound.working, h.sound.sending, h.sound.outq⟩, ?_, ?_,
        h.closed, ?_, ?_⟩
      · intro hopen
        simp [State.finish] at hopen
      · exact producerOk_finish h.producer _ _
      · intro hrun
        exact absurd rfl (hrun (.error e))
      · intro r hr
        obtain rfl : Except.error e = r := by simpa [State.finish] using hr
        exact ⟨rfl, hcalls, .inr ⟨_, e, rfl, hfirst, hlen⟩⟩
    · rename_i q hsunk
      obtain rfl := Option.some.inj hs
      obtain ⟨hok, hnext, -, htally⟩ := Reorder.drain_sunk hl.reorder hsunk
      have hlt : s.reorder.next < s.producer.made := by
        by_contra hge
        have h1 := hl.tally s.reorder.next
        have h2 := htally s.reorder.next
        rw [if_neg (by omega)] at h1
        simp only [if_true] at h2
        omega
      refine ⟨h.workers, h.sound, h.dutiful, h.producer, h.closed, ?_, ?_⟩
      · intro _
        refine ⟨hl.open_, ?_, by simp only [hnext]; omega, hok, ?_⟩
        · intro j
          have h1 := hl.tally j
          have h2 := htally j
          simp only [hnext]
          by_cases hj : s.reorder.next = j
          · subst hj
            rw [if_pos ⟨Nat.le_refl _, hlt⟩] at h1
            rw [if_neg (by omega)]
            simp only [if_true] at h2
            omega
          · rw [if_neg hj] at h2
            have hiff : s.reorder.next + 1 ≤ j ↔ s.reorder.next ≤ j := by omega
            simp only [hiff]
            omega
        · intro hc
          simp only [hdrain] at hc
          simp at hc
      · intro r hr
        simp only [hdrain] at hr
        simp at hr
  · simp at hs

theorem inv_step (ht : 0 < threads) (s : State T U E)
    (a : Party) (s' : State T U E) (h : Inv f threads s) (hs : step f threads s a = some s') :
    Inv f threads s' := by
  cases a with
  | producer => exact inv_stepProducer ht h hs
  | worker k =>
    simp only [step, Option.map_eq_some_iff] at hs
    obtain ⟨p, hp, rfl⟩ := hs
    exact inv_worker h hp
  | consumer => exact inv_stepConsumer ht h hs

/-! ## No deadlock -/

/-- **A state in which a thread is still alive has a step.** -/
theorem exists_step (ht : 0 < threads)
    (h : Inv f threads s) (hf : ¬ s.finished) : ∃ a, (step f threads s a).isSome := by
  by_contra hno
  have hnone : ∀ a, step f threads s a = none := by
    intro a
    by_contra hne
    exact hno ⟨a, Option.isSome_iff_ne_none.2 hne⟩
  have hdepth := depth_pos ht
  have hpool : ∀ k, s.pool.step f (depth threads) k = none := by
    intro k
    simpa [step] using hnone (.worker k)
  obtain ⟨hworkers, -⟩ := Pool.stuck_cases hpool
  have hprod : stepProducer f (depth threads) s = none := hnone .producer
  have hcons : stepConsumer f s = none := hnone .consumer
  -- workers that neither wait for items nor for room have left
  have hleft : s.pool.inq ≠ [] ∨ s.pool.inClosed = true →
      s.pool.outq = [] ∨ s.pool.outClosed = true → s.pool.allExited = true := by
    intro hin hout
    refine List.all_eq_true.2 ?_
    intro w hw
    rcases hworkers w hw with he | ⟨hnil, hopen⟩ | ⟨hlen, hopen⟩
    · exact he
    · rcases hin with hin | hin
      · exact absurd hnil hin
      · rw [hin] at hopen
        simp at hopen
    · rcases hout with hout | hout
      · rw [hout] at hlen
        simp only [List.length_nil] at hlen
        omega
      · rw [hout] at hopen
        simp at hopen
  -- so the producer has returned once results are no longer waited for
  have hdone : s.pool.outq = [] ∨ s.pool.outClosed = true → s.producer.isDone = true := by
    intro hout
    unfold stepProducer at hprod
    split at hprod
    · split at hprod <;> simp at hprod
    · split at hprod
      · simp at hprod
      · rename_i hall
        split at hprod
        · simp at hprod
        · rename_i hlen
          refine absurd (hleft (.inl ?_) hout) hall
          intro hnil
          rw [hnil] at hlen
          exact hlen hdepth
    · split at hprod
      · simp at hprod
      · rename_i hopen
        split at hprod
        · simp at hprod
        · rename_i hlen
          rcases hout with hout | hout
          · rw [hout] at hlen
            exact absurd hdepth hlen
          · exact absurd hout hopen
    · rename_i n hn
      rw [hn]
      rfl
  have hexit : s.pool.outq = [] ∨ s.pool.outClosed = true → s.pool.allExited = true := by
    intro hout
    exact hleft (.inr (by rw [h.closed]; exact hdone hout)) hout
  unfold stepConsumer at hcons
  split at hcons
  · split at hcons
    · simp at hcons
    · rename_i hout
      rw [hexit (.inl hout), hdone (.inl hout)] at hcons
      simp at hcons
  · split at hcons <;> simp at hcons
  · rename_i r hr
    have hout := (h.ended r hr).1
    exact hf ⟨⟨r, hr⟩, hdone (.inr hout), hexit (.inr hout)⟩

/-! ## Every run ends -/

/-- How far the producer is from its end, when item `n` is not there. -/
def Producer.weight (n : Nat) : Producer T E → Nat
  | .producing i => 10 * (n - i) + 6
  | .sending i _ => 10 * (n - i) + 5
  | .sendingErr _ _ => 5
  | .done _ => 0

def Consumer.weight : Consumer E → Nat
  | .receiving => 1
  | .draining => 2
  | .returned _ => 0

def State.weight (n : Nat) (s : State T U E) : Nat :=
  s.pool.weight + s.producer.weight n + s.reorder.size + s.consumer.weight

/-- **Every step brings the end nearer**, if some call of `produce` brings no item. -/
theorem step_weight {n : Nat} (hn : ∀ x, f.produce n ≠ .ok (some x)) {a : Party} (h : Inv f threads s) (hs : step f threads s a = some s') :
    s'.weight n < s.weight n := by
  cases a with
  | producer =>
    have hprod := h.producer
    simp only [step, stepProducer] at hs
    split at hs
    · rename_i i hi
      split at hs
      · obtain rfl := Option.some.inj hs
        simp only [State.weight, hi, Producer.weight]
        omega
      · obtain rfl := Option.some.inj hs
        simp only [State.weight, State.leave, Pool.weight, hi, Producer.weight]
        omega
      · obtain rfl := Option.some.inj hs
        simp only [State.weight, hi, Producer.weight]
        omega
    · rename_i i x hi
      simp only [ProducerOk, hi] at hprod
      have hlt := hprod.1.lt hprod.2 hn
      split at hs
      · obtain rfl := Option.some.inj hs
        simp only [State.weight, State.leave, Pool.weight, hi, Producer.weight]
        omega
      · split at hs
        · obtain rfl := Option.some.inj hs
          simp only [State.weight, Pool.weight, hi, Producer.weight, List.length_append,
            List.length_singleton]
          omega
        · simp at hs
    · rename_i i e hi
      split at hs
      · obtain rfl := Option.some.inj hs
        simp only [State.weight, State.leave, Pool.weight, hi, Producer.weight]
        omega
      · split at hs
        · obtain rfl := Option.some.inj hs
          simp only [State.weight, State.leave, Pool.weight, hi, Producer.weight,
            List.length_append, List.length_singleton]
          omega
        · simp at hs
    · simp at hs
  | worker k =>
    simp only [step, Option.map_eq_some_iff] at hs
    obtain ⟨p, hp, rfl⟩ := hs
    have := Pool.step_weight hp
    simp only [State.weight]
    omega
  | consumer =>
    simp only [step, stepConsumer] at hs
    split at hs
    · rename_i hrecv
      split at hs
      · rename_i i r rest hout
        obtain rfl := Option.some.inj hs
        have := s.reorder.size_insert i r
        simp only [State.weight, Pool.weight, hout, hrecv, Consumer.weight, List.length_cons]
        omega
      · split at hs
        · obtain rfl := Option.some.inj hs
          simp only [State.weight, State.finish, Pool.weight, hrecv, Consumer.weight]
          omega
        · simp at hs
    · rename_i hdrain
      have hl := h.live (by simp [hdrain])
      split at hs
      · obtain rfl := Option.some.inj hs
        simp only [State.weight, hdrain, Consumer.weight]
        omega
      · rename_i e q hfail
        obtain rfl := Option.some.inj hs
        have := (Reorder.drain_failed hl.reorder hfail).2.2.2
        simp only [State.weight, State.finish, Pool.weight, hdrain, Consumer.weight]
        omega
      · rename_i q hsunk
        obtain rfl := Option.some.inj hs
        have := (Reorder.drain_sunk hl.reorder hsunk).2.2.1
        simp only [State.weight, hdrain, Consumer.weight]
        omega
    · simp at hs

end Threads
end Ps5Upload.Pipeline
