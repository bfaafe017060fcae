import Ps5Upload.Fpkg.Pipeline.Threads

/-!
# The pipeline whose caller produces

The model of `pipeline_local` in `engine/crates/ps5upload-fpkg/src/kraken_image.rs`, from the
point where its workers are spawned.  The calling thread makes the items, hands them to the pool,
and takes the results back; it keeps no more than `depth` items in flight, so its own `send` never
waits.  An error of `produce` is returned at once: the results still in flight are dropped.

`Inv` carries the same accounting as for the other pipeline.  `pipelines_keep_order` is the result
about both; `produce_error_drops_results` is a run in which an item before the failing one never
reaches `sink`.
-/

namespace Ps5Upload.Pipeline
namespace Local

variable {T U E : Type}

/-- Where the calling thread is. -/
inductive Main (T E : Type) where
  /-- At the head of the feeding loop. -/
  | feeding
  | sending (x : T)
  | receiving
  | draining
  /-- The inner closure returned, and the sender of items is dropped. -/
  | closing (r : Except E Unit)
  | returned (r : Except E Unit)

structure State (T U E : Type) where
  pool : Pool T U E
  sent : Nat
  finished : Bool
  reorder : Reorder U E
  main : Main T E

def start (threads : Nat) : State T U E :=
  { pool := .start threads, sent := 0, finished := false, reorder := .start, main := .feeding }

inductive Party where
  | main
  | worker (k : Nat)
  deriving DecidableEq, Repr

/-- The inner closure returns. -/
def State.close (s : State T U E) (r : Except E Unit) (q : Reorder U E) : State T U E :=
  { s with main := .closing r, reorder := q, pool.inClosed := true }

/-- The next step of the calling thread; `stopped` is the error of a pool without workers. -/
def stepMain (f : Stages T U E) (stopped : E) (d : Nat) (s : State T U E) :
    Option (State T U E) :=
  match s.main with
  | .feeding =>
    if s.finished = false ∧ s.sent - s.reorder.next < d then
      match f.produce s.sent with
      | .error e => some (s.close (.error e) s.reorder)
      | .ok (some x) => some { s with main := .sending x }
      | .ok none => some { s with finished := true }
    else if s.reorder.next = s.sent then some (s.close (.ok ()) s.reorder)
    else some { s with main := .receiving }
  | .sending x =>
    if s.pool.allExited then some (s.close (.error stopped) s.reorder)
    else if s.pool.inq.length < d then
      some { s with
        pool.inq := s.pool.inq ++ [(s.sent, x)], sent := s.sent + 1, main := .feeding }
    else none
  | .receiving =>
    match s.pool.outq with
    | (i, r) :: rest =>
      some { s with pool.outq := rest, reorder := s.reorder.insert i r, main := .draining }
    | [] => if s.pool.allExited then some (s.close (.error stopped) s.reorder) else none
  | .draining =>
    match s.reorder.drain f with
    | .empty => some { s with main := .feeding }
    | .failed e q => some (s.close (.error e) q)
    | .sunk q => some { s with reorder := q }
  | .closing r => some { s with main := .returned r, pool.outClosed := true }
  | .returned _ => none

def step (f : Stages T U E) (stopped : E) (threads : Nat) (s : State T U E) :
    Party → Option (State T U E)
  | .main => stepMain f stopped (depth threads) s
  | .worker k => (s.pool.step f (depth threads) k).map fun p => { s with pool := p }

/-- Every thread has returned. -/
def State.over (s : State T U E) : Prop := (∃ r, s.main = .returned r) ∧ s.pool.allExited

/-! ## The invariant -/

/-- The value the inner closure has come to. -/
def Main.value : Main T E → Option (Except E Unit)
  | .closing r => some r
  | .returned r => some r
  | _ => none

def Main.hasReturned : Main T E → Bool
  | .returned _ => true
  | _ => false

/-- What the calling thread's state says about the items. -/
def MainOk (f : Stages T U E) (s : State T U E) : Prop :=
  f.Reached s.sent ∧ (s.finished → f.produce s.sent = .ok none) ∧
    ∀ x, s.main = .sending x → f.produce s.sent = .ok (some x)

/-- Before the inner closure returns. -/
structure Live (f : Stages T U E) (threads : Nat) (s : State T U E) : Prop where
  tally : ∀ j, s.pool.tally j + s.reorder.tally j
    = if s.reorder.next ≤ j ∧ j < s.sent then 1 else 0
  next_le : s.reorder.next ≤ s.sent
  reorder : s.reorder.Ok f
  drained : s.main ≠ .draining → s.reorder.pending.get s.reorder.next = none
  waiting : s.main = .receiving → s.reorder.next < s.sent
  room : ∀ x, s.main = .sending x → s.sent - s.reorder.next < depth threads

/-- What the inner closure returned: everything and all is well; everything up to the first
failure and its error; or, after the first calls, the error of the call of `produce` for item
`sent`. -/
def Returned (f : Stages T U E) (sent : Nat) (r : Except E Unit) (calls : List U) : Prop :=
  Threads.Returned f r calls ∨ f.CalledWith calls ∧ (∀ i < calls.length, f.Passes i) ∧
    calls.length ≤ sent ∧ f.Reached sent ∧ ∃ e, r = .error e ∧ f.produce sent = .error e

structure Inv (f : Stages T U E) (threads : Nat) (s : State T U E) : Prop where
  workers : s.pool.workers.length = threads
  sound : s.pool.Sound f
  dutiful : s.pool.Dutiful
  main : MainOk f s
  inClosed : s.pool.inClosed = s.main.value.isSome
  outClosed : s.pool.outClosed = s.main.hasReturned
  live : s.main.value = none → Live f threads s
  ended : ∀ r, s.main.value = some r → Returned f s.sent r s.reorder.calls

theorem inv_start (f : Stages T U E) (threads : Nat) : Inv f threads (start threads) where
  workers := by simp [start, Pool.start]
  sound := Pool.sound_start f threads
  dutiful := Pool.dutiful_start threads
  main := by
    refine ⟨?_, by simp [start], by simp [start]⟩
    intro j hj
    exact absurd hj (Nat.not_lt_zero j)
  inClosed := rfl
  outClosed := rfl
  live := by
    intro _
    refine ⟨?_, Nat.le_refl _, Reorder.ok_start f, fun _ => rfl, by simp [start], by simp [start]⟩
    intro j
    simp [start, Reorder.start, Reorder.tally]
  ended := by simp [start, Main.value]

variable {f : Stages T U E} {threads : Nat} {s : State T U E} {stopped : E}

theorem Inv.outOpen (h : Inv f threads s)
    (hv : s.main.value = none) : s.pool.outClosed = false := by
  rw [h.outClosed]
  cases hm : s.main with
  | returned r => rw [hm] at hv; simp [Main.value] at hv
  | _ => rfl

/-- The workers stay while items may come. -/
theorem Inv.not_allExited (h : Inv f threads s) (ht : 0 < threads) (hv : s.main.value = none) :
    s.pool.allExited = false := by
  cases hall : s.pool.allExited with
  | false => rfl
  | true =>
    have := (h.dutiful (h.outOpen hv) (Pool.exited_mem (h.workers ▸ ht) hall)).1
    rw [h.inClosed, hv] at this
    simp at this

theorem inv_worker {k : Nat} {p : Pool T U E}
    (h : Inv f threads s) (hp : s.pool.step f (depth threads) k = some p) :
    Inv f threads { s with pool := p } := by
  obtain ⟨pre, post, w, w', hl, hl', hic, hoc, -⟩ := Pool.step_cases hp
  refine ⟨?_, Pool.step_sound hp h.sound, Pool.step_dutiful hp h.dutiful, h.main,
    hic.trans h.inClosed, hoc.trans h.outClosed, ?_, h.ended⟩
  · rw [← h.workers, hl]
    simp [hl']
  · intro hv
    have hlive := h.live hv
    refine ⟨?_, hlive.next_le, hlive.reorder, hlive.drained, hlive.waiting, hlive.room⟩
    intro j
    simp only [Pool.step_tally hp (h.outOpen hv) j]
    exact hlive.tally j

/-- The inner closure returns. -/
theorem inv_close (h : Inv f threads s)
    (hv : s.main.value = none) {r : Except E Unit} {q : Reorder U E}
    (hret : Returned f s.sent r q.calls) : Inv f threads (s.close r q) where
  workers := h.workers
  sound := ⟨h.sound.inq, h.sound.working, h.sound.sending, h.sound.outq⟩
  dutiful := by
    intro hopen hmem
    exact ⟨rfl, (h.dutiful hopen hmem).2⟩
  main := ⟨h.main.1, h.main.2.1, by simp [State.close]⟩
  inClosed := rfl
  outClosed := h.outOpen hv
  live := by simp [State.close, Main.value]
  ended := by
    intro r' hr'
    obtain rfl : r = r' := by simpa [State.close, Main.value] using hr'
    exact hret

/-! ## One step -/

theorem inv_stepMain {s' : State T U E} (ht : 0 < threads) (h : Inv f threads s)
    (hs : stepMain f stopped (depth threads) s = some s') : Inv f threads s' := by
  obtain ⟨hreached, hfin, hsend⟩ := h.main
  unfold stepMain at hs
  split at hs
  · rename_i hm
    have hv : s.main.value = none := by rw [hm]; rfl
    have hl := h.live hv
    have hget := hl.drained (by simp [hm])
    split at hs
    · rename_i hroom
      split at hs
      · rename_i e he
        obtain rfl := Option.some.inj hs
        refine inv_close h hv (.inr ⟨hl.reorder.calls, ?_, ?_, hreached, e, rfl, he⟩)
        · rw [hl.reorder.length]
          exact hl.reorder.passes
        · rw [hl.reorder.length]
          exact hl.next_le
      · rename_i x hx
        obtain rfl := Option.some.inj hs
        refine ⟨h.workers, h.sound, h.dutiful, ⟨hreached, hfin, ?_⟩, ?_, ?_, ?_, ?_⟩
        · rintro y hy
          obtain rfl : x = y := by simpa using hy
          exact hx
        · simpa [hm, Main.value] using h.inClosed
        · simpa [hm, Main.hasReturned] using h.outClosed
        · intro _
          exact ⟨hl.tally, hl.next_le, hl.reorder, fun _ => hget, by simp, fun _ _ => hroom.2⟩
        · simp [Main.value]
      · rename_i hx
        obtain rfl := Option.some.inj hs
        refine ⟨h.workers, h.sound, h.dutiful, ⟨hreached, fun _ => hx, hsend⟩, h.inClosed,
          h.outClosed, ?_, h.ended⟩
        intro _
        exact ⟨hl.tally, hl.next_le, hl.reorder, hl.drained, hl.waiting, hl.room⟩
    · rename_i hroom
      split at hs
      · rename_i hnext
        obtain rfl := Option.some.inj hs
        -- nothing is in flight, so the loop stopped because `produce` had no more
        have hdepth := depth_pos ht
        have hf : s.finished = true := by
          by_contra hf
          exact hroom ⟨by simpa using hf, by omega⟩
        refine inv_close h hv (.inl ⟨hl.reorder.calls, .inl ⟨rfl, ?_⟩⟩)
        rw [hl.reorder.length]
        exact ⟨hl.reorder.passes, by rw [hnext]; exact hfin hf⟩
      · rename_i hnext
        obtain rfl := Option.some.inj hs
        refine ⟨h.workers, h.sound, h.dutiful, ⟨hreached, hfin, by simp⟩, ?_, ?_, ?_, ?_⟩
        · simpa [hm, Main.value] using h.inClosed
        · simpa [hm, Main.hasReturned] using h.outClosed
        · intro _
          refine ⟨hl.tally, hl.next_le, hl.reorder, fun _ => hget, fun _ => ?_, by simp⟩
          have := hl.next_le
          simp only
          omega
        · simp [Main.value]
  · rename_i x hm
    have hv : s.main.value = none := by rw [hm]; rfl
    have hl := h.live hv
    split at hs
    · rename_i hall
      rw [h.not_allExited ht hv] at hall
      simp at hall
    · split at hs
      · obtain rfl := Option.some.inj hs
        have hx := hsend x hm
        have hnext := hl.next_le
        refine ⟨h.workers, ⟨?_, h.sound.working, h.sound.sending, h.sound.outq⟩, ?_,
          ⟨hreached.succ hx, ?_, by simp⟩, ?_, ?_, ?_, ?_⟩
        · intro q hq
          rw [List.mem_append, List.mem_singleton] at hq
          rcases hq with hq | rfl
          · exact h.sound.inq q hq
          · exact hx
        · intro hopen hmem
          have := (h.dutiful hopen hmem).1
          rw [h.inClosed, hv] at this
          simp at this
        · intro hf
          rw [hfin hf] at hx
          simp at hx
        · simpa [hm, Main.value] using h.inClosed
        · simpa [hm, Main.hasReturned] using h.outClosed
        · intro _
          refine ⟨?_, by simp only; omega, hl.reorder, fun _ => hl.drained (by simp [hm]), by simp,
            by simp⟩
          intro j
          have hold := hl.tally j
          simp only [Pool.tally, List.map_append, List.map_cons, List.map_nil, List.count_append,
            List.count_singleton, beq_iff_eq] at hold ⊢
          by_cases hj : s.sent = j
          · subst hj
            rw [if_neg (by omega)] at hold
            rw [if_pos rfl, if_pos ⟨hnext, Nat.lt_succ_self _⟩]
            omega
          · have hiff : j < s.sent + 1 ↔ j < s.sent := by omega
            simp only [hiff, if_neg hj]
            omega
        · simp [Main.value]
      · simp at hs
  · rename_i hm
    have hv : s.main.value = none := by rw [hm]; rfl
    have hl := h.live hv
    split at hs
    · rename_i i r rest hout
      obtain rfl := Option.some.inj hs
      have hr : f.Outcome i r := h.sound.outq (i, r) (hout ▸ List.mem_cons_self)
      refine ⟨h.workers, ⟨h.sound.inq, h.sound.working, h.sound.sending, ?_⟩, h.dutiful,
        ⟨hreached, hfin, by simp⟩, ?_, ?_, ?_, ?_⟩
      · intro q hq
        exact h.sound.outq q (hout ▸ List.mem_cons_of_mem _ hq)
      · simpa [hm, Main.value] using h.inClosed
      · simpa [hm, Main.hasReturned] using h.outClosed
      · intro _
        have hzero : s.reorder.tally i = 0 := by
          have := hl.tally i
          simp only [Pool.tally, hout, List.map_cons, List.count_cons_self] at this
          split at this <;> omega
        refine ⟨?_, hl.next_le, hl.reorder.insert hr, by simp, by simp, by simp⟩
        intro j
        refine Eq.trans ?_ (hl.tally j)
        rw [Reorder.tally_insert hzero r j]
        simp only [Pool.tally, hout, List.map_cons, List.count_cons, beq_iff_eq]
        omega
      · simp [Main.value]
    · split at hs
      · rename_i hall
        rw [h.not_allExited ht hv] at hall
        simp at hall
      · simp at hs
  · rename_i hm
    have hv : s.main.value = none := by rw [hm]; rfl
    have hl := h.live hv
    split at hs
    · rename_i hempty
      obtain rfl := Option.some.inj hs
      refine ⟨h.workers, h.sound, h.dutiful, ⟨hreached, hfin, by simp⟩, ?_, ?_, ?_, ?_⟩
      · simpa [hm, Main.value] using h.inClosed
      · simpa [hm, Main.hasReturned] using h.outClosed
      · intro _
        exact ⟨hl.tally, hl.next_le, hl.reorder, fun _ => Reorder.drain_empty hempty, by simp,
          by simp⟩
      · simp [Main.value]
    · rename_i e q hfail
      obtain rfl := Option.some.inj hs
      obtain ⟨hfirst, hlen, hcalls, -⟩ := Reorder.drain_failed hl.reorder hfail
      exact inv_close h hv (.inl ⟨hcalls, .inr ⟨_, e, rfl, hfirst, hlen⟩⟩)
    · rename_i q hsunk
      obtain rfl := Option.some.inj hs
      obtain ⟨hok, hnext, -, htally⟩ := Reorder.drain_sunk hl.reorder hsunk
      have hlt : s.reorder.next < s.sent := by
        by_contra hge
        have h1 := hl.tally s.reorder.next
        have h2 := htally s.reorder.next
        rw [if_neg (by omega)] at h1
        simp only [if_true] at h2
        omega
      refine ⟨h.workers, h.sound, h.dutiful, ⟨hreached, hfin, hsend⟩, h.inClosed, h.outClosed, ?_,
        ?_⟩
      · intro _
        refine ⟨?_, by simp only [hnext]; omega, hok, by simp [hm], by simp [hm], by simp [hm]⟩
        intro j
        have h1 := hl.tally j
        have h2 := htally j
        simp only [hnext]
        by_cases hj : s.reorder.next = j
        · subst hj
          rw [if_pos ⟨Nat.le_refl _, hlt⟩] at h1
          rw [if_neg (by omega)]
          simp only [if_true] at h2
          omega
        · rw [if_neg hj] at h2
          have hiff : s.reorder.next + 1 ≤ j ↔ s.reorder.next ≤ j := by omega
          simp only [hiff]
          omega
      · simp [hm, Main.value]
  · rename_i r hm
    obtain rfl := Option.some.inj hs
    refine ⟨h.workers, ⟨h.sound.inq, h.sound.working, h.sound.sending, h.sound.outq⟩, ?_,
      ⟨hreached, hfin, by simp⟩, ?_, rfl, by simp [Main.value], ?_⟩
    · intro hopen
      simp at hopen
    · simpa [hm, Main.value] using h.inClosed
    · intro r' hr'
      obtain rfl : r = r' := by simpa [Main.value] using hr'
      exact h.ended r (by rw [hm]; rfl)
  · simp at hs

theorem inv_step (ht : 0 < threads)
    (s : State T U E) (a : Party) (s' : State T U E) (h : Inv f threads s)
    (hs : step f stopped threads s a = some s') : Inv f threads s' := by
  cases a with
  | main => exact inv_stepMain ht h hs
  | worker k =>
    simp only [step, Option.map_eq_some_iff] at hs
    obtain ⟨p, hp, rfl⟩ := hs
    exact inv_worker h hp

/-! ## No deadlock -/

/-- **A state in which a thread is still alive has a step.** -/
theorem exists_step (ht : 0 < threads) (h : Inv f threads s) (hf : ¬ s.over) :
    ∃ a, (step f stopped threads s a).isSome := by
  by_contra hno
  have hnone : ∀ a, step f stopped threads s a = none := by
    intro a
    by_contra hne
    exact hno ⟨a, Option.isSome_iff_ne_none.2 hne⟩
  have hpool : ∀ k, s.pool.step f (depth threads) k = none := by
    intro k
    simpa [step] using hnone (.worker k)
  obtain ⟨hworkers, hitems⟩ := Pool.stuck_cases hpool
  have hmain : stepMain f stopped (depth threads) s = none := hnone .main
  have hdepth := depth_pos ht
  unfold stepMain at hmain
  split at hmain
  · split at hmain
    · split at hmain <;> simp at hmain
    · split at hmain <;> simp at hmain
  · -- the channel has room for one more item in flight
    rename_i x hm
    have hl := h.live (by rw [hm]; rfl)
    have hroom := hl.room x hm
    have hlen : s.pool.inq.length ≤ s.sent - s.reorder.next := by
      have := ListAt.length_le_of_count (l := s.pool.inq.map Prod.fst) (a := s.reorder.next)
        (b := s.sent) ?_
      · simpa using this
      · intro j
        have := hl.tally j
        simp only [Pool.tally] at this
        omega
    split at hmain
    · simp at hmain
    · rw [if_pos (by omega)] at hmain
      simp at hmain
  · -- the item waited for is in the channel, and a worker can take it
    rename_i hm
    have hl := h.live (by rw [hm]; rfl)
    split at hmain
    · simp at hmain
    · rename_i hout
      have hin : s.pool.inq ≠ [] := by
        intro hnil
        have htally := hl.tally s.reorder.next
        rw [if_pos ⟨Nat.le_refl _, hl.waiting hm⟩,
          Reorder.tally_eq_zero (hl.drained (by simp [hm]))] at htally
        have hheld : s.pool.workers.filterMap Worker.item = [] := by
          rcases hitems with ⟨hfull, -⟩ | hitems
          · rw [hout] at hfull
            simp only [List.length_nil] at hfull
            omega
          · exact List.filterMap_eq_nil_iff.2 hitems
        simp [Pool.tally, hnil, hout, hheld] at htally
      have hall : s.pool.allExited = true := by
        refine List.all_eq_true.2 ?_
        intro w hw
        rcases hworkers w hw with he | ⟨hnil, -⟩ | ⟨hfull, -⟩
        · exact he
        · exact absurd hnil hin
        · rw [hout] at hfull
          simp only [List.length_nil] at hfull
          omega
      rw [hall] at hmain
      simp at hmain
  · split at hmain <;> simp at hmain
  · simp at hmain
  · rename_i r hm
    refine hf ⟨⟨r, hm⟩, List.all_eq_true.2 ?_⟩
    intro w hw
    rcases hworkers w hw with he | ⟨-, hopen⟩ | ⟨-, hopen⟩
    · exact he
    · rw [h.inClosed, hm] at hopen
      simp [Main.value] at hopen
    · rw [h.outClosed, hm] at hopen
      simp [Main.hasReturned] at hopen

/-! ## Every run ends -/

def Main.weight : Main T E → Nat
  | .feeding => 3
  | .sending _ => 2
  | .receiving => 2
  | .draining => 4
  | .closing _ => 1
  | .returned _ => 0

/-- How far the pipeline is from its end, when item `n` is not there. -/
def State.weight (n : Nat) (s : State T U E) : Nat :=
  s.pool.weight + s.reorder.size + s.main.weight + 10 * (n - s.sent) +
    (!s.finished).toNat

/-- **Every step brings the end nearer**, if some call of `produce` brings no item. -/
theorem step_weight {n : Nat}
    (hn : ∀ x, f.produce n ≠ .ok (some x)) {s' : State T U E} {a : Party} (h : Inv f threads s)
    (hs : step f stopped threads s a = some s') : s'.weight n < s.weight n := by
  cases a with
  | main =>
    simp only [step, stepMain] at hs
    split at hs
    · rename_i hm
      split at hs
      · rename_i hroom
        split at hs
        · obtain rfl := Option.some.inj hs
          simp only [State.weight, State.close, Pool.weight, hm, Main.weight]
          omega
        · obtain rfl := Option.some.inj hs
          simp only [State.weight, hm, Main.weight]
          omega
        · obtain rfl := Option.some.inj hs
          simp only [State.weight, hm, Main.weight, hroom.1, Bool.not_true, Bool.not_false,
            Bool.toNat_true, Bool.toNat_false]
          omega
      · split at hs
        · obtain rfl := Option.some.inj hs
          simp only [State.weight, State.close, Pool.weight, hm, Main.weight]
          omega
        · obtain rfl := Option.some.inj hs
          simp only [State.weight, hm, Main.weight]
          omega
    · rename_i x hm
      have hlt := h.main.1.lt (h.main.2.2 x hm) hn
      split at hs
      · obtain rfl := Option.some.inj hs
        simp only [State.weight, State.close, Pool.weight, hm, Main.weight]
        omega
      · split at hs
        · obtain rfl := Option.some.inj hs
          simp only [State.weight, Pool.weight, hm, Main.weight, List.length_append,
            List.length_singleton]
          omega
        · simp at hs
    · rename_i hm
      split at hs
      · rename_i i r rest hout
        obtain rfl := Option.some.inj hs
        have := s.reorder.size_insert i r
        simp only [State.weight, Pool.weight, hout, hm, Main.weight, List.length_cons]
        omega
      · split at hs
        · obtain rfl := Option.some.inj hs
          simp only [State.weight, State.close, Pool.weight, hm, Main.weight]
          omega
        · simp at hs
    · rename_i hm
      have hl := h.live (by rw [hm]; rfl)
      split at hs
      · obtain rfl := Option.some.inj hs
        simp only [State.weight, hm, Main.weight]
        omega
      · rename_i e q hfail
        obtain rfl := Option.some.inj hs
        have := (Reorder.drain_failed hl.reorder hfail).2.2.2
        simp only [State.weight, State.close, Pool.weight, hm, Main.weight]
        omega
      · rename_i q hsunk
        obtain rfl := Option.some.inj hs
        have := (Reorder.drain_sunk hl.reorder hsunk).2.2.1
        simp only [State.weight, hm, Main.weight]
        omega
    · rename_i r hm
      obtain rfl := Option.some.inj hs
      simp only [State.weight, Pool.weight, hm, Main.weight]
      omega
    · simp at hs
  | worker k =>
    simp only [step, Option.map_eq_some_iff] at hs
    obtain ⟨p, hp, rfl⟩ := hs
    have := Pool.step_weight hp
    simp only [State.weight]
    omega

/-! ## Both pipelines -/

end Local

open Stages

/-- The calls of `sink`, while a pipeline runs and when it has returned: the results of the first
items in order, and of none after the first failure. -/
def Stages.InOrder (f : Stages T U E) (calls : List U) : Prop :=
  f.CalledWith calls ∧ ∀ k e, f.FirstFail k e → calls.length ≤ f.called k

/-- No stage fails on an item. -/
def Stages.NoFailure (f : Stages T U E) : Prop := ∀ i e, f.Reached i → ¬ f.FailsWith i e

theorem le_called (f : Stages T U E) (k : Nat) : k ≤ f.called k := by
  unfold called
  split <;> omega

variable {f : Stages T U E} {n : Nat} {r : Except E Unit} {calls : List U}

theorem length_le_of_passes {k : Nat} {e : E} (h : ∀ i < n, f.Passes i)
    (hk : f.FirstFail k e) : n ≤ f.called k := by
  refine le_trans ?_ (le_called f k)
  by_contra hlt
  exact (h k (not_le.1 hlt)).not_failsWith e hk.2

theorem FirstFail.unique {k k' : Nat} {e e' : E} (h : f.FirstFail k e)
    (h' : f.FirstFail k' e') : k = k' := by
  rcases Nat.lt_trichotomy k k' with hlt | heq | hlt
  · exact absurd h.2 ((h'.1 k hlt).not_failsWith e)
  · exact heq
  · exact absurd h'.2 ((h.1 k' hlt).not_failsWith e')

theorem Threads.Returned.inOrder (h : Threads.Returned f r calls) : f.InOrder calls := by
  refine ⟨h.1, ?_⟩
  intro k e hk
  rcases h.2 with ⟨-, hc⟩ | ⟨k', e', -, hf, hlen⟩
  · exact length_le_of_passes hc.1 hk
  · rw [hlen, FirstFail.unique hk hf]

/-- Success is returned exactly when no stage fails. -/
theorem Threads.Returned.ok_iff (h : Threads.Returned f r calls) : r = .ok () ↔ f.NoFailure := by
  rcases h.2 with ⟨rfl, hc⟩ | ⟨k, e, rfl, hf, -⟩
  · exact ⟨fun _ i e hi => hc.not_failsWith hi e, fun _ => rfl⟩
  · exact ⟨fun he => absurd he (by simp), fun hno => absurd hf.2 (hno k e hf.reached)⟩

theorem Local.Returned.inOrder (h : Local.Returned f n r calls) : f.InOrder calls := by
  rcases h with h | ⟨hc, hp, -⟩
  · exact h.inOrder
  · exact ⟨hc, fun k e hk => length_le_of_passes hp hk⟩

theorem Local.Returned.ok_iff (h : Local.Returned f n r calls) : r = .ok () ↔ f.NoFailure := by
  rcases h with h | ⟨-, -, -, hreached, e, rfl, he⟩
  · exact h.ok_iff
  · exact ⟨fun h' => absurd h' (by simp), fun hno => absurd (.inl he) (hno n e hreached)⟩

/-- **Both pipelines keep the order, under every schedule.**  In every state of every run of
either: `sink` has been called with the results of the first items, in order, each once, and not
past the first item a stage failed on; a value that is returned is `Ok` exactly when no stage fails
on an item; a state in which a thread is alive has a step; and the run is bounded where the items
end.  `pipeline` returns when `sink` has been called with everything up to the first failure
(`Threads.Returned`); so does `pipeline_local`, except that it returns an error of `produce` at
once (`Local.Returned`). -/
theorem pipelines_keep_order (f : Stages T U E) (stopped : E) {threads : Nat} (ht : 0 < threads) :
    (∀ as (s : Threads.State T U E),
      Runs.exec (Threads.step f threads) (Threads.start threads) as = some s →
      f.InOrder s.reorder.calls ∧
      (∀ r, s.consumer = .returned r →
        (r = .ok () ↔ f.NoFailure) ∧ Threads.Returned f r s.reorder.calls) ∧
      (¬ s.finished → ∃ a, (Threads.step f threads s a).isSome) ∧
      ∀ n, (∀ x, f.produce n ≠ .ok (some x)) → as.length ≤ 10 * n + 2 * threads + 7) ∧
    (∀ as (s : Local.State T U E),
      Runs.exec (Local.step f stopped threads) (Local.start threads) as = some s →
      f.InOrder s.reorder.calls ∧
      (∀ r, s.main = .returned r →
        (r = .ok () ↔ f.NoFailure) ∧ Local.Returned f s.sent r s.reorder.calls) ∧
      (¬ s.over → ∃ a, (Local.step f stopped threads s a).isSome) ∧
      ∀ n, (∀ x, f.produce n ≠ .ok (some x)) → as.length ≤ 10 * n + 2 * threads + 4) := by
  constructor
  · intro as s h
    have hinv := Runs.exec_inv (Threads.inv_step ht) (Threads.inv_start f threads) h
    refine ⟨?_, ?_, fun hf => Threads.exists_step ht hinv hf, ?_⟩
    · by_cases hr : ∃ r, s.consumer = .returned r
      · obtain ⟨r, hr⟩ := hr
        exact (hinv.ended r hr).2.inOrder
      · have hl := hinv.live fun r hc => hr ⟨r, hc⟩
        refine ⟨hl.reorder.calls, fun k e hk => ?_⟩
        rw [hl.reorder.length]
        exact length_le_of_passes hl.reorder.passes hk
    · intro r hr
      exact ⟨(hinv.ended r hr).2.ok_iff, (hinv.ended r hr).2⟩
    · intro n hn
      have hlen := Runs.exec_length_le (Threads.inv_step ht)
        (fun s a s' hs hstep => Threads.step_weight hn hs hstep) (Threads.inv_start f threads) h
      simp only [Threads.State.weight, Threads.start, Pool.weight_start, Threads.Producer.weight,
        Reorder.size, Reorder.start, BTreeMap.sum_empty, Threads.Consumer.weight] at hlen
      omega
  · intro as s h
    have hinv := Runs.exec_inv (Local.inv_step ht) (Local.inv_start f threads) h
    refine ⟨?_, ?_, fun hf => Local.exists_step ht hinv hf, ?_⟩
    · cases hv : s.main.value with
      | some r => exact (hinv.ended r hv).inOrder
      | none =>
        have hl := hinv.live hv
        refine ⟨hl.reorder.calls, fun k e hk => ?_⟩
        rw [hl.reorder.length]
        exact length_le_of_passes hl.reorder.passes hk
    · intro r hr
      have hret := hinv.ended r (by rw [hr]; rfl)
      exact ⟨hret.ok_iff, hret⟩
    · intro n hn
      have hlen := Runs.exec_length_le (Local.inv_step ht)
        (fun s a s' hs hstep => Local.step_weight hn hs hstep) (Local.inv_start f threads) h
      simp only [Local.State.weight, Local.start, Pool.weight_start, Local.Main.weight,
        Reorder.size, Reorder.start, BTreeMap.sum_empty, Bool.not_false, Bool.toNat_true] at hlen
      omega

/-! Two calls of `produce`: the first brings an item, which every stage passes, the second fails. -/

def secondFails : Stages Unit Unit Unit where
  produce i := if i = 0 then .ok (some ()) else .error ()
  work _ _ := .ok ()
  sink _ _ := .ok ()

def secondFailsRun : List Threads.Party :=
  [.producer, .producer, .producer, .producer, .worker 0, .worker 0, .worker 0, .worker 0,
    .consumer, .consumer, .consumer, .consumer, .consumer]

theorem pipelines_keep_order_secondFails :
    ∃ s, Runs.exec (Threads.step secondFails 1) (Threads.start 1) secondFailsRun = some s ∧
      s.consumer = .returned (.error ()) ∧ s.reorder.calls = [()] ∧
      (¬ s.finished → ∃ a, (Threads.step secondFails 1 s a).isSome) :=
  ⟨_, rfl, rfl, rfl,
    ((pipelines_keep_order secondFails () Nat.one_pos).1 secondFailsRun _ rfl).2.2.1⟩

/-- The same stages with the calling thread as producer: the error is returned while the first
item's result is still in flight, and `sink` is never called. -/
theorem produce_error_drops_results :
    ∃ s, Runs.exec (Local.step secondFails () 1) (Local.start 1)
        [.main, .main, .main, .main] = some s ∧
      s.main = .returned (.error ()) ∧ s.reorder.calls = [] ∧
      secondFails.Passes 0 ∧ secondFails.FirstFail 1 () ∧ secondFails.called 1 = 1 := by
  have hpass : secondFails.Passes 0 := ⟨(), (), rfl, rfl, rfl⟩
  refine ⟨_, rfl, rfl, rfl, hpass, ⟨?_, .inl rfl⟩, rfl⟩
  intro i hi
  obtain rfl : i = 0 := by omega
  exact hpass

end Ps5Upload.Pipeline
