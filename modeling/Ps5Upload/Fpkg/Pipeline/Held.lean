import Ps5Upload.Fpkg.Pipeline.Local

/-!
# How much the pipelines hold

The items that have been made and have not gone to `sink`: in the producer's hand, in a channel, with a
worker, or in the map of the results that wait for their turn.

* `Local.held_le` — `pipeline_local` makes an item only while fewer than `depth` are in flight, so it
  never holds more;
* `Threads.held_le` — `pipeline` with one worker gets its results in order, so next to none wait;
* `Threads.piled_succ` — with a second worker the producer and that worker run on while the first item is
  worked on, and the map takes all of their results;
* `held_bounded_iff` — what this comes to for a number of workers.
-/

namespace Ps5Upload.Pipeline

variable {T U E : Type}

/-! ## What is held -/

/-- How many items are in the pool. -/
def Pool.held (p : Pool T U E) : Nat :=
  p.inq.length + p.workers.countP (fun w => w.item.isSome) + p.outq.length

theorem Pool.step_held {f : Stages T U E} {d k : Nat} {p p' : Pool T U E}
    (h : Pool.step f d p k = some p') : p'.held ≤ p.held := by
  obtain ⟨pre, post, w, w', hl, hl', -, -, hcases⟩ := Pool.step_cases h
  rcases hcases with ⟨rfl, rfl, hin, ho⟩ | ⟨i, x, rfl, rfl, hin, ho⟩ |
      ⟨rfl, rfl, -, -, hin, ho⟩ | ⟨i, x, rfl, rfl, hin, ho⟩ | ⟨i, r, rfl, rfl, -, hin, ho⟩ |
      ⟨i, r, rfl, rfl, -, -, hin, ho⟩ <;>
    simp [Pool.held, hl, hl', hin, ho, Worker.item] <;> omega

theorem Pool.held_start (threads : Nat) : (Pool.start threads : Pool T U E).held = 0 := by
  simp [Pool.held, Pool.start, List.countP_replicate, Worker.item]

theorem Pool.held_push (p : Pool T U E) (q : Nat × T) :
    Pool.held { p with inq := p.inq ++ [q] } = p.held + 1 := by
  simp only [Pool.held, List.length_append, List.length_singleton]
  omega

theorem Pool.held_pop {p : Pool T U E} {q : Nat × Except E U} {rest : List (Nat × Except E U)}
    (h : p.outq = q :: rest) : Pool.held { p with outq := rest } + 1 = p.held := by
  simp only [Pool.held, h, List.length_cons]
  omega

/-- The item in the producer's hand. -/
def Threads.Producer.hand : Threads.Producer T E → Nat
  | .sending _ _ => 1
  | _ => 0

def Threads.State.held (s : Threads.State T U E) : Nat :=
  s.pool.held + s.reorder.size + s.producer.hand

/-- The item in the calling thread's hand. -/
def Local.Main.hand : Local.Main T E → Nat
  | .sending _ => 1
  | _ => 0

def Local.State.held (s : Local.State T U E) : Nat :=
  s.pool.held + s.reorder.size + s.main.hand

/-- With that many workers, there is a bound for all items, stages and schedules. -/
def Threads.Bounded (threads : Nat) : Prop :=
  ∃ bound, ∀ (T U E : Type) (f : Stages T U E) (as : List Threads.Party) (s : Threads.State T U E),
    Runs.exec (Threads.step f threads) (Threads.start threads) as = some s → s.held ≤ bound

def Local.Bounded (threads : Nat) : Prop :=
  ∃ bound, ∀ (T U E : Type) (f : Stages T U E) (stopped : E) (as : List Local.Party)
    (s : Local.State T U E),
    Runs.exec (Local.step f stopped threads) (Local.start threads) as = some s → s.held ≤ bound

/-! ## The pipeline whose caller produces -/

namespace Local

/-- No more than `depth` items are held; until the inner closure returns they are the ones in flight. -/
structure Throttled (threads : Nat) (s : State T U E) : Prop where
  flight : s.main.value = none → s.pool.held + s.reorder.size ≤ s.sent - s.reorder.next
  all : s.held ≤ depth threads

theorem throttled_start (threads : Nat) : Throttled threads (start threads : State T U E) := by
  have hzero : (start threads : State T U E).held = 0 := by
    rw [State.held, start, Pool.held_start]
    rfl
  refine ⟨fun _ => ?_, by rw [hzero]; exact Nat.zero_le _⟩
  rw [start, Pool.held_start]
  exact Nat.le_refl _

theorem throttled_step {f : Stages T U E} {stopped : E} {threads : Nat} (s : State T U E) (a : Party)
    (s' : State T U E) (h : Inv f threads s ∧ Throttled threads s)
    (hs : step f stopped threads s a = some s') : Throttled threads s' := by
  obtain ⟨hinv, hflight, hall⟩ := h
  cases a with
  | worker k =>
    simp only [step, Option.map_eq_some_iff] at hs
    obtain ⟨p, hp, rfl⟩ := hs
    have hle := Pool.step_held hp
    refine ⟨fun hv => ?_, ?_⟩
    · have := hflight hv
      dsimp only at this ⊢
      omega
    · rw [State.held] at hall ⊢
      dsimp only at hall ⊢
      omega
  | main =>
    rw [step, stepMain] at hs
    rw [State.held] at hall
    split at hs
    · rename_i hm
      have hv := hflight (by rw [hm]; rfl)
      have hhand : s.main.hand = 0 := by rw [hm]; rfl
      rw [hhand] at hall
      split at hs
      · rename_i hroom
        split at hs <;> obtain rfl := Option.some.inj hs
        · exact ⟨fun hv => absurd hv (by simp [State.close, Main.value]), hall⟩
        · refine ⟨fun _ => hv, ?_⟩
          show s.pool.held + s.reorder.size + 1 ≤ _
          omega
        · refine ⟨fun _ => hv, ?_⟩
          show s.pool.held + s.reorder.size + s.main.hand ≤ _
          rw [hhand]
          exact hall
      · split at hs <;> obtain rfl := Option.some.inj hs
        · exact ⟨fun hv => absurd hv (by simp [State.close, Main.value]), hall⟩
        · exact ⟨fun _ => hv, hall⟩
    · rename_i x hm
      have hv := hflight (by rw [hm]; rfl)
      have hhand : s.main.hand = 1 := by rw [hm]; rfl
      rw [hhand] at hall
      split at hs
      · obtain rfl := Option.some.inj hs
        refine ⟨fun hv => absurd hv (by simp [State.close, Main.value]), ?_⟩
        exact Nat.le_trans (Nat.le_of_lt (Nat.lt_succ_self _)) hall
      · split at hs
        · obtain rfl := Option.some.inj hs
          have hnext := (hinv.live (by rw [hm]; rfl)).next_le
          refine ⟨fun _ => ?_, ?_⟩
          · dsimp only
            rw [Pool.held_push]
            omega
          · show Pool.held _ + s.reorder.size + 0 ≤ _
            rw [Pool.held_push]
            omega
        · simp at hs
    · rename_i hm
      have hv := hflight (by rw [hm]; rfl)
      have hhand : s.main.hand = 0 := by rw [hm]; rfl
      rw [hhand] at hall
      split at hs
      · rename_i i r rest hout
        obtain rfl := Option.some.inj hs
        have hsize := Reorder.size_insert s.reorder i r
        have hheld : Pool.held { s.pool with outq := rest } + 1 = s.pool.held := Pool.held_pop hout
        refine ⟨fun _ => ?_, ?_⟩
        · have hle : Pool.held { s.pool with outq := rest } + (s.reorder.insert i r).size ≤
              s.sent - s.reorder.next := by
            omega
          exact hle
        · have hle : Pool.held { s.pool with outq := rest } + (s.reorder.insert i r).size ≤
              depth threads := by
            omega
          exact hle
      · split at hs
        · obtain rfl := Option.some.inj hs
          exact ⟨fun hv => absurd hv (by simp [State.close, Main.value]), hall⟩
        · simp at hs
    · rename_i hm
      have hlive : s.main.value = none := by rw [hm]; rfl
      have hv := hflight hlive
      have hok := (hinv.live hlive).reorder
      have hhand : s.main.hand = 0 := by rw [hm]; rfl
      rw [hhand] at hall
      split at hs
      · obtain rfl := Option.some.inj hs
        exact ⟨fun _ => hv, hall⟩
      · rename_i e q hfail
        obtain rfl := Option.some.inj hs
        obtain ⟨-, -, -, hsize⟩ := Reorder.drain_failed hok hfail
        refine ⟨fun hv => absurd hv (by simp [State.close, Main.value]), ?_⟩
        show s.pool.held + q.size + 0 ≤ _
        omega
      · rename_i q hsunk
        obtain rfl := Option.some.inj hs
        obtain ⟨-, hnext, hsize, -⟩ := Reorder.drain_sunk hok hsunk
        refine ⟨fun _ => ?_, ?_⟩
        · dsimp only
          omega
        · show s.pool.held + q.size + s.main.hand ≤ _
          omega
    · rename_i r hm
      obtain rfl := Option.some.inj hs
      rw [hm] at hall
      exact ⟨fun hv => absurd hv (by simp [Main.value]), hall⟩
    · simp at hs

/-- **`pipeline_local` never holds more than `depth` items.** -/
theorem held_le {f : Stages T U E} {stopped : E} {threads : Nat} (ht : 0 < threads) {as : List Party}
    {s : State T U E} (h : Runs.exec (step f stopped threads) (start threads) as = some s) :
    s.held ≤ depth threads := by
  have hstep : ∀ (s : State T U E) a s', Inv f threads s ∧ Throttled threads s →
      step f stopped threads s a = some s' → Inv f threads s' ∧ Throttled threads s' :=
    fun s a s' hi hs => ⟨inv_step ht s a s' hi.1 hs, throttled_step s a s' hi hs⟩
  exact (Runs.exec_inv hstep ⟨inv_start f threads, throttled_start threads⟩ h).2.all

end Local

/-! ## One worker -/

/-- There is an item with this number. -/
def Stages.Makes (f : Stages T U E) (i : Nat) : Prop := ∃ x, f.produce i = .ok (some x)

/-- The items on their way through the pool, the first ones in front. -/
def Pool.flow (p : Pool T U E) : List Nat :=
  p.outq.map Prod.fst ++ p.workers.filterMap Worker.item ++ p.inq.map Prod.fst

theorem Pool.mem_flow {p : Pool T U E} {j : Nat} : j ∈ p.flow ↔ 0 < p.tally j := by
  simp only [Pool.flow, Pool.tally, ← List.count_pos_iff, List.count_append]
  omega

/-- The only worker keeps the order. -/
theorem Pool.step_flow {f : Stages T U E} {d k : Nat} {p p' : Pool T U E}
    (h : Pool.step f d p k = some p') (hopen : p.outClosed = false) (hone : p.workers.length = 1) :
    p'.flow = p.flow ∧ p'.workers.length = 1 := by
  obtain ⟨pre, post, w, w', hl, hl', -, -, hcases⟩ := Pool.step_cases h
  rw [hl, List.length_append, List.length_cons] at hone
  obtain rfl : pre = [] := List.length_eq_zero_iff.1 (by omega)
  obtain rfl : post = [] := List.length_eq_zero_iff.1 (by omega)
  rcases hcases with ⟨rfl, rfl, hin, ho⟩ | ⟨i, x, rfl, rfl, hin, ho⟩ |
      ⟨rfl, rfl, -, -, hin, ho⟩ | ⟨i, x, rfl, rfl, hin, ho⟩ | ⟨i, r, -, -, hc, -⟩ |
      ⟨i, r, rfl, rfl, -, -, hin, ho⟩
  · simp only [Pool.flow, hl, hl', hin, ho]
    exact ⟨rfl, rfl⟩
  · simp [Pool.flow, hl, hl', hin, ho, Worker.item]
  · simp only [Pool.flow, hl, hl', hin, ho]
    exact ⟨rfl, rfl⟩
  · simp [Pool.flow, hl, hl', hin, ho, Worker.item]
  · rw [hopen] at hc
    simp at hc
  · simp [Pool.flow, hl, hl', hin, ho, Worker.item]

theorem Pool.step_lengths {f : Stages T U E} {d k : Nat} {p p' : Pool T U E}
    (h : Pool.step f d p k = some p') :
    p'.inq.length ≤ p.inq.length ∧ (p.outq.length ≤ d → p'.outq.length ≤ d) ∧
      p'.workers.length = p.workers.length := by
  obtain ⟨pre, post, w, w', hl, hl', -, -, hcases⟩ := Pool.step_cases h
  rcases hcases with ⟨-, -, hin, ho⟩ | ⟨i, x, -, -, hin, ho⟩ | ⟨-, -, -, -, hin, ho⟩ |
      ⟨i, x, -, -, hin, ho⟩ | ⟨i, r, -, -, -, hin, ho⟩ | ⟨i, r, -, -, -, hlt, hin, ho⟩ <;>
    simp [hl, hl', hin, ho]
  omega

/-- Where only two items wait, the map is no larger than they are often in it. -/
theorem Reorder.size_le {q : Reorder U E} {a b : Nat}
    (h : ∀ k r, q.pending.get k = some r → k = a ∨ k = b) : q.size ≤ q.tally a + q.tally b := by
  have hsum : q.tally a + q.tally b =
      q.pending.sum fun k _ => (if k = a then 1 else 0) + if k = b then 1 else 0 := by
    simp only [Reorder.tally, BTreeMap.sum]
    rw [← List.sum_map_add]
  rw [hsum]
  refine BTreeMap.sum_le_sum fun k r hk => ?_
  rcases h k r hk with rfl | rfl
  · rw [if_pos rfl]
    omega
  · rw [if_pos rfl]
    omega

namespace Threads

/-- The number of the item in the producer's hand. -/
def Producer.inHand : Producer T E → List Nat
  | .sending i _ => [i]
  | _ => []

def State.flow (s : State T U E) : List Nat := s.pool.flow ++ s.producer.inHand

/-- The items come in order, and what waits is behind none of them. -/
structure InLine (f : Stages T U E) (s : State T U E) : Prop where
  items : ∀ j, j + 1 < s.producer.made → f.Makes j
  sorted : s.flow.Pairwise fun i j => f.Makes i → f.Makes j → i < j
  behind : ∀ j, f.Makes j → s.reorder.pending.get j ≠ none → ∀ i ∈ s.flow, f.Makes i → j < i
  one : ∀ j k, f.Makes j → f.Makes k → s.reorder.pending.get j ≠ none →
    s.reorder.pending.get k ≠ none → j = k

variable {f : Stages T U E} {s s' : State T U E} {j : Nat}

/-- What is in flow or waits has been made and not been sunk. -/
theorem Live.range (h : Live f s) (hj : j ∈ s.flow ∨ s.reorder.pending.get j ≠ none) :
    s.reorder.next ≤ j ∧ j < s.producer.made := by
  have htally := h.tally j
  have hpos : 0 < s.pool.tally j + s.reorder.tally j + s.producer.tally j := by
    rcases hj with hj | hj
    · rw [State.flow, List.mem_append] at hj
      rcases hj with hj | hj
      · have := Pool.mem_flow.1 hj
        omega
      · have : 0 < s.producer.tally j := by
          cases hp : s.producer with
          | sending i x =>
            rw [hp, Producer.inHand, List.mem_singleton] at hj
            simp [Producer.tally, hj]
          | _ => rw [hp] at hj; cases hj
        omega
    · have : 0 < s.reorder.tally j := by
        by_contra hz
        exact hj (Reorder.get_eq_none (by omega))
      omega
  split at htally
  · assumption
  · omega

/-- What the producer has in hand when it is an item. -/
theorem Live.mem_flow (hinv : ProducerOk f s) (h : Live f s) (hj : s.reorder.next ≤ j) (hmade : j < s.producer.made) (hmakes : f.Makes j)
    (hget : s.reorder.pending.get j = none) : j ∈ s.flow := by
  have htally := h.tally j
  rw [if_pos ⟨hj, hmade⟩, Reorder.tally_eq_zero hget] at htally
  rw [State.flow, List.mem_append]
  by_cases hpool : 0 < s.pool.tally j
  · exact .inl (Pool.mem_flow.2 hpool)
  · have hprod : 0 < s.producer.tally j := by omega
    right
    cases hp : s.producer with
    | sending i x =>
      rw [hp, Producer.tally] at hprod
      split at hprod
      · rename_i hij
        exact hij ▸ List.mem_singleton_self i
      · omega
    | sendingErr i e =>
      rw [hp, Producer.tally] at hprod
      rw [ProducerOk, hp] at hinv
      split at hprod
      · rename_i hij
        obtain ⟨x, hx⟩ := hmakes
        rw [← hij, hinv.2] at hx
        simp at hx
      · omega
    | _ => rw [hp] at hprod; simp [Producer.tally] at hprod

/-- An item that waits is the one whose turn it is. -/
theorem InLine.next (hinv : ProducerOk f s) (hl : Live f s)
    (h : InLine f s) (hmakes : f.Makes j) (hget : s.reorder.pending.get j ≠ none) :
    j = s.reorder.next := by
  obtain ⟨hle, hlt⟩ := hl.range (.inr hget)
  by_contra hne
  have hmnext : f.Makes s.reorder.next := h.items _ (by omega)
  by_cases hnext : s.reorder.pending.get s.reorder.next = none
  · have hmem := hl.mem_flow hinv (Nat.le_refl _) (by omega) hmnext hnext
    have := h.behind j hmakes hget _ hmem hmnext
    omega
  · exact hne (h.one _ _ hmakes hmnext hget hnext)

theorem InLine.size_le (hinv : ProducerOk f s) (hl : Live f s)
    (h : InLine f s) : s.reorder.size ≤ 2 := by
  have hkeys : ∀ k r, s.reorder.pending.get k = some r →
      k = s.reorder.next ∨ k = s.producer.made - 1 := by
    intro k r hk
    have hget : s.reorder.pending.get k ≠ none := by rw [hk]; simp
    obtain ⟨-, hlt⟩ := hl.range (.inr hget)
    by_cases hlast : k + 1 < s.producer.made
    · exact .inl (h.next hinv hl (h.items k hlast) hget)
    · right
      omega
  have hone : ∀ j, s.reorder.tally j ≤ 1 := by
    intro j
    have := hl.tally j
    split at this <;> omega
  have h1 := hone s.reorder.next
  have h2 := hone (s.producer.made - 1)
  have := Reorder.size_le hkeys
  omega

/-- An item joins at the end. -/
theorem InLine.push (hl : Live f s) (h : InLine f s) {i : Nat}
    (hmade : s.producer.made = i) (hmade' : s'.producer.made = i + 1) (hitems : ∀ j < i, f.Makes j)
    (hflow : s'.flow = s.flow ++ [i]) (hreorder : s'.reorder = s.reorder) : InLine f s' := by
  have hlt : ∀ j, j ∈ s.flow ∨ s.reorder.pending.get j ≠ none → j < i := by
    intro j hj
    rw [← hmade]
    exact (hl.range hj).2
  refine ⟨fun j hj => hitems j (by omega), ?_, ?_, by rw [hreorder]; exact h.one⟩
  · rw [hflow, List.pairwise_append]
    refine ⟨h.sorted, List.pairwise_singleton _ _, fun a ha b hb _ _ => ?_⟩
    rw [List.mem_singleton.1 hb]
    exact hlt a (.inl ha)
  · intro j hj hget a ha ha'
    rw [hreorder] at hget
    rw [hflow, List.mem_append, List.mem_singleton] at ha
    rcases ha with ha | rfl
    · exact h.behind j hj hget a ha ha'
    · exact hlt j (.inr hget)

/-- Nothing joins, and nothing more waits. -/
theorem InLine.keep (h : InLine f s)
    (hitems : ∀ j, j + 1 < s'.producer.made → f.Makes j) (hflow : s'.flow = s.flow)
    (hpending : ∀ j, s'.reorder.pending.get j ≠ none → s.reorder.pending.get j ≠ none) :
    InLine f s' where
  items := hitems
  sorted := hflow ▸ h.sorted
  behind j hj hget i hi := h.behind j hj (hpending j hget) i (hflow ▸ hi)
  one j k hj hk hgj hgk := h.one j k hj hk (hpending j hgj) (hpending k hgk)

theorem inLine_stepProducer (hinv : Inv f 1 s) (hl : Live f s)
    (h : InLine f s) (hs : stepProducer f (depth 1) s = some s') : InLine f s' := by
  have hprod := hinv.producer
  unfold stepProducer at hs
  split at hs
  · rename_i i hi
    rw [ProducerOk, hi] at hprod
    have hmade : s.producer.made = i := by rw [hi]; rfl
    have hflow : s.flow = s.pool.flow := by rw [State.flow, hi, Producer.inHand, List.append_nil]; rintro _ _ ⟨⟩
    split at hs <;> obtain rfl := Option.some.inj hs
    · exact h.push hl hmade rfl hprod (by rw [hflow]; rfl) rfl
    · refine h.keep (fun j hj => h.items j ?_) ?_ fun j hj => hj
      · rw [hmade]
        exact hj
      · rw [hflow]
        exact List.append_nil _
    · refine h.keep (fun j hj => hprod j ?_) ?_ fun j hj => hj
      · exact Nat.lt_of_succ_lt_succ hj
      · rw [hflow]
        exact List.append_nil _
  · rename_i i x hi
    rw [ProducerOk, hi] at hprod
    have hmade : s.producer.made = i + 1 := by rw [hi]; rfl
    split at hs
    · rename_i hall
      have := hinv.not_allExited Nat.one_pos hl.open_ (by rw [hi]; rfl)
      rw [hall] at this
      simp at this
    · split at hs
      · obtain rfl := Option.some.inj hs
        refine h.keep (fun j hj => h.items j ?_) ?_ fun j hj => hj
        · rw [hmade]
          exact hj
        · rw [State.flow, State.flow, hi]
          simp [Pool.flow, Producer.inHand]
      · simp at hs
  · rename_i i e hi
    rw [ProducerOk, hi] at hprod
    have hmade : s.producer.made = i + 1 := by rw [hi]; rfl
    have hno : ¬ f.Makes i := by
      rintro ⟨x, hx⟩
      rw [hprod.2] at hx
      simp at hx
    rw [hl.open_, if_neg (by simp)] at hs
    split at hs
    · obtain rfl := Option.some.inj hs
      have hflow : s.flow = s.pool.outq.map Prod.fst ++
          (s.pool.workers.filterMap Worker.item ++ s.pool.inq.map Prod.fst) := by
        rw [State.flow, hi]
        simp [Pool.flow, Producer.inHand]
      have hflow' : State.flow (State.leave
          { s with pool.outq := s.pool.outq ++ [(i, Except.error e)] } (i + 1)) =
          s.pool.outq.map Prod.fst ++ ([i] ++
          (s.pool.workers.filterMap Worker.item ++ s.pool.inq.map Prod.fst)) := by
        simp [State.flow, State.leave, Pool.flow, Producer.inHand]
      have hsorted := h.sorted
      rw [hflow, List.pairwise_append] at hsorted
      refine ⟨fun j hj => h.items j (by rw [hmade]; exact hj), ?_, ?_, h.one⟩
      · rw [hflow', List.pairwise_append, List.pairwise_append]
        refine ⟨hsorted.1, ⟨List.pairwise_singleton _ _, hsorted.2.1, ?_⟩, ?_⟩
        · intro a ha b _ ha' _
          rw [List.mem_singleton.1 ha] at ha'
          exact absurd ha' hno
        · intro a ha b hb ha' hb'
          rw [List.mem_append, List.mem_singleton] at hb
          rcases hb with rfl | hb
          · exact absurd hb' hno
          · exact hsorted.2.2 a ha b hb ha' hb'
      · intro j hj hget a ha ha'
        rw [hflow', List.mem_append, List.mem_append, List.mem_singleton] at ha
        refine h.behind j hj hget a ?_ ha'
        rw [hflow, List.mem_append]
        rcases ha with ha | rfl | ha
        · exact .inl ha
        · exact absurd ha' hno
        · exact .inr ha
    · simp at hs
  · simp at hs

theorem inLine_worker {k d : Nat} {p : Pool T U E}
    (hinv : Inv f 1 s) (hl : Live f s) (h : InLine f s) (hp : s.pool.step f d k = some p) :
    InLine f { s with pool := p } := by
  refine h.keep h.items ?_ fun j hj => hj
  show p.flow ++ s.producer.inHand = _
  rw [(Pool.step_flow hp hl.open_ hinv.workers).1]
  rfl

/-- A state of the calling thread that goes on listening. -/
theorem inLine_stepConsumer (hinv : Inv f 1 s)
    (hl : Live f s) (h : InLine f s) (hs : stepConsumer f s = some s')
    (hrun : ∀ r, s'.consumer ≠ .returned r) : InLine f s' := by
  unfold stepConsumer at hs
  split at hs
  · rename_i hrecv
    split at hs
    · rename_i i r rest hout
      obtain rfl := Option.some.inj hs
      -- nothing but the new result can be an item that waits
      have hnone : ∀ j, f.Makes j → s.reorder.pending.get j = none := by
        intro j hj
        by_contra hget
        rw [h.next hinv.producer hl hj hget] at hget
        exact hget (hl.drained hrecv)
      have honly : ∀ j, f.Makes j → (s.reorder.insert i r).pending.get j ≠ none → j = i := by
        intro j hj hget
        by_contra hne
        rw [Reorder.insert, BTreeMap.get_insert_of_ne _ _ hne] at hget
        exact hget (hnone j hj)
      have hflow : s.flow = i :: (rest.map Prod.fst ++ s.pool.workers.filterMap Worker.item ++
          s.pool.inq.map Prod.fst ++ s.producer.inHand) := by
        rw [State.flow, Pool.flow, hout]
        rfl
      have hsorted := h.sorted
      rw [hflow, List.pairwise_cons] at hsorted
      refine ⟨h.items, hsorted.2, ?_, ?_⟩
      · intro j hj hget a ha ha'
        obtain rfl := honly j hj hget
        exact hsorted.1 a ha hj ha'
      · intro j k hj hk hgj hgk
        rw [honly j hj hgj, honly k hk hgk]
    · split at hs
      · obtain rfl := Option.some.inj hs
        exact absurd rfl (hrun _)
      · simp at hs
  · split at hs
    · obtain rfl := Option.some.inj hs
      exact h.keep h.items rfl fun j hj => hj
    · obtain rfl := Option.some.inj hs
      exact absurd rfl (hrun _)
    · rename_i q hsunk
      obtain rfl := Option.some.inj hs
      refine h.keep h.items rfl fun j hj => ?_
      have htally := (Reorder.drain_sunk hl.reorder hsunk).2.2.2 j
      intro hnone
      rw [Reorder.tally_eq_zero hnone] at htally
      have hq : q.tally j = 0 := by omega
      exact hj (Reorder.get_eq_none hq)
  · simp at hs

/-- What one worker leaves to be held. -/
structure Narrow (f : Stages T U E) (s : State T U E) : Prop where
  inq : s.pool.inq.length ≤ depth 1
  outq : s.pool.outq.length ≤ depth 1
  waiting : s.reorder.size ≤ 2
  inLine : (∀ r, s.consumer ≠ .returned r) → InLine f s

theorem narrow_start (f : Stages T U E) : Narrow f (start 1) where
  inq := Nat.zero_le _
  outq := Nat.zero_le _
  waiting := Nat.zero_le _
  inLine _ := by
    refine ⟨?_, ?_, ?_, ?_⟩
    · intro j hj
      exact absurd hj (Nat.not_lt_zero _)
    · exact List.Pairwise.nil
    · intro j _ hget
      exact absurd rfl hget
    · intro j k _ _ hget
      exact absurd rfl hget

/-- **What every step leaves as it is**: the channels keep to their depth, a calling thread that has
returned stays so, and one that returns leaves no more waiting than there was. -/
theorem step_frame {threads : Nat} {a : Party}
    (hinv : Inv f threads s) (hs : step f threads s a = some s') :
    (s.pool.inq.length ≤ depth threads → s'.pool.inq.length ≤ depth threads) ∧
    (s.pool.outq.length ≤ depth threads → s'.pool.outq.length ≤ depth threads) ∧
    (∀ r, s.consumer = .returned r → s'.consumer = .returned r) ∧
    ∀ r, s'.consumer = .returned r → s'.reorder.size ≤ s.reorder.size := by
  cases a with
  | worker k =>
    simp only [step, Option.map_eq_some_iff] at hs
    obtain ⟨p, hp, rfl⟩ := hs
    obtain ⟨hin, hout, -⟩ := Pool.step_lengths hp
    exact ⟨Nat.le_trans hin, hout, fun _ h => h, fun _ _ => Nat.le_refl _⟩
  | producer =>
    rw [step, stepProducer] at hs
    split at hs
    · split at hs <;> obtain rfl := Option.some.inj hs <;>
        exact ⟨id, id, fun _ h => h, fun _ _ => Nat.le_refl _⟩
    · split at hs
      · obtain rfl := Option.some.inj hs
        exact ⟨id, id, fun _ h => h, fun _ _ => Nat.le_refl _⟩
      · split at hs
        · rename_i hlt
          obtain rfl := Option.some.inj hs
          refine ⟨fun _ => ?_, id, fun _ h => h, fun _ _ => Nat.le_refl _⟩
          simp only [List.length_append, List.length_singleton]
          omega
        · simp at hs
    · split at hs
      · obtain rfl := Option.some.inj hs
        exact ⟨id, id, fun _ h => h, fun _ _ => Nat.le_refl _⟩
      · split at hs
        · rename_i hlt
          obtain rfl := Option.some.inj hs
          refine ⟨id, fun _ => ?_, fun _ h => h, fun _ _ => Nat.le_refl _⟩
          simp only [State.leave, List.length_append, List.length_singleton]
          omega
        · simp at hs
    · simp at hs
  | consumer =>
    rw [step, stepConsumer] at hs
    split at hs
    · rename_i hrecv
      split at hs
      · rename_i i r rest hq
        obtain rfl := Option.some.inj hs
        refine ⟨id, fun hout => ?_, fun _ h => ?_, fun _ h => absurd h (by simp)⟩
        · rw [hq, List.length_cons] at hout
          exact Nat.le_of_succ_le hout
        · rw [hrecv] at h
          simp at h
      · split at hs
        · obtain rfl := Option.some.inj hs
          refine ⟨id, id, fun _ h => ?_, fun _ _ => Nat.le_refl _⟩
          rw [hrecv] at h
          simp at h
        · simp at hs
    · rename_i hdrain
      have hno : ∀ r, s.consumer ≠ .returned r := by simp [hdrain]
      split at hs
      · obtain rfl := Option.some.inj hs
        exact ⟨id, id, fun r h => absurd h (hno r), fun _ h => absurd h (by simp)⟩
      · rename_i e q hfail
        obtain rfl := Option.some.inj hs
        have hsize := (Reorder.drain_failed (hinv.live hno).reorder hfail).2.2.2
        refine ⟨id, id, fun r h => absurd h (hno r), fun _ _ => ?_⟩
        show q.size ≤ _
        omega
      · obtain rfl := Option.some.inj hs
        exact ⟨id, id, fun r h => absurd h (hno r), fun r h => absurd h (hno r)⟩
    · simp at hs

theorem narrow_step (s : State T U E) (a : Party) (s' : State T U E)
    (h : Inv f 1 s ∧ Narrow f s) (hs : step f 1 s a = some s') : Inv f 1 s' ∧ Narrow f s' := by
  obtain ⟨hinv, hin, hout, hwait, hline⟩ := h
  have hinv' := inv_step Nat.one_pos s a s' hinv hs
  obtain ⟨hin', hout', hstay, hsize⟩ := step_frame hinv hs
  have hline' : (∀ r, s'.consumer ≠ .returned r) → InLine f s' := by
    intro hrun
    have hbefore : ∀ r, s.consumer ≠ .returned r := fun r hr => hrun r (hstay r hr)
    have hl := hinv.live hbefore
    cases a with
    | worker k =>
      simp only [step, Option.map_eq_some_iff] at hs
      obtain ⟨p, hp, rfl⟩ := hs
      exact inLine_worker hinv hl (hline hbefore) hp
    | producer => exact inLine_stepProducer hinv hl (hline hbefore) hs
    | consumer => exact inLine_stepConsumer hinv hl (hline hbefore) hs hrun
  refine ⟨hinv', hin' hin, hout' hout, ?_, hline'⟩
  by_cases hrun : ∃ r, s'.consumer = .returned r
  · obtain ⟨r, hr⟩ := hrun
    exact Nat.le_trans (hsize r hr) hwait
  · have hrun' : ∀ r, s'.consumer ≠ .returned r := fun r hr => hrun ⟨r, hr⟩
    exact (hline' hrun').size_le hinv'.producer (hinv'.live hrun')

/-- **With one worker `pipeline` holds no more than 20 items.** -/
theorem held_le {as : List Party}
    (h : Runs.exec (step f 1) (start 1) as = some s) : s.held ≤ 20 := by
  obtain ⟨hinv, hin, hout, hwait, -⟩ :=
    Runs.exec_inv narrow_step ⟨inv_start f 1, narrow_start f⟩ h
  have hdepth : depth 1 = 8 := rfl
  have hone : s.pool.workers.countP (fun w => w.item.isSome) ≤ 1 := hinv.workers ▸ List.countP_le_length
  have hhand : s.producer.hand ≤ 1 := by
    unfold Producer.hand
    split <;> omega
  rw [State.held, Pool.held]
  omega

end Threads

/-! ## A slow item -/

/-- Items without end, which every stage passes. -/
def endless : Stages Unit Unit Unit where
  produce _ := .ok (some ())
  work _ _ := .ok ()
  sink _ _ := .ok ()

namespace Threads

/-- The results of the items from 1 on, waiting for item 0. -/
def pile : Nat → Reorder Unit Unit
  | 0 => .start
  | n + 1 => (pile n).insert (n + 1) (.ok ())

theorem pile_next (n : Nat) : (pile n).next = 0 := by
  induction n with
  | zero => rfl
  | succ n ih => exact ih

theorem pile_get {n i : Nat} (h : i = 0 ∨ n < i) : (pile n).pending.get i = none := by
  induction n with
  | zero => rfl
  | succ n ih =>
    rw [pile, Reorder.insert, BTreeMap.get_insert_of_ne _ _ (by omega)]
    exact ih (by omega)

theorem pile_size (n : Nat) : (pile n).size = n := by
  induction n with
  | zero => rfl
  | succ n ih =>
    have hsum := BTreeMap.sum_insert (pile n).pending (fun _ _ => 1) (n + 1) (Except.ok ())
    rw [BTreeMap.countAt, pile_get (.inr (Nat.lt_succ_self n))] at hsum
    exact hsum.trans (congrArg (· + 1) ih)

/-- Item 0 is being worked on, and the results of so many items after it wait for it. -/
def piled (others n : Nat) : State Unit Unit Unit where
  pool := {
    inq := []
    inClosed := false
    workers := .working 0 () :: .waiting :: List.replicate others .waiting
    outq := []
    outClosed := false }
  producer := .producing (n + 1)
  reorder := pile n
  consumer := .receiving

/-- What the producer, the second worker and the calling thread do for one more item. -/
def pileOne : List Party :=
  [.producer, .producer, .worker 1, .worker 1, .worker 1, .worker 1, .consumer, .consumer]

theorem drain_pile (n : Nat) : (pile n).drain endless = .empty := by
  rw [Reorder.drain, pile_next, pile_get (.inl rfl)]

theorem piled_succ (others n : Nat) :
    Runs.exec (step endless (others + 2)) (piled others n) pileOne = some (piled others (n + 1)) := by
  have hdepth : 0 < depth (others + 2) := depth_pos (by omega)
  have hdrain := drain_pile (n + 1)
  rw [pile] at hdrain
  have hproduce : endless.produce (n + 1) = .ok (some ()) := rfl
  have hwork : endless.work (n + 1) () = .ok () := rfl
  simp [pileOne, Runs.exec, piled, pile, step, stepProducer, stepConsumer, hproduce, hwork, hdrain,
    Pool.step, Pool.allExited, Pool.setWorker, Worker.isExited, Worker.isReceiving, hdepth]

/-- The first item is made and taken by the first worker. -/
theorem exec_piled_zero (others : Nat) :
    Runs.exec (step endless (others + 2)) (start (others + 2))
      [.producer, .producer, .worker 0, .worker 0] = some (piled others 0) := by
  have hdepth : 0 < depth (others + 2) := depth_pos (by omega)
  have hproduce : endless.produce 0 = .ok (some ()) := rfl
  simp [Runs.exec, start, Pool.start, piled, pile, step, stepProducer, hproduce, Pool.step,
    Pool.allExited, Pool.setWorker, Worker.isExited, Worker.isReceiving, hdepth, List.replicate_succ]

/-- **The map grows without end** while item 0 is worked on. -/
theorem exec_piled (others n : Nat) :
    ∃ as, Runs.exec (step endless (others + 2)) (start (others + 2)) as = some (piled others n) := by
  induction n with
  | zero => exact ⟨_, exec_piled_zero others⟩
  | succ n ih =>
    obtain ⟨as, has⟩ := ih
    exact ⟨as ++ pileOne, (Runs.exec_append _).2 ⟨_, has, piled_succ others n⟩⟩

theorem not_bounded {threads : Nat} (ht : 2 ≤ threads) : ¬ Bounded threads := by
  obtain ⟨others, rfl⟩ := Nat.exists_eq_add_of_le' ht
  rintro ⟨bound, hbound⟩
  obtain ⟨as, has⟩ := exec_piled others (bound + 1)
  have hle := hbound _ _ _ endless as _ has
  have hsize := pile_size (bound + 1)
  have hle' : (pile (bound + 1)).size ≤ (piled others (bound + 1)).held := by
    rw [State.held]
    exact Nat.le_trans (Nat.le_add_left _ _) (Nat.le_add_right _ _)
  omega

end Threads

/-- **What the pipelines hold is bounded**, whatever the items, the stages and the schedule, exactly if
there is one worker.  `pipeline_local` is bounded for every number of workers (`Local.held_le`). -/
theorem held_bounded_iff {threads : Nat} (ht : 0 < threads) :
    Threads.Bounded threads ∧ Local.Bounded threads ↔ threads = 1 := by
  constructor
  · rintro ⟨h, -⟩
    by_contra hne
    exact Threads.not_bounded (by omega) h
  · rintro rfl
    exact ⟨⟨20, fun _ _ _ _ _ _ h => Threads.held_le h⟩,
      ⟨depth 1, fun _ _ _ _ _ _ _ h => Local.held_le Nat.one_pos h⟩⟩

theorem held_bounded_two : ¬ (Threads.Bounded 2 ∧ Local.Bounded 2) :=
  fun h => absurd ((held_bounded_iff (by decide)).1 h) (by decide)

/-- With two workers, and one item that takes its time, `pipeline` holds more than any bound. -/
theorem two_workers_unbounded :
    ¬ ∀ threads, 0 < threads → Threads.Bounded threads ∧ Local.Bounded threads :=
  fun h => Threads.not_bounded (Nat.le_refl 2) (h 2 Nat.two_pos).1

end Ps5Upload.Pipeline
