import Ps5Upload.Fpkg.Pipeline.Pool
import Ps5Upload.Lib.BTreeMap

/-!
# Results back in order

The consumer's half of both pipelines: results arrive in any order and wait in a map until it is
their turn, and then go to `sink`.  `Reorder.Ok` says how the map, the counter and the calls made
belong together; `drain_sunk` and `drain_failed` say what one turn of the draining loop does.
-/

namespace Ps5Upload.Pipeline

variable {T U E : Type}

/-- The results that wait for their turn, the number whose turn it is, and the values `sink`
has been called with. -/
structure Reorder (U E : Type) where
  next : Nat
  pending : BTreeMap Nat (Except E U)
  calls : List U

namespace Reorder

def start : Reorder U E := { next := 0, pending := ∅, calls := [] }

def insert (q : Reorder U E) (i : Nat) (r : Except E U) : Reorder U E :=
  { q with pending := q.pending.insert i r }

/-- What one turn of the draining loop comes to. -/
inductive Drained (U E : Type) where
  /-- The next result is not there. -/
  | empty
  /-- An item failed. -/
  | failed (e : E) (q : Reorder U E)
  | sunk (q : Reorder U E)

/-- `if let Some(result) = pending.remove(&next)`, and `sink(result?)?`. -/
def drain (f : Stages T U E) (q : Reorder U E) : Drained U E :=
  match q.pending.get q.next with
  | none => .empty
  | some (.error e) => .failed e { q with pending := q.pending.erase q.next }
  | some (.ok u) =>
    match f.sink q.calls.length u with
    | .error e => .failed e
        { q with pending := q.pending.erase q.next, calls := q.calls ++ [u] }
    | .ok _ => .sunk
        { next := q.next + 1, pending := q.pending.erase q.next, calls := q.calls ++ [u] }

/-- How often an item waits. -/
def tally (q : Reorder U E) (j : Nat) : Nat := q.pending.sum fun k _ => if k = j then 1 else 0

/-- How many items wait. -/
def size (q : Reorder U E) : Nat := q.pending.sum fun _ _ => 1

variable {q : Reorder U E} {i : Nat} {f : Stages T U E}

theorem get_eq_none (h : q.tally i = 0) : q.pending.get i = none := by
  by_contra hne
  obtain ⟨r, hr⟩ := Option.ne_none_iff_exists'.1 hne
  have := BTreeMap.sum_erase q.pending (fun k _ => if k = i then 1 else 0) hr
  simp only [if_true] at this
  unfold tally at h
  omega

theorem tally_eq_zero (h : q.pending.get i = none) : q.tally i = 0 := by
  have hle : q.tally i ≤ q.pending.sum fun _ _ => 0 := by
    refine BTreeMap.sum_le_sum ?_
    intro k r hk
    have hne : k ≠ i := by
      rintro rfl
      rw [h] at hk
      simp at hk
    simp [hne]
  simpa [BTreeMap.sum] using hle

theorem tally_insert (h : q.tally i = 0) (r : Except E U) (j : Nat) :
    (q.insert i r).tally j = q.tally j + if i = j then 1 else 0 := by
  have hsum := BTreeMap.sum_insert q.pending (fun k _ => if k = j then 1 else 0) i r
  rw [BTreeMap.countAt, get_eq_none h] at hsum
  exact hsum

theorem size_insert (q : Reorder U E) (i : Nat) (r : Except E U) :
    (q.insert i r).size ≤ q.size + 1 := by
  have := BTreeMap.sum_insert q.pending (fun _ _ => 1) i r
  unfold size insert
  simp only
  omega

/-- The calls so far went to the items before `next`, which all stages passed; what waits is
what it should be. -/
structure Ok (f : Stages T U E) (q : Reorder U E) : Prop where
  length : q.calls.length = q.next
  calls : f.CalledWith q.calls
  passes : ∀ i < q.next, f.Passes i
  pending : ∀ i r, q.pending.get i = some r → f.Outcome i r

theorem ok_start (f : Stages T U E) : (start : Reorder U E).Ok f where
  length := rfl
  calls := rfl
  passes := by simp [start]
  pending := by simp [start]

theorem Ok.insert (h : q.Ok f) {r : Except E U} (hr : f.Outcome i r) : (q.insert i r).Ok f where
  length := h.length
  calls := h.calls
  passes := h.passes
  pending := by
    intro j r' hj
    simp only [Reorder.insert, BTreeMap.get_insert] at hj
    split at hj
    · rename_i hji
      obtain rfl : r = r' := by simpa using hj
      exact hji ▸ hr
    · exact h.pending j r' hj

theorem calledWith_append {calls : List U} (h : f.CalledWith calls) {u : U}
    (hu : f.result calls.length = some u) : f.CalledWith (calls ++ [u]) := by
  unfold Stages.CalledWith at h ⊢
  rw [List.map_append, h, List.length_append, List.length_singleton, List.range_succ,
    List.map_append]
  simp [hu]

/-- What a result in hand says about its item. -/
theorem result_of_outcome {u : U} (h : f.Outcome i (.ok u)) :
    ∃ x, f.produce i = .ok (some x) ∧ f.work i x = .ok u ∧ f.result i = some u := by
  rcases h with ⟨x, hp, hw⟩ | ⟨e, -, he⟩
  · exact ⟨x, hp, hw.symm, by simp [Stages.result, hp, ← hw, Except.toOption]⟩
  · simp at he

theorem drain_empty (h : q.drain f = .empty) : q.pending.get q.next = none := by
  unfold drain at h
  split at h
  · assumption
  · simp at h
  · split at h <;> simp at h

/-- **A result goes to `sink`.** -/
theorem drain_sunk {q' : Reorder U E} (hq : q.Ok f) (h : q.drain f = .sunk q') :
    q'.Ok f ∧ q'.next = q.next + 1 ∧ q'.size + 1 = q.size ∧
      ∀ j, q'.tally j + (if q.next = j then 1 else 0) = q.tally j := by
  unfold drain at h
  split at h
  · simp at h
  · simp at h
  · rename_i u hget
    split at h
    · simp at h
    · rename_i hsink
      simp only [Drained.sunk.injEq] at h
      subst h
      obtain ⟨x, hp, hw, hres⟩ := result_of_outcome (hq.pending q.next (.ok u) hget)
      refine ⟨⟨?_, ?_, ?_, ?_⟩, rfl, ?_, ?_⟩
      · simp [hq.length]
      · exact calledWith_append hq.calls (by rw [hq.length]; exact hres)
      · intro i hi
        rcases Nat.lt_succ_iff_lt_or_eq.1 hi with hlt | rfl
        · exact hq.passes i hlt
        · exact ⟨x, u, hp, hw, by rw [← hq.length]; exact hsink⟩
      · intro i r hr
        simp only [BTreeMap.get_erase] at hr
        split at hr
        · simp at hr
        · exact hq.pending i r hr
      · exact BTreeMap.sum_erase q.pending (fun _ _ => 1) hget
      · intro j
        exact BTreeMap.sum_erase q.pending (fun k _ => if k = j then 1 else 0) hget

/-- **The first failure.**  It is the one of the item whose turn it is, and `sink` has been called
with everything before it. -/
theorem drain_failed {q' : Reorder U E} {e : E} (hq : q.Ok f) (h : q.drain f = .failed e q') :
    f.FirstFail q.next e ∧ q'.calls.length = f.called q.next ∧ f.CalledWith q'.calls ∧
      q'.size + 1 = q.size := by
  unfold drain at h
  split at h
  · simp at h
  · rename_i e' hget
    simp only [Drained.failed.injEq] at h
    obtain ⟨rfl, rfl⟩ := h
    have hres : f.FailsWith q.next e' ∧ f.result q.next = none := by
      rcases hq.pending q.next _ hget with ⟨x, hp, hw⟩ | ⟨e, hp, he⟩
      · exact ⟨.inr ⟨x, hp, .inl hw.symm⟩, by simp [Stages.result, hp, ← hw, Except.toOption]⟩
      · obtain rfl : e' = e := by simpa using he
        exact ⟨.inl hp, by simp [Stages.result, hp]⟩
    refine ⟨⟨hq.passes, hres.1⟩, ?_, hq.calls, BTreeMap.sum_erase q.pending (fun _ _ => 1) hget⟩
    simp [Stages.called, hres.2, hq.length]
  · rename_i u hget
    split at h
    · rename_i e' hsink
      simp only [Drained.failed.injEq] at h
      obtain ⟨rfl, rfl⟩ := h
      obtain ⟨x, hp, hw, hres⟩ := result_of_outcome (hq.pending q.next (.ok u) hget)
      refine ⟨⟨hq.passes, .inr ⟨x, hp, .inr ⟨u, hw, ?_⟩⟩⟩, ?_, ?_,
        BTreeMap.sum_erase q.pending (fun _ _ => 1) hget⟩
      · rw [← hq.length]
        exact hsink
      · simp [Stages.called, hres, hq.length]
      · exact calledWith_append hq.calls (by rw [hq.length]; exact hres)
    · simp at h

end Reorder
end Ps5Upload.Pipeline
