import Mathlib.Data.List.Basic
import Mathlib.Tactic.Common

/-!
# Runs of a system given by a partial step function

A component that takes step after step is given here by `step : σ → α → Option σ`: the
state after an action, or `none` where the action's guard does not hold.  A *run* is a
list of actions; `exec` carries it out.  Interleavings of several parties are runs whose
actions name the party that moves, so a statement about every run is a statement about
every interleaving.
-/

namespace Ps5Upload.Runs

variable {σ α : Type*} (step : σ → α → Option σ)

/-- The state a list of actions leads to; `none` when one of them is not enabled. -/
def exec : σ → List α → Option σ
  | s, [] => some s
  | s, a :: as => (step s a).bind fun s' => exec s' as

@[simp] theorem exec_nil (s : σ) : exec step s [] = some s := rfl

theorem exec_cons (s : σ) (a : α) (as : List α) :
    exec step s (a :: as) = (step s a).bind fun s' => exec step s' as := rfl

/-- A run that starts with an action passes through the state that action leads to. -/
theorem exec_cons_eq_some {s t : σ} {a : α} {as : List α} :
    exec step s (a :: as) = some t ↔ ∃ s', step s a = some s' ∧ exec step s' as = some t := by
  rw [exec_cons, Option.bind_eq_some_iff]

/-- A run cut in two. -/
theorem exec_append {s t : σ} {as bs : List α} :
    exec step s (as ++ bs) = some t ↔
      ∃ u, exec step s as = some u ∧ exec step u bs = some t := by
  induction as generalizing s with
  | nil => simp
  | cons a as ih =>
    rw [List.cons_append, exec_cons_eq_some]
    constructor
    · rintro ⟨s', hs', h⟩
      obtain ⟨u, hu, ht⟩ := ih.1 h
      exact ⟨u, (exec_cons_eq_some step).2 ⟨s', hs', hu⟩, ht⟩
    · rintro ⟨u, hu, ht⟩
      obtain ⟨s', hs', hu'⟩ := (exec_cons_eq_some step).1 hu
      exact ⟨s', hs', ih.2 ⟨u, hu', ht⟩⟩

/-- Every step of the run from `s` meets `ok`. -/
def Meets (ok : σ → α → Prop) : σ → List α → Prop
  | _, [] => True
  | s, a :: as => ok s a ∧ (match step s a with
    | none => True
    | some s' => Meets ok s' as)

/-- A condition that can be decided can be decided along a run. -/
instance decidableMeets (ok : σ → α → Prop) [∀ s a, Decidable (ok s a)] :
    ∀ s as, Decidable (Meets step ok s as)
  | _, [] => .isTrue trivial
  | s, a :: as =>
    match h : step s a with
    | none => decidable_of_iff (ok s a) (by simp [Meets, h])
    | some s' =>
      haveI := decidableMeets ok s' as
      decidable_of_iff (ok s a ∧ Meets step ok s' as) (by simp [Meets, h])

variable {step}

theorem Meets.head {ok : σ → α → Prop} {s : σ} {a : α} {as : List α}
    (h : Meets step ok s (a :: as)) : ok s a := h.1

theorem Meets.tail {ok : σ → α → Prop} {s s' : σ} {a : α} {as : List α}
    (h : Meets step ok s (a :: as)) (hs : step s a = some s') : Meets step ok s' as := by
  have := h.2
  rwa [hs] at this

theorem meets_cons {ok : σ → α → Prop} {s : σ} {a : α} {as : List α} (ha : ok s a)
    (has : ∀ s', step s a = some s' → Meets step ok s' as) : Meets step ok s (a :: as) := by
  refine ⟨ha, ?_⟩
  cases h : step s a with
  | none => trivial
  | some s' => exact has s' h

theorem meets_of_forall {ok : σ → α → Prop} {as : List α} (h : ∀ s, ∀ a ∈ as, ok s a) (s : σ) :
    Meets step ok s as := by
  induction as generalizing s with
  | nil => trivial
  | cons a as ih =>
    exact meets_cons (h s a List.mem_cons_self) fun s' _ =>
      ih (fun t b hb => h t b (List.mem_cons_of_mem a hb)) s'

/-- A run that meets two conditions meets both at every step. -/
theorem Meets.and {ok ok' : σ → α → Prop} {s : σ} {as : List α} (h : Meets step ok s as)
    (h' : Meets step ok' s as) : Meets step (fun s a => ok s a ∧ ok' s a) s as := by
  induction as generalizing s with
  | nil => trivial
  | cons a as ih =>
    exact meets_cons ⟨h.head, h'.head⟩ fun s' hs' => ih (h.tail hs') (h'.tail hs')

/-- The condition along the second part of a run cut in two. -/
theorem Meets.of_append {ok : σ → α → Prop} {s u : σ} {as bs : List α}
    (h : Meets step ok s (as ++ bs)) (hu : exec step s as = some u) : Meets step ok u bs := by
  induction as generalizing s with
  | nil =>
    rw [exec_nil, Option.some.injEq] at hu
    exact hu ▸ h
  | cons a as ih =>
    obtain ⟨s', hs', hu'⟩ := (exec_cons_eq_some step).1 hu
    exact ih (h.tail hs') hu'

variable (step) in
/-- The states a run from `s` passes through, `s` and the last one included. -/
def States : σ → List α → List σ
  | s, [] => [s]
  | s, a :: as => s :: (match step s a with
    | none => []
    | some s' => States s' as)

/-- The last state of a run is one it passes through. -/
theorem mem_states_of_exec {s t : σ} {as : List α} (h : exec step s as = some t) :
    t ∈ States step s as := by
  induction as generalizing s with
  | nil =>
    rw [exec_nil, Option.some.injEq] at h
    rw [States, h]
    exact List.mem_singleton_self t
  | cons a as ih =>
    obtain ⟨s', hs', h'⟩ := (exec_cons_eq_some step).1 h
    rw [States, hs']
    exact List.mem_cons_of_mem _ (ih h')

/-- **The invariant rule under a condition.**  A property kept by every step that meets
`ok` holds at the end of every run whose steps all meet it. -/
theorem exec_inv_of_meets {ok : σ → α → Prop} {P : σ → Prop}
    (hstep : ∀ s a s', P s → ok s a → step s a = some s' → P s') {s t : σ} {as : List α}
    (h0 : P s) (hm : Meets step ok s as) (h : exec step s as = some t) : P t := by
  induction as generalizing s with
  | nil =>
    rw [exec_nil, Option.some.injEq] at h
    exact h ▸ h0
  | cons a as ih =>
    obtain ⟨s', hs', h'⟩ := (exec_cons_eq_some step).1 h
    exact ih (hstep s a s' h0 hm.head hs') (hm.tail hs') h'

/-- The same in every state the run passes through. -/
theorem exec_forall_inv_of_meets {ok : σ → α → Prop} {P : σ → Prop}
    (hstep : ∀ s a s', P s → ok s a → step s a = some s' → P s') {s : σ} {as : List α}
    (h0 : P s) (hm : Meets step ok s as) : ∀ t ∈ States step s as, P t := by
  induction as generalizing s with
  | nil =>
    intro t ht
    rw [States, List.mem_singleton] at ht
    exact ht ▸ h0
  | cons a as ih =>
    intro t ht
    rw [States, List.mem_cons] at ht
    rcases ht with rfl | ht
    · exact h0
    · cases hs' : step s a with
      | none => rw [hs'] at ht; cases ht
      | some s' =>
        rw [hs'] at ht
        exact ih (hstep s a s' h0 hm.head hs') (hm.tail hs') t ht

/-- **The invariant rule.**  A property every step keeps holds at the end of every run. -/
theorem exec_inv {P : σ → Prop}
    (hstep : ∀ s a s', P s → step s a = some s' → P s') {s t : σ} {as : List α}
    (h0 : P s) (h : exec step s as = some t) : P t := by
  induction as generalizing s with
  | nil =>
    rw [exec_nil, Option.some.injEq] at h
    exact h ▸ h0
  | cons a as ih =>
    obtain ⟨s', hs', h'⟩ := (exec_cons_eq_some step).1 h
    exact ih (hstep s a s' h0 hs') h'

/-- The same in every state the run passes through. -/
theorem exec_forall_inv {P : σ → Prop}
    (hstep : ∀ s a s', P s → step s a = some s' → P s') {s : σ} {as : List α}
    (h0 : P s) : ∀ t ∈ States step s as, P t :=
  exec_forall_inv_of_meets (fun s a s' hs _ h => hstep s a s' hs h) h0
    (meets_of_forall (fun _ _ _ => trivial) s)

/-- **The termination rule.**  Where every step makes a measure smaller, in the states that
satisfy an invariant, the measure at the start bounds the length of every run. -/
theorem exec_length_le {P : σ → Prop} {m : σ → Nat}
    (hstep : ∀ s a s', P s → step s a = some s' → P s')
    (hm : ∀ s a s', P s → step s a = some s' → m s' < m s) {s t : σ} {as : List α}
    (h0 : P s) (h : exec step s as = some t) : as.length ≤ m s := by
  induction as generalizing s with
  | nil => exact Nat.zero_le _
  | cons a as ih =>
    obtain ⟨s', hs', h'⟩ := (exec_cons_eq_some step).1 h
    have hrest := ih (hstep s a s' h0 hs') h'
    have hlt := hm s a s' h0 hs'
    rw [List.length_cons]
    omega

end Ps5Upload.Runs
