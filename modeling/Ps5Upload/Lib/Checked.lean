import Mathlib.Algebra.Group.Int.Defs
import Mathlib.Algebra.Group.Nat.Defs
import Mathlib.Data.List.Basic
import Mathlib.Tactic.Common

/-!
# Programs with checked operations

A program whose indexing, slicing, subtraction, addition and shifts are checked by the language.
It returns a value, one of its own errors, or *panics* where a check fails.  `Safe post x` says
that `x` does not panic and that what it returns satisfies `post`; the rules below take a program
apart along its binds and discharge each check from what is known there.

* `Safe.bind` — the rule of sequential composition, and `Safe.mono`, that of consequence;
* `safe_index`, `safe_slice`, `safe_store`, `safe_sub`, `safe_add`, `safe_mul` — one rule for every
  checked operation;
* `safe_fold`, `safe_fold_range` — a loop over a list keeps what every turn of it keeps;
* `safe_collect`, `safe_forEach` — a function over a list, stopped at its first failure.
-/

namespace Ps5Upload.Checked

/-- How a program fails: with an error of its own, or at a check of the language. -/
inductive Fault (ε : Type) where
  | error (e : ε)
  | panic
  deriving DecidableEq, Repr

abbrev Res (ε α : Type) := Except (Fault ε) α

variable {ε α β : Type}

/-! ## Operations -/

def fail (e : ε) : Res ε α := .error (.error e)

def panic : Res ε α := .error .panic

def index (xs : List α) (i : Nat) : Res ε α :=
  match xs[i]? with
  | some x => .ok x
  | none => panic

/-- The elements from `a` up to `b`. -/
def slice (xs : List α) (a b : Nat) : Res ε (List α) :=
  if a ≤ b ∧ b ≤ xs.length then .ok ((xs.drop a).take (b - a)) else panic

def store (xs : List α) (i : Nat) (x : α) : Res ε (List α) :=
  if i < xs.length then .ok (xs.set i x) else panic

def sub (a b : Nat) : Res ε Nat := if b ≤ a then .ok (a - b) else panic

/-- `ys` copied over the elements from `i` on. -/
def blit (xs : List α) (i : Nat) (ys : List α) : Res ε (List α) :=
  if i + ys.length ≤ xs.length then .ok (xs.take i ++ ys ++ xs.drop (i + ys.length)) else panic

/-- The element at `i`, or the error of the program's own where there is none. -/
def getOr (xs : List α) (i : Nat) (e : ε) : Res ε α :=
  match xs[i]? with
  | some x => .ok x
  | none => fail e

/-- Subtraction of a natural number from a signed `w`-bit one: it can only fall below the range. -/
def isub (w : Nat) (a : Int) (b : Nat) : Res ε Int :=
  if -(2 ^ (w - 1)) ≤ a - b then .ok (a - b) else panic

/-- Addition of `w`-bit numbers. -/
def add (w a b : Nat) : Res ε Nat := if a + b < 2 ^ w then .ok (a + b) else panic

/-- Multiplication of `w`-bit numbers. -/
def mul (w a b : Nat) : Res ε Nat := if a * b < 2 ^ w then .ok (a * b) else panic

/-- Shifts of `w`-bit numbers; bits that leave the number are lost. -/
def shl (w a n : Nat) : Res ε Nat := if n < w then .ok ((a <<< n) % 2 ^ w) else panic

def shr (w a n : Nat) : Res ε Nat := if n < w then .ok (a >>> n) else panic

/-- The remainder; the divisor is not allowed to be zero. -/
def rem (a b : Nat) : Res ε Nat := if 0 < b then .ok (a % b) else panic

variable {xs ys as : List α} {i a b w n : Nat} {f : α → Res ε β}

theorem index_eq {x : α} (h : xs[i]? = some x) : (index xs i : Res ε _) = .ok x := by
  rw [index, h]

theorem index_eq_ok {x : α} : (index xs i : Res ε _) = .ok x ↔ xs[i]? = some x := by
  refine ⟨fun h => ?_, index_eq⟩
  unfold index at h
  split at h
  · rename_i y hy
    cases h
    exact hy
  · cases h

theorem slice_eq (hab : a ≤ b) (hb : b ≤ xs.length) :
    (slice xs a b : Res ε _) = .ok ((xs.drop a).take (b - a)) := if_pos ⟨hab, hb⟩

theorem store_eq (h : i < xs.length) (x : α) :
    (store xs i x : Res ε _) = .ok (xs.set i x) := if_pos h

theorem sub_eq (h : b ≤ a) : (sub a b : Res ε _) = .ok (a - b) := if_pos h

theorem blit_eq (h : i + ys.length ≤ xs.length) :
    (blit xs i ys : Res ε _) = .ok (xs.take i ++ ys ++ xs.drop (i + ys.length)) := if_pos h

/-- What is copied over changes no length. -/
theorem length_blit {zs : List α} (h : (blit xs i ys : Res ε _) = .ok zs) :
    zs.length = xs.length := by
  unfold blit at h
  split at h
  · cases h
    simp only [List.length_append, List.length_take, List.length_drop]
    omega
  · cases h

theorem isub_eq {a : Int} (h : -(2 ^ (w - 1)) ≤ a - b) :
    (isub w a b : Res ε _) = .ok (a - b) := if_pos h

theorem add_eq (h : a + b < 2 ^ w) : (add w a b : Res ε _) = .ok (a + b) := if_pos h

theorem mul_eq (h : a * b < 2 ^ w) : (mul w a b : Res ε _) = .ok (a * b) := if_pos h

theorem shl_eq (h : n < w) (a : Nat) : (shl w a n : Res ε _) = .ok ((a <<< n) % 2 ^ w) := if_pos h

theorem shr_eq (h : n < w) (a : Nat) : (shr w a n : Res ε _) = .ok (a >>> n) := if_pos h

@[simp] theorem ok_bind (a : α) (f : α → Res ε β) : ((.ok a : Res ε α) >>= f) = f a := rfl

/-- A sequence that returns has returned at its first step. -/
theorem bind_eq_ok {x : Res ε α} {b : β} : x >>= f = .ok b ↔ ∃ a, x = .ok a ∧ f a = .ok b := by
  constructor
  · intro h
    cases x with
    | ok a => exact ⟨a, rfl, h⟩
    | error e => cases h
  · rintro ⟨a, rfl, h⟩
    exact h

/-- The same, of a program without checks. -/
theorem bind_ok {e : Type} {x : Except e α} {f : α → Except e β} {b : β} (h : x >>= f = .ok b) :
    ∃ a, x = .ok a ∧ f a = .ok b := by
  cases x with
  | ok a => exact ⟨a, rfl, h⟩
  | error _ => cases h

/-- A program that is seen to return something has returned. -/
theorem ok_of_map {e : Type} {x : Except e α} {f : α → β} {b : β} (h : x.toOption.map f = some b) :
    ∃ a, x = .ok a ∧ f a = b := by
  cases x with
  | ok a => exact ⟨a, rfl, Option.some.inj h⟩
  | error _ => cases h

/-- A check of the program's own has passed where the program has returned. -/
theorem refuse_eq_ok {p : Prop} [Decidable p] {e : ε} {x : Res ε α} {a : α} :
    (if p then fail e else x) = .ok a ↔ ¬ p ∧ x = .ok a := by
  by_cases hp : p
  · rw [if_pos hp]
    exact ⟨nofun, fun h => absurd hp h.1⟩
  · rw [if_neg hp]
    exact ⟨fun h => ⟨hp, h⟩, fun h => h.2⟩

theorem add_ok {s : Nat} (h : (add w a b : Res ε _) = .ok s) : s = a + b ∧ s < 2 ^ w := by
  unfold add at h
  split at h
  · rename_i hlt
    cases h
    exact ⟨rfl, hlt⟩
  · cases h

theorem mul_ok {p : Nat} (h : (mul w a b : Res ε _) = .ok p) : p = a * b ∧ p < 2 ^ w := by
  unfold mul at h
  split at h
  · rename_i hlt
    cases h
    exact ⟨rfl, hlt⟩
  · cases h

/-! ## Safety -/

/-- No check fails, and what is returned satisfies `post`. -/
def Safe (post : α → Prop) : Res ε α → Prop
  | .ok a => post a
  | .error (.error _) => True
  | .error .panic => False

variable {post post' : α → Prop} {x : Res ε α}

theorem Safe.mono (h : Safe post x) (hp : ∀ a, post a → post' a) : Safe post' x := by
  cases x with
  | ok a => exact hp a h
  | error f =>
    cases f with
    | error e => trivial
    | panic => exact h

theorem Safe.bind {q : β → Prop} (h : Safe post x)
    (hf : ∀ a, post a → Safe q (f a)) : Safe q (x >>= f) := by
  cases x with
  | ok a => exact hf a h
  | error e =>
    cases e with
    | error e => trivial
    | panic => exact h

theorem safe_fail (e : ε) : Safe post (fail e : Res ε α) := trivial

theorem safe_pure {a : α} (h : post a) : Safe post (.ok a : Res ε α) := h

/-- What a safe program returns. -/
theorem Safe.of_ok {a : α} (h : Safe post x) (hx : x = .ok a) : post a := by
  subst hx
  exact h

theorem Safe.ne_panic (h : Safe post x) : x ≠ panic := by
  rintro rfl
  exact h

theorem safe_index (h : i < xs.length) :
    Safe (fun a => xs[i]? = some a) (index xs i : Res ε _) := by
  rw [index_eq (List.getElem?_eq_getElem h)]
  exact List.getElem?_eq_getElem h

theorem safe_slice (hab : a ≤ b) (hb : b ≤ xs.length) :
    Safe (fun ys => ys.length = b - a) (slice xs a b : Res ε _) := by
  rw [slice_eq hab hb]
  show ((xs.drop a).take (b - a)).length = b - a
  rw [List.length_take, List.length_drop]
  omega

theorem safe_store (h : i < xs.length) (x : α) :
    Safe (fun ys => ys.length = xs.length) (store xs i x : Res ε _) := by
  rw [store_eq h]
  exact List.length_set

theorem safe_blit (h : i + ys.length ≤ xs.length) :
    Safe (fun zs => zs.length = xs.length) (blit xs i ys : Res ε _) := by
  rw [blit_eq h]
  show (xs.take i ++ ys ++ xs.drop (i + ys.length)).length = xs.length
  simp only [List.length_append, List.length_take, List.length_drop]
  omega

theorem safe_getOr (xs : List α) (i : Nat) (e : ε) :
    Safe (fun a => xs[i]? = some a) (getOr xs i e) := by
  unfold getOr
  split
  · rename_i x hx
    exact hx
  · exact safe_fail e

theorem safe_sub (h : b ≤ a) : Safe (fun d => d = a - b) (sub a b : Res ε _) := by
  rw [sub_eq h]
  exact rfl

theorem safe_add (h : a + b < 2 ^ w) : Safe (fun s => s = a + b) (add w a b : Res ε _) := by
  rw [add_eq h]
  exact rfl

theorem safe_mul (h : a * b < 2 ^ w) : Safe (fun p => p = a * b) (mul w a b : Res ε _) := by
  rw [mul_eq h]
  exact rfl

theorem safe_shl (h : n < w) (a : Nat) :
    Safe (fun s => s = (a <<< n) % 2 ^ w) (shl w a n : Res ε _) := by
  rw [shl_eq h]
  exact rfl

theorem safe_rem (h : 0 < b) : Safe (fun r => r = a % b) (rem a b : Res ε _) := by
  rw [rem, if_pos h]
  exact rfl

/-- A check of the program's own, and what it leaves to be shown. -/
theorem safe_refuse {p : Prop} [Decidable p] {e : ε} (h : ¬ p → Safe post x) :
    Safe post (if p then fail e else x) := by
  by_cases hp : p
  · rw [if_pos hp]
    exact safe_fail e
  · rw [if_neg hp]
    exact h hp

/-- A loop over a list, stopped by the first turn that fails. -/
def fold (f : β → α → Res ε β) : β → List α → Res ε β
  | b, [] => .ok b
  | b, a :: as => do
    let b' ← f b a
    fold f b' as

/-- A loop keeps what every turn keeps. -/
theorem safe_fold {I : β → Prop} {f : β → α → Res ε β} {b : β} (hb : I b)
    (hf : ∀ b a, a ∈ as → I b → Safe I (f b a)) : Safe I (fold f b as) := by
  induction as generalizing b with
  | nil => exact hb
  | cons a as ih =>
    refine Safe.bind (hf b a List.mem_cons_self hb) fun b' hb' => ?_
    exact ih hb' fun c a' ha' hc => hf c a' (List.mem_cons_of_mem a ha') hc

/-- A loop over the numbers below `n` keeps what every turn keeps, where the turn's number counts. -/
theorem safe_fold_range {inv : Nat → β → Prop} {f : β → Nat → Res ε β} {n : Nat} {b : β} (hb : inv 0 b)
    (hf : ∀ i b, i < n → inv i b → Safe (inv (i + 1)) (f b i)) :
    Safe (inv n) (fold f b (List.range n)) := by
  have run : ∀ todo i b, i + todo = n → inv i b → Safe (inv n) (fold f b (List.range' i todo)) := by
    intro todo
    induction todo with
    | zero =>
      intro i b hi hinv
      exact (show i = n by omega) ▸ hinv
    | succ todo ih =>
      intro i b hi hinv
      rw [List.range'_succ, fold]
      exact Safe.bind (hf i b (by omega) hinv) fun b' hb' => ih (i + 1) b' (by omega) hb'
  rw [List.range_eq_range']
  exact run n 0 b (by omega) hb

/-- The results of a program over a list, or its first failure. -/
def collect (f : α → Res ε β) : List α → Res ε (List β)
  | [] => .ok []
  | a :: as => do
    let b ← f a
    let bs ← collect f as
    return b :: bs

theorem collect_eq {g : α → β} (h : ∀ a ∈ as, f a = .ok (g a)) : collect f as = .ok (as.map g) := by
  induction as with
  | nil => rfl
  | cons a as ih =>
    rw [collect, h a List.mem_cons_self, ih fun a' ha' => h a' (List.mem_cons_of_mem a ha')]
    rfl

/-- Where the whole list has results, every element has one. -/
theorem collect_ok {bs : List β} (h : collect f as = .ok bs) : ∀ a ∈ as, ∃ b, f a = .ok b := by
  induction as generalizing bs with
  | nil => exact nofun
  | cons a as ih =>
    obtain ⟨b, hb, h⟩ := bind_eq_ok.1 h
    obtain ⟨bs', hbs, -⟩ := bind_eq_ok.1 h
    intro a' ha'
    rcases List.mem_cons.1 ha' with rfl | ha'
    · exact ⟨b, hb⟩
    · exact ih hbs a' ha'

theorem length_collect {bs : List β} (h : collect f as = .ok bs) : bs.length = as.length := by
  induction as generalizing bs with
  | nil =>
    cases h
    rfl
  | cons a as ih =>
    obtain ⟨b, -, h⟩ := bind_eq_ok.1 h
    obtain ⟨bs', hbs, h⟩ := bind_eq_ok.1 h
    cases h
    rw [List.length_cons, List.length_cons, ih hbs]

theorem safe_collect {P : α → β → Prop}
    (h : ∀ a ∈ as, Safe (P a) (f a)) : Safe (List.Forall₂ P as) (collect f as) := by
  induction as with
  | nil => exact List.Forall₂.nil
  | cons a as ih =>
    refine Safe.bind (h a List.mem_cons_self) fun b hb => ?_
    refine Safe.bind (ih fun a' ha' => h a' (List.mem_cons_of_mem a ha')) fun bs hbs => ?_
    exact List.Forall₂.cons hb hbs

theorem safe_collect_all {P : β → Prop} (h : ∀ a ∈ as, Safe P (f a)) :
    Safe (fun bs => ∀ b ∈ bs, P b) (collect f as) := by
  induction as with
  | nil => exact nofun
  | cons a as ih =>
    refine Safe.bind (h a List.mem_cons_self) fun b hb => ?_
    refine Safe.bind (ih fun a' ha' => h a' (List.mem_cons_of_mem a ha')) fun bs hbs => ?_
    exact List.forall_mem_cons.2 ⟨hb, hbs⟩

/-- A check of every element, stopped by the first that fails. -/
def forEach (f : α → Res ε Unit) : List α → Res ε Unit
  | [] => .ok ()
  | a :: as => do
    f a
    forEach f as

theorem safe_forEach {P : α → Prop} {f : α → Res ε Unit}
    (h : ∀ a ∈ as, Safe (fun _ => P a) (f a)) : Safe (fun _ => ∀ a ∈ as, P a) (forEach f as) := by
  induction as with
  | nil => exact nofun
  | cons a as ih =>
    refine Safe.bind (h a List.mem_cons_self) fun _ ha => ?_
    refine (ih fun a' ha' => h a' (List.mem_cons_of_mem a ha')).mono fun _ has => ?_
    exact List.forall_mem_cons.2 ⟨ha, has⟩

end Ps5Upload.Checked
