import Ps5Upload.Lib.Checked

/-!
# Programs that keep what they found

A checked program with a state of its own: a cache, a cursor, a table it read once.  The state
survives a failure, as a field behind a mutable reference does.  `Returns inv f post` says that from
every state of `inv` the outcome of `f` — a value, an error or a panic — satisfies `post`, and that
`f` ends in a state of `inv`; `Computes inv f r` that the outcome is `r` whatever the state holds, so
the state speeds `f` up and says nothing.

* `Computes.bind` — a sequence of programs that depend on no state depends on none;
* `Returns.of_computes` — what holds of the stateless outcome.
-/

namespace Ps5Upload.Caching

open Checked

variable {σ ε α β : Type}

/-- A checked program over a state of type `σ`. -/
abbrev Act (σ ε α : Type) := ExceptT (Fault ε) (StateM σ) α

/-- The outcome of a program and the state it ends in. -/
def exec (f : Act σ ε α) (s : σ) : Res ε α × σ := f s

/-- A program that leaves the state alone. -/
def lift (r : Res ε α) : Act σ ε α := fun s => (r, s)

/-- The program that depends on the state only by `f`. -/
def look (f : σ → Act σ ε α) : Act σ ε α := fun s => f s s

def change (f : σ → σ) : Act σ ε Unit := fun s => (.ok (), f s)

@[simp] theorem exec_lift (r : Res ε α) (s : σ) : exec (lift r) s = (r, s) := rfl

@[simp] theorem exec_look (f : σ → Act σ ε α) (s : σ) : exec (look f) s = exec (f s) s := rfl

@[simp] theorem exec_change (f : σ → σ) (s : σ) :
    exec (change f : Act σ ε Unit) s = (.ok (), f s) := rfl

theorem exec_bind (f : Act σ ε α) (g : α → Act σ ε β) (s : σ) :
    exec (f >>= g) s = match exec f s with
      | (.ok a, t) => exec (g a) t
      | (.error e, t) => (.error e, t) := by
  have h : exec (f >>= g) s =
      (ExceptT.bindCont (m := StateM σ) g (exec f s).1 : StateM σ (Res ε β)) (exec f s).2 := rfl
  rw [h]
  cases exec f s with
  | mk r t =>
    cases r with
    | ok a => rfl
    | error e => rfl

/-- From every state of `inv` the outcome satisfies `post` and the state stays in `inv`. -/
def Returns (inv : σ → Prop) (f : Act σ ε α) (post : Res ε α → Prop) : Prop :=
  ∀ s, inv s → post (exec f s).1 ∧ inv (exec f s).2

/-- The outcome is `r` from every state of `inv`. -/
def Computes (inv : σ → Prop) (f : Act σ ε α) (r : Res ε α) : Prop := Returns inv f (· = r)

variable {inv : σ → Prop} {f : Act σ ε α} {g : α → Act σ ε β}

variable {p : Res ε α → Prop} {r : Res ε α}

theorem Returns.mono {q : Res ε α → Prop} (h : Returns inv f p) (hpq : ∀ r, p r → q r) :
    Returns inv f q :=
  fun s hs => ⟨hpq _ (h s hs).1, (h s hs).2⟩

theorem Returns.of_computes (h : Computes inv f r) (hp : p r) : Returns inv f p :=
  Returns.mono h fun _ hr => hr ▸ hp

theorem returns_lift (h : p r) : Returns inv (lift r) p :=
  fun _ hs => ⟨h, hs⟩

theorem computes_lift (r : Res ε α) : Computes inv (lift r) r := returns_lift rfl

theorem computes_pure (a : α) : Computes inv (pure a : Act σ ε α) (.ok a) :=
  fun _ hs => ⟨rfl, hs⟩

theorem returns_look {h : σ → Act σ ε α}
    (hf : ∀ s, inv s → Returns inv (h s) p) : Returns inv (look h) p :=
  fun s hs => hf s hs s hs

theorem returns_change {u : σ → σ} {p : Res ε Unit → Prop} (hu : ∀ s, inv s → inv (u s))
    (hp : p (.ok ())) : Returns inv (change u) p :=
  fun s hs => ⟨hp, hu s hs⟩

/-- **Sequential composition.** -/
theorem Returns.bind {q : Res ε β → Prop} (h : Returns inv f p)
    (hok : ∀ a, p (.ok a) → Returns inv (g a) q) (herr : ∀ e, p (.error e) → q (.error e)) :
    Returns inv (f >>= g) q := by
  intro s hs
  obtain ⟨hp, hinv⟩ := h s hs
  rw [exec_bind]
  cases hf : exec f s with
  | mk r t =>
    rw [hf] at hp hinv
    cases r with
    | ok a => exact hok a hp t hinv
    | error e => exact ⟨herr e hp, hinv⟩

theorem Computes.bind {k : α → Res ε β} (h : Computes inv f r)
    (hk : ∀ a, r = .ok a → Computes inv (g a) (k a)) : Computes inv (f >>= g) (r >>= k) := by
  refine Returns.bind h (fun a ha => ?_) fun e he => ?_
  · rw [← ha]
    exact hk a ha.symm
  · rw [← he]
    rfl

/-- A step whose outcome is known, and what follows it. -/
theorem Returns.bind_computes {q : Res ε β → Prop} (h : Computes inv f r)
    (hok : ∀ a, r = .ok a → Returns inv (g a) q) (herr : ∀ e, r = .error e → q (.error e)) :
    Returns inv (f >>= g) q :=
  Returns.bind h (fun a ha => hok a ha.symm) fun e he => herr e he.symm

/-! ## Agreement with a plain program -/

/-- The outcome is what `o` says: the same value, or an error where there is none.  It is no
panic. -/
def Agrees (o : Option α) : Res ε α → Prop
  | .ok a => o = some a
  | .error (.error _) => o = none
  | .error .panic => False

theorem agrees_ok (a : α) : Agrees (some a) (.ok a : Res ε α) := rfl

theorem agrees_fail (e : ε) : Agrees none (fail e : Res ε α) := rfl

theorem Agrees.eq_ok {a : α} (h : Agrees (some a) r) : r = .ok a := by
  cases r with
  | ok b => exact congrArg Except.ok (Option.some.inj h).symm
  | error e => cases e <;> cases h

theorem Agrees.toOption {o : Option α} (h : Agrees o r) : r.toOption = o := by
  cases r with
  | ok a => exact h.symm
  | error e =>
    cases e with
    | error e => exact h.symm
    | panic => exact h.elim

theorem Agrees.safe {o : Option α} {post : α → Prop} (h : Agrees o r)
    (hp : ∀ a, o = some a → post a) : Safe post r := by
  cases r with
  | ok a => exact hp a h
  | error e =>
    cases e with
    | error e => trivial
    | panic => exact h

end Ps5Upload.Caching
