import Mathlib.Logic.Basic
import Mathlib.Tactic.Common

/-!
# Programs and the moments they pass through

A program over states takes a state to a value and a last state, and leaves behind the states it
has passed through.  `Keeps I P p Q` is a rule for such programs: from a state with `P`, every state
that `p` passes through has `I`, and the value and the last state have `Q`.  What holds *at every
moment*, a power cut included, is the `I`.

* `Keeps.bind` — one program after another: the second begins with what the first ends with;
* `Keeps.act` — one action is one moment;
* `Keeps.mono` — the rule of consequence;
* `Shows`, `Quiet` — the same for assertions about a part of the state, and for programs that leave
  that part alone;
* `Tells` — a rule about the steps that a program takes, from state to state.
-/

namespace Ps5Upload.Moments

variable {σ α β : Type}

/-- What a program has done: its value, the state it ends in, and the states after its steps. -/
structure Run (σ α : Type) where
  value : α
  last : σ
  seen : List σ

/-- A program over the states `σ`. -/
def Prog (σ α : Type) := σ → Run σ α

namespace Prog

instance : Monad (Prog σ) where
  pure a := fun s => ⟨a, s, []⟩
  bind p f := fun s =>
    let r := p s
    let r' := f r.value r.last
    ⟨r'.value, r'.last, r.seen ++ r'.seen⟩

/-- The value of one program after another. -/
theorem value_bind (p : Prog σ α) (f : α → Prog σ β) (s : σ) :
    ((p >>= f) s).value = (f (p s).value (p s).last).value := rfl

/-- One action: the state after it is a moment of its own. -/
def act (f : σ → α × σ) : Prog σ α := fun s => ⟨(f s).1, (f s).2, [(f s).2]⟩

/-- A look at the state, which changes nothing. -/
def look (f : σ → α) : Prog σ α := fun s => ⟨f s, s, []⟩

end Prog

/-! ## The rules -/

/-- From a state with `P`, the states passed through have `I`, the value and the last state `Q`. -/
def Keeps (I P : σ → Prop) (p : Prog σ α) (Q : α → σ → Prop) : Prop :=
  ∀ s, P s → (∀ t ∈ (p s).seen, I t) ∧ Q (p s).value (p s).last

namespace Keeps

variable {I I' P P' : σ → Prop} {p : Prog σ α} {f : α → Prog σ β} {Q Q' : α → σ → Prop}
  {R : β → σ → Prop}

theorem pure {a : α} (h : ∀ s, P s → Q a s) : Keeps I P (Pure.pure a) Q :=
  fun s hs => ⟨nofun, h s hs⟩

theorem act {g : σ → α × σ} (h : ∀ s, P s → I (g s).2 ∧ Q (g s).1 (g s).2) :
    Keeps I P (Prog.act g) Q := by
  intro s hs
  refine ⟨fun t ht => ?_, (h s hs).2⟩
  rw [List.mem_singleton.1 ht]
  exact (h s hs).1

theorem look {g : σ → α} (h : ∀ s, P s → Q (g s) s) : Keeps I P (Prog.look g) Q :=
  fun s hs => ⟨nofun, h s hs⟩

/-- One program after another. -/
theorem bind (hp : Keeps I P p Q) (hf : ∀ a, Keeps I (Q a) (f a) R) : Keeps I P (p >>= f) R := by
  intro s hs
  obtain ⟨hseen, hq⟩ := hp s hs
  obtain ⟨hseen', hr⟩ := hf (p s).value (p s).last hq
  refine ⟨fun t ht => ?_, hr⟩
  rcases List.mem_append.1 ht with h | h
  · exact hseen t h
  · exact hseen' t h

theorem mono (h : Keeps I P p Q) (hI : ∀ s, I s → I' s) (hP : ∀ s, P' s → P s)
    (hQ : ∀ a s, Q a s → Q' a s) : Keeps I' P' p Q' :=
  fun s hs => ⟨fun t ht => hI t ((h s (hP s hs)).1 t ht), hQ _ _ (h s (hP s hs)).2⟩

theorem pre (h : Keeps I P p Q) (hP : ∀ s, P' s → P s) : Keeps I P' p Q :=
  h.mono (fun _ => id) hP fun _ _ => id

theorem post (h : Keeps I P p Q) (hQ : ∀ a s, Q a s → Q' a s) : Keeps I P p Q' :=
  h.mono (fun _ => id) (fun _ => id) hQ

/-- What a first state has may be used to prove the rule for it. -/
theorem of_pre (h : ∀ s, P s → Keeps I (fun t => t = s) p Q) : Keeps I P p Q :=
  fun s hs => h s hs s rfl

/-- What does not depend on the state may be used to prove the rule. -/
theorem of_and {χ : Prop} (h : χ → Keeps I P p Q) : Keeps I (fun s => χ ∧ P s) p Q :=
  fun s hs => h hs.1 s hs.2

/-- A program that only looks leaves the state alone. -/
theorem look_bind {g : σ → α} (h : ∀ a, Keeps I (fun s => P s ∧ g s = a) (f a) R) :
    Keeps I P (Prog.look g >>= f) R :=
  bind (look fun _ hs => ⟨hs, rfl⟩) h

end Keeps

/-! ## Assertions about a part of the state -/

section View

variable {ν : Type} {view : σ → ν} {J P P' : ν → Prop} {p : Prog σ α} {f : α → Prog σ β}
  {Q Q' : α → ν → Prop} {R : β → ν → Prop} {φ ψ : α → Prop} {χ : β → Prop}

/-- The rule of `Keeps`, for assertions about a part of the state. -/
def Shows (view : σ → ν) (J P : ν → Prop) (p : Prog σ α) (Q : α → ν → Prop) : Prop :=
  Keeps (fun s => J (view s)) (fun s => P (view s)) p fun a s => Q a (view s)

/-- A program that leaves the part alone; its value has `φ`. -/
def Quiet (view : σ → ν) (p : Prog σ α) (φ : α → Prop) : Prop :=
  ∀ v, Shows view (· = v) (· = v) p fun a u => u = v ∧ φ a

theorem Shows.pure {a : α} (h : ∀ u, P u → Q a u) : Shows view J P (Pure.pure a) Q :=
  Keeps.pure fun _ hs => h _ hs

theorem Shows.bind (hp : Shows view J P p Q) (hf : ∀ a, Shows view J (Q a) (f a) R) :
    Shows view J P (p >>= f) R :=
  Keeps.bind hp hf

theorem Shows.pre (h : Shows view J P p Q) (hP : ∀ u, P' u → P u) : Shows view J P' p Q :=
  Keeps.pre h fun _ hs => hP _ hs

theorem Shows.post (h : Shows view J P p Q) (hQ : ∀ a u, Q a u → Q' a u) :
    Shows view J P p Q' :=
  Keeps.post h fun _ _ hs => hQ _ _ hs

/-- What the part is at first may be fixed. -/
theorem Shows.of_view (h : ∀ v, P v → Shows view J (· = v) p Q) : Shows view J P p Q :=
  fun s hs => h (view s) hs s rfl

theorem Shows.of_and {χ : Prop} (h : χ → Shows view J P p Q) :
    Shows view J (fun u => χ ∧ P u) p Q :=
  Keeps.of_and h

theorem Quiet.pure {a : α} (h : φ a) : Quiet view (Pure.pure a) φ :=
  fun _ => Shows.pure fun _ hu => ⟨hu, h⟩

theorem Quiet.bind (hp : Quiet view p φ) (hf : ∀ a, φ a → Quiet view (f a) χ) :
    Quiet view (p >>= f) χ := by
  intro v
  refine Shows.bind (hp v) fun a => Shows.of_view ?_
  rintro u ⟨rfl, ha⟩
  exact hf a ha u

theorem Quiet.mono (h : Quiet view p φ) (hφ : ∀ a, φ a → ψ a) : Quiet view p ψ :=
  fun v => (h v).post fun _ _ ⟨hu, ha⟩ => ⟨hu, hφ _ ha⟩

end View

/-! ## The steps of a program -/

section Steps

variable {ν : Type} {view : σ → ν} {P P' : ν → Prop} {p : Prog σ α} {f : α → Prog σ β}
  {Q Q' : List (σ × σ) → α → ν → Prop} {R : List (σ × σ) → β → ν → Prop}

/-- The states before and after each step. -/
def steps (p : Prog σ α) (s : σ) : List (σ × σ) := (s :: (p s).seen).zip (p s).seen

/-- From a state whose part has `P`, the program ends where its last step has led, and `Q` is what its steps,
its value and the last state have. -/
def Tells (view : σ → ν) (P : ν → Prop) (p : Prog σ α) (Q : List (σ × σ) → α → ν → Prop) : Prop :=
  ∀ s, P (view s) → (p s).last = (p s).seen.getLastD s ∧ Q (steps p s) (p s).value (view (p s).last)

theorem zip_append (s : σ) (as bs : List σ) :
    (s :: (as ++ bs)).zip (as ++ bs) = (s :: as).zip as ++ (as.getLastD s :: bs).zip bs := by
  induction as generalizing s with
  | nil => rfl
  | cons a as ih =>
    rw [List.cons_append, List.zip_cons_cons, List.zip_cons_cons, ih a, List.cons_append, List.getLastD_cons]

theorem Tells.pure {a : α} (h : ∀ v, P v → Q [] a v) : Tells view P (Pure.pure a) Q :=
  fun _ hs => ⟨rfl, h _ hs⟩

theorem Tells.act {g : σ → α × σ} (h : ∀ s, P (view s) → Q [(s, (g s).2)] (g s).1 (view (g s).2)) :
    Tells view P (Prog.act g) Q :=
  fun s hs => ⟨rfl, h s hs⟩

/-- One program after another: its steps come after the first one's. -/
theorem Tells.bind (hp : Tells view P p Q)
    (hf : ∀ l a, Tells view (Q l a) (f a) fun l' b v => R (l ++ l') b v) : Tells view P (p >>= f) R := by
  intro s hs
  obtain ⟨hlast, hq⟩ := hp s hs
  obtain ⟨hlast', hr⟩ := hf _ _ _ hq
  have hend : (f (p s).value (p s).last).last =
      ((p s).seen ++ (f (p s).value (p s).last).seen).getLastD s := by
    rw [hlast', List.getLastD_eq_getLast?, List.getLastD_eq_getLast?, List.getLast?_append, hlast,
      List.getLastD_eq_getLast?]
    cases (f (p s).value (((p s).seen.getLast?).getD s)).seen.getLast? <;> rfl
  refine ⟨hend, ?_⟩
  have hsteps : steps (p >>= f) s = steps p s ++ steps (f (p s).value) (p s).last := by
    have hzip := zip_append s (p s).seen (f (p s).value (p s).last).seen
    rwa [← hlast] at hzip
  rw [hsteps]
  exact hr

theorem Tells.mono (h : Tells view P p Q) (hP : ∀ v, P' v → P v) (hQ : ∀ l a v, Q l a v → Q' l a v) :
    Tells view P' p Q' :=
  fun s hs => ⟨(h s (hP _ hs)).1, hQ _ _ _ (h s (hP _ hs)).2⟩

theorem Tells.pre (h : Tells view P p Q) (hP : ∀ v, P' v → P v) : Tells view P' p Q :=
  h.mono hP fun _ _ _ => id

theorem Tells.post (h : Tells view P p Q) (hQ : ∀ l a v, Q l a v → Q' l a v) : Tells view P p Q' :=
  h.mono (fun _ => id) hQ

/-- What does not depend on the state may be used to prove the rule. -/
theorem Tells.frame {χ : Prop} (h : χ → Tells view P p Q) : Tells view (fun v => P v ∧ χ) p Q :=
  fun s hs => h hs.2 s hs.1

end Steps

end Ps5Upload.Moments
