import Mathlib.Tactic.Common
import Mathlib.Data.Nat.Init

/-!
# Loops that a measure ends

A loop over a state that may fail: its body either ends it with a value or asks for another turn.  The
turn is taken where the measure has gone down, so the loop always ends; `stuck` is what it would return
otherwise, and a proof that the body lowers the measure shows that it does not.

* `loop_stop`, `loop_fail`, `loop_again` — the three ways a turn can go.
-/

namespace Ps5Upload.Loops

variable {σ ε α : Type} {μ : σ → Nat} {stuck e : ε} {body : StateT σ (Except ε) (Option α)} {s s' : σ}
  {a : α}

def loop (μ : σ → Nat) (stuck : ε) (body : StateT σ (Except ε) (Option α)) (s : σ) :
    Except ε (α × σ) :=
  match body s with
  | .error e => .error e
  | .ok (some a, s') => .ok (a, s')
  | .ok (none, s') => if _h : μ s' < μ s then loop μ stuck body s' else .error stuck
termination_by μ s

theorem loop_stop (h : body s = .ok (some a, s')) : loop μ stuck body s = .ok (a, s') := by
  rw [loop, h]

theorem loop_fail (h : body s = .error e) : loop μ stuck body s = .error e := by
  rw [loop, h]

theorem loop_again (h : body s = .ok (none, s')) (hμ : μ s' < μ s) :
    loop μ stuck body s = loop μ stuck body s' := by
  rw [loop, h]
  exact dif_pos hμ

/-- A loop turns alike from two states from which its body does the same. -/
theorem loop_congr {t : σ} (hμ : ∀ s s', body s = .ok (none, s') → μ s' < μ s) (h : body s = body t) :
    loop μ stuck body s = loop μ stuck body t := by
  rw [loop, loop, ← h]
  split
  · rfl
  · rfl
  · rename_i s' hs
    rw [dif_pos (hμ s s' hs), dif_pos (hμ t s' (h ▸ hs))]

/-- What holds at the head of every turn holds in front of the last one. -/
theorem loop_rule {I : σ → Prop} (hstep : ∀ s s', I s → body s = .ok (none, s') → I s') (hs : I s)
    (h : loop μ stuck body s = .ok (a, s')) : ∃ t, I t ∧ body t = .ok (some a, s') := by
  induction hm : μ s using Nat.strong_induction_on generalizing s with
  | _ m ih =>
    rw [loop] at h
    split at h
    · simp at h
    · rename_i hb
      cases h
      exact ⟨s, hs, hb⟩
    · rename_i t hb
      split at h
      · rename_i hμ
        exact ih _ (hm ▸ hμ) (hstep s t hs hb) h rfl
      · simp at h

end Ps5Upload.Loops
