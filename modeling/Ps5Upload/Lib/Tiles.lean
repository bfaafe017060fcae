import Mathlib.Algebra.GroupWithZero.Nat
import Mathlib.Data.List.Basic
import Mathlib.Data.List.Count

/-!
# Ranges that follow one another

Ranges, as starts and lengths, that follow one another from one place to another leave nothing out and
cover nothing twice.

* `Tiles` — ranges one after the other;
* `Tiles.find` — a place is in the first range that ends behind it;
* `Tiles.countP` — and in no other.
-/

namespace Ps5Upload

/-- Ranges that follow one another from `a` to `b`. -/
def Tiles : Nat → List (Nat × Nat) → Nat → Prop
  | a, [], b => a = b
  | a, m :: ms, b => m.1 = a ∧ Tiles (a + m.2) ms b

namespace Tiles

variable {a b c x : Nat} {ms ms' : List (Nat × Nat)}

theorem append (h : Tiles a ms b) (h' : Tiles b ms' c) : Tiles a (ms ++ ms') c := by
  induction ms generalizing a with
  | nil => exact (show a = b from h) ▸ h'
  | cons m ms ih => exact ⟨h.1, ih h.2⟩

/-- Where the first ranges end, the others begin. -/
theorem of_append (h : Tiles a (ms ++ ms') c) : ∃ b, Tiles a ms b ∧ Tiles b ms' c := by
  induction ms generalizing a with
  | nil => exact ⟨a, rfl, h⟩
  | cons m ms ih =>
    obtain ⟨b, hms, hms'⟩ := ih h.2
    exact ⟨b, ⟨h.1, hms⟩, hms'⟩

theorem le (h : Tiles a ms b) : a ≤ b := by
  induction ms generalizing a with
  | nil => exact Nat.le_of_eq h
  | cons m ms ih => exact Nat.le_trans (Nat.le_add_right _ _) (ih h.2)

/-- The lengths add up to the way from end to end. -/
theorem sum_eq (h : Tiles a ms b) : a + (ms.map Prod.snd).sum = b := by
  induction ms generalizing a with
  | nil => exact h
  | cons m ms ih =>
    have := ih h.2
    rw [List.map_cons, List.sum_cons]
    omega

theorem mem_le (h : Tiles a ms b) : ∀ m ∈ ms, a ≤ m.1 ∧ m.1 + m.2 ≤ b := by
  induction ms generalizing a with
  | nil => exact nofun
  | cons m ms ih =>
    intro m' hm'
    have hm := h.1
    rcases List.mem_cons.1 hm' with rfl | hm'
    · have hle := h.2.le
      omega
    · have := ih h.2 m' hm'
      omega

/-- The ranges all moved by `k`. -/
theorem shift (h : Tiles a ms b) (k : Nat) : Tiles (k + a) (ms.map fun m => (k + m.1, m.2)) (k + b) := by
  induction ms generalizing a with
  | nil => exact congrArg (k + ·) h
  | cons m ms ih => exact ⟨congrArg (k + ·) h.1, Nat.add_assoc k a m.2 ▸ ih h.2⟩

/-- The first range that ends behind a place holds it. -/
theorem find (h : Tiles a ms b) (ha : a ≤ x) (hb : x < b) :
    ∃ i m, ms.findIdx? (fun m => x < m.1 + m.2) = some i ∧ ms[i]? = some m ∧ m.1 ≤ x ∧ x < m.1 + m.2 := by
  induction ms generalizing a with
  | nil => exact absurd (show a = b from h) (by omega)
  | cons m ms ih =>
    have hm := h.1
    rw [List.findIdx?_cons]
    by_cases hx : x < m.1 + m.2
    · exact ⟨0, m, if_pos (decide_eq_true hx), rfl, by omega, hx⟩
    · obtain ⟨i, m', hfind, hget, hlo, hhi⟩ := ih h.2 (by omega)
      refine ⟨i + 1, m', ?_, hget, hlo, hhi⟩
      rw [if_neg (by simpa using hx), hfind]
      rfl

/-- Behind the last range there is none. -/
theorem find_none (h : Tiles a ms b) (hb : b ≤ x) :
    ms.findIdx? (fun m => x < m.1 + m.2) = none := by
  induction ms generalizing a with
  | nil => rfl
  | cons m ms ih =>
    have hle := h.2.le
    have hm := h.1
    rw [List.findIdx?_cons, if_neg (by simp; omega), ih h.2]
    rfl

/-- A place between the ends is in one range, and no other place is in any. -/
theorem countP (h : Tiles a ms b) (x : Nat) :
    ms.countP (fun m => m.1 ≤ x ∧ x < m.1 + m.2) = if a ≤ x ∧ x < b then 1 else 0 := by
  induction ms generalizing a with
  | nil =>
    have hab : a = b := h
    rw [if_neg (by omega)]
    rfl
  | cons m ms ih =>
    have hle := h.2.le
    have hm := h.1
    rw [List.countP_cons, ih h.2]
    simp only [decide_eq_true_eq]
    split <;> split <;> split <;> omega

end Tiles

end Ps5Upload
