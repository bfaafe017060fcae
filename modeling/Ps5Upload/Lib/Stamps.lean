import Mathlib.Data.List.Basic
import Mathlib.Tactic.Common
import Ps5Upload.Lib.Checked

/-!
# Pieces copied into a buffer

A buffer that is filled by copying pieces over it, none of them over another one.

* `stamp` — the copies, one after the other.
-/

namespace Ps5Upload.Stamps

open Checked

variable {ε α β : Type}

/-- Pieces copied over a buffer, one after the other. -/
def stamp (base : List α) : List (Nat × List α) → Res ε (List α)
  | [] => .ok base
  | (at', piece) :: rest => do stamp (← blit base at' piece) rest

/-- The pieces come in order, from `at'` up to `stop`. -/
def Ascending : Nat → List (Nat × List α) → Nat → Prop
  | at', [], stop => at' ≤ stop
  | at', (o, piece) :: rest, stop => at' ≤ o ∧ Ascending (o + piece.length) rest stop

variable {a b m stop : Nat} {ps qs : List (Nat × List α)}

theorem Ascending.le (h : Ascending a ps b) : a ≤ b := by
  induction ps generalizing a with
  | nil => exact h
  | cons p ps ih =>
    have hle := ih h.2
    have hp := h.1
    omega

theorem Ascending.mono (h : Ascending a ps b) (ha : m ≤ a) (hb : b ≤ stop) : Ascending m ps stop := by
  induction ps generalizing a m with
  | nil => exact Nat.le_trans ha (Nat.le_trans h hb)
  | cons p ps ih => exact ⟨Nat.le_trans ha h.1, ih h.2 (Nat.le_refl _)⟩

theorem Ascending.append (h : Ascending a ps m) (h' : Ascending m qs b) : Ascending a (ps ++ qs) b := by
  induction ps generalizing a with
  | nil => exact h'.mono h (Nat.le_refl _)
  | cons p ps ih => exact ⟨h.1, ih h.2⟩

/-- Records in turn: the pieces of the `k`-th one stand from `p k` up to `p (k + 1)`. -/
theorem ascending_mapIdx {p : Nat → Nat} {f : Nat → β → List (Nat × List α)} {l : List β}
    (h : ∀ k x, l[k]? = some x → Ascending (p k) (f k x) (p (k + 1))) :
    Ascending (p 0) (l.mapIdx f).flatten (p l.length) := by
  induction l generalizing p f with
  | nil => exact Nat.le_refl _
  | cons x xs ih =>
    rw [List.mapIdx_cons, List.flatten_cons]
    exact (h 0 x rfl).append (ih (p := fun k => p (k + 1)) fun k x hk => h (k + 1) x hk)

theorem mem_records {f : Nat → β → List (Nat × List α)} {xs : List β} {k : Nat} {x : β}
    (hk : xs[k]? = some x) {q : Nat × List α} (hq : q ∈ f k x) : q ∈ (xs.mapIdx f).flatten := by
  refine List.mem_flatten.2 ⟨f k x, ?_, hq⟩
  exact List.mem_iff_getElem?.2 ⟨k, by rw [List.getElem?_mapIdx, hk]; rfl⟩

/-- One piece: it is there, and nothing else changes. -/
theorem blit_piece {d w : List α} {i : Nat} (h : i + w.length ≤ d.length) :
    ∃ zs, (blit d i w : Res ε _) = .ok zs ∧ zs.length = d.length ∧
      (∀ p, p < i ∨ i + w.length ≤ p → zs[p]? = d[p]?) ∧ ∀ p < w.length, zs[i + p]? = w[p]? := by
  have htake : (d.take i).length = i := List.length_take_of_le (by omega)
  refine ⟨_, blit_eq h, ?_, fun p hp => ?_, fun p hp => ?_⟩
  · simp only [List.length_append, List.length_drop, htake]
    omega
  · rcases hp with hp | hp
    · rw [List.append_assoc, List.getElem?_append_left (by omega), List.getElem?_take_of_lt hp]
    · rw [List.getElem?_append_right (by rw [List.length_append]; omega), List.length_append, htake,
        List.getElem?_drop, Nat.add_sub_cancel' hp]
  · rw [List.append_assoc, List.getElem?_append_right (by omega), htake, Nat.add_sub_cancel_left,
      List.getElem?_append_left hp]

/-- Pieces that do not overlap. -/
def Apart (p q : Nat × List α) : Prop := p.1 + p.2.length ≤ q.1 ∨ q.1 + q.2.length ≤ p.1

/-- Pieces apart from one another are all copied, and each can be read back. -/
theorem stamp_apart {d : List α} (hin : ∀ q ∈ ps, q.1 + q.2.length ≤ d.length)
    (hap : ps.Pairwise Apart) :
    ∃ img, (stamp d ps : Res ε _) = .ok img ∧ img.length = d.length ∧
      (∀ p, (∀ q ∈ ps, p < q.1 ∨ q.1 + q.2.length ≤ p) → img[p]? = d[p]?) ∧
      ∀ q ∈ ps, (img.drop q.1).take q.2.length = q.2 := by
  induction ps generalizing d with
  | nil => exact ⟨d, rfl, rfl, fun _ _ => rfl, nofun⟩
  | cons q ps ih =>
    obtain ⟨o, piece⟩ := q
    obtain ⟨hq, hap⟩ := List.pairwise_cons.1 hap
    obtain ⟨zs, hzs, hlen, hout, hpiece⟩ := blit_piece (ε := ε) (hin _ List.mem_cons_self)
    obtain ⟨img, himg, hlen', hkeep, hall⟩ := ih (d := zs)
      (fun q hq => hlen ▸ hin q (List.mem_cons_of_mem _ hq)) hap
    refine ⟨img, by rw [stamp, hzs]; exact himg, hlen'.trans hlen, fun p hp => ?_, fun q' hq' => ?_⟩
    · rw [hkeep p fun q' hq' => hp q' (List.mem_cons_of_mem _ hq'), hout p (hp _ List.mem_cons_self)]
    · rcases List.mem_cons.1 hq' with rfl | hq'
      · refine List.ext_getElem? fun p => ?_
        rcases Nat.lt_or_ge p piece.length with hp | hp
        · have hfar : ∀ q' ∈ ps, o + p < q'.1 ∨ q'.1 + q'.2.length ≤ o + p := fun q' hq' => by
            rcases hq q' hq' with h | h
            · exact .inl (by dsimp only at h; omega)
            · exact .inr (by dsimp only at h; omega)
          rw [List.getElem?_take_of_lt hp, List.getElem?_drop, hkeep _ hfar, hpiece p hp]
        · rw [List.getElem?_eq_none (by simp; omega), List.getElem?_eq_none hp]
      · exact hall q' hq'

theorem Ascending.mem (h : Ascending a ps b) : ∀ q ∈ ps, a ≤ q.1 ∧ q.1 + q.2.length ≤ b := by
  induction ps generalizing a with
  | nil => exact nofun
  | cons p ps ih =>
    intro q hq
    rcases List.mem_cons.1 hq with rfl | hq
    · exact ⟨h.1, h.2.le⟩
    · have hmem := ih h.2 q hq
      have hp := h.1
      exact ⟨by omega, hmem.2⟩

/-- A piece ends before any later one begins. -/
theorem Ascending.before (h : Ascending a ps b) : ps.Pairwise fun p q => p.1 + p.2.length ≤ q.1 := by
  induction ps generalizing a with
  | nil => exact .nil
  | cons p ps ih => exact .cons (fun q hq => (h.2.mem q hq).1) (ih h.2)

theorem Ascending.pairwise (h : Ascending a ps b) : ps.Pairwise Apart := h.before.imp Or.inl

/-- Pieces that could be put in order are all copied, and each can be read back; behind them nothing
changes. -/
theorem stamp_perm {d : List α} (hp : qs.Perm ps) (h : Ascending a ps stop) (hb : stop ≤ d.length) :
    ∃ img, (stamp d qs : Res ε _) = .ok img ∧ img.length = d.length ∧
      (∀ p, stop ≤ p → img[p]? = d[p]?) ∧ ∀ q ∈ qs, (img.drop q.1).take q.2.length = q.2 := by
  have hmem : ∀ q ∈ qs, q.1 + q.2.length ≤ stop := fun q hq => (h.mem q (hp.mem_iff.1 hq)).2
  have hsymm : ∀ {p q : Nat × List α}, Apart p q → Apart q p := fun h => h.symm
  obtain ⟨img, himg, hlen, hkeep, hall⟩ := stamp_apart (ε := ε) (d := d)
    (fun q hq => Nat.le_trans (hmem q hq) hb) ((hp.pairwise_iff hsymm).2 h.pairwise)
  exact ⟨img, himg, hlen, fun p hp => hkeep p fun q hq => .inr (Nat.le_trans (hmem q hq) hp), hall⟩

theorem stamp_ascending {d : List α} (h : Ascending a ps stop) (hb : stop ≤ d.length) :
    ∃ img, (stamp d ps : Res ε _) = .ok img ∧ img.length = d.length ∧
      (∀ p, stop ≤ p → img[p]? = d[p]?) ∧ ∀ q ∈ ps, (img.drop q.1).take q.2.length = q.2 :=
  stamp_perm (.refl _) h hb

end Ps5Upload.Stamps
