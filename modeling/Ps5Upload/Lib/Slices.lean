import Mathlib.Algebra.GroupWithZero.Nat
import Ps5Upload.Lib.Blocks

/-!
# Slices of one size, cut from reads

A list in slices of `n` elements, the last of which may be shorter, and the loop that cuts them out of
whatever pieces the list is read in.

* `slice`, `eq_of_slice_eq`, `sum_lengths` — a list is its slices;
* `cut` — the slices that end in a piece, and what the next piece goes on from.
-/

namespace Ps5Upload.Slices

variable {α : Type*} (n : Nat)

/-! ## Slices -/

def slice (xs : List α) (s : Nat) : List α := (xs.drop (s * n)).take n

theorem slice_take {xs : List α} {stop s : Nat} (h : (s + 1) * n ≤ stop ∨ xs.length ≤ stop) :
    slice n (xs.take stop) s = slice n xs s := by
  rcases h with h | h
  · rw [Nat.succ_mul] at h
    rw [slice, slice, List.drop_take, List.take_take, Nat.min_eq_left (by omega)]
  · rw [List.take_of_length_le h]

/-- Lists of one length with the same slices are the same. -/
theorem eq_of_slice_eq {n : Nat} (hn : 0 < n) {xs ys : List α} (hlen : xs.length = ys.length)
    (h : ∀ s, s < xs.length ⌈/⌉ n → slice n xs s = slice n ys s) : xs = ys := by
  have hget : ∀ (zs : List α) i, (slice n zs (i / n))[i % n]? = zs[i]? := by
    intro zs i
    rw [slice, List.getElem?_take_of_lt (Nat.mod_lt i hn), List.getElem?_drop, Nat.div_add_mod']
  refine List.ext_getElem? fun i => ?_
  by_cases hi : i < xs.length
  · have hle := Blocks.le_blocks hn xs.length
    have hs : i / n < xs.length ⌈/⌉ n := (Nat.div_lt_iff_lt_mul hn).2 (by omega)
    rw [← hget xs i, ← hget ys i, h _ hs]
  · rw [List.getElem?_eq_none (by omega), List.getElem?_eq_none (by omega)]

/-- The slices' lengths come to the whole. -/
theorem sum_lengths {n : Nat} (hn : 0 < n) (size : Nat) :
    ((List.range (size ⌈/⌉ n)).map fun s => min n (size - s * n)).sum = size := by
  have hsum : ∀ k, ((List.range k).map fun s => min n (size - s * n)).sum = min (k * n) size := by
    intro k
    induction k with
    | zero => simp
    | succ k ih =>
      rw [List.range_succ, List.map_append, List.sum_append, ih, Nat.succ_mul, List.map_singleton, List.sum_singleton]
      omega
  rw [hsum]
  exact Nat.min_eq_right (Blocks.le_blocks hn size)

/-! ## Cutting -/

/-- Cuts `rest`, which comes at `at'` of a list that ends at `stop`, where `held` has come of the slice:
the slices that end, by number, then the new place and what has come of its slice. -/
def cut [NeZero n] (stop at' : Nat) (held rest : List α) : List (Nat × List α) × Nat × List α :=
  if _h : rest = [] ∨ stop ≤ at' then ([], at', held)
  else
    let room := n - at' % n
    let next := at' + (rest.take room).length
    if next % n = 0 ∨ stop ≤ next then
      let r := cut stop next [] (rest.drop room)
      (((next - 1) / n, held ++ rest.take room) :: r.1, r.2)
    else cut stop next (held ++ rest.take room) (rest.drop room)
termination_by rest.length
decreasing_by
  all_goals
    have hmod := Nat.mod_lt at' (NeZero.pos n)
    have hrest := List.length_pos_iff.2 (not_or.1 _h).1
    rw [List.length_drop]
    omega

section Cut

variable [NeZero n]

theorem le_cut (stop at' : Nat) (held rest : List α) : at' ≤ (cut n stop at' held rest).2.1 := by
  induction hlen : rest.length using Nat.strong_induction_on generalizing at' held rest with
  | _ len ih =>
    have hmod := Nat.mod_lt at' (NeZero.pos n)
    rw [cut]
    split
    · exact Nat.le_refl _
    rename_i h
    have hrest := List.length_pos_iff.2 (not_or.1 h).1
    have hlt : (rest.drop (n - at' % n)).length < len := by
      rw [List.length_drop]
      omega
    dsimp only
    split
    · exact Nat.le_trans (Nat.le_add_right _ _) (ih _ hlt _ _ _ rfl)
    · exact Nat.le_trans (Nat.le_add_right _ _) (ih _ hlt _ _ _ rfl)

/-- A piece with something in it moves on. -/
theorem lt_cut {stop at' : Nat} (hat : at' < stop) (held : List α) {rest : List α} (hrest : rest ≠ []) :
    at' < (cut n stop at' held rest).2.1 := by
  have hmod := Nat.mod_lt at' (NeZero.pos n)
  have hpos := List.length_pos_iff.2 hrest
  have hnext : at' < at' + (rest.take (n - at' % n)).length := by
    rw [List.length_take]
    omega
  rw [cut, dif_neg (by simp only [hrest, false_or]; omega)]
  dsimp only
  split
  · exact Nat.lt_of_lt_of_le hnext (le_cut n _ _ _ _)
  · exact Nat.lt_of_lt_of_le hnext (le_cut n _ _ _ _)

end Cut

/-! ## Any pieces give the same slices -/

/-- The slices that have ended when a list has come as far as `a`. -/
def passed (xs : List α) (a : Nat) : Nat := if a < xs.length then a / n else xs.length ⌈/⌉ n

def ended (xs : List α) (a : Nat) : List (Nat × List α) :=
  (List.range (passed n xs a)).map fun s => (s, slice n xs s)

/-- What has come of the slice that has not ended. -/
def heldAt (xs : List α) (a : Nat) : List α :=
  if a < xs.length then (xs.drop (a / n * n)).take (a % n) else []

theorem take_append_take (xs : List α) {q a b : Nat} (hq : q ≤ a) (hb : a ≤ b) :
    (xs.drop q).take (a - q) ++ (xs.drop a).take (b - a) = (xs.drop q).take (b - q) := by
  have hdrop : xs.drop a = (xs.drop q).drop (a - q) := by rw [List.drop_drop, Nat.add_sub_cancel' hq]
  rw [hdrop, ← List.take_add, show a - q + (b - a) = b - q by omega]

variable [NeZero n]

/-- **However a list is cut in pieces**, a piece ends the slices that end in it. -/
theorem cut_piece {xs : List α} {a : Nat} (ha : a ≤ xs.length) {rest : List α} (h : rest <+: xs.drop a) :
    ended n xs a ++ (cut n xs.length a (heldAt n xs a) rest).1 = ended n xs (a + rest.length) ∧
      (cut n xs.length a (heldAt n xs a) rest).2 = (a + rest.length, heldAt n xs (a + rest.length)) := by
  induction hlen : rest.length using Nat.strong_induction_on generalizing a rest with
  | _ len ih =>
    subst hlen
    have hn := NeZero.pos n
    rw [cut]
    split
    · rename_i hend
      have hrest : rest = [] := hend.elim id fun hle => by
        rw [List.drop_eq_nil_of_le hle] at h
        exact List.prefix_nil.1 h
      rw [hrest, List.append_nil, List.length_nil, Nat.add_zero]
      exact ⟨rfl, rfl⟩
    rename_i hend
    obtain ⟨hrest, hlt⟩ := not_or.1 hend
    have hlt := Nat.not_le.1 hlt
    have hpos := List.length_pos_iff.2 hrest
    have hmod := Nat.mod_lt a hn
    have hdiv := Nat.div_add_mod' a n
    have hfit := h.length_le
    rw [List.length_drop] at hfit
    -- the slice that the place is in begins at `q`, and the piece goes on to `next`
    set q := a / n * n with hq
    set head := rest.take (n - a % n) with hhead
    have hheadLen : head.length = min (n - a % n) rest.length := List.length_take
    set next := a + head.length with hnext
    have hheld : heldAt n xs a ++ head = (xs.drop q).take (next - q) := by
      have heq : head = (xs.drop a).take (next - a) := by
        rw [Nat.add_sub_cancel_left]
        exact List.prefix_iff_eq_take.1 ((List.take_prefix _ _).trans h)
      rw [heldAt, if_pos hlt, heq, ← take_append_take xs (by omega : q ≤ a) (by omega : a ≤ next),
        show a - q = a % n by omega]
    have hless : (rest.drop (n - a % n)).length < rest.length := by
      rw [List.length_drop]
      omega
    have hdrop : rest.drop (n - a % n) <+: xs.drop next := by
      obtain ⟨t, ht⟩ := h
      by_cases hshort : rest.length ≤ n - a % n
      · rw [List.drop_eq_nil_of_le hshort]
        exact List.nil_prefix
      · refine ⟨t, ?_⟩
        rw [← List.drop_append_of_le_length (by omega), ht, List.drop_drop, hnext, hheadLen,
          Nat.min_eq_left (by omega)]
    have hstop : next + (rest.drop (n - a % n)).length = a + rest.length := by
      rw [List.length_drop]
      omega
    have hnext_le : next ≤ xs.length := by omega
    obtain ⟨hended, hrun⟩ := ih _ hless hnext_le hdrop rfl
    rw [hstop] at hended hrun
    dsimp only
    split
    · rename_i hcut
      have hnumber : (next - 1) / n = a / n := by
        rw [Nat.div_eq_iff hn]
        omega
      have hslice : heldAt n xs a ++ head = slice n xs (a / n) := by
        rw [hheld, slice, ← hq]
        rcases Nat.lt_or_ge next xs.length with hin | hout
        · have hzero := hcut.resolve_right (Nat.not_le.2 hin)
          have hnextDiv := Nat.div_add_mod' next n
          have hdivNext : next / n = a / n + 1 := by
            rw [Nat.div_eq_iff hn]
            have : n ∣ next - q := Nat.dvd_sub (Nat.dvd_of_mod_eq_zero hzero) (Nat.dvd_mul_left n _)
            have := Nat.le_of_dvd (by omega) this
            rw [Nat.succ_mul]
            omega
          rw [hdivNext, Nat.succ_mul] at hnextDiv
          rw [show next - q = n by omega]
        · rw [List.take_of_length_le (by rw [List.length_drop]; omega),
            List.take_of_length_le (by rw [List.length_drop]; omega)]
      have hpassed : passed n xs next = a / n + 1 := by
        rw [passed]
        split
        · rename_i hin
          have hzero := hcut.resolve_right (Nat.not_le.2 hin)
          rw [Nat.div_eq_iff hn]
          have : n ∣ next - q := Nat.dvd_sub (Nat.dvd_of_mod_eq_zero hzero) (Nat.dvd_mul_left n _)
          have := Nat.le_of_dvd (by omega) this
          rw [Nat.succ_mul]
          omega
        · exact Blocks.blocks_eq hn (by rw [Nat.succ_mul]; omega) (by rw [Nat.succ_mul]; omega)
      have hfresh : heldAt n xs next = [] := by
        rw [heldAt]
        split
        · rename_i hin
          rw [hcut.resolve_right (Nat.not_le.2 hin), List.take_zero]
        · rfl
      have hgrown : ended n xs next = ended n xs a ++ [(a / n, slice n xs (a / n))] := by
        rw [ended, ended, hpassed, passed, if_pos hlt, List.range_succ, List.map_append]
        rfl
      rw [hfresh] at hended hrun
      rw [hnumber, hslice, List.append_cons, ← hgrown]
      exact ⟨hended, hrun⟩
    · rename_i hcut
      change ¬(next % n = 0 ∨ xs.length ≤ next) at hcut
      obtain ⟨hmid, hin⟩ := not_or.1 hcut
      have hin := Nat.not_le.1 hin
      have hdivNext : next / n = a / n := by
        have hne : next ≠ q + n := fun heq => hmid (by
          rw [heq, hq, ← Nat.succ_mul]
          exact Nat.mul_mod_left _ _)
        rw [Nat.div_eq_iff hn]
        omega
      have hsame : heldAt n xs next = heldAt n xs a ++ head := by
        have hnextDiv := Nat.div_add_mod' next n
        rw [hdivNext] at hnextDiv
        rw [hheld, heldAt, if_pos hin, hdivNext, ← hq, show next % n = next - q by omega]
      have hkept : ended n xs next = ended n xs a := by
        rw [ended, ended, passed, passed, if_pos hin, if_pos hlt, hdivNext]
      rw [hsame, hkept] at hended
      rw [hsame] at hrun
      exact ⟨hended, hrun⟩

omit [NeZero n] in
/-- All the slices have ended in the end. -/
theorem ended_length (xs : List α) :
    ended n xs xs.length = (List.range (xs.length ⌈/⌉ n)).map fun s => (s, slice n xs s) := by
  rw [ended, passed, if_neg (Nat.lt_irrefl _)]

theorem ended_grows {xs : List α} {a b : Nat} (hab : a ≤ b) (hb : b ≤ xs.length) :
    ended n xs a <+: ended n xs b := by
  have h := (cut_piece n (Nat.le_trans hab hb) (List.take_prefix (b - a) (xs.drop a))).1
  have hlen : a + ((xs.drop a).take (b - a)).length = b := by
    rw [List.length_take, List.length_drop]
    omega
  rw [hlen] at h
  exact ⟨_, h⟩

/-! ## A range of slices -/

section Range

variable {n} {xs : List α} {start stop : Nat}

omit [NeZero n] in
theorem heldAt_mul (xs : List α) (k : Nat) : heldAt n xs (k * n) = [] := by
  rw [heldAt, Nat.mul_mod_left, List.take_zero, ite_self]

/-- The slices that have ended where a range of them ends. -/
theorem ended_stop (hstop : stop ≤ xs.length ⌈/⌉ n) :
    ended n (xs.take (min (stop * n) xs.length)) (min (stop * n) xs.length) =
      (List.range stop).map fun s => (s, slice n xs s) := by
  have hn := NeZero.pos n
  have hlt := Blocks.blocks_lt hn xs.length
  have hlen : (xs.take (min (stop * n) xs.length)).length = min (stop * n) xs.length := by
    rw [List.length_take]
    omega
  have hblocks : min (stop * n) xs.length ⌈/⌉ n = stop := by
    have hmul := Nat.mul_le_mul_right n hstop
    exact Blocks.blocks_eq hn (Nat.min_le_left _ _) (by omega)
  rw [ended, passed, if_neg (by omega), hlen, hblocks]
  refine List.map_congr_left fun s hs => ?_
  rw [slice_take]
  have hle := Nat.mul_le_mul_right n (Nat.succ_le_of_lt (List.mem_range.1 hs))
  rw [Nat.succ_eq_add_one] at hle
  omega

/-- The slices that have ended where a range of them begins. -/
theorem ended_start (hstart : start < stop) (hstop : stop ≤ xs.length ⌈/⌉ n) :
    ended n (xs.take (min (stop * n) xs.length)) (start * n) = (List.range start).map fun s => (s, slice n xs s) := by
  have hn := NeZero.pos n
  have hlt := Blocks.blocks_lt hn xs.length
  have hmul := Nat.mul_le_mul_right n hstop
  have hstep := Nat.mul_le_mul_right n (Nat.succ_le_of_lt hstart)
  rw [Nat.succ_mul] at hstep
  have hin : start * n < min (stop * n) xs.length := by omega
  have hlen : (xs.take (min (stop * n) xs.length)).length = min (stop * n) xs.length := by
    rw [List.length_take]
    omega
  rw [ended, passed, if_pos (by omega), Nat.mul_div_cancel _ hn]
  refine List.map_congr_left fun s hs => ?_
  rw [slice_take]
  have hle := Nat.mul_le_mul_right n (Nat.succ_le_of_lt (List.mem_range.1 hs))
  rw [Nat.succ_eq_add_one] at hle
  omega

end Range

end Ps5Upload.Slices
