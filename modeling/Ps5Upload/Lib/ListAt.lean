import Mathlib.Data.List.Basic
import Mathlib.Data.List.Nodup
import Mathlib.Data.List.Perm.Subperm
import Mathlib.Tactic.Common

/-!
# Lists with one element picked out

A program that finds an element of a list by its index and then changes, replaces or removes
it there is easiest to reason about with the list cut at that element: `pre ++ x :: post`,
the index being `pre.length`.  `getElem?_split` and `findIdx?_split` cut the list; the simp
lemmas carry the index operations over to the cut list; `key_ne_of_nodup` says that under a
key that occurs once the rest of the list has other keys, and `length_filter_le_one` that a
test which tells no two elements apart picks out one at most.  `countP_lt` compares how many
elements two tests pick out, and `length_le_of_count` bounds a list of distinct numbers.
`forall_mem_of_all` takes what holds of every element from a test of the list, which computes;
`not_mem_of_mem_splitOn` that the pieces a list is split into are free of the separator.
-/

namespace Ps5Upload.ListAt

variable {α κ : Type*}

variable {l : List α} {x : α} {p : α → Bool}

theorem forall_mem_of_all {P : α → Prop} [DecidablePred P]
    (h : l.all (fun x => P x) = true) : ∀ x ∈ l, P x := by
  simpa only [List.all_eq_true, decide_eq_true_eq] using h

theorem not_mem_of_mem_splitOn [DecidableEq α] {sep : α} {piece : List α} (h : piece ∈ l.splitOn sep) :
    sep ∉ piece := by
  induction l generalizing piece with
  | nil =>
    rw [List.splitOn_nil, List.mem_singleton] at h
    rw [h]
    exact List.not_mem_nil
  | cons x l ih =>
    rw [List.splitOn_cons_eq_if_modifyHead] at h
    split at h
    · rcases List.mem_cons.1 h with rfl | h
      · exact List.not_mem_nil
      · exact ih h
    · rename_i hx
      obtain ⟨p, ps, hps⟩ := List.exists_cons_of_ne_nil (List.splitOn_ne_nil sep l)
      rw [hps, List.modifyHead_cons] at h
      rcases List.mem_cons.1 h with rfl | h
      · have hp := ih (hps ▸ List.mem_cons_self)
        refine fun hmem => (List.mem_cons.1 hmem).elim (fun heq => hx ?_) hp
        rw [heq]
        exact beq_self_eq_true x
      · exact ih (hps ▸ List.mem_cons_of_mem p h)

theorem getElem?_split {i : Nat} (h : l[i]? = some x) :
    ∃ pre post, l = pre ++ x :: post ∧ i = pre.length := by
  obtain ⟨hlt, rfl⟩ := List.getElem?_eq_some_iff.1 h
  refine ⟨l.take i, l.drop (i + 1), ?_, by simp; omega⟩
  rw [← List.drop_eq_getElem_cons hlt, List.take_append_drop]

/-- The first element a test picks out, and the list around it. -/
theorem findIdx?_split {i : Nat} (h : l.findIdx? p = some i) :
    ∃ pre x post, l = pre ++ x :: post ∧ i = pre.length ∧ p x := by
  obtain ⟨hlt, hp, -⟩ := List.findIdx?_eq_some_iff_getElem.1 h
  obtain ⟨pre, post, hl, hi⟩ := getElem?_split (List.getElem?_eq_getElem hlt)
  exact ⟨pre, l[i], post, hl, hi, hp⟩

@[simp] theorem modify_split (pre post : List α) (x : α) (f : α → α) :
    (pre ++ x :: post).modify pre.length f = pre ++ f x :: post := by
  induction pre with
  | nil => rfl
  | cons y pre ih => simpa using ih

@[simp] theorem set_split (pre post : List α) (x y : α) :
    (pre ++ x :: post).set pre.length y = pre ++ y :: post := by
  simp

@[simp] theorem eraseIdx_split (pre post : List α) (x : α) :
    (pre ++ x :: post).eraseIdx pre.length = pre ++ post := by
  induction pre with
  | nil => rfl
  | cons y pre ih => simpa using ih

/-- With one element for each key, the others have another key than a given one. -/
theorem key_ne_of_nodup {key : α → κ} {pre post : List α}
    (hn : ((pre ++ x :: post).map key).Nodup) : ∀ y ∈ pre ++ post, key y ≠ key x := by
  intro y hy heq
  have hperm : (pre ++ x :: post).Perm (x :: (pre ++ post)) := List.perm_middle
  have := (hperm.map key).nodup_iff.1 hn
  rw [List.map_cons, List.nodup_cons] at this
  exact this.1 (heq ▸ List.mem_map_of_mem hy)

/-- Under a key that occurs once a list is cut at it in one way. -/
theorem split_unique {key : α → κ} {pre post pre' post' : List α} {x' : α}
    (hn : ((pre ++ x :: post).map key).Nodup) (heq : pre ++ x :: post = pre' ++ x' :: post')
    (hkey : key x = key x') : pre = pre' ∧ x = x' ∧ post = post' := by
  induction pre generalizing pre' with
  | nil =>
    cases pre' with
    | nil => simpa using heq
    | cons y pre' =>
      obtain ⟨rfl, rfl⟩ : x = y ∧ post = pre' ++ x' :: post' := by simpa using heq
      simp [hkey] at hn
  | cons y pre ih =>
    cases pre' with
    | nil =>
      obtain ⟨rfl, rfl⟩ : y = x' ∧ pre ++ x :: post = post' := by simpa using heq
      simp [hkey] at hn
    | cons z pre' =>
      obtain ⟨rfl, htail⟩ : y = z ∧ pre ++ x :: post = pre' ++ x' :: post' := by
        simpa using heq
      rw [List.cons_append, List.map_cons, List.nodup_cons] at hn
      obtain ⟨rfl, hx, hpost⟩ := ih hn.2 htail
      exact ⟨rfl, hx, hpost⟩

/-- A test that picks out one element at most. -/
theorem length_filter_le_one (hn : l.Nodup)
    (h : ∀ x ∈ l, ∀ y ∈ l, p x → p y → x = y) : (l.filter p).length ≤ 1 := by
  have hn' : (l.filter p).Nodup := hn.filter p
  match hl : l.filter p with
  | [] => simp
  | [x] => simp
  | x :: y :: rest =>
    have hx := List.mem_filter.1 (hl ▸ List.mem_cons_self : x ∈ l.filter p)
    have hy := List.mem_filter.1
      (hl ▸ List.mem_cons_of_mem _ List.mem_cons_self : y ∈ l.filter p)
    rw [hl, List.nodup_cons] at hn'
    exact absurd (h x hx.1 y hy.1 hx.2 hy.2 ▸ List.mem_cons_self) hn'.1

/-- A test that fails where another one passes picks out fewer. -/
theorem countP_lt {q : α → Bool} (h : ∀ x ∈ l, p x → q x)
    {a : α} (ha : a ∈ l) (hp : p a = false) (hq : q a) : l.countP p < l.countP q := by
  induction l with
  | nil => cases ha
  | cons x l ih =>
    have hrest : ∀ y ∈ l, p y → q y := fun y hy => h y (List.mem_cons_of_mem x hy)
    rw [List.countP_cons, List.countP_cons]
    rcases List.mem_cons.1 ha with rfl | ha
    · have hle := List.countP_mono_left hrest
      rw [hp, hq]
      simp only [Bool.false_eq_true, if_false, if_true]
      omega
    · have hlt := ih hrest ha
      have hx : (if p x then 1 else 0) ≤ (if q x then 1 else 0) := by
        by_cases hpx : p x
        · simp [hpx, h x List.mem_cons_self hpx]
        · rw [if_neg hpx]
          exact Nat.zero_le _
      omega

/-- A list with each number at most once, and only numbers of a range, is no longer than it. -/
theorem length_le_of_count {l : List Nat} {a b : Nat}
    (h : ∀ j, l.count j ≤ if a ≤ j ∧ j < b then 1 else 0) : l.length ≤ b - a := by
  have hnodup : l.Nodup := by
    rw [List.nodup_iff_count_le_one]
    intro j
    refine Nat.le_trans (h j) ?_
    split <;> omega
  have hsub : l ⊆ List.range' a (b - a) := by
    intro j hj
    have hpos := List.count_pos_iff.2 hj
    have hle := h j
    split at hle
    · rw [List.mem_range'_1]
      omega
    · omega
  simpa using (List.Nodup.subperm hnodup hsub).length_le

end Ps5Upload.ListAt
