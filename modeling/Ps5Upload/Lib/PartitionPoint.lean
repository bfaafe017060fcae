import Mathlib.Data.List.TakeWhile
import Mathlib.Tactic.Common

/-!
# Lists cut at a partition point

A list whose elements satisfy a test up to some place and from there on do not is cut at that place by `takeWhile` and
`dropWhile`, and between two such places stand the elements that satisfy one test and not the other.

* `takeWhile_eq_filter`, `dropWhile_eq_filter` — what is on either side of the place.
-/

namespace Ps5Upload.PartitionPoint

variable {α : Type*} {p q : α → Bool} {l : List α}

theorem takeWhile_eq_filter (h : l.Pairwise fun x y => p y = true → p x = true) : l.takeWhile p = l.filter p := by
  induction l with
  | nil => rfl
  | cons x l ih =>
    obtain ⟨hx, hl⟩ := List.pairwise_cons.1 h
    by_cases hp : p x = true
    · rw [List.takeWhile_cons_of_pos hp, List.filter_cons_of_pos hp, ih hl]
    · rw [List.takeWhile_cons_of_neg hp, List.filter_cons_of_neg hp, eq_comm, List.filter_eq_nil_iff]
      exact fun y hy hpy => hp (hx y hy hpy)

theorem dropWhile_eq_filter (h : l.Pairwise fun x y => p y = true → p x = true) :
    l.dropWhile p = l.filter fun x => !p x := by
  induction l with
  | nil => rfl
  | cons x l ih =>
    obtain ⟨hx, hl⟩ := List.pairwise_cons.1 h
    by_cases hp : p x = true
    · rw [List.dropWhile_cons_of_pos hp, List.filter_cons_of_neg (by rw [hp]; exact Bool.false_ne_true), ih hl]
    · rw [List.dropWhile_cons_of_neg hp, eq_comm, List.filter_eq_self]
      intro y hy
      rw [Bool.not_eq_true', Bool.eq_false_iff]
      rcases List.mem_cons.1 hy with rfl | hy
      · exact hp
      · exact fun hpy => hp (hx y hy hpy)

theorem take_length_takeWhile (p : α → Bool) (l : List α) : l.take (l.takeWhile p).length = l.takeWhile p :=
  (List.prefix_iff_eq_take.1 (List.takeWhile_prefix p)).symm

theorem drop_length_takeWhile (p : α → Bool) (l : List α) : l.drop (l.takeWhile p).length = l.dropWhile p := by
  have h := List.takeWhile_append_dropWhile (p := p) (l := l)
  calc l.drop (l.takeWhile p).length = (l.takeWhile p ++ l.dropWhile p).drop (l.takeWhile p).length := by rw [h]
    _ = l.dropWhile p := List.drop_left

/-- Between the end of what satisfies `p` and the end of what satisfies `q`. -/
theorem between_eq_filter (hp : l.Pairwise fun x y => p y = true → p x = true)
    (hq : l.Pairwise fun x y => q y = true → q x = true) (hpq : ∀ x ∈ l, p x = true → q x = true) :
    (l.drop (l.takeWhile p).length).take (max (l.takeWhile q).length (l.takeWhile p).length - (l.takeWhile p).length) =
      l.filter fun x => !p x && q x := by
  have hle : (l.takeWhile p).length ≤ (l.takeWhile q).length := by
    rw [takeWhile_eq_filter hp, takeWhile_eq_filter hq, ← List.countP_eq_length_filter, ← List.countP_eq_length_filter]
    exact List.countP_mono_left hpq
  have hsame : (l.takeWhile p).length = ((l.takeWhile q).takeWhile p).length := by
    rw [takeWhile_eq_filter hq, takeWhile_eq_filter (hp.sublist List.filter_sublist), takeWhile_eq_filter hp,
      List.filter_filter]
    refine congrArg List.length (List.filter_congr fun x hx => ?_)
    cases hpx : p x with
    | false => rfl
    | true => rw [hpq x hx hpx]; rfl
  rw [Nat.max_eq_left hle, ← List.drop_take, take_length_takeWhile, hsame, drop_length_takeWhile,
    takeWhile_eq_filter hq, dropWhile_eq_filter (hp.sublist List.filter_sublist), List.filter_filter]

end Ps5Upload.PartitionPoint
