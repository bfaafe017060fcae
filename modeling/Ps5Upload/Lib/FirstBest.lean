import Mathlib.Data.List.Sort
import Mathlib.Tactic.Common

/-!
# The first of the best

A list that is searched again and again for the first of its elements of least key, and given without it,
comes out in the order of an insertion sort.

* `firstBest_eq` — a search finds the head of the sorted list.
-/

namespace Ps5Upload.FirstBest

variable {α κ : Type} [LinearOrder κ] (key : α → κ)

/-- The search, with the best so far: only a lesser key replaces it. -/
def scan : List α → α → α
  | [], best => best
  | x :: xs, best => scan xs (if key x < key best then x else best)

def firstBest : List α → Option α
  | [] => none
  | x :: xs => some (scan key xs x)

/-- Sorted by key, elements of one key as they were. -/
def sorted : List α → List α
  | [] => []
  | a :: l => (sorted l).orderedInsert (fun a b => key a ≤ key b) a

theorem pairwise_sorted (l : List α) : (sorted key l).Pairwise fun a b => key a ≤ key b := by
  have : Std.Total fun a b : α => key a ≤ key b := ⟨fun _ _ => le_total _ _⟩
  have : IsTrans α fun a b => key a ≤ key b := ⟨fun _ _ _ => le_trans⟩
  induction l with
  | nil => exact List.Pairwise.nil
  | cons a l ih => exact ih.orderedInsert a _

theorem perm_sorted (l : List α) : (sorted key l).Perm l := by
  induction l with
  | nil => exact List.Perm.refl _
  | cons a l ih => exact (List.perm_orderedInsert _ a _).trans (ih.cons a)

/-! ## The search -/

/-- An element goes to the front where no element there is before it. -/
theorem head_insert (a : α) (s : List α) :
    (s.orderedInsert (fun a b => key a ≤ key b) a).head? =
      some (s.head?.elim a fun y => if key a ≤ key y then a else y) := by
  cases s with
  | nil => rfl
  | cons y s =>
    rw [List.orderedInsert_cons, List.head?_cons, Option.elim_some]
    split <;> rfl

theorem head_sorted (l : List α) (a : α) : (sorted key (a :: l)).head? = some (scan key l a) := by
  induction l generalizing a with
  | nil => rfl
  | cons x l ih =>
    rw [scan, ← ih]
    simp only [sorted, head_insert]
    cases (sorted key l).head? with
    | none =>
      simp only [Option.elim_none, Option.elim_some]
      grind
    | some y =>
      simp only [Option.elim_some]
      grind

theorem firstBest_eq (l : List α) : firstBest key l = (sorted key l).head? := by
  cases l with
  | nil => rfl
  | cons a l => exact (head_sorted key l a).symm

/-! ## Sorting -/

/-- An element before all others goes to the front. -/
theorem insert_of_le {a : α} {s : List α} (h : ∀ b ∈ s, key a ≤ key b) :
    s.orderedInsert (fun a b => key a ≤ key b) a = a :: s := by
  cases s with
  | nil => rfl
  | cons b s => exact List.orderedInsert_cons_of_le _ s (h b List.mem_cons_self)

theorem filter_insert (p : α → Bool) {a : α} {s : List α} (hs : s.Pairwise fun a b => key a ≤ key b) :
    (s.orderedInsert (fun a b => key a ≤ key b) a).filter p =
      if p a then (s.filter p).orderedInsert (fun a b => key a ≤ key b) a else s.filter p := by
  induction s with
  | nil => cases hp : p a <;> simp [hp]
  | cons b s ih =>
    obtain ⟨hb, hs⟩ := List.pairwise_cons.1 hs
    rw [List.orderedInsert_cons]
    by_cases hab : key a ≤ key b
    · rw [if_pos hab, List.filter_cons]
      split
      · refine (insert_of_le key fun c hc => ?_).symm
        rcases List.mem_cons.1 (List.mem_filter.1 hc).1 with rfl | hc
        · exact hab
        · exact hab.trans (hb c hc)
      · rfl
    · rw [if_neg hab, List.filter_cons, ih hs, List.filter_cons]
      by_cases hpb : p b = true
      · rw [if_pos hpb, if_pos hpb, List.orderedInsert_cons, if_neg hab]
        split <;> rfl
      · rw [if_neg hpb, if_neg hpb]

/-- A sorted list without some elements is the others, sorted. -/
theorem filter_sorted (p : α → Bool) (l : List α) : (sorted key l).filter p = sorted key (l.filter p) := by
  induction l with
  | nil => rfl
  | cons a l ih =>
    rw [sorted, filter_insert key p (pairwise_sorted key l), ih, List.filter_cons]
    split <;> rfl

theorem sorted_of_eq {l : List α} {k : κ} (h : ∀ a ∈ l, key a = k) : sorted key l = l := by
  induction l with
  | nil => rfl
  | cons a l ih =>
    rw [sorted, ih fun b hb => h b (List.mem_cons_of_mem _ hb)]
    refine insert_of_le key fun b hb => ?_
    rw [h a List.mem_cons_self, h b (List.mem_cons_of_mem _ hb)]

/-- Elements that are before all others come first. -/
theorem sorted_split (p : α → Bool) {l : List α}
    (h : ∀ a ∈ l, ∀ b ∈ l, p a = true → p b = false → key a < key b) :
    sorted key l = sorted key (l.filter p) ++ sorted key (l.filter fun a => !p a) := by
  rw [← filter_sorted, ← filter_sorted]
  have hs := pairwise_sorted key l
  have hmem : ∀ a ∈ sorted key l, a ∈ l := fun a => (perm_sorted key l).mem_iff.1
  generalize sorted key l = s at hs hmem
  induction s with
  | nil => rfl
  | cons a s ih =>
    obtain ⟨ha, hs⟩ := List.pairwise_cons.1 hs
    cases hp : p a with
    | true =>
      rw [List.filter_cons_of_pos hp, List.filter_cons_of_neg (by rw [hp]; decide), List.cons_append,
        ← ih hs fun b hb => hmem b (List.mem_cons_of_mem _ hb)]
    | false =>
      -- Nothing behind it is to be before it.
      have hnone : s.filter p = [] := List.filter_eq_nil_iff.2 fun b hb hpb =>
        absurd (h b (hmem b (List.mem_cons_of_mem _ hb)) a (hmem a List.mem_cons_self) hpb hp)
          (not_lt.2 (ha b hb))
      have hall : s.filter (fun a => !p a) = s := List.filter_eq_self.2 fun b hb =>
        Bool.not_eq_true' _ ▸ Bool.eq_false_iff.2 fun hpb => List.filter_eq_nil_iff.1 hnone b hb hpb
      rw [List.filter_cons_of_neg (by rw [hp]; decide), List.filter_cons_of_pos (by rw [hp]; rfl), hnone, hall,
        List.nil_append]

end Ps5Upload.FirstBest
