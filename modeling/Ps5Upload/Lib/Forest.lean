import Mathlib.Data.List.Basic
import Mathlib.Data.List.Nodup
import Mathlib.Data.List.Perm.Basic
import Mathlib.Tactic.Common

/-!
# Numbered forests

Nodes are numbers; a node has a parent of a smaller number, or none, and every node lists its children.
`preOrder` and `postOrder` walk down from a node, a bounded number of levels deep, and `isUnder` walks
up from one.

* `mem_preOrder`, `nodup_preOrder` — the walk down meets every node below once.
-/

namespace Ps5Upload.Forest

variable (kids : Nat → List Nat) (parent : Nat → Option Nat)

/-- A node, and then what is below each child. -/
def preOrder : Nat → Nat → List Nat
  | 0, _ => []
  | depth + 1, d => d :: (kids d).flatMap (preOrder depth)

/-- What is below each child, and then the node. -/
def postOrder : Nat → Nat → List Nat
  | 0, _ => []
  | depth + 1, d => (kids d).flatMap (postOrder depth) ++ [d]

/-- Whether the way up from `d` meets `a`. -/
def isUnder (a : Nat) : Nat → Nat → Bool
  | 0, _ => false
  | depth + 1, d =>
    if d = a then true
    else match parent d with
      | some p => isUnder a depth p
      | none => false

/-- The `n` nodes are a forest. -/
structure IsForest (n : Nat) : Prop where
  parent_lt : ∀ {d p}, parent d = some p → p < d
  parent_of_kid : ∀ {d p}, d ∈ kids p → parent d = some p
  kid_of_parent : ∀ {d p}, d < n → parent d = some p → d ∈ kids p
  kid_lt : ∀ {d p}, d ∈ kids p → d < n
  nodup_kids : ∀ p, (kids p).Nodup

/-- `a` is `d`, or above it. -/
inductive Above : Nat → Nat → Prop
  | refl (a : Nat) : Above a a
  | step {a d p : Nat} : parent d = some p → Above a p → Above a d

variable {kids parent} {n a a' d d' p depth : Nat}

/-- Two nodes above a third one are above one another. -/
theorem Above.linear (h : Above parent a d) (h' : Above parent a' d) :
    Above parent a a' ∨ Above parent a' a := by
  induction h with
  | refl => exact .inr h'
  | step hp hup ih =>
    cases h' with
    | refl => exact .inl (.step hp hup)
    | step hp' hup' =>
      rw [hp, Option.some.injEq] at hp'
      exact ih (hp' ▸ hup')

theorem Above.trans (h : Above parent a d) (h' : Above parent d d') : Above parent a d' := by
  induction h' with
  | refl => exact h
  | step hp _ ih => exact .step hp ih

/-- In either order, the walk meets the same nodes. -/
theorem perm_postOrder (depth d : Nat) : (postOrder kids depth d).Perm (preOrder kids depth d) := by
  induction depth generalizing d with
  | zero => exact .refl _
  | succ depth ih =>
    refine List.perm_append_comm.trans (List.Perm.cons d ?_)
    exact List.Perm.flatMap_left _ fun c _ => ih c

variable (h : IsForest kids parent n)

include h

/-! ## Forests from forests -/

/-- The order of the children does not count. -/
theorem IsForest.perm {kids' : Nat → List Nat} (hk : ∀ p, (kids' p).Perm (kids p)) :
    IsForest kids' parent n where
  parent_lt := h.parent_lt
  parent_of_kid hd := h.parent_of_kid ((hk _).mem_iff.1 hd)
  kid_of_parent hd hp := (hk _).mem_iff.2 (h.kid_of_parent hd hp)
  kid_lt hd := h.kid_lt ((hk _).mem_iff.1 hd)
  nodup_kids p := (hk p).nodup_iff.2 (h.nodup_kids p)

/-- One more node, the last child of `q`. -/
theorem IsForest.addLeaf {q : Nat} (hq : q < n) :
    IsForest (fun d => if d = q then kids d ++ [n] else kids d)
      (fun d => if d = n then some q else parent d) (n + 1) where
  parent_lt {d p} hp := by
    by_cases hd : d = n
    · rw [if_pos hd, Option.some.injEq] at hp
      omega
    · rw [if_neg hd] at hp
      exact h.parent_lt hp
  parent_of_kid {d p} hd := by
    have hold : d ∈ kids p → (if d = n then some q else parent d) = some p := fun hk => by
      rw [if_neg (Nat.ne_of_lt (h.kid_lt hk))]
      exact h.parent_of_kid hk
    by_cases hp : p = q
    · rw [if_pos hp, List.mem_append, List.mem_singleton] at hd
      rcases hd with hd | rfl
      · exact hold hd
      · rw [if_pos rfl, hp]
    · rw [if_neg hp] at hd
      exact hold hd
  kid_of_parent {d p} hd hp := by
    by_cases hdn : d = n
    · rw [if_pos hdn, Option.some.injEq] at hp
      rw [if_pos hp.symm, hdn]
      exact List.mem_append_right _ List.mem_cons_self
    · rw [if_neg hdn] at hp
      have hk := h.kid_of_parent (by omega) hp
      by_cases hpq : p = q
      · rw [if_pos hpq]
        exact List.mem_append_left _ hk
      · rwa [if_neg hpq]
  kid_lt {d p} hd := by
    by_cases hp : p = q
    · rw [if_pos hp, List.mem_append, List.mem_singleton] at hd
      rcases hd with hd | rfl
      · exact Nat.lt_succ_of_lt (h.kid_lt hd)
      · exact Nat.lt_succ_self _
    · rw [if_neg hp] at hd
      exact Nat.lt_succ_of_lt (h.kid_lt hd)
  nodup_kids p := by
    by_cases hp : p = q
    · rw [if_pos hp]
      refine List.Nodup.append (h.nodup_kids p) (List.nodup_singleton n) fun d hd hn => ?_
      exact absurd (h.kid_lt hd) (by rw [List.mem_singleton.1 hn]; exact Nat.lt_irrefl n)
    · rw [if_neg hp]
      exact h.nodup_kids p

/-! ## The walks -/

theorem Above.le (ha : Above parent a d) : a ≤ d := by
  induction ha with
  | refl => exact Nat.le_refl _
  | step hp _ ih => exact Nat.le_trans ih (Nat.le_of_lt (h.parent_lt hp))

theorem above_of_mem_preOrder (depth : Nat) : ∀ a, ∀ d ∈ preOrder kids depth a, Above parent a d := by
  induction depth with
  | zero => exact nofun
  | succ depth ih =>
    intro a d hd
    rcases List.mem_cons.1 hd with rfl | hd
    · exact .refl d
    · obtain ⟨c, hc, hd⟩ := List.mem_flatMap.1 hd
      exact (Above.step (h.parent_of_kid hc) (.refl a)).trans (ih c d hd)

/-- What is met below the start is some node's child. -/
theorem lt_of_mem_preOrder (depth : Nat) : ∀ a < n, ∀ d ∈ preOrder kids depth a, d < n := by
  induction depth with
  | zero => exact nofun
  | succ depth ih =>
    intro a ha d hd
    rcases List.mem_cons.1 hd with rfl | hd
    · exact ha
    · obtain ⟨c, hc, hd⟩ := List.mem_flatMap.1 hd
      exact ih c (h.kid_lt hc) d hd

theorem nodup_preOrder (depth : Nat) : ∀ a, (preOrder kids depth a).Nodup := by
  induction depth with
  | zero => exact fun a => List.nodup_nil
  | succ depth ih =>
    intro a
    have hlt : ∀ c ∈ kids a, a < c := fun c hc => h.parent_lt (h.parent_of_kid hc)
    refine List.nodup_cons.2 ⟨fun hmem => ?_, ?_⟩
    · obtain ⟨c, hc, hmem⟩ := List.mem_flatMap.1 hmem
      have hle := (above_of_mem_preOrder h depth c a hmem).le h
      exact absurd (hlt c hc) (by omega)
    · refine List.nodup_flatMap.2 ⟨fun c _ => ih c, ?_⟩
      refine (h.nodup_kids a).imp_of_mem fun {c c'} hc hc' hne => ?_
      -- A node below two children of one node would put one of them above the other.
      have hno : ∀ {c c'}, c ∈ kids a → c' ∈ kids a → c ≠ c' → ¬ Above parent c c' := by
        intro c c' hc hc' hne hab
        cases hab with
        | refl => exact hne rfl
        | step hp hup =>
          rw [h.parent_of_kid hc', Option.some.injEq] at hp
          subst hp
          exact absurd (hlt c hc) (Nat.not_lt.2 (hup.le h))
      intro d hd hd'
      rcases (above_of_mem_preOrder h depth c d hd).linear (above_of_mem_preOrder h depth c' d hd')
        with hab | hab
      · exact hno hc hc' hne hab
      · exact hno hc' hc hne.symm hab

omit h in
/-- A child of a node that was met is met one level further down. -/
theorem mem_preOrder_kid (depth : Nat) : ∀ a, p ∈ preOrder kids depth a → d ∈ kids p →
    d ∈ preOrder kids (depth + 1) a := by
  induction depth with
  | zero => exact nofun
  | succ depth ih =>
    intro a hp hd
    rcases List.mem_cons.1 hp with rfl | hp
    · exact List.mem_cons_of_mem _ (List.mem_flatMap.2 ⟨d, hd, List.mem_cons_self⟩)
    · obtain ⟨c, hc, hp⟩ := List.mem_flatMap.1 hp
      exact List.mem_cons_of_mem _ (List.mem_flatMap.2 ⟨c, hc, ih c hp hd⟩)

/-- With enough levels the walk down meets all there is below. -/
theorem mem_preOrder (hd : d < n) (hdepth : d < a + depth) :
    d ∈ preOrder kids depth a ↔ Above parent a d := by
  refine ⟨above_of_mem_preOrder h depth a d, fun hab => ?_⟩
  induction hab generalizing depth with
  | refl =>
    obtain ⟨k, rfl⟩ := Nat.exists_eq_succ_of_ne_zero (by omega : depth ≠ 0)
    exact List.mem_cons_self
  | step hp hup ih =>
    have hlt := h.parent_lt hp
    have hle := hup.le h
    obtain ⟨k, rfl⟩ := Nat.exists_eq_succ_of_ne_zero (by omega : depth ≠ 0)
    exact mem_preOrder_kid k _ (ih (by omega) (by omega)) (h.kid_of_parent hd hp)

/-- The walk up finds what is above. -/
theorem isUnder_iff (hdepth : d < depth) : isUnder parent a depth d = true ↔ Above parent a d := by
  induction depth generalizing d with
  | zero => omega
  | succ depth ih =>
    rw [isUnder]
    by_cases hd : d = a
    · rw [if_pos hd]
      exact ⟨fun _ => hd ▸ .refl _, fun _ => rfl⟩
    rw [if_neg hd]
    cases hp : parent d with
    | none =>
      refine ⟨fun h => absurd h Bool.false_ne_true, fun hab => ?_⟩
      cases hab with
      | refl => exact absurd rfl hd
      | step hp' _ => rw [hp] at hp'; cases hp'
    | some p =>
      have hlt := h.parent_lt hp
      refine (ih (by omega)).trans ⟨fun hab => .step hp hab, fun hab => ?_⟩
      cases hab with
      | refl => exact absurd rfl hd
      | step hp' hup =>
        rw [hp, Option.some.injEq] at hp'
        exact hp' ▸ hup

/-- Where every node but the first has a parent, the first is above all. -/
theorem above_zero (hroot : ∀ d, 0 < d → d < n → (parent d).isSome) (hd : d < n) :
    Above parent 0 d := by
  induction d using Nat.strongRecOn with
  | _ d ih =>
    by_cases h0 : d = 0
    · subst h0
      exact .refl 0
    · obtain ⟨p, hp⟩ := Option.isSome_iff_exists.1 (hroot d (by omega) hd)
      have hlt := h.parent_lt hp
      exact .step hp (ih p hlt (by omega))

/-- The walk down from the first node meets every node once. -/
theorem perm_preOrder (hroot : ∀ d, 0 < d → d < n → (parent d).isSome) (hn : 0 < n) :
    (preOrder kids n 0).Perm (List.range n) := by
  refine (List.perm_ext_iff_of_nodup (nodup_preOrder h n 0) List.nodup_range).2 fun d => ?_
  rw [List.mem_range]
  refine ⟨fun hd => ?_, fun hd => (mem_preOrder h hd (by omega)).2 (above_zero h hroot hd)⟩
  exact lt_of_mem_preOrder h n 0 hn d hd

end Ps5Upload.Forest
