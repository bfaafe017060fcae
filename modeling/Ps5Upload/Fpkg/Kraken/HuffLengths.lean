import Ps5Upload.Fpkg.Kraken.Huff
import Ps5Upload.Lib.Merging
import Mathlib.Algebra.Order.BigOperators.Group.Finset
import Mathlib.Data.List.Sort
import Mathlib.Tactic.Linarith
import Mathlib.Tactic.Positivity

/-!
# Kraken: lengths of Huffman codes

`code_lengths` and `huffman_lengths` of `ps5upload-fpkg/src/kraken/huff.rs`: the lightest nodes of a heap are
merged until one is left, a symbol's length is the way up from its leaf, and where one is too long the
frequencies are halved and all is done again.
-/

namespace Ps5Upload.Kraken

open Checked Merging

namespace Huff

/-! ## The tree -/

/-- What the heap pops first: the lighter node, of equal ones the older. -/
def Lighter (e e' : Nat × Nat) : Prop := e.1 < e'.1 ∨ e.1 = e'.1 ∧ e.2 ≤ e'.2

instance : DecidableRel Lighter := fun e e' => inferInstanceAs (Decidable (e.1 < e'.1 ∨ e.1 = e'.1 ∧ e.2 ≤ e'.2))

instance : Std.Total Lighter where
  total e e' := by
    rw [Lighter, Lighter]
    omega

instance : IsTrans (Nat × Nat) Lighter where
  trans e e' e'' h h' := by
    rw [Lighter] at h h' ⊢
    omega

/-- `BinaryHeap` of `Reverse((weight, node))`, with what it pops first in front. -/
abbrev Heap := List (Nat × Nat)

def Heap.push (heap : Heap) (e : Nat × Nat) : Heap := List.orderedInsert Lighter e heap

/-- The state of `huffman_lengths`; a node without a parent is `usize::MAX` in the source. -/
structure Building where
  parent : List (Option Nat)
  /-- The leaves of the symbols so far. -/
  leaf : List (Option Nat)
  heap : Heap

/-- One symbol of the table. -/
def Building.plant (b : Building) (w : Nat) : Building :=
  if 0 < w then
    { parent := b.parent ++ [none]
      leaf := b.leaf ++ [some b.parent.length]
      heap := Heap.push b.heap (w, b.parent.length) }
  else { b with leaf := b.leaf ++ [none] }

def planted (f : List Nat) : Building := f.foldl Building.plant ⟨[], [], []⟩

/-- The loop over the heap. -/
def mergeAll (turns : Nat) (b : Building) : Res Building :=
  match b.heap with
  | (wa, x) :: (wb, y) :: rest =>
    match turns with
    | 0 => panic
    | turns + 1 => do
      let n := b.parent.length
      let parent ← store (b.parent ++ [none]) x (some n)
      let parent ← store parent y (some n)
      let w ← add 64 wa wb
      mergeAll turns { b with parent := parent, heap := Heap.push rest (w, n) }
  | _ => return b

/-- The way up from a node, with `d` steps done; `d` is a byte. -/
def climb (parent : List (Option Nat)) (turns x d : Nat) : Res Nat := do
  match ← index parent x with
  | none => return d
  | some y =>
    match turns with
    | 0 => panic
    | turns + 1 => do
      let d ← add 8 d 1
      climb parent turns y d

def lengthOf (parent : List (Option Nat)) : Option Nat → Res Nat
  | none => return 0
  | some x => climb parent 256 x 0

def huffmanLengths (f : List Nat) : Res (List Nat) := do
  let b ← mergeAll 256 (planted f)
  collect (lengthOf b.parent) b.leaf

/-- The frequencies, flattened. -/
def flatten (f : List Nat) : List Nat := f.map fun x => if 0 < x then (x + 1) / 2 else x

/-- The loop of `code_lengths`. -/
def codeLengthsFor : Nat → List Nat → Res (List Nat)
  | 0, _ => panic
  | turns + 1, f => do
    let lens ← huffmanLengths f
    if lens.all (· ≤ maxLen) then return lens
    else codeLengthsFor turns (flatten f)

/-- Halving a 32-bit number 32 times leaves one. -/
def codeLengths (f : List Nat) : Res (List Nat) := codeLengthsFor 33 f

/-! ## The way up -/

/-- The node `r` without a parent is `d` steps above `x`. -/
inductive Climbs (parent : List (Option Nat)) : Nat → Nat → Nat → Prop
  | root {x : Nat} (h : parent[x]? = some none) : Climbs parent x x 0
  | up {x y r d : Nat} (h : parent[x]? = some (some y)) (hy : Climbs parent y r d) : Climbs parent x r (d + 1)

variable {parent : List (Option Nat)} {x y r d : Nat}

/-- **The way up is counted.** -/
theorem climb_spec (h : Climbs parent x r d) : ∀ (turns n : Nat), d ≤ turns → n + d < 2 ^ 8 →
    climb parent turns x n = .ok (n + d) := by
  induction h with
  | root h =>
    intro turns n _ _
    unfold climb
    rw [index_eq h]
    rfl
  | @up x y r d h _ ih =>
    intro turns n hturns hn
    obtain ⟨turns, rfl⟩ : ∃ t, turns = t + 1 := ⟨turns - 1, by omega⟩
    unfold climb
    rw [index_eq h, ok_bind]
    dsimp only
    rw [add_eq (by omega), ok_bind, ih turns (n + 1) (by omega) (by omega)]
    congr 1
    omega

/-- The parents after a merge of `x` and `y`. -/
def adopt (parent : List (Option Nat)) (x y : Nat) : List (Option Nat) :=
  ((parent ++ [none]).set x (some parent.length)).set y (some parent.length)

theorem adopt_new (hx : x < parent.length) (hy : y < parent.length) : (adopt parent x y)[parent.length]? = some none := by
  rw [adopt, List.getElem?_set_ne (by omega), List.getElem?_set_ne (by omega), List.getElem?_concat_length]

theorem adopt_of_ne {z : Nat} (hzx : z ≠ x) (hzy : z ≠ y) (hz : z < parent.length) :
    (adopt parent x y)[z]? = parent[z]? := by
  rw [adopt, List.getElem?_set_ne hzy.symm, List.getElem?_set_ne hzx.symm, List.getElem?_append_left hz]

theorem adopt_merged {z : Nat} (h : z = x ∨ z = y) (hx : x < parent.length) (hy : y < parent.length) :
    (adopt parent x y)[z]? = some (some parent.length) := by
  have hlen : y < ((parent ++ [none]).set x (some parent.length)).length := by
    rw [List.length_set, List.length_append]
    omega
  by_cases hzy : z = y
  · subst hzy
    rw [adopt, List.getElem?_set_self hlen]
  · have hzx : z = x := h.resolve_right hzy
    subst hzx
    rw [adopt, List.getElem?_set_ne (Ne.symm hzy), List.getElem?_set_self (by rw [List.length_append]; omega)]

/-- **A merge puts one step more above the leaves of its two nodes**, and none above others. -/
theorem Climbs.adopt (h : Climbs parent x r d) {a b : Nat} (ha : parent[a]? = some none)
    (hb : parent[b]? = some none) :
    if r = a ∨ r = b then Climbs (Huff.adopt parent a b) x parent.length (d + 1)
    else Climbs (Huff.adopt parent a b) x r d := by
  have hal := (List.getElem?_eq_some_iff.1 ha).1
  have hbl := (List.getElem?_eq_some_iff.1 hb).1
  induction h with
  | @root x h =>
    have hxl := (List.getElem?_eq_some_iff.1 h).1
    split
    · rename_i hx
      exact .up (adopt_merged hx hal hbl) (.root (adopt_new hal hbl))
    · rename_i hx
      rw [not_or] at hx
      exact .root ((adopt_of_ne hx.1 hx.2 hxl).trans h)
  | @up x y r d h hy ih =>
    have hxl := (List.getElem?_eq_some_iff.1 h).1
    -- a node with a parent is neither of the two
    have hxa : x ≠ a := by
      rintro rfl
      rw [h] at ha
      cases ha
    have hxb : x ≠ b := by
      rintro rfl
      rw [h] at hb
      cases hb
    have hup := (adopt_of_ne hxa hxb hxl).trans h
    split <;> rename_i hr
    · rw [if_pos hr] at ih
      exact .up hup ih
    · rw [if_neg hr] at ih
      exact .up hup ih

/-! ## The heap -/

/-- The trees of the heap, over `k` leaves. -/
structure Grown (k : Nat) (b : Building) (above : Above Nat) (low total : Nat) : Prop where
  merged : Merged (Finset.range k) b.heap above low b.parent.length total
  sorted : b.heap.Pairwise Lighter
  roots : ∀ e ∈ b.heap, b.parent[e.2]? = some none
  climbs : ∀ i < k, Climbs b.parent i (above.root i) (above.depth i)

theorem perm_push (heap : Heap) (e : Nat × Nat) : (Heap.push heap e).Perm (e :: heap) :=
  List.perm_orderedInsert Lighter e heap

theorem sorted_push {heap : Heap} (h : heap.Pairwise Lighter) (e : Nat × Nat) : (Heap.push heap e).Pairwise Lighter :=
  h.orderedInsert e heap

variable {b : Building} {k total : Nat} {f lens : List Nat} {depth : Nat → Nat}

/-- **One turn of the loop.** -/
theorem Grown.step {above : Above Nat} {low wa wb : Nat} {rest : Heap}
    (h : Grown k b above low total) (hheap : b.heap = (wa, x) :: (wb, y) :: rest) :
    Grown k { b with parent := adopt b.parent x y, heap := Heap.push rest (wa + wb, b.parent.length) }
      (above.merge x y b.parent.length) wb total := by
  have hsorted := h.sorted
  have hmerged := h.merged
  rw [hheap] at hsorted hmerged
  obtain ⟨hfirst, hsorted⟩ := List.pairwise_cons.1 hsorted
  obtain ⟨hsecond, hsorted⟩ := List.pairwise_cons.1 hsorted
  have hxy : wa ≤ wb := by
    rcases hfirst (wb, y) List.mem_cons_self with h | h
    · exact Nat.le_of_lt h
    · exact Nat.le_of_eq h.1
  have hrest : ∀ e ∈ rest, wb ≤ e.1 := fun e he => by
    rcases hsecond e he with h | h
    · exact Nat.le_of_lt h
    · exact Nat.le_of_eq h.1
  have hx := h.roots (wa, x) (by rw [hheap]; exact List.mem_cons_self)
  have hy := h.roots (wb, y) (by rw [hheap]; exact List.mem_cons_of_mem _ List.mem_cons_self)
  have hlen : (adopt b.parent x y).length = b.parent.length + 1 := by
    rw [adopt, List.length_set, List.length_set, List.length_append]
    rfl
  have hxl := (List.getElem?_eq_some_iff.1 hx).1
  have hyl := (List.getElem?_eq_some_iff.1 hy).1
  have hnodup := hmerged.nodup
  rw [List.map_cons, List.map_cons, List.nodup_cons, List.nodup_cons] at hnodup
  refine ⟨?_, sorted_push hsorted _, ?_, ?_⟩
  · dsimp only
    rw [hlen]
    exact (hmerged.step hxy hrest).perm (perm_push rest _).symm
  · intro e he
    rcases List.mem_cons.1 ((perm_push rest _).mem_iff.1 he) with rfl | he
    · exact adopt_new hxl hyl
    · have hroot := h.roots e (by rw [hheap]; exact List.mem_cons_of_mem _ (List.mem_cons_of_mem _ he))
      have hmem := List.mem_map_of_mem (f := Prod.snd) he
      have hex : e.2 ≠ x := fun heq => hnodup.1 (List.mem_cons_of_mem _ (heq ▸ hmem))
      have hey : e.2 ≠ y := fun heq => hnodup.2.1 (heq ▸ hmem)
      exact (adopt_of_ne hex hey (List.getElem?_eq_some_iff.1 hroot).1).trans hroot
  · intro i hi
    have hclimb := (h.climbs i hi).adopt hx hy
    by_cases hroot : above.root i = x ∨ above.root i = y
    · rw [if_pos hroot] at hclimb
      rw [root_merged hroot, depth_merged hroot]
      exact hclimb
    · rw [if_neg hroot] at hclimb
      rw [root_kept hroot, depth_kept hroot]
      exact hclimb

/-- **The heap is merged to one node.** -/
theorem mergeAll_spec (htotal : total < 2 ^ 64) : ∀ (turns : Nat) {b : Building}
    {above : Above Nat} {low : Nat}, Grown k b above low total → b.heap ≠ [] → b.heap.length ≤ turns + 1 →
    ∃ b' above' low' e, mergeAll turns b = .ok b' ∧ Grown k b' above' low' total ∧ b'.heap = [e] ∧
      b'.leaf = b.leaf := by
  intro turns
  induction turns with
  | zero =>
    intro b above low h hne hlen
    obtain ⟨e, he⟩ : ∃ e, b.heap = [e] := List.length_eq_one_iff.1 (by
      have := List.length_pos_iff.2 hne
      omega)
    refine ⟨b, above, low, e, ?_, h, he, rfl⟩
    rw [mergeAll, he]
    rfl
  | succ turns ih =>
    intro b above low h hne hlen
    rcases hheap : b.heap with _ | ⟨⟨wa, x⟩, _ | ⟨⟨wb, y⟩, rest⟩⟩
    · exact absurd hheap hne
    · refine ⟨b, above, low, (wa, x), ?_, h, hheap, rfl⟩
      rw [mergeAll, hheap]
      rfl
    · have hsum := h.merged.sum
      rw [hheap, List.map_cons, List.map_cons, List.sum_cons, List.sum_cons] at hsum
      have hx := h.merged.old (wa, x) (by rw [hheap]; exact List.mem_cons_self)
      have hy := h.merged.old (wb, y) (by rw [hheap]; exact List.mem_cons_of_mem _ List.mem_cons_self)
      rw [hheap, List.length_cons, List.length_cons] at hlen
      have hgrown := h.step hheap
      have hpush := (perm_push rest (wa + wb, b.parent.length)).length_eq
      rw [List.length_cons] at hpush
      obtain ⟨b', above', low', e, hrun, h', he, hleaf⟩ := ih hgrown
        (List.ne_nil_of_length_pos (by dsimp only; omega)) (by dsimp only; omega)
      refine ⟨b', above', low', e, ?_, h', he, hleaf⟩
      rw [mergeAll, hheap]
      dsimp only at hx hy ⊢
      rw [store_eq (by rw [List.length_append]; omega), ok_bind,
        store_eq (by rw [List.length_set, List.length_append]; omega), ok_bind, add_eq (by omega), ok_bind]
      exact hrun

/-! ## The leaves -/

/-- The frequencies of the symbols that have one. -/
def used (f : List Nat) : List Nat := f.filter (0 < ·)

theorem used_cons_pos {w : Nat} (hw : 0 < w) (f : List Nat) : used (w :: f) = w :: used f := by
  rw [used, List.filter_cons, if_pos (decide_eq_true hw)]
  rfl

theorem used_cons_zero {w : Nat} (hw : ¬0 < w) (f : List Nat) : used (w :: f) = used f := by
  rw [used, List.filter_cons, if_neg (by simpa using hw)]
  rfl

theorem sum_used (f : List Nat) : (used f).sum = f.sum := by
  induction f with
  | nil => rfl
  | cons w f ih =>
    by_cases hw : 0 < w
    · rw [used_cons_pos hw, List.sum_cons, List.sum_cons, ih]
    · rw [used_cons_zero hw, List.sum_cons, ih]
      omega

/-- The leaves of the symbols of a table. -/
structure Planted (f : List Nat) (b : Building) : Prop where
  parent : b.parent = List.replicate (used f).length none
  heap : b.heap.Perm (used f).zipIdx
  sorted : b.heap.Pairwise Lighter
  leaf : b.leaf.filterMap id = List.range (used f).length
  symbols : List.Forall₂ (fun w o => 0 < w ↔ o.isSome = true) f b.leaf

theorem Planted.push (h : Planted f b) (w : Nat) : Planted (f ++ [w]) (b.plant w) := by
  have happ : used (f ++ [w]) = used f ++ used [w] := List.filter_append f [w]
  by_cases hw : 0 < w
  · have hused : used (f ++ [w]) = used f ++ [w] := by
      rw [happ]
      exact congrArg (used f ++ ·) (used_cons_pos hw [])
    have hlen : b.parent.length = (used f).length := by rw [h.parent, List.length_replicate]
    rw [Building.plant, if_pos hw]
    refine ⟨?_, ?_, sorted_push h.sorted _, ?_, ?_⟩
    · rw [hused, List.length_append, h.parent]
      exact List.replicate_succ'.symm
    · rw [hused, List.zipIdx_append, hlen, Nat.add_comm]
      exact (perm_push _ _).trans ((h.heap.cons _).trans (List.perm_append_singleton _ _).symm)
    · rw [hused, List.filterMap_append, h.leaf, hlen, List.length_append]
      exact List.range_succ.symm
    · exact List.rel_append h.symbols (.cons (by simp [hw]) .nil)
  · have hused : used (f ++ [w]) = used f := by
      rw [happ]
      exact (congrArg (used f ++ ·) (used_cons_zero hw [])).trans (List.append_nil _)
    rw [Building.plant, if_neg hw]
    refine ⟨?_, ?_, h.sorted, ?_, ?_⟩
    · rw [hused]
      exact h.parent
    · rw [hused]
      exact h.heap
    · rw [hused, List.filterMap_append, h.leaf]
      exact List.append_nil _
    · exact List.rel_append h.symbols (.cons (by simp [hw]) .nil)

theorem planted_spec (f : List Nat) : Planted f (planted f) := by
  induction f using List.reverseRecOn with
  | nil => exact ⟨rfl, .refl _, .nil, rfl, .nil⟩
  | append_singleton f w ih =>
    rw [planted, List.foldl_append]
    exact ih.push w

theorem Planted.grown (h : Planted f b) : Grown (used f).length b ⟨id, fun _ => 0⟩ 1 f.sum where
  merged := by
    have hpos : ∀ w ∈ used f, 0 < w := fun w hw => of_decide_eq_true (List.mem_filter.1 hw).2
    have hlen : b.parent.length = (used f).length := by rw [h.parent, List.length_replicate]
    rw [hlen, ← sum_used]
    exact (Merged.start hpos).perm h.heap.symm
  sorted := h.sorted
  roots e he := by
    have hlt := List.snd_lt_of_mem_zipIdx (h.heap.mem_iff.1 he)
    rw [h.parent, List.getElem?_replicate_of_lt (by omega)]
  climbs i hi := by
    refine .root ?_
    rw [h.parent, List.getElem?_replicate_of_lt hi]

/-! ## Lengths -/

/-- A length of a symbol with that frequency, in a tree over `total`. -/
def Suits (total w l : Nat) : Prop := if 0 < w then 1 ≤ l ∧ Nat.fib (l + 2) ≤ total else l = 0

/-- The lengths that are used make a complete code. -/
def IsComplete (lens : List Nat) : Prop := ((used lens).map fun l => (1 / 2 : ℚ) ^ l).sum = 1

/-- With another leaf, none is the root. -/
theorem depth_pos (hk : 2 ≤ k)
    (hsum : ∑ i ∈ Finset.range k, (1 / 2 : ℚ) ^ depth i = 1) {i : Nat} (hi : i < k) : 0 < depth i := by
  rw [Nat.pos_iff_ne_zero]
  intro hzero
  obtain ⟨j, hj, hji⟩ : ∃ j, j < k ∧ j ≠ i := by
    by_cases h : i = 0
    · exact ⟨1, by omega, by omega⟩
    · exact ⟨0, by omega, by omega⟩
  have hle : ∑ l ∈ {i, j}, (1 / 2 : ℚ) ^ depth l ≤ ∑ l ∈ Finset.range k, (1 / 2 : ℚ) ^ depth l := by
    refine Finset.sum_le_sum_of_subset_of_nonneg (fun l hl => ?_) fun l _ _ => by positivity
    rcases Finset.mem_insert.1 hl with rfl | hl
    · exact Finset.mem_range.2 hi
    · rw [Finset.mem_singleton.1 hl]
      exact Finset.mem_range.2 hj
  have hpos : (0 : ℚ) < (1 / 2) ^ depth j := by positivity
  rw [Finset.sum_pair (Ne.symm hji), hzero, pow_zero, hsum] at hle
  linarith

theorem fib_bound {d : Nat} (h : Nat.fib (d + 2) ≤ total) (htotal : total < 2 ^ 64) : d < 92 := by
  by_contra hd
  have hmono : Nat.fib 94 ≤ Nat.fib (d + 2) := Nat.fib_mono (by omega)
  have hbig : 2 ^ 64 < Nat.fib 94 := by decide +kernel
  omega

/-- The depths of the leaves are the lengths that are used. -/
theorem used_depths : ∀ (leaf : List (Option Nat)), (∀ i ∈ leaf.filterMap id, 0 < depth i) →
    used (leaf.map fun o => (o.map depth).getD 0) = (leaf.filterMap id).map depth
  | [], _ => rfl
  | none :: leaf, h => by
    rw [List.map_cons]
    exact (used_cons_zero (Nat.lt_irrefl 0) _).trans (used_depths leaf h)
  | some i :: leaf, h => by
    have ih := used_depths leaf fun j hj => h j (List.mem_cons_of_mem i hj)
    rw [List.map_cons]
    exact (used_cons_pos (h i List.mem_cons_self) _).trans (congrArg (depth i :: ·) ih)

theorem sum_range_list (g : Nat → ℚ) : ((List.range k).map g).sum = ∑ i ∈ Finset.range k, g i := by
  induction k with
  | zero => rfl
  | succ k ih => rw [List.range_succ, List.map_append, List.sum_append, ih, Finset.sum_range_succ]; simp

/-- A symbol's length suits it where its leaf's depth does. -/
theorem suits_leaves {leaf : List (Option Nat)}
    (h : List.Forall₂ (fun w o => 0 < w ↔ o.isSome = true) f leaf)
    (hleaf : ∀ i, some i ∈ leaf → 0 < depth i ∧ Nat.fib (depth i + 2) ≤ total) :
    List.Forall₂ (fun w o => Suits total w ((Option.map depth o).getD 0)) f leaf := by
  induction h with
  | nil => exact .nil
  | @cons w o f leaf hw _ ih =>
    refine .cons ?_ (ih fun i hi => hleaf i (List.mem_cons_of_mem o hi))
    rw [Suits]
    cases o with
    | none =>
      rw [if_neg (fun h => by cases hw.1 h)]
      rfl
    | some i =>
      rw [if_pos (hw.2 rfl)]
      exact hleaf i List.mem_cons_self

/-- **The lengths of a table with two symbols or more.** -/
theorem huffmanLengths_spec (htwo : 2 ≤ (used f).length) (hmany : (used f).length ≤ 257)
    (hsum : f.sum < 2 ^ 64) :
    ∃ lens, huffmanLengths f = .ok lens ∧ List.Forall₂ (Suits f.sum) f lens ∧ IsComplete lens := by
  have hplanted := planted_spec f
  have hlen := hplanted.heap.length_eq
  rw [List.length_zipIdx] at hlen
  obtain ⟨b, above, low, ⟨w, r⟩, hrun, hgrown, hheap, hleaf⟩ := mergeAll_spec hsum 256 hplanted.grown
    (List.ne_nil_of_length_pos (by omega)) (by omega)
  have hmerged := hgrown.merged
  rw [hheap] at hmerged
  have hcomplete := hmerged.complete
  have hfib : ∀ i < (used f).length, Nat.fib (above.depth i + 2) ≤ f.sum := fun i hi =>
    hmerged.fib_le (Finset.mem_range.2 hi)
  have hpos : ∀ i < (used f).length, 0 < above.depth i := fun i hi => depth_pos htwo hcomplete hi
  have hmem : ∀ i, some i ∈ b.leaf → i < (used f).length := fun i hi => by
    have hfilter : i ∈ (planted f).leaf.filterMap id := List.mem_filterMap.2 ⟨some i, hleaf ▸ hi, rfl⟩
    rw [hplanted.leaf] at hfilter
    exact List.mem_range.1 hfilter
  have hlengths : ∀ o ∈ b.leaf, lengthOf b.parent o = .ok ((o.map above.depth).getD 0) := by
    intro o ho
    cases o with
    | none => rfl
    | some i =>
      have hi := hmem i ho
      have hd := fib_bound (hfib i hi) hsum
      exact (climb_spec (hgrown.climbs i hi) 256 0 (by omega) (by omega)).trans
        (congrArg Except.ok (Nat.zero_add _))
  refine ⟨b.leaf.map fun o => (o.map above.depth).getD 0, ?_, ?_, ?_⟩
  · rw [huffmanLengths, hrun, ok_bind]
    exact collect_eq hlengths
  · rw [List.forall₂_map_right_iff]
    exact suits_leaves (hleaf ▸ hplanted.symbols) fun i hi => ⟨hpos i (hmem i hi), hfib i (hmem i hi)⟩
  · rw [IsComplete, used_depths b.leaf fun i hi => ?_, hleaf, hplanted.leaf, List.map_map, sum_range_list]
    · exact hcomplete
    · obtain ⟨o, ho, hoi⟩ := List.mem_filterMap.1 hi
      exact hpos i (hmem i (by rw [← hoi]; exact ho))

/-! ## Eleven bits -/

/-- Lengths of eleven bits at most that fill the decoder's table exactly. -/
structure Lengths where
  lens : List Nat
  length_eq : lens.length = 256
  le_maxLen : ∀ l ∈ lens, l ≤ maxLen
  complete : ((used lens).map fun l => 2 ^ (maxLen - l)).sum = lutSize

/-- A symbol has a length where it has a frequency. -/
def Coded (w l : Nat) : Prop := if 0 < w then 1 ≤ l ∧ l ≤ maxLen else l = 0

theorem sum_slots {ls : List Nat} (h : ∀ l ∈ ls, l ≤ maxLen) :
    (((ls.map fun l => 2 ^ (maxLen - l)).sum : Nat) : ℚ) = lutSize * (ls.map fun l => (1 / 2 : ℚ) ^ l).sum := by
  induction ls with
  | nil => simp
  | cons l ls ih =>
    have hl := h l List.mem_cons_self
    have hpow : ((2 ^ (maxLen - l) : Nat) : ℚ) = lutSize * (1 / 2) ^ l := by
      have hsplit : (lutSize : ℚ) = 2 ^ (maxLen - l) * 2 ^ l := by
        rw [← pow_add, Nat.sub_add_cancel hl]
        norm_num [lutSize]
      rw [hsplit, mul_assoc, ← mul_pow]
      norm_num
    rw [List.map_cons, List.sum_cons, List.map_cons, List.sum_cons, Nat.cast_add,
      ih fun m hm => h m (List.mem_cons_of_mem l hm), hpow]
    ring

theorem complete_slots (h : IsComplete lens) (hle : ∀ l ∈ lens, l ≤ maxLen) :
    ((used lens).map fun l => 2 ^ (maxLen - l)).sum = lutSize := by
  have hused : ∀ l ∈ used lens, l ≤ maxLen := fun l hl => hle l (List.mem_filter.1 hl).1
  have hsum := sum_slots hused
  rw [IsComplete] at h
  rw [h, mul_one] at hsum
  exact_mod_cast hsum

theorem flatten_pos (x : Nat) : 0 < (if 0 < x then (x + 1) / 2 else x) ↔ 0 < x := by
  split <;> omega

theorem length_used_flatten (f : List Nat) : (used (flatten f)).length = (used f).length := by
  rw [used, used, flatten, ← List.countP_eq_length_filter, ← List.countP_eq_length_filter, List.countP_map]
  refine List.countP_congr fun x _ => ?_
  simp only [Function.comp_apply, decide_eq_true_eq]
  exact flatten_pos x

/-- Ones make a tree of eleven levels at most. -/
theorem le_maxLen_of_ones {l : Nat} (h : Nat.fib (l + 2) ≤ total) (htotal : total ≤ 256) : l ≤ maxLen := by
  by_contra hl
  have hmax : maxLen = 11 := rfl
  have hmono : Nat.fib 14 ≤ Nat.fib (l + 2) := Nat.fib_mono (by omega)
  have hbig : Nat.fib 14 = 377 := by decide
  omega

theorem coded_of_suits (h : List.Forall₂ (Suits total) f lens)
    (hle : ∀ l ∈ lens, l ≤ maxLen) : List.Forall₂ Coded f lens := by
  induction h with
  | nil => exact .nil
  | @cons w l f lens hw _ ih =>
    refine .cons ?_ (ih fun m hm => hle m (List.mem_cons_of_mem l hm))
    rw [Suits] at hw
    rw [Coded]
    split
    · rename_i hpos
      rw [if_pos hpos] at hw
      exact ⟨hw.1, hle l List.mem_cons_self⟩
    · rename_i hzero
      rw [if_neg hzero] at hw
      exact hw

theorem ones_short (htotal : total ≤ 256) (h : List.Forall₂ (Suits total) f lens) :
    ∀ l ∈ lens, l ≤ maxLen := by
  induction h with
  | nil => exact nofun
  | @cons w l f lens hw _ ih =>
    intro m hm
    rcases List.mem_cons.1 hm with rfl | hm
    · rw [Suits] at hw
      split at hw
      · exact le_maxLen_of_ones hw.2 htotal
      · rw [hw]
        exact Nat.zero_le _
    · exact ih m hm

theorem coded_flatten (h : List.Forall₂ Coded (flatten f) lens) : List.Forall₂ Coded f lens := by
  rw [flatten, List.forall₂_map_left_iff] at h
  refine h.imp fun w l hw => ?_
  rw [Coded] at hw ⊢
  by_cases hpos : 0 < w
  · rw [if_pos ((flatten_pos w).2 hpos)] at hw
    rw [if_pos hpos]
    exact hw
  · rw [if_neg (fun h => hpos ((flatten_pos w).1 h))] at hw
    rw [if_neg hpos]
    exact hw

/-- What a run of the loop gives. -/
def Done (f : List Nat) (run : Res (List Nat)) : Prop :=
  ∃ lens, run = .ok lens ∧ List.Forall₂ Coded f lens ∧ IsComplete lens ∧ ∀ l ∈ lens, l ≤ maxLen

/-- One turn: the lengths fit, or the frequencies are halved. -/
theorem codeLengthsFor_turn (hlen : f.length = 256) (hsmall : ∀ x ∈ f, x ≤ 2 ^ 32)
    (htwo : 2 ≤ (used f).length) (turns : Nat) (hmore : ¬f.sum ≤ 256 → Done (flatten f) (codeLengthsFor turns (flatten f))) :
    Done f (codeLengthsFor (turns + 1) f) := by
  have hsum : f.sum < 2 ^ 64 := by
    have := List.sum_le_card_nsmul f _ hsmall
    rw [smul_eq_mul, hlen] at this
    omega
  have hmany : (used f).length ≤ 257 := Nat.le_trans (List.length_filter_le _ _) (by omega)
  obtain ⟨lens, hrun, hsuits, hcomplete⟩ := huffmanLengths_spec htwo hmany hsum
  rw [codeLengthsFor, hrun, ok_bind]
  by_cases hle : ∀ l ∈ lens, l ≤ maxLen
  · rw [if_pos (List.all_eq_true.2 fun l hl => decide_eq_true (hle l hl))]
    exact ⟨lens, rfl, coded_of_suits hsuits hle, hcomplete, hle⟩
  · have hall : ¬lens.all (· ≤ maxLen) = true := fun h => hle fun l hl => of_decide_eq_true (List.all_eq_true.1 h l hl)
    rw [if_neg hall]
    obtain ⟨lens', hrun', hcoded, hrest⟩ := hmore fun htotal => hle (ones_short htotal hsuits)
    exact ⟨lens', hrun', coded_flatten hcoded, hrest⟩

/-- **The loop ends**, with frequencies up to `2 ^ t` after `t` more turns at the latest. -/
theorem codeLengthsFor_spec : ∀ (t : Nat) (f : List Nat), t ≤ 32 → (∀ x ∈ f, x ≤ 2 ^ t) → f.length = 256 →
    2 ≤ (used f).length → Done f (codeLengthsFor (t + 1) f) := by
  intro t
  induction t with
  | zero =>
    intro f _ hf hlen htwo
    have hsum : f.sum ≤ 256 := by
      have := List.sum_le_card_nsmul f 1 hf
      rw [smul_eq_mul, mul_one] at this
      omega
    exact codeLengthsFor_turn hlen (fun x hx => Nat.le_trans (hf x hx) (by decide)) htwo 0 fun h => absurd hsum h
  | succ t ih =>
    intro f ht hf hlen htwo
    have hsmall : ∀ x ∈ f, x ≤ 2 ^ 32 := fun x hx =>
      Nat.le_trans (hf x hx) (Nat.pow_le_pow_right (by decide) ht)
    refine codeLengthsFor_turn hlen hsmall htwo (t + 1) fun _ => ih (flatten f) (by omega) (fun x hx => ?_) ?_ ?_
    · obtain ⟨y, hy, rfl⟩ := List.mem_map.1 hx
      have := hf y hy
      rw [Nat.pow_succ] at this
      have := Nat.two_pow_pos t
      split <;> omega
    · rw [flatten, List.length_map, hlen]
    · rw [length_used_flatten]
      exact htwo

/-- **A table with two symbols or more gets a complete code of eleven bits at most.** -/
theorem codeLengths_complete (hlen : f.length = 256) (hsmall : ∀ x ∈ f, x < 2 ^ 32)
    (htwo : 2 ≤ (used f).length) : ∃ code : Lengths, codeLengths f = .ok code.lens ∧ List.Forall₂ Coded f code.lens := by
  obtain ⟨lens, hrun, hcoded, hcomplete, hle⟩ := codeLengthsFor_spec 32 f (Nat.le_refl _)
    (fun x hx => Nat.le_of_lt (hsmall x hx)) hlen htwo
  exact ⟨⟨lens, hcoded.length_eq.symm.trans hlen, hle, complete_slots hcomplete hle⟩, hrun, hcoded⟩

end Huff
end Ps5Upload.Kraken
