import Mathlib.Algebra.GroupWithZero.Nat
import Mathlib.Algebra.Order.BigOperators.Group.List
import Mathlib.Algebra.Order.Group.Nat
import Mathlib.Data.List.Nodup
import Mathlib.Data.List.Sort
import Mathlib.Order.Basic
import Mathlib.Tactic.Common

/-!
# Ordered maps

Finite maps over a linearly ordered key type, kept as the list of their entries in key order.
Everything about a map is said through `get`:

* `get_insert`, `get_erase`, `get_map`, `get_filter` — what the operations do to it;
* `get_eq_some` — the entries of a map are its values;
* `mem_keys` — its keys are where it has a value;
* `lastLe_eq_some` — the entry at the greatest key up to a bound;
* `get_insertAll_of_mem` — of many insertions under names of their own, each is found;
* `push`, `pairs_push` — maps to lists, which grow by one element at a time.
-/

namespace Ps5Upload

/-- A finite map, as its entries in key order. -/
structure BTreeMap (κ β : Type) [LinearOrder κ] where
  entries : List (κ × β)
  sorted : entries.Pairwise fun a b => a.1 < b.1

namespace BTreeMap

variable {κ β γ : Type} [LinearOrder κ]

instance [DecidableEq β] : DecidableEq (BTreeMap κ β) := fun a b =>
  decidable_of_iff (a.entries = b.entries)
    ⟨fun h => by cases a; cases b; simp_all, fun h => by rw [h]⟩

def empty : BTreeMap κ β := ⟨[], List.Pairwise.nil⟩

instance : EmptyCollection (BTreeMap κ β) := ⟨empty⟩

/-- The value at a key. -/
def get (b : BTreeMap κ β) (k : κ) : Option β :=
  (b.entries.find? fun p => p.1 = k).map Prod.snd

def keys (b : BTreeMap κ β) : List κ := b.entries.map Prod.fst

def insertEntry (k : κ) (v : β) : List (κ × β) → List (κ × β)
  | [] => [(k, v)]
  | p :: ps =>
    if k < p.1 then (k, v) :: p :: ps
    else if k = p.1 then (k, v) :: ps
    else p :: insertEntry k v ps

variable {k k' : κ} {v : β} {l : List (κ × β)} {b : BTreeMap κ β}

theorem mem_insertEntry {q : κ × β} (h : q ∈ insertEntry k v l) : q = (k, v) ∨ q ∈ l := by
  induction l with
  | nil => exact .inl (List.mem_singleton.1 h)
  | cons p ps ih =>
    rw [insertEntry] at h
    split at h
    · exact List.mem_cons.1 h
    · split at h
      · rcases List.mem_cons.1 h with h | h
        · exact .inl h
        · exact .inr (List.mem_cons_of_mem p h)
      · rcases List.mem_cons.1 h with h | h
        · exact .inr (h ▸ List.mem_cons_self)
        · rcases ih h with h | h
          · exact .inl h
          · exact .inr (List.mem_cons_of_mem p h)

theorem insertEntry_sorted (h : l.Pairwise fun a b => a.1 < b.1) :
    (insertEntry k v l).Pairwise fun a b => a.1 < b.1 := by
  induction l with
  | nil => exact List.pairwise_singleton _ _
  | cons p ps ih =>
    obtain ⟨hp, hps⟩ := List.pairwise_cons.1 h
    rw [insertEntry]
    split
    · rename_i hlt
      refine List.pairwise_cons.2 ⟨fun q hq => ?_, h⟩
      rcases List.mem_cons.1 hq with rfl | hq
      · exact hlt
      · exact hlt.trans (hp q hq)
    · rename_i hge
      split
      · rename_i heq
        exact List.pairwise_cons.2 ⟨fun q hq => heq ▸ hp q hq, hps⟩
      · rename_i hne
        refine List.pairwise_cons.2 ⟨fun q hq => ?_, ih hps⟩
        rcases mem_insertEntry hq with rfl | hq
        · exact lt_of_le_of_ne (not_lt.1 hge) (Ne.symm hne)
        · exact hp q hq

def insert (b : BTreeMap κ β) (k : κ) (v : β) : BTreeMap κ β :=
  ⟨insertEntry k v b.entries, insertEntry_sorted b.sorted⟩

/-- The map without the entries that fail a test. -/
def filter (b : BTreeMap κ β) (keep : κ → Bool) : BTreeMap κ β :=
  ⟨b.entries.filter fun p => keep p.1, b.sorted.filter _⟩

def erase (b : BTreeMap κ β) (k : κ) : BTreeMap κ β := b.filter fun k' => k' ≠ k

/-- The map with every value replaced. -/
def map (f : β → γ) (b : BTreeMap κ β) : BTreeMap κ γ :=
  ⟨b.entries.map fun p => (p.1, f p.2), List.pairwise_map.2 b.sorted⟩

/-- The map with every value replaced or left out. -/
def filterMap (f : κ → β → Option γ) (b : BTreeMap κ β) : BTreeMap κ γ :=
  ⟨b.entries.filterMap fun p => (f p.1 p.2).map fun v => (p.1, v), by
    refine List.Pairwise.filterMap _ (fun p q hpq p' hp' q' hq' => ?_) b.sorted
    obtain ⟨v, -, rfl⟩ := Option.map_eq_some_iff.1 hp'
    obtain ⟨u, -, rfl⟩ := Option.map_eq_some_iff.1 hq'
    exact hpq⟩

theorem keys_nodup (b : BTreeMap κ β) : b.keys.Nodup :=
  List.pairwise_map.2 (b.sorted.imp fun h => ne_of_lt h)

theorem get_eq_some : b.get k = some v ↔ (k, v) ∈ b.entries := by
  constructor
  · intro h
    rw [get, Option.map_eq_some_iff] at h
    obtain ⟨p, hp, rfl⟩ := h
    have hk : p.1 = k := by simpa using List.find?_some hp
    exact hk ▸ List.mem_of_find?_eq_some hp
  · intro h
    cases hf : b.entries.find? (fun p => p.1 = k) with
    | none =>
      have := List.find?_eq_none.1 hf (k, v) h
      simp at this
    | some p =>
      have hk : p.1 = k := by simpa using List.find?_some hf
      have hp : p = (k, v) :=
        List.inj_on_of_nodup_map b.keys_nodup (List.mem_of_find?_eq_some hf) h hk
      rw [get, hf, hp]
      rfl

theorem mem_keys : k ∈ b.keys ↔ (b.get k).isSome := by
  rw [keys, List.mem_map, Option.isSome_iff_exists]
  constructor
  · rintro ⟨p, hp, rfl⟩
    exact ⟨p.2, get_eq_some.2 hp⟩
  · rintro ⟨v, hv⟩
    exact ⟨(k, v), get_eq_some.1 hv, rfl⟩

@[simp] theorem get_empty (k : κ) : (∅ : BTreeMap κ β).get k = none := rfl

theorem find?_insertEntry (k k' : κ) (v : β) (l : List (κ × β)) :
    ((insertEntry k v l).find? fun p => p.1 = k').map Prod.snd
      = if k' = k then some v else (l.find? fun p => p.1 = k').map Prod.snd := by
  induction l with
  | nil => by_cases h : k' = k <;> simp [insertEntry, h, eq_comm]
  | cons p ps ih =>
    rw [insertEntry]
    split
    · by_cases h : k' = k
      · simp [h]
      · simp [List.find?_cons, h, eq_comm]
    · split
      · rename_i hkp
        by_cases h : k' = k
        · simp [h]
        · have : p.1 ≠ k' := fun hp => h (hp ▸ hkp.symm)
          simp [h, Ne.symm h, this]
      · rename_i hkp
        rw [List.find?_cons, List.find?_cons]
        by_cases hp : p.1 = k'
        · have : k' ≠ k := fun h => hkp (by rw [hp, h])
          simp [hp, this]
        · simp only [hp, decide_false]
          exact ih

/-- An insertion changes one key. -/
theorem get_insert (b : BTreeMap κ β) (k k' : κ) (v : β) :
    (b.insert k v).get k' = if k' = k then some v else b.get k' :=
  find?_insertEntry k k' v b.entries

@[simp] theorem get_insert_self (b : BTreeMap κ β) (k : κ) (v : β) :
    (b.insert k v).get k = some v := by
  rw [get_insert, if_pos rfl]

/-- A new key adds one entry. -/
theorem insert_perm (v : β) (h : b.get k = none) :
    (b.insert k v).entries.Perm ((k, v) :: b.entries) := by
  have hk : k ∉ b.entries.map Prod.fst := fun hmem => by
    have := mem_keys.1 hmem
    rw [h] at this
    cases this
  show (insertEntry k v b.entries).Perm _
  generalize b.entries = l at hk
  induction l with
  | nil => exact List.Perm.refl _
  | cons p ps ih =>
    rw [List.map_cons, List.mem_cons, not_or] at hk
    rw [insertEntry]
    split
    · exact List.Perm.refl _
    · rw [if_neg hk.1]
      exact ((ih hk.2).cons p).trans (List.Perm.swap _ _ _)

/-- An insertion leaves the other entries. -/
theorem insert_perm_rest (b : BTreeMap κ β) (k : κ) (v : β) :
    ∃ rest, b.entries.Perm ((b.get k).toList.map (fun u => (k, u)) ++ rest) ∧
      (b.insert k v).entries.Perm ((k, v) :: rest) := by
  cases hget : b.get k with
  | none => exact ⟨b.entries, List.Perm.refl _, insert_perm v hget⟩
  | some u =>
    have hmem := get_eq_some.1 hget
    obtain ⟨l, hs⟩ := b
    show ∃ rest, l.Perm ((k, u) :: rest) ∧ (insertEntry k v l).Perm ((k, v) :: rest)
    clear hget
    induction l with
    | nil => cases hmem
    | cons p ps ih =>
      obtain ⟨hp, hps⟩ := List.pairwise_cons.1 hs
      rcases List.mem_cons.1 hmem with rfl | hmem
      · refine ⟨ps, List.Perm.refl _, ?_⟩
        rw [insertEntry, if_neg (lt_irrefl k), if_pos rfl]
      · have hlt := hp _ hmem
        obtain ⟨rest, hl, hi⟩ := ih hps hmem
        refine ⟨p :: rest, (hl.cons p).trans (List.Perm.swap _ _ _), ?_⟩
        rw [insertEntry, if_neg hlt.not_gt, if_neg hlt.ne']
        exact (hi.cons p).trans (List.Perm.swap _ _ _)

theorem get_insert_of_ne (b : BTreeMap κ β) (v : β) (h : k' ≠ k) :
    (b.insert k v).get k' = b.get k' := by
  rw [get_insert, if_neg h]

theorem get_filter (b : BTreeMap κ β) (keep : κ → Bool) (k : κ) :
    (b.filter keep).get k = if keep k then b.get k else none := by
  cases hk : keep k with
  | true =>
    cases hg : b.get k with
    | none =>
      rw [if_pos rfl]
      by_contra hne
      obtain ⟨v, hv⟩ := Option.ne_none_iff_exists'.1 hne
      have := (List.mem_filter.1 (get_eq_some.1 hv)).1
      rw [get_eq_some.2 this] at hg
      simp at hg
    | some v =>
      rw [if_pos rfl]
      exact get_eq_some.2 (List.mem_filter.2 ⟨get_eq_some.1 hg, hk⟩)
  | false =>
    rw [if_neg (by simp)]
    by_contra hne
    obtain ⟨v, hv⟩ := Option.ne_none_iff_exists'.1 hne
    have := (List.mem_filter.1 (get_eq_some.1 hv)).2
    simp [hk] at this

/-- A removal changes one key. -/
theorem get_erase (b : BTreeMap κ β) (k k' : κ) :
    (b.erase k).get k' = if k' = k then none else b.get k' := by
  rw [erase, get_filter]
  by_cases h : k' = k <;> simp [h]

@[simp] theorem get_erase_self (b : BTreeMap κ β) (k : κ) : (b.erase k).get k = none := by
  rw [get_erase, if_pos rfl]

theorem get_erase_of_ne (b : BTreeMap κ β) (h : k' ≠ k) : (b.erase k).get k' = b.get k' := by
  rw [get_erase, if_neg h]

theorem get_map (f : β → γ) (b : BTreeMap κ β) (k : κ) :
    (b.map f).get k = (b.get k).map f := by
  rw [get, map, List.find?_map, Option.map_map, get, Option.map_map]
  rfl

/-! ## Many insertions -/

/-- Insertions of one entry after another, each under a new name of its key. -/
def insertAll (b : BTreeMap κ β) (rename : κ → κ) (l : List (κ × β)) : BTreeMap κ β :=
  l.foldl (fun b e => b.insert (rename e.1) e.2) b

theorem get_insertAll_of_ne {rename : κ → κ}
    (h : ∀ e ∈ l, rename e.1 ≠ k) : (b.insertAll rename l).get k = b.get k := by
  induction l generalizing b with
  | nil => rfl
  | cons e l ih =>
    refine (ih fun e' he' => h e' (List.mem_cons_of_mem e he')).trans ?_
    exact b.get_insert_of_ne e.2 (h e List.mem_cons_self).symm

theorem get_insertAll_of_mem {rename : κ → κ}
    (hl : (l.map fun e => rename e.1).Nodup) (h : (k, v) ∈ l) :
    (b.insertAll rename l).get (rename k) = some v := by
  induction l generalizing b with
  | nil => cases h
  | cons e l ih =>
    obtain ⟨he, hl⟩ := List.nodup_cons.1 hl
    rcases List.mem_cons.1 h with rfl | h
    · have hrest : ∀ e ∈ l, rename e.1 ≠ rename k := fun e he' heq =>
        he (List.mem_map.2 ⟨e, he', heq⟩)
      exact (get_insertAll_of_ne hrest).trans (b.get_insert_self _ _)
    · exact ih hl h

/-! ## Maps to lists -/

/-- `entry(k).or_default().push(v)` -/
def push (b : BTreeMap κ (List β)) (k : κ) (v : β) : BTreeMap κ (List β) :=
  b.insert k ((b.get k).getD [] ++ [v])

/-- Every element of every list, with its key. -/
def pairs (b : BTreeMap κ (List β)) : List (κ × β) := b.entries.flatMap fun e => e.2.map fun v => (e.1, v)

theorem mem_pairs {b : BTreeMap κ (List β)} : (k, v) ∈ b.pairs ↔ ∃ vs, (k, vs) ∈ b.entries ∧ v ∈ vs := by
  rw [pairs, List.mem_flatMap]
  constructor
  · rintro ⟨⟨k', vs⟩, he, hv⟩
    obtain ⟨v', hv', heq⟩ := List.mem_map.1 hv
    obtain ⟨rfl, rfl⟩ := Prod.mk.inj heq
    exact ⟨vs, he, hv'⟩
  · rintro ⟨vs, he, hv⟩
    exact ⟨(k, vs), he, List.mem_map_of_mem hv⟩

/-- One element more. -/
theorem pairs_push (b : BTreeMap κ (List β)) (k : κ) (v : β) : (b.push k v).pairs.Perm ((k, v) :: b.pairs) := by
  obtain ⟨rest, hold, hnew⟩ := b.insert_perm_rest k ((b.get k).getD [] ++ [v])
  refine (hnew.flatMap_right _).trans (List.Perm.trans ?_ ((hold.flatMap_right _).symm.cons _))
  rw [List.flatMap_cons, List.flatMap_append, List.map_append, List.append_assoc]
  refine List.perm_middle.trans (List.Perm.cons _ ?_)
  cases b.get k with
  | none => exact List.Perm.refl _
  | some vs => simp

/-! ## The last entry up to a key -/

/-- The entry with the greatest key that is at most `k`. -/
def lastLe (b : BTreeMap κ β) (k : κ) : Option (κ × β) :=
  (b.entries.filter fun p => p.1 ≤ k).getLast?

theorem lastLe_eq_some (h : b.lastLe k = some (k', v)) :
    b.get k' = some v ∧ k' ≤ k ∧ ∀ j, (b.get j).isSome → j ≤ k → j ≤ k' := by
  obtain ⟨pre, hl⟩ := List.getLast?_eq_some_iff.1 h
  have hmem : (k', v) ∈ b.entries.filter fun p => p.1 ≤ k := by
    rw [hl]
    exact List.mem_append_right pre List.mem_cons_self
  obtain ⟨hin, hle⟩ := List.mem_filter.1 hmem
  refine ⟨get_eq_some.2 hin, by simpa using hle, ?_⟩
  intro j hj hjk
  obtain ⟨u, hu⟩ := Option.isSome_iff_exists.1 hj
  have hju : (j, u) ∈ pre ++ [(k', v)] := by
    rw [← hl]
    exact List.mem_filter.2 ⟨get_eq_some.1 hu, by simpa using hjk⟩
  have hsorted : (pre ++ [(k', v)]).Pairwise fun a b => a.1 < b.1 := hl ▸ b.sorted.filter _
  rcases List.mem_append.1 hju with hpre | hlast
  · exact ((List.pairwise_append.1 hsorted).2.2 _ hpre _ List.mem_cons_self).le
  · rw [List.mem_singleton, Prod.mk.injEq] at hlast
    exact hlast.1.le

theorem lastLe_eq_none (h : b.lastLe k = none) {j : κ} (hj : (b.get j).isSome) : k < j := by
  obtain ⟨u, hu⟩ := Option.isSome_iff_exists.1 hj
  rw [lastLe, List.getLast?_eq_none_iff, List.filter_eq_nil_iff] at h
  have := h _ (get_eq_some.1 hu)
  simpa using this

/-! ## Sums over the entries -/

/-- The sum of `f` over the entries. -/
def sum (b : BTreeMap κ β) (f : κ → β → Nat) : Nat := (b.entries.map fun p => f p.1 p.2).sum

@[simp] theorem sum_empty (f : κ → β → Nat) : (∅ : BTreeMap κ β).sum f = 0 := rfl

/-- What a sum counts at a key. -/
def countAt (b : BTreeMap κ β) (f : κ → β → Nat) (k : κ) : Nat :=
  match b.get k with
  | some v => f k v
  | none => 0

theorem sum_le_sum {f g : κ → β → Nat}
    (h : ∀ k v, b.get k = some v → f k v ≤ g k v) : b.sum f ≤ b.sum g := by
  refine List.sum_le_sum ?_
  intro p hp
  exact h p.1 p.2 (get_eq_some.2 hp)

/-- A removal takes its entry off a sum. -/
theorem sum_erase (b : BTreeMap κ β) (f : κ → β → Nat)
    (h : b.get k = some v) : (b.erase k).sum f + f k v = b.sum f := by
  have hmem := get_eq_some.1 h
  obtain ⟨l, hs⟩ := b
  simp only [sum, erase, filter] at hmem ⊢
  clear h
  induction l with
  | nil => cases hmem
  | cons p l ih =>
    obtain ⟨hp, hl⟩ := List.pairwise_cons.1 hs
    rcases List.mem_cons.1 hmem with rfl | hmem
    · have hrest : l.filter (fun q => decide (q.1 ≠ k)) = l := by
        refine List.filter_eq_self.2 fun q hq => ?_
        simpa using (hp q hq).ne'
      rw [List.filter_cons_of_neg (by simp), hrest, List.map_cons, List.sum_cons, Nat.add_comm]
    · have hne : p.1 ≠ k := (hp _ hmem).ne
      simp only [List.filter_cons, hne, ne_eq, not_false_iff, decide_true, if_true, List.map_cons,
        List.sum_cons]
      have := ih hl hmem
      simp only [ne_eq] at this
      omega

/-- An insertion puts its entry in the place of the one that was there. -/
theorem sum_insert (b : BTreeMap κ β) (f : κ → β → Nat) (k : κ) (v : β) :
    (b.insert k v).sum f + b.countAt f k = b.sum f + f k v := by
  obtain ⟨l, hs⟩ := b
  simp only [sum, insert, countAt, get]
  induction l with
  | nil => simp [insertEntry]
  | cons p l ih =>
    obtain ⟨hp, hl⟩ := List.pairwise_cons.1 hs
    have hrest : k < p.1 ∨ k = p.1 → l.find? (fun q => q.1 = k) = none := by
      intro hk
      refine List.find?_eq_none.2 fun q hq => ?_
      have := hp q hq
      rcases hk with hk | hk
      · simpa using (hk.trans this).ne'
      · simpa [hk] using this.ne'
    rw [insertEntry]
    split
    · rename_i hlt
      have hne : p.1 ≠ k := hlt.ne'
      simp [hne, hrest (.inl hlt)]
      omega
    · split
      · rename_i heq
        subst heq
        simp
        omega
      · rename_i hne
        have := ih hl
        have hne' : p.1 ≠ k := fun h => hne h.symm
        simp only [List.map_cons, List.sum_cons, List.find?_cons, hne', decide_false]
        omega

end BTreeMap
end Ps5Upload
