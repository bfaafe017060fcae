import Ps5Upload.Lib.ListAt
import Mathlib.Data.List.Forall2
import Mathlib.Data.List.InsertIdx
import Mathlib.Data.List.Induction

/-!
# Moves in a list of groups

`moveItemUpWithinGroup`, `moveItemDownWithinGroup` and `moveItemToWithinGroup` of
`client/src/lib/queueOps.ts`.  The rows of several groups share one list, and a move changes the order of
one group within the slots that its rows have.
-/

namespace Ps5Upload.QueueOps

open ListAt

variable {α γ ι : Type} [DecidableEq γ] [DecidableEq ι] (idOf : α → ι) (groupOf : α → γ)

/-! ## The moves -/

/-- Two elements change places. -/
def swapAt (items : List α) (i j : Nat) : List α :=
  match items[i]?, items[j]? with
  | some x, some y => (items.set i y).set j x
  | _, _ => items

/-- `for (let k = i - 1; k >= 0; k--)` -/
def earlier (g : γ) (items : List α) : Nat → Option Nat
  | 0 => none
  | k + 1 =>
    match items[k]? with
    | some it => if groupOf it = g then some k else earlier g items k
    | none => none

/-- `for (let k = i + 1; k < items.length; k++)`, over the rows that are left. -/
def later (g : γ) : List α → Nat → Option Nat
  | [], _ => none
  | it :: items, k => if groupOf it = g then some k else later g items (k + 1)

def moveItemUpWithinGroup (items : List α) (id : ι) : List α :=
  match items.findIdx? (fun it => idOf it = id) with
  | none => items
  | some i =>
    match items[i]? with
    | none => items
    | some it =>
      match earlier groupOf (groupOf it) items i with
      | none => items
      | some j => swapAt items j i

def moveItemDownWithinGroup (items : List α) (id : ι) : List α :=
  match items.findIdx? (fun it => idOf it = id) with
  | none => items
  | some i =>
    match items[i]? with
    | none => items
    | some it =>
      match later groupOf (groupOf it) (items.drop (i + 1)) (i + 1) with
      | none => items
      | some j => swapAt items i j

/-- The slots of a group. -/
def slotsFrom (g : γ) : List α → Nat → List Nat
  | [], _ => []
  | it :: items, i => if groupOf it = g then i :: slotsFrom g items (i + 1) else slotsFrom g items (i + 1)

/-- `slots.forEach((slot, k) => { next[slot] = members[k]; })` -/
def fillSlots : List (Nat × α) → List α → List α
  | [], next => next
  | (slot, it) :: rest, next => fillSlots rest (next.set slot it)

def moveItemToWithinGroup (items : List α) (id targetId : ι) : List α :=
  if id = targetId then items
  else match items.find? (fun it => idOf it = id), items.find? (fun it => idOf it = targetId) with
    | some moving, some target =>
      if groupOf target ≠ groupOf moving then items
      else
        let slots := slotsFrom groupOf (groupOf moving) items 0
        let members := slots.filterMap fun i => items[i]?
        let fi := members.findIdx fun it => idOf it = id
        let ti := members.findIdx fun it => idOf it = targetId
        fillSlots (slots.zip ((members.eraseIdx fi).insertIdx ti moving)) items
    | _, _ => items

/-! ## What a move is -/

/-- The rows of a group. -/
def membersOf (g : γ) (items : List α) : List α := items.filter fun it => groupOf it = g

/-- A row of a list at another place. -/
def moved (l : List α) (i j : Nat) : List α :=
  match l[i]? with
  | some x => (l.eraseIdx i).insertIdx j x
  | none => l

/-- A slot of the group is one still, and another slot has the row that it had. -/
def SlotKept (g : γ) (a b : α) : Prop := (groupOf a = g ↔ groupOf b = g) ∧ (groupOf a ≠ g → b = a)

/-- One row of a group is moved to another place among its rows, in the slots of the group. -/
structure Moved (g : γ) (i j : Nat) (l l' : List α) : Prop where
  kept : List.Forall₂ (SlotKept groupOf g) l l'
  members : membersOf groupOf g l' = moved (membersOf groupOf g l) i j

variable {idOf groupOf} {g : γ} {l l' : List α} {x y : α} {i j : Nat}

omit [DecidableEq γ] in
theorem SlotKept.refl (g : γ) (a : α) : SlotKept groupOf g a a := ⟨Iff.rfl, fun _ => rfl⟩

omit [DecidableEq γ] in
theorem kept_refl (g : γ) (l : List α) : List.Forall₂ (SlotKept groupOf g) l l :=
  List.forall₂_same.2 fun a _ => .refl g a

theorem moved_perm (l : List α) (i j : Nat) (hj : j < l.length) : (moved l i j).Perm l := by
  unfold moved
  split
  · rename_i x hx
    obtain ⟨pre, post, rfl, rfl⟩ := getElem?_split hx
    rw [eraseIdx_split]
    refine (List.perm_insertIdx x _ ?_).trans List.perm_middle.symm
    simp only [List.length_append, List.length_cons] at hj ⊢
    omega
  · exact List.Perm.refl _

theorem others_of_kept (h : List.Forall₂ (SlotKept groupOf g) l l') :
    l'.filter (fun it => !decide (groupOf it = g)) = l.filter fun it => !decide (groupOf it = g) := by
  induction h with
  | nil => rfl
  | cons hab _ ih =>
    rename_i a b l l' _
    rw [List.filter_cons, List.filter_cons, ih]
    by_cases ha : groupOf a = g
    · rw [decide_eq_true ha, decide_eq_true (hab.1.1 ha)]
      rfl
    · rw [hab.2 ha]

/-- The rows are the ones that were there. -/
theorem Moved.perm (h : Moved groupOf g i j l l') (hj : j < (membersOf groupOf g l).length) : l'.Perm l := by
  have hl := fun l : List α => List.filter_append_perm (fun it => decide (groupOf it = g)) l
  refine (hl l').symm.trans (List.Perm.trans ?_ (hl l))
  rw [others_of_kept h.kept]
  refine List.Perm.append_right _ ?_
  have hm := h.members
  unfold membersOf at hm hj
  rw [hm]
  exact moved_perm _ i j hj

variable {k : Nat} {items pre post mid : List α} {id : ι}

/-- A row of another group is where it was. -/
theorem Moved.getElem? (h : Moved groupOf g i j l l') {a : α} (ha : l[k]? = some a)
    (hg : groupOf a ≠ g) : l'[k]? = some a := by
  obtain ⟨hlt, rfl⟩ := List.getElem?_eq_some_iff.1 ha
  have hlen := h.kept.length_eq
  have hkept := (h.kept.get hlt (hlen ▸ hlt)).2 hg
  rw [List.get_eq_getElem, List.get_eq_getElem] at hkept
  rw [List.getElem?_eq_getElem (hlen ▸ hlt), hkept]

/-! ## One place up or down -/

theorem earlier_none (h : earlier groupOf g items k = none) (hk : k ≤ items.length) :
    ∀ a ∈ items.take k, groupOf a ≠ g := by
  induction k with
  | zero => exact nofun
  | succ k ih =>
    rw [earlier, List.getElem?_eq_getElem hk] at h
    dsimp only at h
    split at h
    · cases h
    · rename_i hne
      rw [List.take_succ_eq_append_getElem hk]
      intro a ha
      rcases List.mem_append.1 ha with ha | ha
      · exact ih h (Nat.le_of_lt hk) a ha
      · exact List.mem_singleton.1 ha ▸ hne

theorem earlier_some (h : earlier groupOf g items k = some j) (hk : k ≤ items.length) :
    ∃ pre y mid, items.take k = pre ++ y :: mid ∧ pre.length = j ∧ groupOf y = g ∧ ∀ a ∈ mid, groupOf a ≠ g := by
  induction k with
  | zero => cases h
  | succ k ih =>
    rw [earlier, List.getElem?_eq_getElem hk] at h
    dsimp only at h
    rw [List.take_succ_eq_append_getElem hk]
    split at h
    · rename_i heq
      cases h
      exact ⟨_, _, [], rfl, List.length_take_of_le (Nat.le_of_lt hk), heq, nofun⟩
    · rename_i hne
      obtain ⟨pre, y, mid, heq, hlen, hy, hmid⟩ := ih h (Nat.le_of_lt hk)
      refine ⟨pre, y, mid ++ [items[k]], by rw [heq, List.append_assoc, List.cons_append], hlen, hy, fun a ha => ?_⟩
      rcases List.mem_append.1 ha with ha | ha
      · exact hmid a ha
      · exact List.mem_singleton.1 ha ▸ hne

theorem earlier_append (pre mid rest : List α) {y : α} (hy : groupOf y = g) (hmid : ∀ a ∈ mid, groupOf a ≠ g) :
    earlier groupOf g (pre ++ y :: (mid ++ rest)) (pre.length + 1 + mid.length) = some pre.length := by
  induction mid using List.reverseRecOn generalizing rest with
  | nil =>
    rw [List.length_nil, Nat.add_zero, earlier, List.getElem?_append_right (Nat.le_refl _), Nat.sub_self]
    exact if_pos hy
  | append_singleton mid a ih =>
    have hget : (pre ++ y :: (mid ++ [a] ++ rest))[pre.length + 1 + mid.length]? = some a := by
      rw [List.getElem?_append_right (by omega), show pre.length + 1 + mid.length - pre.length = mid.length + 1 by omega,
        List.getElem?_cons_succ, List.append_assoc, List.getElem?_append_right (Nat.le_refl _), Nat.sub_self]
      rfl
    rw [List.length_append, List.length_singleton, ← Nat.add_assoc, earlier, hget]
    dsimp only
    rw [if_neg (hmid a (List.mem_append_right _ List.mem_cons_self)), List.append_assoc]
    exact ih ([a] ++ rest) fun b hb => hmid b (List.mem_append_left _ hb)

theorem later_none : later groupOf g items k = none ↔ ∀ a ∈ items, groupOf a ≠ g := by
  induction items generalizing k with
  | nil => exact iff_of_true rfl nofun
  | cons it items ih =>
    rw [later, List.forall_mem_cons]
    split
    · rename_i heq
      exact iff_of_false nofun fun h => h.1 heq
    · rename_i hne
      rw [ih]
      exact (and_iff_right hne).symm

theorem later_some (h : later groupOf g items k = some j) :
    ∃ mid y post, items = mid ++ y :: post ∧ j = k + mid.length ∧ groupOf y = g ∧ ∀ a ∈ mid, groupOf a ≠ g := by
  induction items generalizing k with
  | nil => cases h
  | cons it items ih =>
    rw [later] at h
    split at h
    · rename_i heq
      cases h
      exact ⟨[], it, items, rfl, rfl, heq, nofun⟩
    · rename_i hne
      obtain ⟨mid, y, post, rfl, rfl, hy, hmid⟩ := ih h
      refine ⟨it :: mid, y, post, rfl, by rw [List.length_cons]; omega, hy, List.forall_mem_cons.2 ⟨hne, hmid⟩⟩

theorem later_append (mid post : List α) {y : α} (hy : groupOf y = g) (hmid : ∀ a ∈ mid, groupOf a ≠ g) (k : Nat) :
    later groupOf g (mid ++ y :: post) k = some (k + mid.length) := by
  induction mid generalizing k with
  | nil => exact if_pos hy
  | cons a mid ih =>
    obtain ⟨ha, hmid⟩ := List.forall_mem_cons.1 hmid
    rw [List.cons_append, later, if_neg ha, ih hmid, List.length_cons, Nat.add_assoc, Nat.add_comm 1]

theorem swapAt_split (pre mid post : List α) (x y : α) :
    swapAt (pre ++ y :: mid ++ x :: post) pre.length (pre ++ y :: mid).length = pre ++ x :: mid ++ y :: post := by
  have hx : (pre ++ y :: mid ++ x :: post)[(pre ++ y :: mid).length]? = some x := by simp
  have hy : (pre ++ y :: mid ++ x :: post)[pre.length]? = some y := by simp
  unfold swapAt
  rw [hx, hy]
  dsimp only
  have hset : (pre ++ y :: mid ++ x :: post).set pre.length x = pre ++ x :: (mid ++ x :: post) := by
    rw [List.append_assoc, List.cons_append, set_split]
  have hlen : (pre ++ y :: mid).length = (pre ++ x :: mid).length := by simp
  rw [hset, hlen, ← List.cons_append, ← List.append_assoc, set_split]

/-- The list cut at a row, which is the first of its id. -/
theorem find_split (hn : (l.map idOf).Nodup) (hl : l = pre ++ x :: post)
    (hx : idOf x = id) : l.findIdx? (fun it => idOf it = id) = some pre.length ∧ l[pre.length]? = some x := by
  subst hl hx
  refine ⟨List.findIdx?_eq_some_iff_getElem.2 ⟨by simp, by simp, fun k hk => ?_⟩, by simp⟩
  have hlt : k < (pre ++ x :: post).length := by
    rw [List.length_append]
    omega
  have hmem : (pre ++ x :: post)[k] ∈ pre ++ post := by
    rw [List.getElem_append_left hk]
    exact List.mem_append_left _ (List.getElem_mem hk)
  simpa using key_ne_of_nodup hn _ hmem

theorem moveUp_found (hn : (l.map idOf).Nodup)
    (hl : l = pre ++ y :: mid ++ x :: post) (hy : groupOf y = groupOf x)
    (hmid : ∀ a ∈ mid, groupOf a ≠ groupOf x) :
    moveItemUpWithinGroup idOf groupOf l (idOf x) = pre ++ x :: mid ++ y :: post := by
  obtain ⟨hfind, hget⟩ := find_split hn hl rfl
  have hearlier : earlier groupOf (groupOf x) l (pre ++ y :: mid).length = some pre.length := by
    have h := earlier_append pre mid (x :: post) hy hmid
    rwa [Nat.add_assoc, Nat.add_comm 1, ← List.length_cons (a := y), ← List.length_append, ← List.cons_append,
      ← List.append_assoc, ← hl] at h
  rw [moveItemUpWithinGroup, hfind]
  dsimp only
  rw [hget]
  dsimp only
  rw [hearlier]
  dsimp only
  rw [hl, swapAt_split]

theorem moveDown_found (hn : (l.map idOf).Nodup)
    (hl : l = pre ++ x :: mid ++ y :: post) (hy : groupOf y = groupOf x)
    (hmid : ∀ a ∈ mid, groupOf a ≠ groupOf x) :
    moveItemDownWithinGroup idOf groupOf l (idOf x) = pre ++ y :: mid ++ x :: post := by
  have hl' : l = pre ++ x :: (mid ++ y :: post) := by rw [hl, List.append_assoc, List.cons_append]
  obtain ⟨hfind, hget⟩ := find_split hn hl' rfl
  have hdrop : l.drop (pre.length + 1) = mid ++ y :: post := by
    rw [hl', ← List.drop_drop, List.drop_left]
    rfl
  rw [moveItemDownWithinGroup, hfind]
  dsimp only
  rw [hget]
  dsimp only
  rw [hdrop, later_append mid post hy hmid]
  dsimp only
  rw [hl, show pre.length + 1 + mid.length = (pre ++ x :: mid).length by simp; omega, swapAt_split]

variable (groupOf) in
/-- A row at the top of its group stays, and another changes places with the one before it there. -/
theorem moveUp_cases (hn : (l.map idOf).Nodup) (hx : x ∈ l) :
    (∃ pre post, l = pre ++ x :: post ∧ (∀ a ∈ pre, groupOf a ≠ groupOf x) ∧
      moveItemUpWithinGroup idOf groupOf l (idOf x) = l) ∨
    ∃ pre y mid post, l = pre ++ y :: mid ++ x :: post ∧ groupOf y = groupOf x ∧
      (∀ a ∈ mid, groupOf a ≠ groupOf x) ∧
      moveItemUpWithinGroup idOf groupOf l (idOf x) = pre ++ x :: mid ++ y :: post := by
  obtain ⟨front, post, hl⟩ := List.append_of_mem hx
  obtain ⟨hfind, hget⟩ := find_split hn hl rfl
  have hle : front.length ≤ l.length := by rw [hl, List.length_append]; omega
  cases h : earlier groupOf (groupOf x) l front.length with
  | none =>
    refine .inl ⟨front, post, hl, ?_, ?_⟩
    · have hnone := earlier_none h hle
      rwa [hl, List.take_left] at hnone
    · rw [moveItemUpWithinGroup, hfind]
      dsimp only
      rw [hget]
      dsimp only
      rw [h]
  | some j =>
    obtain ⟨pre, y, mid, heq, -, hy, hmid⟩ := earlier_some h hle
    rw [hl, List.take_left] at heq
    subst heq
    exact .inr ⟨pre, y, mid, post, hl, hy, hmid, moveUp_found hn hl hy hmid⟩

variable (groupOf) in
theorem moveDown_cases (hn : (l.map idOf).Nodup) (hx : x ∈ l) :
    (∃ pre post, l = pre ++ x :: post ∧ (∀ a ∈ post, groupOf a ≠ groupOf x) ∧
      moveItemDownWithinGroup idOf groupOf l (idOf x) = l) ∨
    ∃ pre y mid post, l = pre ++ x :: mid ++ y :: post ∧ groupOf y = groupOf x ∧
      (∀ a ∈ mid, groupOf a ≠ groupOf x) ∧
      moveItemDownWithinGroup idOf groupOf l (idOf x) = pre ++ y :: mid ++ x :: post := by
  obtain ⟨pre, rest, hl⟩ := List.append_of_mem hx
  obtain ⟨hfind, hget⟩ := find_split hn hl rfl
  have hdrop : l.drop (pre.length + 1) = rest := by
    rw [hl, ← List.drop_drop, List.drop_left]
    rfl
  cases h : later groupOf (groupOf x) rest (pre.length + 1) with
  | none =>
    refine .inl ⟨pre, rest, hl, later_none.1 h, ?_⟩
    rw [moveItemDownWithinGroup, hfind]
    dsimp only
    rw [hget]
    dsimp only
    rw [hdrop, h]
  | some j =>
    obtain ⟨mid, y, post, rfl, -, hy, hmid⟩ := later_some h
    rw [← List.cons_append, ← List.append_assoc] at hl
    exact .inr ⟨pre, y, mid, post, hl, hy, hmid, moveDown_found hn hl hy hmid⟩

/-! ## What the moves do -/

omit [DecidableEq γ] in
/-- Two rows of a group change places. -/
theorem kept_swap (hx : groupOf x = g) (hy : groupOf y = g) :
    List.Forall₂ (SlotKept groupOf g) (pre ++ x :: mid ++ y :: post) (pre ++ y :: mid ++ x :: post) := by
  have hslot : ∀ {a b : α}, groupOf a = g → groupOf b = g → SlotKept groupOf g a b := fun ha hb =>
    ⟨iff_of_true ha hb, fun h => absurd ha h⟩
  rw [List.append_assoc, List.append_assoc]
  exact List.rel_append (kept_refl g pre) (List.rel_append (.cons (hslot hx hy) (kept_refl g mid))
    (.cons (hslot hy hx) (kept_refl g post)))

theorem members_append (g : γ) (l l' : List α) :
    membersOf groupOf g (l ++ l') = membersOf groupOf g l ++ membersOf groupOf g l' := List.filter_append ..

theorem members_cons (hx : groupOf x = g) (l : List α) :
    membersOf groupOf g (x :: l) = x :: membersOf groupOf g l := List.filter_cons_of_pos (decide_eq_true hx)

theorem members_none (h : ∀ a ∈ l, groupOf a ≠ g) : membersOf groupOf g l = [] :=
  List.filter_eq_nil_iff.2 fun a ha hg => h a ha (of_decide_eq_true hg)

theorem members_swap (hx : groupOf x = g) (hy : groupOf y = g)
    (hmid : ∀ a ∈ mid, groupOf a ≠ g) : membersOf groupOf g (pre ++ x :: mid ++ y :: post) =
      membersOf groupOf g pre ++ x :: y :: membersOf groupOf g post := by
  rw [members_append, members_append, members_cons hx, members_cons hy, members_none hmid, List.append_assoc]
  rfl

omit [DecidableEq ι] in
/-- The place of a row of a list without doubles. -/
theorem index_unique (hn : (l.map idOf).Nodup) (hl : l = pre ++ x :: post)
    (hi : l[i]? = some x) : i = pre.length := by
  obtain ⟨pre', post', hl', rfl⟩ := getElem?_split hi
  obtain ⟨rfl, -, -⟩ := split_unique (show ((pre ++ x :: post).map idOf).Nodup from hl ▸ hn) (hl.symm.trans hl') rfl
  rfl

variable (groupOf g) in
omit [DecidableEq ι] in
theorem nodup_members (hn : (l.map idOf).Nodup) : ((membersOf groupOf g l).map idOf).Nodup :=
  hn.sublist (List.filter_sublist.map idOf)

theorem insertIdx_append (pre post : List α) (x : α) :
    (pre ++ post).insertIdx pre.length x = pre ++ x :: post := by
  induction pre with
  | nil => exact List.insertIdx_zero
  | cons a pre ih => rw [List.cons_append, List.length_cons, List.insertIdx_succ_cons, ih, List.cons_append]

theorem moved_split (pre post : List α) (x : α) (j : Nat) :
    moved (pre ++ x :: post) pre.length j = (pre ++ post).insertIdx j x := by
  have hx : (pre ++ x :: post)[pre.length]? = some x := by simp
  rw [moved, hx]
  dsimp only
  rw [eraseIdx_split]

theorem moved_self (l : List α) (i : Nat) : moved l i i = l := by
  cases h : l[i]? with
  | none => rw [moved, h]
  | some x =>
    obtain ⟨pre, post, rfl, rfl⟩ := getElem?_split h
    rw [moved_split, insertIdx_append]

theorem Moved.same (g : γ) (i : Nat) (l : List α) : Moved groupOf g i i l l :=
  ⟨kept_refl g l, (moved_self _ i).symm⟩

/-- A row moves up past the one before it in its group. -/
theorem moveUp_moved (hn : (l.map idOf).Nodup) (hx : x ∈ l)
    (hi : (membersOf groupOf (groupOf x) l)[i]? = some x) :
    Moved groupOf (groupOf x) i (i - 1) l (moveItemUpWithinGroup idOf groupOf l (idOf x)) := by
  have hnm := nodup_members groupOf (groupOf x) hn
  rcases moveUp_cases groupOf hn hx with ⟨pre, post, hl, hpre, hmove⟩ | ⟨pre, y, mid, post, hl, hy, hmid, hmove⟩
  · have hmem : membersOf groupOf (groupOf x) l = [] ++ x :: membersOf groupOf (groupOf x) post := by
      rw [hl, members_append, members_none hpre, members_cons rfl]
    rw [index_unique hnm hmem hi, hmove]
    exact .same _ 0 l
  · have hmem : membersOf groupOf (groupOf x) l = (membersOf groupOf (groupOf x) pre ++ [y]) ++
        x :: membersOf groupOf (groupOf x) post := by
      rw [hl, members_swap hy rfl hmid, List.append_assoc]
      rfl
    rw [index_unique hnm hmem hi, hmove]
    refine ⟨hl ▸ kept_swap hy rfl, ?_⟩
    rw [hmem, moved_split, members_swap rfl hy hmid, List.append_assoc, List.length_append, List.length_singleton,
      Nat.add_sub_cancel, insertIdx_append]
    rfl

/-- A row moves down past the one behind it in its group. -/
theorem moveDown_moved (hn : (l.map idOf).Nodup) (hx : x ∈ l)
    (hi : (membersOf groupOf (groupOf x) l)[i]? = some x) :
    Moved groupOf (groupOf x) i (min (i + 1) ((membersOf groupOf (groupOf x) l).length - 1)) l
      (moveItemDownWithinGroup idOf groupOf l (idOf x)) := by
  have hnm := nodup_members groupOf (groupOf x) hn
  rcases moveDown_cases groupOf hn hx with ⟨pre, post, hl, hpost, hmove⟩ | ⟨pre, y, mid, post, hl, hy, hmid, hmove⟩
  · have hmem : membersOf groupOf (groupOf x) l = membersOf groupOf (groupOf x) pre ++ [x] := by
      rw [hl, members_append, members_cons rfl, members_none hpost]
    rw [index_unique hnm hmem hi, hmove, hmem, List.length_append, List.length_singleton, Nat.add_sub_cancel,
      Nat.min_eq_right (Nat.le_succ _)]
    exact .same _ _ l
  · have hmem : membersOf groupOf (groupOf x) l = membersOf groupOf (groupOf x) pre ++
        x :: y :: membersOf groupOf (groupOf x) post := by rw [hl, members_swap rfl hy hmid]
    rw [index_unique hnm hmem hi, hmove]
    refine ⟨hl ▸ kept_swap rfl hy, ?_⟩
    have hlen : min ((membersOf groupOf (groupOf x) pre).length + 1)
        ((membersOf groupOf (groupOf x) l).length - 1) = (membersOf groupOf (groupOf x) pre ++ [y]).length := by
      rw [hmem]
      simp only [List.length_append, List.length_cons, List.length_nil]
      omega
    have hins := insertIdx_append (membersOf groupOf (groupOf x) pre ++ [y])
      (membersOf groupOf (groupOf x) post) x
    rw [List.append_assoc, List.append_assoc, List.singleton_append, List.singleton_append] at hins
    rw [hlen, hmem, moved_split, members_swap hy rfl hmid, hins]

theorem slots_members (g : γ) (pre items : List α) :
    (slotsFrom groupOf g items pre.length).filterMap (fun i => (pre ++ items)[i]?) = membersOf groupOf g items := by
  induction items generalizing pre with
  | nil => rfl
  | cons it items ih =>
    have hrest := ih (pre ++ [it])
    rw [List.length_append, List.length_singleton, List.append_assoc, List.singleton_append] at hrest
    rw [slotsFrom]
    split
    · rename_i heq
      have hget : (pre ++ it :: items)[pre.length]? = some it := by simp
      rw [List.filterMap_cons, hget, hrest, members_cons heq]
    · rename_i hne
      rw [hrest, membersOf, membersOf, List.filter_cons_of_neg (by rwa [decide_eq_true_eq])]

/-- The rows of a group are put into its slots. -/
theorem fillSlots_spec {ms : List α} (hms : ∀ m ∈ ms, groupOf m = g) (pre items : List α)
    (hlen : ms.length = (membersOf groupOf g items).length) :
    ∃ items', fillSlots ((slotsFrom groupOf g items pre.length).zip ms) (pre ++ items) = pre ++ items' ∧
      List.Forall₂ (SlotKept groupOf g) items items' ∧ membersOf groupOf g items' = ms := by
  induction items generalizing pre ms with
  | nil => exact ⟨[], by rw [slotsFrom]; rfl, .nil, (List.length_eq_zero_iff.1 hlen).symm⟩
  | cons it items ih =>
    have hnext : ∀ a : α, pre ++ a :: items = (pre ++ [a]) ++ items := fun a => by
      rw [List.append_assoc, List.singleton_append]
    have hplace : ∀ a : α, (pre ++ [a]).length = pre.length + 1 := fun a => List.length_append
    rw [slotsFrom]
    by_cases heq : groupOf it = g
    · rw [if_pos heq]
      rw [members_cons heq, List.length_cons] at hlen
      cases ms with
      | nil => cases hlen
      | cons m ms =>
        obtain ⟨hm, hms⟩ := List.forall_mem_cons.1 hms
        obtain ⟨items', hfill, hkept, hmem⟩ := ih hms (pre ++ [m]) (Nat.succ.inj hlen)
        refine ⟨m :: items', ?_, .cons ⟨iff_of_true heq hm, fun h => absurd heq h⟩ hkept, by
          rw [members_cons hm, hmem]⟩
        rw [List.zip_cons_cons, fillSlots, set_split, hnext m, ← hplace m, hfill, List.append_assoc]
        rfl
    · rw [if_neg heq]
      have hskip : ∀ l, membersOf groupOf g (it :: l) = membersOf groupOf g l := fun l =>
        List.filter_cons_of_neg (by rwa [decide_eq_true_eq])
      rw [hskip] at hlen
      obtain ⟨items', hfill, hkept, hmem⟩ := ih hms (pre ++ [it]) hlen
      refine ⟨it :: items', ?_, .cons (.refl g it) hkept, by rw [hskip, hmem]⟩
      rw [hnext it, ← hplace it, hfill, List.append_assoc]
      rfl

theorem findIdx_eq (hn : (l.map idOf).Nodup) (hi : l[i]? = some x) (hx : idOf x = id) :
    l.findIdx (fun it => idOf it = id) = i := by
  obtain ⟨pre, post, hl, rfl⟩ := getElem?_split hi
  exact (List.findIdx?_eq_some_iff_findIdx_eq.1 (find_split hn hl hx).1).2

theorem find_eq (hn : (l.map idOf).Nodup) (hx : x ∈ l) (hid : idOf x = id) :
    l.find? (fun it => idOf it = id) = some x := by
  obtain ⟨pre, post, rfl⟩ := List.append_of_mem hx
  refine List.find?_eq_some_iff_append.2 ⟨decide_eq_true hid, pre, post, rfl, fun a ha => ?_⟩
  have hne := key_ne_of_nodup hn a (List.mem_append_left _ ha)
  rw [hid] at hne
  rw [decide_eq_false hne]
  rfl

/-- A row moves to the place of another one of its group. -/
theorem moveTo_moved (hn : (l.map idOf).Nodup) (hx : x ∈ l) (hy : y ∈ l) (hg : groupOf y = groupOf x)
    (hi : (membersOf groupOf (groupOf x) l)[i]? = some x) (hj : (membersOf groupOf (groupOf x) l)[j]? = some y) :
    Moved groupOf (groupOf x) i j l (moveItemToWithinGroup idOf groupOf l (idOf x) (idOf y)) := by
  have hnm := nodup_members groupOf (groupOf x) hn
  by_cases hid : idOf x = idOf y
  · have hij : i = j := by
      rw [← findIdx_eq hnm hi hid, findIdx_eq hnm hj rfl]
    rw [moveItemToWithinGroup, if_pos hid, hij]
    exact .same _ j l
  rw [moveItemToWithinGroup, if_neg hid, find_eq hn hx rfl, find_eq hn hy rfl]
  dsimp only
  rw [if_neg (not_not.2 hg)]
  have hslots : (slotsFrom groupOf (groupOf x) l 0).filterMap (fun i => l[i]?) =
      membersOf groupOf (groupOf x) l := slots_members _ [] l
  rw [hslots, findIdx_eq hnm hi rfl, findIdx_eq hnm hj rfl]
  obtain ⟨pre, post, hmem, rfl⟩ := getElem?_split hi
  have hjlt := (List.getElem?_eq_some_iff.1 hj).1
  have hlen : (pre ++ x :: post).length = (pre ++ post).length + 1 := by
    rw [List.length_append, List.length_append, List.length_cons]
    rfl
  rw [hmem, hlen] at hjlt
  have hgroup : ∀ m ∈ (pre ++ post).insertIdx j x, groupOf m = groupOf x := by
    intro m hm
    have hmem' : m ∈ membersOf groupOf (groupOf x) l := by
      rw [hmem]
      rcases List.eq_or_mem_of_mem_insertIdx hm with rfl | hm
      · exact List.mem_append_right _ List.mem_cons_self
      · rcases List.mem_append.1 hm with hm | hm
        · exact List.mem_append_left _ hm
        · exact List.mem_append_right _ (List.mem_cons_of_mem _ hm)
    exact of_decide_eq_true (List.mem_filter.1 hmem').2
  obtain ⟨items', hfill, hkept, hnew⟩ := fillSlots_spec hgroup [] l
    (by rw [List.length_insertIdx_of_le_length (Nat.le_of_lt_succ hjlt), hmem, hlen])
  rw [List.length_nil, List.nil_append, List.nil_append] at hfill
  rw [hmem, eraseIdx_split, hfill]
  exact ⟨hkept, by rw [hnew, hmem, moved_split]⟩

/-- A row that is not there is not moved. -/
theorem moves_missing (h : ∀ a ∈ l, idOf a ≠ id) : moveItemUpWithinGroup idOf groupOf l id = l ∧
    moveItemDownWithinGroup idOf groupOf l id = l ∧
    ∀ t, moveItemToWithinGroup idOf groupOf l id t = l ∧ moveItemToWithinGroup idOf groupOf l t id = l := by
  have hidx : l.findIdx? (fun it => idOf it = id) = none :=
    List.findIdx?_eq_none_iff.2 fun a ha => decide_eq_false (h a ha)
  have hfind : l.find? (fun it => idOf it = id) = none :=
    List.find?_eq_none.2 fun a ha hid => h a ha (of_decide_eq_true hid)
  refine ⟨by rw [moveItemUpWithinGroup, hidx], by rw [moveItemDownWithinGroup, hidx], fun t => ⟨?_, ?_⟩⟩
  · rw [moveItemToWithinGroup, hfind, ite_self]
  · rw [moveItemToWithinGroup, hfind]
    cases l.find? (fun it => idOf it = t) <;> exact ite_self _

/-- Nor is a row moved to one of another group. -/
theorem moveTo_apart (hn : (l.map idOf).Nodup) (hx : x ∈ l) (hy : y ∈ l) (hg : groupOf y ≠ groupOf x) :
    moveItemToWithinGroup idOf groupOf l (idOf x) (idOf y) = l := by
  rw [moveItemToWithinGroup, find_eq hn hx rfl, find_eq hn hy rfl]
  dsimp only
  rw [if_pos hg, ite_self]

omit [DecidableEq ι] in
theorem nodup_of_perm (hn : (l.map idOf).Nodup) (h : l'.Perm l) : (l'.map idOf).Nodup :=
  (h.map idOf).nodup_iff.2 hn

theorem perm_swap (pre mid post : List α) (x y : α) :
    (pre ++ x :: mid ++ y :: post).Perm (pre ++ y :: mid ++ x :: post) := by
  have h : ∀ a b : α, (pre ++ a :: mid ++ b :: post).Perm (a :: b :: (pre ++ mid ++ post)) := fun a b => by
    rw [List.append_assoc, List.cons_append, List.append_assoc]
    refine List.perm_middle.trans (List.Perm.cons a ?_)
    rw [← List.append_assoc, ← List.append_assoc]
    exact List.perm_middle
  exact (h x y).trans ((List.Perm.swap y x _).trans (h y x).symm)

/-- A move up that moved the row is undone by one down. -/
theorem moveDown_moveUp (hn : (l.map idOf).Nodup) (hx : x ∈ l)
    (hmoved : moveItemUpWithinGroup idOf groupOf l (idOf x) ≠ l) :
    moveItemDownWithinGroup idOf groupOf (moveItemUpWithinGroup idOf groupOf l (idOf x)) (idOf x) = l := by
  rcases moveUp_cases groupOf hn hx with ⟨_, _, -, -, hmove⟩ | ⟨pre, y, mid, post, hl, hy, hmid, hmove⟩
  · exact absurd hmove hmoved
  · rw [hmove, hl]
    exact moveDown_found (nodup_of_perm hn (hl ▸ perm_swap pre mid post x y)) rfl hy hmid

end Ps5Upload.QueueOps
