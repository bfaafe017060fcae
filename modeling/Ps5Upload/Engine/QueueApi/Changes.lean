import Mathlib.Data.List.Basic
import Mathlib.Data.List.Nodup
import Mathlib.Data.List.Perm.Subperm
import Mathlib.Data.Nat.Init
import Mathlib.Tactic.Common
import Ps5Upload.Engine.QueueApi.Book
import Ps5Upload.Lib.ListAt

/-!
# What the queue's sections do to the list

What a section does to the list is said once, as `Changed R`: the new list holds some of the
old items, each changed by `R`, with ids and consoles kept.  `Quiet` is the relation most
sections keep to: no item starts or stops running, and none is put in line.

* `place_perm`, `prune_sublist` — a move reorders the list, a prune leaves items out;
* `pause_changed`, `resume_changed`, `remove_changed`, `move_changed`, `add_perm` — requests;
* `start_cases`, `requeue_cases`, `finish_changed`, `orphan_cases` — a driver's sections;
* `afterRestart_changed`, `afterRestart_not_running` — a restart.
-/

namespace Ps5Upload.QueueApi

open ListAt

/-! ## The list around one item -/

variable {items : List Item} {item x y : Item} {console : String}

/-- The list with the item at `pre.length` picked out. -/
theorem findItem_split {id : String} {at_ : Nat} (h : findItem items id = some (at_, item)) :
    ∃ pre post, items = pre ++ item :: post ∧ at_ = pre.length ∧ item.id = id := by
  simp only [findItem, Option.bind_eq_some_iff, Option.map_eq_some_iff, Prod.mk.injEq] at h
  obtain ⟨i, hi, item', hget, rfl, rfl⟩ := h
  obtain ⟨pre, x, post, rfl, rfl, hp⟩ := findIdx?_split hi
  rw [List.getElem?_append_right (Nat.le_refl _), Nat.sub_self, List.getElem?_cons_zero,
    Option.some.injEq] at hget
  subst hget
  exact ⟨pre, post, rfl, rfl, by simpa using hp⟩

theorem findItem_isSome (h : item ∈ items) : (findItem items item.id).isSome := by
  have hex : (items.findIdx? (·.id = item.id)).isSome := by
    rw [List.findIdx?_isSome]
    simpa using ⟨item, h, rfl⟩
  obtain ⟨i, hi⟩ := Option.isSome_iff_exists.1 hex
  obtain ⟨hlt, -, -⟩ := List.findIdx?_eq_some_iff_getElem.1 hi
  simp [findItem, hi, List.getElem?_eq_getElem hlt]

/-- The later items of a console, held after `failed`. -/
def holdAfter (failed : Item) (post : List Item) : List Item :=
  post.map fun item =>
    if item.console = failed.console ∧ item.status = .queued then item.held failed.id else item

@[simp] theorem holdLaterItems_split (pre post : List Item) (item : Item) :
    holdLaterItems (pre ++ item :: post) pre.length = pre ++ item :: holdAfter item post := by
  have hget : (pre ++ item :: post)[pre.length]? = some item := by simp
  have htake : (pre ++ item :: post).take (pre.length + 1) = pre ++ [item] := by
    rw [List.append_cons, List.take_left' (by simp)]
  have hdrop : (pre ++ item :: post).drop (pre.length + 1) = post := by
    rw [List.append_cons, List.drop_left' (by simp)]
  simp only [holdLaterItems, hget, htake, hdrop, holdAfter]
  simp

/-! ## Changes of the list -/

/-- The new list holds some of the old items, each changed by `R`. -/
structure Changed (R : Item → Item → Prop) (l l' : List Item) : Prop where
  ids : (l'.map Item.id).Subperm (l.map Item.id)
  of_mem : ∀ y ∈ l', ∃ x ∈ l, x.id = y.id ∧ x.console = y.console ∧ R x y

/-- No item starts or stops running, none is put in line and none fails. -/
structure Quiet (x y : Item) : Prop where
  running : y.status = .running ↔ x.status = .running
  queued : y.status = .queued → x.status = .queued
  stops : y.status.stops → x.status.stops

theorem Quiet.refl (x : Item) : Quiet x x := ⟨Iff.rfl, id, id⟩

theorem Quiet.trans {z : Item} (h : Quiet x y) (h' : Quiet y z) : Quiet x z :=
  ⟨h'.running.trans h.running, fun hz => h.queued (h'.queued hz),
    fun hz => h.stops (h'.stops hz)⟩

/-- A change of an item that leaves its status. -/
theorem quiet_of_status_eq (h : y.status = x.status) : Quiet x y := by
  constructor <;> rw [h] <;> exact id

/-- A waiting item that is paused. -/
theorem quiet_paused (hx : x.status = .queued) (hy : y.status = .paused) : Quiet x y := by
  constructor <;> simp [hx, hy, Status.stops]

variable {R S T : Item → Item → Prop} {l l' l'' : List Item}

theorem Changed.nodup (h : Changed R l l') (hn : (l.map Item.id).Nodup) :
    (l'.map Item.id).Nodup := by
  obtain ⟨k, hk, hsub⟩ := h.ids
  exact hk.nodup_iff.1 (hsub.nodup hn)

theorem Changed.trans (h : Changed R l l') (h' : Changed S l' l'')
    (hT : ∀ x y z, R x y → S y z → T x z) : Changed T l l'' := by
  refine ⟨h'.ids.trans h.ids, fun z hz => ?_⟩
  obtain ⟨y, hy, hid, hc, hyz⟩ := h'.of_mem z hz
  obtain ⟨x, hx, hid', hc', hxy⟩ := h.of_mem y hy
  exact ⟨x, hx, hid'.trans hid, hc'.trans hc, hT x y z hxy hyz⟩

theorem Changed.mono (h : Changed R l l') (hS : ∀ x y, x.id = y.id → R x y → S x y) :
    Changed S l l' := by
  refine ⟨h.ids, fun y hy => ?_⟩
  obtain ⟨x, hx, hid, hc, hxy⟩ := h.of_mem y hy
  exact ⟨x, hx, hid, hc, hS x y hid hxy⟩

/-- Leaving items out and moving others changes none. -/
theorem changed_of_subperm (h : l'.Subperm l) (hR : ∀ x ∈ l', R x x) : Changed R l l' := by
  refine ⟨?_, fun y hy => ⟨y, h.subset hy, rfl, rfl, hR y hy⟩⟩
  obtain ⟨k, hk, hsub⟩ := h
  exact ⟨k.map Item.id, hk.map _, hsub.map _⟩

/-- One item changed where it is. -/
theorem changed_at {pre post : List Item} {x' : Item} (hid : x'.id = x.id)
    (hc : x'.console = x.console) (hx : R x x') (hR : ∀ y ∈ pre ++ post, R y y) :
    Changed R (pre ++ x :: post) (pre ++ x' :: post) := by
  refine ⟨List.Perm.subperm (.of_eq (by simp [hid])), fun y hy => ?_⟩
  rw [List.mem_append, List.mem_cons] at hy
  rcases hy with hy | rfl | hy
  · exact ⟨y, by simp [hy], rfl, rfl, hR y (by simp [hy])⟩
  · exact ⟨x, by simp, hid.symm, hc.symm, hx⟩
  · exact ⟨y, by simp [hy], rfl, rfl, hR y (by simp [hy])⟩

/-- The later items of a console held after a failed one. -/
theorem changed_holdAfter (pre post : List Item) (x : Item) :
    Changed Quiet (pre ++ x :: post) (pre ++ x :: holdAfter x post) := by
  refine ⟨?_, fun y hy => ?_⟩
  · have : (holdAfter x post).map Item.id = post.map Item.id := by
      rw [holdAfter, List.map_map]
      refine List.map_congr_left fun y _ => ?_
      simp only [Function.comp]
      split <;> rfl
    exact List.Perm.subperm (.of_eq (by simp [this]))
  · rw [List.mem_append, List.mem_cons] at hy
    rcases hy with hy | rfl | hy
    · exact ⟨y, by simp [hy], rfl, rfl, Quiet.refl y⟩
    · exact ⟨y, by simp, rfl, rfl, Quiet.refl y⟩
    · obtain ⟨z, hz, rfl⟩ := List.mem_map.1 hy
      refine ⟨z, by simp [hz], ?_⟩
      split
      · rename_i hq
        exact ⟨rfl, rfl, quiet_paused hq.2 rfl⟩
      · exact ⟨rfl, rfl, Quiet.refl z⟩

/-- Items of one id are one item. -/
theorem eq_of_id_eq (hn : (l.map Item.id).Nodup) (hx : x ∈ l) (hy : y ∈ l)
    (h : x.id = y.id) : x = y := List.inj_on_of_nodup_map hn hx hy h

theorem placeIndex_le {position : Nat} : ∀ (rest : List Item) {seen index i : Nat},
      placeIndex console position seen index rest = some i → i < index + rest.length
  | [], _, _, _, h => by simp [placeIndex] at h
  | other :: rest, seen, index, i, h => by
    rw [placeIndex] at h
    rw [List.length_cons]
    split at h
    · split at h
      · cases h
        omega
      · have := placeIndex_le rest h
        omega
    · have := placeIndex_le rest h
      omega

/-- A move only reorders the list. -/
theorem place_perm (items : List Item) (at_ position : Nat) :
    (place items at_ position).Perm items := by
  unfold place
  split
  · exact List.Perm.refl _
  · rename_i item hget
    obtain ⟨hlt, rfl⟩ := List.getElem?_eq_some_iff.1 hget
    have hsplit : items.Perm (items[at_] :: items.eraseIdx at_) :=
      (List.getElem_cons_eraseIdx_perm hlt).symm
    simp only
    split
    · rename_i index hidx
      have hle : index ≤ (items.eraseIdx at_).length := by
        have := placeIndex_le _ hidx
        omega
      exact (List.perm_insertIdx _ _ hle).trans hsplit.symm
    · exact List.perm_append_singleton _ _ |>.trans hsplit.symm

theorem pruneLoop_sublist (console : String) :
    ∀ (over_ : Nat) (items : List Item), (pruneLoop console over_ items).Sublist items
  | _, [] => List.Sublist.refl _
  | over_, item :: rest => by
    rw [pruneLoop]
    split
    · exact (pruneLoop_sublist console _ rest).cons item
    · exact (pruneLoop_sublist console _ rest).cons_cons item

theorem prune_sublist (items : List Item) (console : String) :
    (prune items console).Sublist items := pruneLoop_sublist console _ items

/-- Only finished items are pruned. -/
theorem mem_pruneLoop (hx : x.status.finished = false) :
    ∀ (over_ : Nat) {items : List Item}, x ∈ items → x ∈ pruneLoop console over_ items
  | over_, item :: rest, h => by
    rw [pruneLoop]
    rcases List.mem_cons.1 h with rfl | h
    · rw [if_neg (by simp [hx])]
      exact List.mem_cons_self ..
    · split
      · exact mem_pruneLoop hx _ h
      · exact List.mem_cons_of_mem _ (mem_pruneLoop hx _ h)

theorem mem_prune (hx : x.status.finished = false)
    (h : x ∈ l) : x ∈ prune l console := mem_pruneLoop hx _ h

/-! ## What each section does to the list -/

variable {b b' : Book} {id : String}

theorem pause_changed (h : b.pause id = .ok b') :
    ∃ items, b' = { b with items := items } ∧ Changed Quiet b.items items := by
  have hself : Changed Quiet b.items b.items :=
    changed_of_subperm (List.Subperm.refl _) fun x _ => Quiet.refl x
  unfold Book.pause at h
  split at h
  · simp at h
  · rename_i at_ item hf
    obtain ⟨pre, post, hitems, rfl, -⟩ := findItem_split hf
    split at h
    · rename_i hq
      cases h
      refine ⟨_, rfl, ?_⟩
      rw [hitems, modify_split]
      exact changed_at rfl rfl (quiet_paused hq rfl) fun y _ => Quiet.refl y
    · cases h
      exact ⟨b.items, rfl, hself⟩
    · split at h
      · simp at h
      · split at h
        · simp at h
        · split at h
          · simp at h
          · cases h
            refine ⟨_, rfl, ?_⟩
            rw [hitems, modify_split]
            exact changed_at rfl rfl (quiet_of_status_eq rfl) fun y _ => Quiet.refl y
    · simp at h

/-- A resume puts one item, which does not run, in line. -/
def Resumes (id : String) (x y : Item) : Prop :=
  Quiet x y ∨ (x.id = id ∧ x.status ≠ .running ∧ y.status = .queued)

theorem resume_changed (h : b.resume id = .ok b') :
    ∃ items, b' = { b with items := items } ∧ Changed (Resumes id) b.items items := by
  have hself : Changed (Resumes id) b.items b.items :=
    changed_of_subperm (List.Subperm.refl _) fun x _ => Or.inl (Quiet.refl x)
  unfold Book.resume at h
  split at h
  · simp at h
  · rename_i at_ item hf
    obtain ⟨pre, post, hitems, rfl, hid⟩ := findItem_split hf
    split at h
    · cases h
      exact ⟨b.items, rfl, hself⟩
    · split at h
      · simp at h
      · cases h
        exact ⟨b.items, rfl, hself⟩
    · simp at h
    · rename_i hnr _
      split at h
      · simp at h
      · cases h
        refine ⟨_, rfl, ?_⟩
        rw [hitems, modify_split]
        exact changed_at rfl rfl (Or.inr ⟨hid, hnr, rfl⟩) fun y _ => Or.inl (Quiet.refl y)

theorem remove_changed {cancel : Bool} (h : b.remove id cancel = .ok b') :
    ∃ items, b' = { b with items := items } ∧ Changed Quiet b.items items := by
  unfold Book.remove at h
  split at h
  · simp at h
  · rename_i at_ item hf
    obtain ⟨pre, post, hitems, rfl, -⟩ := findItem_split hf
    split at h
    · split at h
      · simp at h
      · split at h
        · simp at h
        · cases h
          refine ⟨_, rfl, ?_⟩
          rw [hitems, modify_split]
          exact changed_at rfl rfl (quiet_of_status_eq rfl) fun y _ => Quiet.refl y
    · cases h
      exact ⟨_, rfl, changed_of_subperm (List.eraseIdx_sublist ..).subperm
        fun x _ => Quiet.refl x⟩

theorem move_changed {position : Nat} (h : b.move id position = .ok b') :
    ∃ items, b' = { b with items := items } ∧ Changed Quiet b.items items := by
  unfold Book.move at h
  split at h
  · simp at h
  · split at h
    · cases h
      exact ⟨_, rfl, changed_of_subperm (place_perm ..).subperm fun x _ => Quiet.refl x⟩
    · simp at h

/-- A new item is the only one an add brings. -/
theorem add_perm {position : Option Nat} (h : b.add item position = .ok b') :
    ∃ items, b' = { b with items := items } ∧ items.Perm (b.items ++ [item]) := by
  simp only [Book.add] at h
  split at h
  · simp at h
  · split at h
    · cases h
      exact ⟨_, rfl, List.Perm.refl _⟩
    · cases h
      exact ⟨_, rfl, place_perm ..⟩

theorem setJob_changed (b : Book) (id job : String) :
    ∃ items, b.setJob id job = { b with items := items } ∧ Changed Quiet b.items items := by
  unfold Book.setJob
  split
  · exact ⟨b.items, rfl, changed_of_subperm (List.Subperm.refl _) fun x _ => Quiet.refl x⟩
  · rename_i at_ item hf
    obtain ⟨pre, post, hitems, rfl, -⟩ := findItem_split hf
    refine ⟨_, rfl, ?_⟩
    rw [hitems, modify_split]
    exact changed_at rfl rfl (quiet_of_status_eq rfl) fun y _ => Quiet.refl y

/-- An item picked out by its id changed to `x'`, the others left. -/
def Sets (id : String) (P : Item → Item → Prop) (x y : Item) : Prop :=
  (x.id = id → P x y) ∧ (x.id ≠ id → Quiet x y)

theorem changed_sets {pre post : List Item} {x' : Item} {P : Item → Item → Prop}
    (hn : ((pre ++ x :: post).map Item.id).Nodup) (hid : x'.id = x.id)
    (hc : x'.console = x.console) (hP : P x x') :
    Changed (Sets x.id P) (pre ++ x :: post) (pre ++ x' :: post) :=
  changed_at hid hc ⟨fun _ => hP, fun h => absurd rfl h⟩
    fun y hy => ⟨fun h => absurd h (key_ne_of_nodup hn y hy), fun _ => Quiet.refl y⟩

theorem nextOn_some (h : nextOn items console = some item) :
    item ∈ items ∧ item.console = console ∧ item.status = .queued := by
  refine ⟨List.mem_of_find?_eq_some h, ?_⟩
  simpa using List.find?_some h

/-- Nothing is started while a hold of the console lasts; what is started was next in line
there. -/
theorem start_cases (hn : (b.items.map Item.id).Nodup) {now : Nat} {head : String}
    (h : b.start now console head = (true, b')) :
    (∀ k ∈ b.holds, k.console = console → k.until_ ≤ now) ∧
    (∃ x ∈ b.items, x.id = head ∧ x.status = .queued) ∧
    ∃ items, b' = { b.dropLapsed now console with items := items } ∧
      Changed (Sets head fun x y =>
        x.console = console ∧ x.status = .queued ∧ y.status = .running) b.items items := by
  unfold Book.start at h
  split at h
  · simp at h
  · rename_i hnext
    simp only [ne_eq, Decidable.not_not, Option.map_eq_some_iff] at hnext
    obtain ⟨item, hitem, rfl⟩ := hnext
    obtain ⟨hmem, hcons, hq⟩ := nextOn_some hitem
    simp only at h
    split at h
    · simp at h
    · rename_i hhold
      refine ⟨fun k hk hkc => ?_, ⟨item, hmem, rfl, hq⟩, ?_⟩
      · -- a hold that lasts would still be there after the lapsed ones went
        by_contra hlt
        refine hhold (List.ne_nil_of_mem (a := k.holder) ?_)
        refine List.mem_map_of_mem (List.mem_filter.2 ⟨List.mem_filter.2 ⟨hk, ?_⟩, ?_⟩) <;>
          simp [hkc] <;> omega
      · split at h
        · simp at h
        · rename_i at_ found hf
          obtain ⟨pre, post, hitems, rfl, hid⟩ := findItem_split hf
          cases h
          refine ⟨_, rfl, ?_⟩
          have hitems' : b.items = pre ++ found :: post := hitems
          have hsame : found = item :=
            eq_of_id_eq hn (by rw [hitems']; simp) hmem hid
          subst hsame
          rw [hitems, modify_split, hitems']
          exact changed_sets (hitems' ▸ hn) rfl rfl ⟨hcons, hq, rfl⟩

theorem requeue_cases (hn : (b.items.map Item.id).Nodup) {now : Nat}
    (h : b.requeue now id = some b') :
    ∃ items ended, b' = { b with items := items, lastEnded := ended } ∧
      Changed (Sets id fun _ y => y.status = .queued) b.items items := by
  simp only [Book.requeue, Option.map_eq_some_iff] at h
  obtain ⟨⟨at_, item⟩, hf, rfl⟩ := h
  obtain ⟨pre, post, hitems, rfl, rfl⟩ := findItem_split hf
  refine ⟨_, _, rfl, ?_⟩
  rw [hitems, modify_split]
  exact changed_sets (hitems ▸ hn) rfl rfl rfl

theorem endStatus_ne (item : Item) {end_ : End} (h : end_.status.finished) :
    endStatus item end_ ≠ .running ∧ endStatus item end_ ≠ .queued := by
  unfold endStatus
  split
  · exact ⟨by simp, by simp⟩
  · constructor <;> intro hc <;> rw [hc] at h <;> simp [Status.finished, Status.waiting] at h

theorem finishAt_split (pre post : List Item) (item : Item) (now : Nat) (end_ : End) :
    finishAt (pre ++ item :: post) pre.length item now end_ =
      pre ++ item.ended now end_ ::
        (if item.stopOnFailure ∧ (endStatus item end_).stops then
          holdAfter (item.ended now end_) post else post) := by
  unfold finishAt
  simp only [modify_split]
  split <;> simp

/-- An ended item neither runs nor waits in line; nobody else starts, stops or is put in
line. -/
theorem finish_changed (hn : (b.items.map Item.id).Nodup) (now : Nat) (id : String) {end_ : End}
    (hend : end_.status.finished) :
    ∃ items ended, b.finish now id end_ = { b with items := items, lastEnded := ended } ∧
      Changed (Sets id fun _ y => y.status ≠ .running ∧ y.status ≠ .queued)
        b.items items := by
  unfold Book.finish
  split
  · rename_i hf
    refine ⟨b.items, b.lastEnded, rfl, changed_of_subperm (List.Subperm.refl _) fun x hx => ?_⟩
    refine ⟨fun hid => ?_, fun _ => Quiet.refl x⟩
    have := findItem_isSome hx
    rw [hid, hf] at this
    simp at this
  · rename_i at_ item hf
    obtain ⟨pre, post, hitems, rfl, rfl⟩ := findItem_split hf
    refine ⟨_, _, rfl, ?_⟩
    rw [endItem, hf]
    simp only
    rw [hitems] at hn ⊢
    have hothers := key_ne_of_nodup hn
    split
    · -- removed on the way: what is left are the others
      rw [eraseIdx_split]
      refine changed_of_subperm ((prune_sublist ..).trans ?_).subperm fun x hx => ?_
      · simp
      · have := hothers x ((prune_sublist ..).subset hx)
        exact ⟨fun h => absurd h this, fun _ => Quiet.refl x⟩
    · rw [finishAt_split]
      have hset : Changed (Sets item.id fun _ y => y.status ≠ .running ∧ y.status ≠ .queued)
          (pre ++ item :: post) (pre ++ item.ended now end_ :: post) :=
        changed_sets hn rfl rfl (endStatus_ne item hend)
      -- holding the later items and pruning are quiet
      have hquiet : Changed Quiet (pre ++ item.ended now end_ :: post)
          (prune (pre ++ item.ended now end_ ::
            (if item.stopOnFailure ∧ (endStatus item end_).stops then
              holdAfter (item.ended now end_) post else post)) item.console) := by
        have hprune : ∀ l, Changed Quiet l (prune l item.console) := fun l =>
          changed_of_subperm (prune_sublist ..).subperm fun x _ => Quiet.refl x
        split
        · exact (changed_holdAfter pre post _).trans (hprune _) fun _ _ _ => Quiet.trans
        · exact hprune _
      refine hset.trans hquiet fun x y z hxy hyz => ⟨fun hid => ?_, fun hid => ?_⟩
      · have hy := hxy.1 hid
        exact ⟨fun hz => hy.1 (hyz.running.1 hz), fun hz => hy.2 (hyz.queued hz)⟩
      · exact (hxy.2 hid).trans hyz

/-- A dead driver's running item is interrupted, and nothing else changes. -/
theorem orphan_cases (b : Book) (now : Nat) (console : String) :
    (b.orphan now console = { b with drivers := b.drivers.erase console } ∧
      ∀ x ∈ b.items, x.console = console → x.status ≠ .running) ∨
    ∃ pre item post, b.items = pre ++ item :: post ∧ item.console = console ∧
      item.status = .running ∧
      b.orphan now console = { b with
        drivers := b.drivers.erase console
        items := pre ++ item.orphaned now :: post } := by
  unfold Book.orphan
  simp only
  split
  · rename_i hf
    refine Or.inl ⟨rfl, fun x hx hc hr => ?_⟩
    rw [List.findIdx?_eq_none_iff] at hf
    simpa [hc, hr] using hf x hx
  · rename_i at_ hf
    obtain ⟨pre, item, post, hitems, rfl, hp⟩ := findIdx?_split hf
    simp only [decide_eq_true_eq] at hp
    refine Or.inr ⟨pre, item, post, hitems, hp.1, hp.2, ?_⟩
    rw [hitems, modify_split]

/-! ## What a restart does to the list -/

theorem restartAt_split (now : Nat) (pre post : List Item) (x : Item) :
    restartAt now (pre ++ x :: post) pre.length =
      if x.status = .running then
        pre ++ x.interrupted now ::
          (if x.stopOnFailure then holdAfter (x.interrupted now) post else post)
      else if x.status.waiting ∧ x.secretInMemory then pre ++ x.secretNotKept now :: post
      else pre ++ x :: post := by
  have hget : (pre ++ x :: post)[pre.length]? = some x := by simp
  simp only [restartAt, hget, modify_split]
  split
  · split <;> simp
  · split <;> rfl

@[simp] theorem interrupted_status (x : Item) (now : Nat) :
    (x.interrupted now).status = .interrupted := rfl

@[simp] theorem secretNotKept_status (x : Item) (now : Nat) :
    (x.secretNotKept now).status = .interrupted := rfl

/-- A restart starts nothing and puts nothing in line. -/
def Interrupts (x y : Item) : Prop :=
  (y.status = .running → x.status = .running) ∧ (y.status = .queued → x.status = .queued)

theorem Interrupts.refl (x : Item) : Interrupts x x := ⟨id, id⟩

theorem Interrupts.trans {z : Item} (h : Interrupts x y) (h' : Interrupts y z) :
    Interrupts x z := ⟨fun hz => h.1 (h'.1 hz), fun hz => h.2 (h'.2 hz)⟩

theorem Quiet.interrupts (h : Quiet x y) : Interrupts x y :=
  ⟨h.running.1, h.queued⟩

theorem restartAt_changed (now : Nat) (pre post : List Item) (x : Item) :
    Changed Interrupts (pre ++ x :: post) (restartAt now (pre ++ x :: post) pre.length) := by
  rw [restartAt_split]
  split
  · have hset : Changed Interrupts (pre ++ x :: post) (pre ++ x.interrupted now :: post) :=
      changed_at rfl rfl ⟨by simp, by simp⟩
        fun y _ => Interrupts.refl y
    split
    · exact hset.trans (changed_holdAfter pre post _) fun _ _ _ h h' => h.trans h'.interrupts
    · exact hset
  · split
    · exact changed_at rfl rfl ⟨by simp, by simp⟩
        fun y _ => Interrupts.refl y
    · exact changed_of_subperm (List.Subperm.refl _) fun y _ => Interrupts.refl y

/-- One turn leaves the items before its own alone and its own not running. -/
theorem restartAt_pre (now : Nat) (pre post : List Item) (x : Item) :
    ∃ x' post', restartAt now (pre ++ x :: post) pre.length = pre ++ x' :: post' ∧
      x'.status ≠ .running ∧ post'.length = post.length := by
  rw [restartAt_split]
  split
  · refine ⟨x.interrupted now, _, rfl, by simp, ?_⟩
    split <;> simp [holdAfter]
  · rename_i hr
    split
    · exact ⟨x.secretNotKept now, post, rfl, by simp, rfl⟩
    · exact ⟨x, post, rfl, hr, rfl⟩

/-- After `n` turns none of the first `n` items runs. -/
theorem restartTo_split (now : Nat) (items : List Item) {n : Nat} (h : n ≤ items.length) :
    ∃ pre post, restartTo now items n = pre ++ post ∧ pre.length = n ∧
      post.length = items.length - n ∧ ∀ x ∈ pre, x.status ≠ .running := by
  induction n with
  | zero => exact ⟨[], items, rfl, rfl, rfl, by simp⟩
  | succ n ih =>
    obtain ⟨pre, post, heq, hpre, hpost, hrun⟩ := ih (by omega)
    cases post with
    | nil => simp only [List.length_nil] at hpost; omega
    | cons x post =>
      obtain ⟨x', post', hturn, hx', hlen⟩ := restartAt_pre now pre post x
      refine ⟨pre ++ [x'], post', ?_, by simp [hpre], ?_, fun y hy => ?_⟩
      · rw [restartTo, heq, ← hpre, hturn]
        simp
      · rw [List.length_cons] at hpost
        omega
      · rw [List.mem_append, List.mem_singleton] at hy
        rcases hy with hy | rfl
        · exact hrun y hy
        · exact hx'

theorem restartTo_changed (now : Nat) (items : List Item) {m n : Nat} (hmn : m ≤ n)
    (h : n ≤ items.length) :
    Changed Interrupts (restartTo now items m) (restartTo now items n) := by
  induction n, hmn using Nat.le_induction with
  | base => exact changed_of_subperm (List.Subperm.refl _) fun y _ => Interrupts.refl y
  | succ n hmn ih =>
    obtain ⟨pre, post, heq, hpre, hpost, -⟩ := restartTo_split now items (n := n) (by omega)
    cases post with
    | nil => simp only [List.length_nil] at hpost; omega
    | cons x post =>
      have hturn := restartAt_changed now pre post x
      rw [hpre, ← heq] at hturn
      exact (ih (by omega)).trans hturn fun _ _ _ => Interrupts.trans

theorem afterRestart_changed (now : Nat) (items : List Item) :
    Changed Interrupts items (afterRestart now items) :=
  restartTo_changed now items (Nat.zero_le _) (Nat.le_refl _)

/-- Nothing runs after a restart. -/
theorem afterRestart_not_running (now : Nat) (items : List Item) :
    ∀ x ∈ afterRestart now items, x.status ≠ .running := by
  obtain ⟨pre, post, heq, -, hpost, hrun⟩ :=
    restartTo_split now items (Nat.le_refl items.length)
  rw [Nat.sub_self, List.length_eq_zero_iff] at hpost
  rw [afterRestart, heq, hpost, List.append_nil]
  exact hrun

end Ps5Upload.QueueApi
