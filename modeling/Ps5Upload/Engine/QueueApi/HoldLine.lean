import Mathlib
import Ps5Upload.Engine.QueueApi.Exclusion

/-!
# `stop_on_failure`: what waits behind a failed item

An item added with `stop_on_failure` that fails or is interrupted should leave the items
behind it paused, for someone to look at.  `changes` lists the changes of the list a step
makes — a restart makes one for each item — and `HoldsLine` is that rule for one of them.

* `line_held` — along every run whose steps meet `LineHeld`, and what was held is not run
  until someone resumes it (`StaysHeld`);
* `line_not_held` — the two runs the proviso excludes.
-/

namespace Ps5Upload.QueueApi

open ListAt

/-! ## Behind an item -/

/-- The pairs of items of one console, one behind the other. -/
def behind : List Item → List (Item × Item)
  | [] => []
  | x :: rest => (rest.filter fun y => y.console = x.console).map (fun y => (x, y)) ++ behind rest

theorem mem_behind {l : List Item} {x y : Item} :
    (x, y) ∈ behind l ↔ ∃ pre post, l = pre ++ x :: post ∧ y ∈ post ∧ y.console = x.console := by
  induction l with
  | nil => simp [behind]
  | cons z rest ih =>
    rw [behind, List.mem_append, ih]
    constructor
    · rintro (h | ⟨pre, post, rfl, hy, hc⟩)
      · obtain ⟨w, hw, heq⟩ := List.mem_map.1 h
        obtain ⟨rfl, rfl⟩ := Prod.mk.injEq .. ▸ heq
        obtain ⟨hw, hc⟩ := List.mem_filter.1 hw
        exact ⟨[], rest, rfl, hw, by simpa using hc⟩
      · exact ⟨z :: pre, post, rfl, hy, hc⟩
    · rintro ⟨pre, post, heq, hy, hc⟩
      cases pre with
      | nil =>
        obtain ⟨rfl, rfl⟩ : z = x ∧ rest = post := by simpa using heq
        refine Or.inl (List.mem_map_of_mem (List.mem_filter.2 ⟨hy, by simpa using hc⟩))
      | cons w pre =>
        obtain ⟨rfl, rfl⟩ : z = w ∧ rest = pre ++ x :: post := by simpa using heq
        exact Or.inr ⟨pre, post, rfl, hy, hc⟩

/-- One change of the list: as it was, as it was when an item had ended, and as it was left. -/
structure Change where
  before : List Item
  ended : List Item
  after : List Item

/-- The change makes an item failed or interrupted. -/
def Change.turns (c : Change) (x : Item) : Prop :=
  x.status.stops = false ∧ ∃ x' ∈ c.ended, x'.id = x.id ∧ x'.status.stops = true

instance (c : Change) (x : Item) : Decidable (c.turns x) := inferInstanceAs (Decidable (_ ∧ _))

/-- Every item in line behind a `stop_on_failure` item that the change makes failed or
interrupted is paused after it. -/
def HoldsLine (c : Change) : Prop :=
  ∀ p ∈ behind c.before, p.1.stopOnFailure = true → c.turns p.1 → p.2.status = .queued →
    ∃ y ∈ c.after, y.id = p.2.id ∧ y.status = .paused

/-- The changes a step makes, in order: `finish` ends its item and then prunes the list; a
restart goes over the list item by item. -/
def changes (s : System) (a : Act) (s' : System) : List Change :=
  match a with
  | .crash => (List.range s.disk.length).map fun n =>
      ⟨restartTo s.now s.disk n, restartTo s.now s.disk (n + 1), restartTo s.now s.disk (n + 1)⟩
  | .finish t end_ =>
    match (s.tasks[t]?).bind fun task => task.pc.owns with
    | some id => [⟨s.book.items, endItem s.book.items s.now id end_, s'.book.items⟩]
    | none => []
  | _ => [⟨s.book.items, s'.book.items, s'.book.items⟩]

/-- The steps that hold the line: a driver dies with nothing in line behind its
`stop_on_failure` item; a restart finds nothing in line behind a waiting `stop_on_failure`
item whose secret was not kept, unless both are behind one that was running. -/
def LineHeld (s : System) : Act → Prop
  | .die t => ∀ task ∈ s.tasks[t]?, ∀ p ∈ behind s.book.items,
      p.1.console = task.console → p.1.status = .running → p.1.stopOnFailure = true →
      p.2.status ≠ .queued
  | .crash => ∀ p ∈ behind s.disk, p.1.stopOnFailure = true → p.1.status.waiting = true →
      p.1.secretInMemory = true → p.2.status = .queued →
      ∃ q ∈ behind s.disk, q.2 = p.1 ∧ q.1.status = .running ∧ q.1.stopOnFailure = true
  | _ => True

instance (s : System) (a : Act) : Decidable (LineHeld s a) := by
  cases a <;> unfold LineHeld <;> infer_instance

/-! ## One item ended in its place -/

section
variable {pre post post' : List Item} {x x₀ z y : Item}

/-- The items behind a place are left, or paused if they were in line. -/
def Held (post post' : List Item) : Prop :=
  ∃ f : Item → Item, post' = post.map f ∧
    ∀ w, f w = w ∨ (w.status = .queued ∧ ∃ after, f w = w.held after)

theorem held_refl (post : List Item) : Held post post := ⟨id, by simp, fun _ => Or.inl rfl⟩

theorem held_holdAfter (x : Item) (post : List Item) : Held post (holdAfter x post) := by
  refine ⟨_, rfl, fun w => ?_⟩
  split
  · rename_i hw
    exact Or.inr ⟨hw.2, x.id, rfl⟩
  · exact Or.inl rfl

/-- When one item ended in its place and those behind it were held at most, it is the only
one that turned. -/
theorem turned_at (hn : ((pre ++ x₀ :: post).map Item.id).Nodup) (hid : z.id = x₀.id)
    (hheld : Held post post') (hx : x ∈ pre ++ x₀ :: post) (hns : x.status.stops = false)
    {x' : Item} (hx' : x' ∈ pre ++ z :: post') (hid' : x'.id = x.id)
    (hst : x'.status.stops = true) : x = x₀ ∧ x' = z := by
  have hsame : ∀ {w : Item}, w ∈ pre ++ x₀ :: post → w.id = x.id → w = x :=
    fun hw h => eq_of_id_eq hn hw hx h
  rw [List.mem_append, List.mem_cons] at hx'
  rcases hx' with hx' | rfl | hx'
  · rw [hsame (by simp [hx']) hid', hns] at hst
    simp at hst
  · exact ⟨(hsame (by simp) (hid.symm.trans hid')).symm, rfl⟩
  · obtain ⟨f, rfl, hf⟩ := hheld
    obtain ⟨w, hw, rfl⟩ := List.mem_map.1 hx'
    rcases hf w with hfw | ⟨-, after, hfw⟩
    · rw [hfw] at hid' hst
      rw [hsame (by simp [hw]) hid', hns] at hst
      simp at hst
    · rw [hfw] at hst
      simp [Item.held, Status.stops] at hst

/-- What is behind an item is behind its place. -/
theorem behind_at (hn : ((pre ++ x :: post).map Item.id).Nodup)
    (h : (x, y) ∈ behind (pre ++ x :: post)) : y ∈ post ∧ y.console = x.console := by
  obtain ⟨pre', post', heq, hy, hc⟩ := mem_behind.1 h
  obtain ⟨-, -, rfl⟩ := split_unique hn heq rfl
  exact ⟨hy, hc⟩

theorem fst_mem_of_behind {l : List Item} {p : Item × Item} (h : p ∈ behind l) : p.1 ∈ l := by
  obtain ⟨pre, post, rfl, -, -⟩ := mem_behind.1 h
  simp

/-- Holding what is behind an item pauses what was in line there. -/
theorem mem_holdAfter (hy : y ∈ post) (hc : y.console = x.console) (hq : y.status = .queued) :
    y.held x.id ∈ holdAfter x post :=
  List.mem_map.2 ⟨y, hy, by simp [hc, hq]⟩

end

/-! ## The paths that end an item -/

/-- Nobody fails: there is nothing to hold. -/
theorem holdsLine_of_quiet {l l' : List Item} (hn : (l.map Item.id).Nodup)
    (h : ∀ x' ∈ l', x'.status.stops = true → ∃ x ∈ l, x.id = x'.id ∧ x.status.stops = true) :
    HoldsLine ⟨l, l', l'⟩ := by
  rintro p hp - ⟨hns, x', hx', hid, hst⟩ -
  obtain ⟨x, hx, hxid, hxs⟩ := h x' hx' hst
  have : x = p.1 := eq_of_id_eq hn hx (fst_mem_of_behind hp) (hxid.trans hid)
  rw [this, hns] at hxs
  simp at hxs

/-- `finish` holds the line. -/
theorem finish_holdsLine {b : Book} (hn : (b.items.map Item.id).Nodup) (now : Nat)
    (id : String) (end_ : End) :
    HoldsLine ⟨b.items, endItem b.items now id end_, (b.finish now id end_).items⟩ := by
  rintro ⟨x, y⟩ hp hstop ⟨hns, x', hx', hid, hst⟩ hq
  unfold endItem at hx'
  unfold Book.finish
  split at hx'
  · -- no such item: nothing ended
    have : x' = x := eq_of_id_eq hn hx' (fst_mem_of_behind hp) hid
    rw [this, hns] at hst
    simp at hst
  · rename_i at_ item hf
    rw [endItem, hf]
    obtain ⟨pre, post, hitems, rfl, rfl⟩ := findItem_split hf
    rw [hitems] at hn hp hx' ⊢
    simp only at hx' ⊢
    split at hx'
    · -- it was removed: the others are as they were
      rw [eraseIdx_split] at hx'
      have hx'' : x' ∈ pre ++ item :: post := by
        rcases List.mem_append.1 hx' with h | h <;> simp [h]
      have : x' = x := eq_of_id_eq hn hx'' (fst_mem_of_behind hp) hid
      rw [this, hns] at hst
      simp at hst
    · rename_i hrem
      rw [finishAt_split] at hx'
      have hheld : Held post (if item.stopOnFailure ∧ (endStatus item end_).stops then
          holdAfter (item.ended now end_) post else post) := by
        split
        · exact held_holdAfter _ _
        · exact held_refl _
      obtain ⟨rfl, rfl⟩ := turned_at (z := item.ended now end_) hn rfl hheld
        (fst_mem_of_behind hp) hns hx' hid hst
      obtain ⟨hy, hc⟩ := behind_at hn hp
      refine ⟨y.held x.id, mem_prune rfl ?_, rfl, rfl⟩
      rw [if_neg hrem, finishAt_split, if_pos ⟨hstop, hst⟩]
      have := mem_holdAfter (x := x.ended now end_) hy hc hq
      exact List.mem_append_right _ (List.mem_cons_of_mem _ this)

/-- A driver that died holds the line only where nothing waits behind its item. -/
theorem orphan_holdsLine {b : Book} (hn : (b.items.map Item.id).Nodup) (now : Nat)
    (console : String)
    (hline : ∀ p ∈ behind b.items, p.1.console = console → p.1.status = .running →
      p.1.stopOnFailure = true → p.2.status ≠ .queued) :
    HoldsLine ⟨b.items, (b.orphan now console).items, (b.orphan now console).items⟩ := by
  rcases orphan_cases b now console with ⟨heq, -⟩ | ⟨pre, item, post, hitems, hc, hr, heq⟩
  · rw [heq]
    exact holdsLine_of_quiet hn fun x' hx' hst => ⟨x', hx', rfl, hst⟩
  · rw [heq]
    rintro ⟨x, y⟩ hp hstop ⟨hns, x', hx', hid, hst⟩ hq
    have hp' := hp
    rw [hitems] at hn hp'
    obtain ⟨rfl, -⟩ := turned_at (z := item.orphaned now) hn rfl (held_refl post)
      (fst_mem_of_behind hp') hns hx' hid hst
    exact absurd hq (hline (x, y) hp hc hr hstop)

/-! ## A restart, item by item -/

/-- What a turn of the loop does to its own item. -/
def Item.restarted (x : Item) (now : Nat) : Item :=
  if x.status = .running then x.interrupted now
  else if x.status.waiting ∧ x.secretInMemory then x.secretNotKept now
  else x

/-- What the turn of `z` does to an item behind it. -/
def holdBehind (z y : Item) : Item :=
  if z.status = .running ∧ z.stopOnFailure ∧ y.console = z.console ∧ y.status = .queued then
    y.held z.id
  else y

/-- What the turns of the items before it do to an item. -/
def heldBy (zs : List Item) (y : Item) : Item := zs.foldl (fun y z => holdBehind z y) y

theorem restartAt_eq (now : Nat) (pre post : List Item) (x : Item) :
    restartAt now (pre ++ x :: post) pre.length =
      pre ++ x.restarted now :: post.map (holdBehind x) := by
  rw [restartAt_split, Item.restarted]
  by_cases hr : x.status = .running
  · rw [if_pos hr, if_pos hr]
    congr 2
    by_cases hs : x.stopOnFailure
    · rw [if_pos hs, holdAfter]
      refine List.map_congr_left fun y _ => ?_
      simp only [holdBehind, hr, hs, true_and]
      rfl
    · rw [if_neg hs]
      refine (List.map_id'' (fun y => ?_) post).symm
      simp [holdBehind, hs]
  · have hmap : post.map (holdBehind x) = post :=
      List.map_id'' (fun y => by simp [holdBehind, hr]) post
    rw [if_neg hr, if_neg hr, hmap]
    split <;> rfl

/-- Only what is in line changes, and only to paused. -/
theorem holdBehind_cases (z y : Item) :
    holdBehind z y = y ∨ (y.status = .queued ∧ ∃ after, holdBehind z y = y.held after) := by
  unfold holdBehind
  split
  · rename_i h
    exact Or.inr ⟨h.2.2.2, z.id, rfl⟩
  · exact Or.inl rfl

/-- A running item of the same console ahead that asks for it. -/
def HoldsIt (zs : List Item) (y : Item) : Prop :=
  ∃ z ∈ zs, z.status = .running ∧ z.stopOnFailure = true ∧ y.console = z.console

/-- An item is held by those before it, or left as it was. -/
theorem heldBy_cases (zs : List Item) (y : Item) :
    (heldBy zs y = y ∧ ¬ (y.status = .queued ∧ HoldsIt zs y)) ∨
    (y.status = .queued ∧ HoldsIt zs y ∧ ∃ after, heldBy zs y = y.held after) := by
  induction zs using List.reverseRecOn with
  | nil => exact Or.inl ⟨rfl, by simp [HoldsIt]⟩
  | append_singleton zs z ih =>
    have hstep : heldBy (zs ++ [z]) y = holdBehind z (heldBy zs y) := by simp [heldBy]
    have hmono : HoldsIt zs y → HoldsIt (zs ++ [z]) y := by
      rintro ⟨w, hw, h⟩
      exact ⟨w, List.mem_append_left _ hw, h⟩
    rw [hstep]
    rcases ih with ⟨heq, hnot⟩ | ⟨hq, hhold, after, heq⟩
    · rw [heq]
      by_cases hz : z.status = .running ∧ z.stopOnFailure ∧ y.console = z.console ∧
          y.status = .queued
      · refine Or.inr ⟨hz.2.2.2, ⟨z, by simp, hz.1, hz.2.1, hz.2.2.1⟩, z.id, ?_⟩
        rw [holdBehind, if_pos hz]
      · refine Or.inl ⟨by rw [holdBehind, if_neg hz], ?_⟩
        rintro ⟨hq, w, hw, hwr, hws, hwc⟩
        rw [List.mem_append, List.mem_singleton] at hw
        rcases hw with hw | rfl
        · exact hnot ⟨hq, w, hw, hwr, hws, hwc⟩
        · exact hz ⟨hwr, hws, hwc, hq⟩
    · refine Or.inr ⟨hq, hmono hhold, after, ?_⟩
      rw [heq, holdBehind, if_neg (by simp [Item.held])]

/-- A held item holds nobody, as it held nobody before. -/
theorem holdBehind_heldBy (zs : List Item) (z y : Item) :
    holdBehind (heldBy zs z) y = holdBehind z y := by
  rcases heldBy_cases zs z with ⟨heq, -⟩ | ⟨hq, -, after, heq⟩
  · rw [heq]
  · rw [heq, holdBehind, holdBehind, if_neg (by simp [Item.held]), if_neg (by simp [hq])]

/-- The items the loop has passed. -/
def restartPast (now : Nat) : List Item → List Item → List Item
  | _, [] => []
  | seen, y :: rest => (heldBy seen y).restarted now :: restartPast now (seen ++ [y]) rest

theorem restartPast_append (now : Nat) (seen l : List Item) (x : Item) :
    restartPast now seen (l ++ [x]) =
      restartPast now seen l ++ [(heldBy (seen ++ l) x).restarted now] := by
  induction l generalizing seen with
  | nil => simp [restartPast]
  | cons y l ih => simp [restartPast, ih]

theorem length_restartPast (now : Nat) (seen l : List Item) :
    (restartPast now seen l).length = l.length := by
  induction l generalizing seen with
  | nil => rfl
  | cons y l ih => simp [restartPast, ih]

/-- **The loop, half way.**  The items before the next have had their turn, the others have
been held by them at most. -/
theorem restartTo_eq (now : Nat) (pre post : List Item) :
    restartTo now (pre ++ post) pre.length =
      restartPast now [] pre ++ post.map (heldBy pre) := by
  induction pre using List.reverseRecOn generalizing post with
  | nil =>
    have : post.map (heldBy []) = post := List.map_id'' (fun y => rfl) post
    simp [restartTo, restartPast, this]
  | append_singleton pre x ih =>
    have hlen : (pre ++ [x]).length = pre.length + 1 := by simp
    have hturn := restartAt_eq now (restartPast now [] pre) (post.map (heldBy pre))
      (heldBy pre x)
    rw [length_restartPast] at hturn
    rw [hlen, restartTo, List.append_assoc, List.singleton_append, ih, List.map_cons, hturn,
      restartPast_append, List.nil_append, List.append_assoc, List.singleton_append,
      List.map_map]
    congr 2
    refine List.map_congr_left fun y _ => ?_
    rw [Function.comp, holdBehind_heldBy]
    simp [heldBy]

/-- An item in line after the turns before it was in line, and nothing ahead holds it. -/
theorem heldBy_queued {zs : List Item} {y : Item} (h : (heldBy zs y).status = .queued) :
    heldBy zs y = y ∧ y.status = .queued ∧ ¬ HoldsIt zs y := by
  rcases heldBy_cases zs y with ⟨heq, hnot⟩ | ⟨-, -, after, heq⟩
  · rw [heq] at h
    exact ⟨heq, h, fun hc => hnot ⟨h, hc⟩⟩
  · rw [heq] at h
    simp [Item.held] at h

/-- What holds an item in line is behind nothing but what stands before it. -/
theorem mem_pre_of_behind {pre post : List Item} {z x : Item}
    (hn : ((pre ++ x :: post).map Item.id).Nodup) (h : (z, x) ∈ behind (pre ++ x :: post)) :
    z ∈ pre ∧ x.console = z.console := by
  obtain ⟨pre', post', heq, hx, hc⟩ := mem_behind.1 h
  obtain ⟨a, b, rfl⟩ := List.append_of_mem hx
  have heq' : pre ++ x :: post = (pre' ++ z :: a) ++ x :: b := by rw [heq]; simp
  obtain ⟨rfl, -, -⟩ := split_unique hn heq' rfl
  exact ⟨by simp, hc⟩

/-- A turn of the loop holds the line unless its item waits with a secret that was not kept
and something is in line behind it. -/
theorem restart_holdsLine (now : Nat) {pre post : List Item} {x₀ : Item}
    (hn : ((pre ++ x₀ :: post).map Item.id).Nodup)
    (hline : ∀ p ∈ behind (pre ++ x₀ :: post), p.1.stopOnFailure = true →
      p.1.status.waiting = true → p.1.secretInMemory = true → p.2.status = .queued →
      ∃ q ∈ behind (pre ++ x₀ :: post),
        q.2 = p.1 ∧ q.1.status = .running ∧ q.1.stopOnFailure = true) :
    HoldsLine ⟨restartTo now (pre ++ x₀ :: post) pre.length,
      restartTo now (pre ++ x₀ :: post) (pre.length + 1),
      restartTo now (pre ++ x₀ :: post) (pre.length + 1)⟩ := by
  have hnm := (restartTo_changed now (pre ++ x₀ :: post) (Nat.zero_le pre.length)
    (by simp)).nodup hn
  have hbefore := restartTo_eq now pre (x₀ :: post)
  have hturn := restartAt_eq now (restartPast now [] pre) (post.map (heldBy pre)) (heldBy pre x₀)
  rw [length_restartPast] at hturn
  have hafter : restartTo now (pre ++ x₀ :: post) (pre.length + 1) =
      restartPast now [] pre ++ (heldBy pre x₀).restarted now ::
        (post.map (heldBy pre)).map (holdBehind (heldBy pre x₀)) := by
    rw [restartTo, hbefore, List.map_cons, hturn]
  rw [hafter]
  rw [hbefore, List.map_cons] at hnm ⊢
  rintro ⟨X, Y⟩ hp hstop ⟨hns, x', hx', hid, hst⟩ hq
  have hheld : Held (post.map (heldBy pre))
      ((post.map (heldBy pre)).map (holdBehind (heldBy pre x₀))) :=
    ⟨_, rfl, holdBehind_cases _⟩
  have hrid : ((heldBy pre x₀).restarted now).id = (heldBy pre x₀).id := by
    unfold Item.restarted
    split
    · rfl
    · split <;> rfl
  obtain ⟨rfl, rfl⟩ := turned_at hnm hrid hheld (fst_mem_of_behind hp) hns hx' hid hst
  obtain ⟨hY, hc⟩ := behind_at hnm hp
  obtain ⟨y, hy, rfl⟩ := List.mem_map.1 hY
  obtain ⟨hyeq, hyq, hyfree⟩ := heldBy_queued hq
  by_cases hr : (heldBy pre x₀).status = .running
  · -- it was running: what is in line behind it is held by this turn
    refine ⟨holdBehind (heldBy pre x₀) (heldBy pre y), ?_, ?_⟩
    · exact List.mem_append_right _ (List.mem_cons_of_mem _ (List.mem_map_of_mem hY))
    · rw [holdBehind, if_pos ⟨hr, hstop, hc, hq⟩]
      exact ⟨rfl, rfl⟩
  · rw [Item.restarted, if_neg hr] at hst
    split at hst
    · rename_i hwait
      -- it waited: something running ahead would have held what is in line behind it
      exfalso
      have hx₀ : x₀.status.waiting = true ∧ x₀.secretInMemory = true ∧
          x₀.stopOnFailure = true ∧ x₀.console = (heldBy pre x₀).console := by
        rcases heldBy_cases pre x₀ with ⟨heq, -⟩ | ⟨hq₀, -, after, heq⟩
        · rw [heq] at hwait hstop
          exact ⟨hwait.1, hwait.2, hstop, by rw [heq]⟩
        · rw [heq] at hwait hstop
          exact ⟨by rw [hq₀]; rfl, hwait.2, hstop, by rw [heq]; rfl⟩
      rw [hyeq] at hc
      have hbehind : (x₀, y) ∈ behind (pre ++ x₀ :: post) :=
        mem_behind.2 ⟨pre, post, rfl, hy, hc.trans hx₀.2.2.2.symm⟩
      obtain ⟨⟨z, w⟩, hq', rfl, hzr, hzs⟩ := hline (x₀, y) hbehind hx₀.2.2.1 hx₀.1 hx₀.2.1 hyq
      obtain ⟨hz, hzc⟩ := mem_pre_of_behind hn hq'
      exact hyfree ⟨z, hz, hzr, hzs, (hc.trans hx₀.2.2.2.symm).trans hzc⟩
    · rw [hns] at hst
      simp at hst

/-! ## Every step -/

variable {s s' : System} {a : Act}

/-- Nobody fails in a step that ends no item. -/
theorem stops_of_step (hex : Exclusive s) (hs : step s a = some s')
    (hf : ∀ t e, a ≠ .finish t e) (hd : ∀ t, a ≠ .die t) (hc : a ≠ .crash) :
    ∀ x' ∈ s'.book.items, x'.status.stops = true →
      ∃ x ∈ s.book.items, x.id = x'.id ∧ x.status.stops = true := by
  intro x' hx' hst
  have hfrom : ∀ {R : Item → Item → Prop} {l : List Item}, Changed R s.book.items l →
      (∀ x y, R x y → y.status.stops = true → x.status.stops = true) → x' ∈ l →
      ∃ x ∈ s.book.items, x.id = x'.id ∧ x.status.stops = true := by
    intro R l hch hR hx'
    obtain ⟨x, hx, hid, -, hxy⟩ := hch.of_mem x' hx'
    exact ⟨x, hx, hid, hR x x' hxy hst⟩
  cases step_effect hex.items.ids hs with
  | same => exact ⟨x', hx', rfl, hst⟩
  | ticked ms => exact ⟨x', hx', rfl, hst⟩
  | refusedAdd _ id => exact ⟨x', hx', rfl, hst⟩
  | added _ item items hnew hq hperm =>
    rcases List.mem_append.1 (hperm.mem_iff.1 hx') with hx | hx
    · exact ⟨x', hx, rfl, hst⟩
    · rw [List.mem_singleton] at hx
      rw [hx, hq] at hst
      simp [Status.stops] at hst
  | edited _ items hch => exact hfrom hch (fun _ _ hxy => hxy.stops) hx'
  | resumed id items hch =>
    refine hfrom hch (fun x y hxy hy => ?_) hx'
    rcases hxy with hxy | ⟨-, -, hq⟩
    · exact hxy.stops hy
    · rw [hq] at hy
      simp [Status.stops] at hy
  | held _ holds => exact ⟨x', hx', rfl, hst⟩
  | saved => exact ⟨x', hx', rfl, hst⟩
  | wrote i snapshot hi =>
    refine ⟨x', ?_, rfl, hst⟩
    unfold System.writeSnapshot at hx'
    split at hx' <;> exact hx'
  | kicked console hnew => exact ⟨x', hx', rfl, hst⟩
  | stopped t task ht hpc => exact ⟨x', hx', rfl, hst⟩
  | turned _ t task holds pc ht hpc hgone => exact ⟨x', hx', rfl, hst⟩
  | started t task head items ht hpc hholds hhead hch =>
    refine hfrom hch (fun x y hxy hy => ?_) hx'
    by_cases hx : x.id = head
    · rw [(hxy.1 hx).2.2] at hy
      simp [Status.stops] at hy
    · exact (hxy.2 hx).stops hy
  | savedRun t task id ht hpc => exact ⟨x', hx', rfl, hst⟩
  | called t task id generation item ht hpc hlanded hitem hid => exact ⟨x', hx', rfl, hst⟩
  | putBack t task id items ended ht hpc hch =>
    refine hfrom hch (fun x y hxy hy => ?_) hx'
    by_cases hx : x.id = id
    · rw [hxy.1 hx] at hy
      simp [Status.stops] at hy
    · exact (hxy.2 hx).stops hy
  | gotJob t task id job kind items ht hpc hch => exact hfrom hch (fun _ _ hxy => hxy.stops) hx'
  | finished t task id end_ items ended ht hpc hbook hch => exact absurd rfl (hf t end_)
  | died t task ht => exact absurd rfl (hd t)
  | crashed => exact absurd rfl hc

/-- A finish is the end of the item its driver runs. -/
theorem step_finish {t : Nat} {end_ : End} (hs : step s (.finish t end_) = some s') :
    ∃ task id, s.tasks[t]? = some task ∧ task.pc.owns = some id ∧
      s'.book = s.book.finish s.now id end_ := by
  simp only [step, Act.task, Option.bind_some, Option.bind_eq_some_iff] at hs
  obtain ⟨task, ht, hs⟩ := hs
  simp only [stepTask] at hs
  split at hs
  · rename_i id kind hpc
    split at hs
    · cases hs
      exact ⟨task, id, ht, by rw [hpc]; rfl, rfl⟩
    · simp at hs
  · rename_i id hpc
    split at hs
    · cases hs
      exact ⟨task, id, ht, by rw [hpc]; rfl, rfl⟩
    · simp at hs
  · simp at hs

/-- The step that a driver dies. -/
theorem step_die {t : Nat} (hs : step s (.die t) = some s') :
    ∃ task, s.tasks[t]? = some task ∧ s'.book = s.book.orphan s.now task.console := by
  simp only [step, Act.task, Option.bind_some, Option.bind_eq_some_iff] at hs
  obtain ⟨task, ht, hs⟩ := hs
  cases hs
  exact ⟨task, ht, rfl⟩

/-- **One step holds the line** where it meets `LineHeld`. -/
theorem step_holdsLine (hex : Exclusive s) (hline : LineHeld s a)
    (hs : step s a = some s') : ∀ c ∈ changes s a s', HoldsLine c := by
  by_cases hf : ∃ t e, a = .finish t e
  · obtain ⟨t, end_, rfl⟩ := hf
    obtain ⟨task, id, ht, hown, hbook⟩ := step_finish hs
    intro c hc
    simp only [changes, ht, Option.bind_some, hown, List.mem_singleton] at hc
    subst hc
    rw [hbook]
    exact finish_holdsLine hex.items.ids s.now id end_
  · by_cases hd : ∃ t, a = .die t
    · obtain ⟨t, rfl⟩ := hd
      obtain ⟨task, ht, hbook⟩ := step_die hs
      intro c hc
      simp only [changes, List.mem_singleton] at hc
      subst hc
      rw [hbook]
      exact orphan_holdsLine hex.items.ids s.now task.console (hline task ht)
    · by_cases hcr : a = .crash
      · subst hcr
        intro c hc
        obtain ⟨n, hn, rfl⟩ := List.mem_map.1 hc
        rw [List.mem_range] at hn
        obtain ⟨x₀, hx₀⟩ : ∃ x, s.disk[n]? = some x := ⟨_, List.getElem?_eq_getElem hn⟩
        obtain ⟨pre, post, hdisk, rfl⟩ := getElem?_split hx₀
        have hids := hex.disk.ids
        simp only [LineHeld] at hline
        rw [hdisk] at hids hline ⊢
        exact restart_holdsLine s.now hids hline
      · have hstops := stops_of_step hex hs (fun t e h => hf ⟨t, e, h⟩)
          (fun t h => hd ⟨t, h⟩) hcr
        have hone : changes s a s' = [⟨s.book.items, s'.book.items, s'.book.items⟩] := by
          unfold changes
          split
          · exact absurd rfl hcr
          · exact absurd ⟨_, _, rfl⟩ hf
          · rfl
        intro c hc
        rw [hone, List.mem_singleton] at hc
        subst hc
        exact holdsLine_of_quiet hex.items.ids hstops

/-! ## Until someone resumes it -/

/-- Nobody resumes the item, and no restart reads a list in which it is in line with nothing
running ahead of it that holds it. -/
def StaysHeld (id : String) (s : System) : Act → Prop
  | .resume id' => id' ≠ id
  | .crash => ∀ y ∈ s.disk, y.id = id → y.status = .queued →
      y.secretInMemory = true ∨
      ∃ q ∈ behind s.disk, q.2 = y ∧ q.1.status = .running ∧ q.1.stopOnFailure = true
  | _ => True

instance (id : String) (s : System) (a : Act) : Decidable (StaysHeld id s a) := by
  cases a <;> unfold StaysHeld <;> infer_instance

/-- An item that is there and neither in line nor running, or is gone. -/
structure Kept (id : String) (s : System) : Prop where
  given : id ∈ s.issued
  out : ∀ y ∈ s.book.items, y.id = id → y.status ≠ .queued ∧ y.status ≠ .running

theorem mem_restartPast {now : Nat} {seen l : List Item} {y : Item}
    (h : y ∈ restartPast now seen l) :
    ∃ a x b, l = a ++ x :: b ∧ y = (heldBy (seen ++ a) x).restarted now := by
  induction l generalizing seen with
  | nil => simp [restartPast] at h
  | cons z l ih =>
    rw [restartPast, List.mem_cons] at h
    rcases h with rfl | h
    · exact ⟨[], z, l, rfl, by simp⟩
    · obtain ⟨a, x, b, rfl, rfl⟩ := ih h
      exact ⟨z :: a, x, b, rfl, by simp⟩

/-- An item in line after a restart was in line in the file, with its secret if it had one
and nothing running ahead that holds it. -/
theorem afterRestart_queued {now : Nat} {disk : List Item} (hn : (disk.map Item.id).Nodup)
    {y : Item} (hy : y ∈ afterRestart now disk) (hq : y.status = .queued) :
    y ∈ disk ∧ y.secretInMemory = false ∧
      ∀ q ∈ behind disk, q.2 = y → q.1.status = .running → q.1.stopOnFailure ≠ true := by
  have heq := restartTo_eq now disk []
  rw [List.append_nil, List.map_nil, List.append_nil] at heq
  rw [afterRestart, heq] at hy
  obtain ⟨a, x, b, rfl, rfl⟩ := mem_restartPast hy
  rw [List.nil_append] at hq ⊢
  have hr : (heldBy a x).status ≠ .running := by
    intro hr
    rw [Item.restarted, if_pos hr, interrupted_status] at hq
    simp at hq
  have hw : ¬ ((heldBy a x).status.waiting ∧ (heldBy a x).secretInMemory) := by
    intro hw
    rw [Item.restarted, if_neg hr, if_pos hw, secretNotKept_status] at hq
    simp at hq
  have hsame : (heldBy a x).restarted now = heldBy a x := by
    rw [Item.restarted, if_neg hr, if_neg hw]
  rw [hsame] at hq ⊢
  obtain ⟨hx, hxq, hfree⟩ := heldBy_queued hq
  rw [hx] at hw ⊢
  refine ⟨by simp, ?_, ?_⟩
  · by_contra hsec
    exact hw ⟨by rw [hxq]; rfl, by simpa using hsec⟩
  · rintro ⟨z, w⟩ hmem rfl hzr hzs
    obtain ⟨hz, hc⟩ := mem_pre_of_behind hn hmem
    exact hfree ⟨z, hz, hzr, hzs, hc⟩

theorem kept_step {id : String} (hex : Exclusive s) (h : Kept id s)
    (hok : StaysHeld id s a) (hs : step s a = some s') : Kept id s' := by
  have hfrom : ∀ {R : Item → Item → Prop} {l : List Item}, Changed R s.book.items l →
      (∀ x ∈ s.book.items, ∀ y, x.id = id → R x y → y.status = .queued ∨ y.status = .running →
        x.status = .queued ∨ x.status = .running) →
      ∀ y ∈ l, y.id = id → y.status ≠ .queued ∧ y.status ≠ .running := by
    intro R l hch hR y hy hyid
    obtain ⟨x, hx, hid, -, hxy⟩ := hch.of_mem y hy
    obtain ⟨hnq, hnr⟩ := h.out x hx (hid.trans hyid)
    have := hR x hx y (hid.trans hyid) hxy
    exact ⟨fun hq => (this (Or.inl hq)).elim hnq hnr, fun hr => (this (Or.inr hr)).elim hnq hnr⟩
  have hquiet : ∀ {x y : Item}, Quiet x y → y.status = .queued ∨ y.status = .running →
      x.status = .queued ∨ x.status = .running :=
    fun hxy hy => hy.imp hxy.queued hxy.running.1
  cases step_effect hex.items.ids hs with
  | same => exact h
  | ticked ms => exact ⟨h.given, h.out⟩
  | refusedAdd _ id' => exact ⟨List.mem_cons_of_mem _ h.given, h.out⟩
  | added _ item items hnew hq hperm =>
    refine ⟨List.mem_cons_of_mem _ h.given, fun y hy hid => ?_⟩
    rcases List.mem_append.1 (hperm.mem_iff.1 hy) with hy | hy
    · exact h.out y hy hid
    · rw [List.mem_singleton] at hy
      rw [hy] at hid
      exact absurd (hid ▸ h.given) hnew
  | edited _ items hch => exact ⟨h.given, hfrom hch fun _ _ _ _ hxy => hquiet hxy⟩
  | resumed id' items hch =>
    refine ⟨h.given, hfrom hch fun x hx y hxid hxy => ?_⟩
    rcases hxy with hxy | ⟨hx', -, -⟩
    · exact hquiet hxy
    · exact absurd (hx'.symm.trans hxid) hok
  | held _ holds => exact ⟨h.given, h.out⟩
  | saved => exact ⟨h.given, h.out⟩
  | wrote i snapshot hi =>
    unfold System.writeSnapshot
    split <;> exact ⟨h.given, h.out⟩
  | kicked console hnew => exact ⟨h.given, h.out⟩
  | stopped t task ht hpc => exact ⟨h.given, h.out⟩
  | turned _ t task holds pc ht hpc hgone => exact ⟨h.given, h.out⟩
  | started t task head items ht hpc hholds hhead hch =>
    refine ⟨h.given, hfrom hch fun x hx y hxid hxy hy => ?_⟩
    by_cases hxh : x.id = head
    · exact Or.inl (hxy.1 hxh).2.1
    · exact hquiet (hxy.2 hxh) hy
  | savedRun t task id' ht hpc => exact ⟨h.given, h.out⟩
  | called t task id' generation item ht hpc hlanded hitem hid => exact ⟨h.given, h.out⟩
  | putBack t task id' items ended ht hpc hch =>
    -- only an item that runs is put back
    refine ⟨h.given, hfrom hch fun x hx y hxid hxy hy => ?_⟩
    by_cases hx' : x.id = id'
    · exact Or.inr ((hex.owners.runs task (List.mem_of_getElem? ht) id'
        (by rw [hpc]; rfl)).2 x hx hx').1
    · exact hquiet (hxy.2 hx') hy
  | gotJob t task id' job kind items ht hpc hch =>
    exact ⟨h.given, hfrom hch fun _ _ _ _ hxy => hquiet hxy⟩
  | finished t task id' end_ items ended ht hpc hbook hch =>
    refine ⟨h.given, hfrom hch fun x hx y hxid hxy hy => ?_⟩
    by_cases hx' : x.id = id'
    · exact absurd hy (not_or.2 ⟨(hxy.1 hx').2, (hxy.1 hx').1⟩)
    · exact hquiet (hxy.2 hx') hy
  | died t task ht =>
    refine ⟨h.given, fun y hy hid => ?_⟩
    rcases orphan_cases s.book s.now task.console with
      ⟨heq, -⟩ | ⟨pre, item, post, hitems, hc, hr, heq⟩
    · rw [heq] at hy
      exact h.out y hy hid
    · rw [heq] at hy
      refine hfrom (R := fun x y => y.status = .queued ∨ y.status = .running →
        x.status = .queued ∨ x.status = .running) (l := pre ++ item.orphaned s.now :: post) ?_
        (fun _ _ _ _ h => h) y hy hid
      rw [hitems]
      exact changed_at rfl rfl (by simp [Item.orphaned]) fun _ _ h => h
  | crashed =>
    have hout : ∀ y ∈ afterRestart s.now s.disk, y.id = id →
        y.status ≠ .queued ∧ y.status ≠ .running := by
      intro y hy hid
      refine ⟨fun hq => ?_, afterRestart_not_running s.now s.disk y hy⟩
      obtain ⟨hmem, hsec, hfree⟩ := afterRestart_queued hex.disk.ids hy hq
      rcases hok y hmem hid hq with hs | ⟨q, hq', hqy, hqr, hqs⟩
      · rw [hs] at hsec
        simp at hsec
      · exact hfree q hq' hqy hqr hqs
    unfold System.restart
    simp only
    split <;> exact ⟨h.given, hout⟩

/-- An item a step has paused is kept from then on. -/
theorem kept_of_paused (hex : Exclusive s) (hs : step s a = some s')
    {c : Change} (hc : c ∈ changes s a s') {y : Item} (hy : y ∈ c.after)
    (hp : y.status = .paused) : Kept y.id s' := by
  have hex' := exclusive_step hex hs
  by_cases hcr : a = .crash
  · subst hcr
    cases hs
    obtain ⟨n, hn, rfl⟩ := List.mem_map.1 hc
    rw [List.mem_range] at hn
    have hlist := hex.disk.changed (restartTo_changed s.now s.disk (Nat.zero_le (n + 1)) hn)
    have hrest := restartTo_changed s.now s.disk hn (Nat.le_refl s.disk.length)
    have hout : ∀ z ∈ afterRestart s.now s.disk, z.id = y.id →
        z.status ≠ .queued ∧ z.status ≠ .running := by
      intro z hz hid
      refine ⟨fun hq => ?_, afterRestart_not_running s.now s.disk z hz⟩
      obtain ⟨x, hx, hxid, -, hxz⟩ := hrest.of_mem z hz
      have hxy : x = y := eq_of_id_eq hlist.ids hx hy (hxid.trans hid)
      have := hxz.2 hq
      rw [hxy, hp] at this
      simp at this
    unfold System.restart
    simp only
    split <;> exact ⟨hlist.given y hy, hout⟩
  · have hafter : c.after = s'.book.items := by
      unfold changes at hc
      split at hc
      · exact absurd rfl hcr
      · split at hc
        · rw [List.mem_singleton] at hc
          rw [hc]
        · cases hc
      · rw [List.mem_singleton] at hc
        rw [hc]
    rw [hafter] at hy
    refine ⟨hex'.items.given y hy, fun z hz hid => ?_⟩
    have hzy : z = y := eq_of_id_eq hex'.items.ids hz hy hid
    rw [hzy, hp]
    exact ⟨by simp, by simp⟩

/-- **`stop_on_failure` holds the line.**  In every run whose steps meet `LineHeld`, each
change that makes a `stop_on_failure` item failed or interrupted leaves every item that was
in line behind it paused; and that item does not run until someone resumes it, as long as no
restart reads a list from before in which nothing holds it. -/
theorem line_held (as : List Act) (w : System) (hline : Runs.Meets step LineHeld {} as)
    (h : Runs.exec step {} as = some w) :
    ∀ bs a cs s s', as = bs ++ a :: cs → Runs.exec step {} bs = some s → step s a = some s' →
      ∀ c ∈ changes s a s', ∀ p ∈ behind c.before, p.1.stopOnFailure = true →
        c.turns p.1 → p.2.status = .queued →
        (∃ y ∈ c.after, y.id = p.2.id ∧ y.status = .paused) ∧
        (Runs.Meets step (StaysHeld p.2.id) s' cs →
          ∀ y ∈ w.book.items, y.id = p.2.id → y.status ≠ .running) := by
  rintro bs a cs s s' rfl hbs hs c hc p hp hstop hturn hq
  have hex : Exclusive s := exclusive_of_exec hbs
  have hok : LineHeld s a := (hline.of_append hbs).head
  obtain ⟨y, hy, hyid, hyp⟩ := step_holdsLine hex hok hs c hc p hp hstop hturn hq
  refine ⟨⟨y, hy, hyid, hyp⟩, fun hstays z hz hzid => ?_⟩
  -- the rest of the run starts in the state the step left
  have hcs : Runs.exec step s' cs = some w := by
    obtain ⟨u, hu, hrest⟩ := (Runs.exec_append _).1 h
    rw [hbs, Option.some.injEq] at hu
    subst hu
    obtain ⟨u', hu', hrest'⟩ := (Runs.exec_cons_eq_some _).1 hrest
    rw [hs, Option.some.injEq] at hu'
    exact hu' ▸ hrest'
  have hkept : Kept p.2.id s' := hyid ▸ kept_of_paused hex hs hc hy hyp
  have hinv : Exclusive w ∧ Kept p.2.id w :=
    Runs.exec_inv_of_meets (P := fun s => Exclusive s ∧ Kept p.2.id s)
      (fun _ _ _ hi hok hs => ⟨exclusive_step hi.1 hs, kept_step hi.1 hi.2 hok hs⟩)
      ⟨exclusive_step hex hs, hkept⟩ hstays hcs
  exact (hinv.2.out z hz hzid).2

/-- The first of two uploads fails; the second was in line behind it. -/
def failedFirst : List Act :=
  [.add "q-1" "10.0.0.2" .uploadFile true {} none, .add "q-2" "10.0.0.2" .uploadDir false {} none,
   .kick "10.0.0.2", .look 0, .start 0, .saveRun 0, .write 0, .call 0,
   .finish 0 { status := .failed }, .tick 5000, .look 0, .save, .write 0, .crash]

theorem line_held_failedFirst :
    (Runs.exec step {} failedFirst).map
        (fun s => s.book.items.map fun x => (x.id, x.status)) =
      some [("q-1", .failed), ("q-2", .paused)] ∧
    ∀ w, Runs.exec step {} failedFirst = some w →
      ∀ y ∈ w.book.items, y.id = "q-2" → y.status ≠ .running := by
  refine ⟨by decide, fun w h => ?_⟩
  have hrun : (Runs.exec step {} (failedFirst.take 8)).isSome ∧
      ∀ s ∈ Runs.exec step {} (failedFirst.take 8),
        (step s (.finish 0 { status := .failed })).isSome ∧
        ∀ s' ∈ step s (.finish 0 { status := .failed }),
          ∃ c ∈ changes s (.finish 0 { status := .failed }) s', ∃ p ∈ behind c.before,
            p.1.stopOnFailure = true ∧ c.turns p.1 ∧ p.2.status = .queued ∧ p.2.id = "q-2" ∧
            Runs.Meets step (StaysHeld "q-2") s' (failedFirst.drop 9) := by
    decide
  obtain ⟨s, hs⟩ := Option.isSome_iff_exists.1 hrun.1
  obtain ⟨s', hs'⟩ := Option.isSome_iff_exists.1 (hrun.2 s hs).1
  obtain ⟨c, hc, p, hp, hstop, hturn, hq, hid, hstays⟩ := (hrun.2 s hs).2 s' hs'
  have := line_held failedFirst w (by decide) h (failedFirst.take 8)
    (.finish 0 { status := .failed }) (failedFirst.drop 9) s s' rfl hs hs' c hc p hp hstop hturn hq
  rw [hid] at this
  exact this.2 hstays

/-- **The line is not held** behind an item that waited with a secret when the engine
stopped, nor behind the item of a driver that died: what was in line there runs, and nobody
resumed anything. -/
theorem line_not_held :
    (Runs.exec step {}
      [.add "q-1" "10.0.0.2" .uploadZip true { password := some "secret" } none,
       .add "q-2" "10.0.0.2" .uploadDir false {} none, .save, .write 0, .crash,
       .kick "10.0.0.2", .look 0, .start 0]).map
        (fun s => s.book.items.map fun x => (x.id, x.stopOnFailure, x.status)) =
      some [("q-1", true, .interrupted), ("q-2", false, .running)] ∧
    (Runs.exec step {}
      [.add "q-1" "10.0.0.2" .uploadFile true {} none,
       .add "q-2" "10.0.0.2" .uploadDir false {} none, .kick "10.0.0.2", .look 0, .start 0,
       .die 0, .kick "10.0.0.2", .look 0, .start 0]).map
        (fun s => s.book.items.map fun x => (x.id, x.stopOnFailure, x.status)) =
      some [("q-1", true, .interrupted), ("q-2", false, .running)] := by
  decide

end Ps5Upload.QueueApi
