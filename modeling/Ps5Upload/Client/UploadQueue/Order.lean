import Ps5Upload.Client.QueueOps
import Ps5Upload.Client.UploadQueue.Item
import Ps5Upload.Lib.FirstBest

/-!
# The order of the queue

The moves of `client/src/state/uploadQueue.ts`, `sendNow`'s stamp and `nextPendingForHost`.

* `queue_reorders` — what moves do to a queue, and the order in which it runs.
-/

namespace Ps5Upload.UploadQueue

open QueueOps FirstBest

/-! ## Moves -/

/-- What a row may change places with. -/
def moveGroupOf (it : QueueItem) : Text :=
  if it.status = .pending then hostOf it.addr ++ '|' :: Nat.toDigits 10 (installOrderPriority it)
  else it.id ++ "|fixed".toList

inductive Move where
  | up (id : Text)
  | down (id : Text)
  | to' (id targetId : Text)

def Move.id : Move → Text
  | up id => id
  | down id => id
  | to' id _ => id

def Move.apply (items : List QueueItem) : Move → List QueueItem
  | up id => moveItemUpWithinGroup QueueItem.id moveGroupOf items id
  | down id => moveItemDownWithinGroup QueueItem.id moveGroupOf items id
  | to' id targetId => moveItemToWithinGroup QueueItem.id moveGroupOf items id targetId

def applyMoves (items : List QueueItem) (moves : List Move) : List QueueItem := moves.foldl Move.apply items

/-! ## The run -/

/-- `sendNow`'s stamp: later than every stamp in the list. -/
def sendNowStamp (now : Nat) (items : List QueueItem) : Nat :=
  items.foldl (fun at' it => max at' (it.sendNowAt.getD 0 + 1)) now

/-- `sendNow`, of a row that waits and is not paused. -/
def sendNow (now : Nat) (id : Text) (items : List QueueItem) : List QueueItem :=
  match items.find? (fun it => it.id = id) with
  | none => items
  | some it =>
    if it.status ≠ .pending ∨ it.paused.isSome then items
    else items.map fun it => if it.id = id then { it with sendNowAt := some (sendNowStamp now items) } else it

/-- Whether a row waits on the console and may run. -/
def waits (host : Text) (it : QueueItem) : Bool :=
  it.status = .pending && it.paused.isNone && hostOf it.addr = host

/-- Whether a row was sent now: a stamp of zero is none. -/
def sent (it : QueueItem) : Bool := it.sendNowAt.getD 0 ≠ 0

/-- The first loop of `nextPendingForHost`: the earliest click. -/
def sentLoop (host : Text) : List QueueItem → Option QueueItem → Option QueueItem
  | [], best => best
  | it :: items, best =>
    if !(waits host it) || !(sent it) then sentLoop host items best
    else match best with
      | none => sentLoop host items (some it)
      | some b => sentLoop host items (if it.sendNowAt.getD 0 < b.sendNowAt.getD 0 then some it else some b)

/-- The second loop: the first of the lowest tier; none is the infinite tier. -/
def bestLoop (host : Text) : List QueueItem → Option QueueItem → Option Nat → Option QueueItem
  | [], best, _ => best
  | it :: items, best, bestPrio =>
    if !(waits host it) then bestLoop host items best bestPrio
    else
      let prio := installOrderPriority it
      if bestPrio.all fun p => prio < p then
        if prio = 0 then some it else bestLoop host items (some it) (some prio)
      else bestLoop host items best bestPrio

def nextPendingForHost (items : List QueueItem) (host : Text) : Option QueueItem :=
  match sentLoop host items none with
  | some it => some it
  | none => bestLoop host items none none

/-- A row is taken: it does not wait any more. -/
def take (id : Text) (items : List QueueItem) : List QueueItem :=
  items.map fun it => if it.id = id then { it with status := .running } else it

/-- The rows that a console takes one after another. -/
def drain (host : Text) : Nat → List QueueItem → List QueueItem
  | 0, _ => []
  | turns + 1, items =>
    match nextPendingForHost items host with
    | none => []
    | some it => it :: drain host turns (take it.id items)

/-! ## Groups -/

theorem digits_lt_three {n : Nat} (h : n < 3) : Nat.toDigits 10 n = ['0'] ∨ Nat.toDigits 10 n = ['1'] ∨
    Nat.toDigits 10 n = ['2'] := by
  match n, h with
  | 0, _ => exact .inl rfl
  | 1, _ => exact .inr (.inl rfl)
  | 2, _ => exact .inr (.inr rfl)

theorem digits_inj {m n : Nat} (hm : m < 3) (hn : n < 3) (h : Nat.toDigits 10 m = Nat.toDigits 10 n) : m = n := by
  match m, n, hm, hn with
  | 0, 0, _, _ | 1, 1, _, _ | 2, 2, _, _ => rfl
  | 0, 1, _, _ | 0, 2, _, _ | 1, 0, _, _ | 1, 2, _, _ | 2, 0, _, _ | 2, 1, _, _ => exact absurd h (by decide)

variable {it : QueueItem} {items : List QueueItem}

theorem pending_group (h : it.status = .pending) :
    moveGroupOf it = hostOf it.addr ++ '|' :: Nat.toDigits 10 (installOrderPriority it) := if_pos h

theorem fixed_group (h : it.status ≠ .pending) : moveGroupOf it = it.id ++ "|fixed".toList :=
  if_neg h

/-- Rows change places that wait on one console in one tier; another row is its own group. -/
theorem moveGroupOf_eq_iff (a b : QueueItem) : moveGroupOf a = moveGroupOf b ↔
    (a.status = .pending ∧ b.status = .pending ∧ hostOf a.addr = hostOf b.addr ∧
      installOrderPriority a = installOrderPriority b) ∨
    (a.status ≠ .pending ∧ b.status ≠ .pending ∧ a.id = b.id) := by
  have hlast : ∀ it : QueueItem, (moveGroupOf it).getLast? =
      if it.status = .pending then (Nat.toDigits 10 (installOrderPriority it)).getLast? else some 'd' := by
    intro it
    by_cases h : it.status = .pending
    · rw [pending_group h, if_pos h, List.getLast?_append]
      rcases digits_lt_three (priority_lt it) with h | h | h <;> rw [h] <;> rfl
    · rw [fixed_group h, if_neg h, List.getLast?_append]
      rfl
  have hdigit : ∀ it : QueueItem, (Nat.toDigits 10 (installOrderPriority it)).getLast? ≠ some 'd' := fun it => by
    rcases digits_lt_three (priority_lt it) with h | h | h <;> rw [h] <;> decide
  by_cases ha : a.status = .pending <;> by_cases hb : b.status = .pending
  · rw [pending_group ha, pending_group hb]
    simp only [ha, hb, true_and, not_true_eq_false, false_and, or_false, ne_eq]
    constructor
    · intro h
      have hlen : ('|' :: Nat.toDigits 10 (installOrderPriority a)).length =
          ('|' :: Nat.toDigits 10 (installOrderPriority b)).length := by
        rcases digits_lt_three (priority_lt a) with h | h | h <;>
          rcases digits_lt_three (priority_lt b) with h' | h' | h' <;> rw [h, h'] <;> rfl
      obtain ⟨hhost, hdigits⟩ := List.append_inj' h hlen
      exact ⟨hhost, digits_inj (priority_lt a) (priority_lt b) (List.cons.inj hdigits).2⟩
    · rintro ⟨hhost, hprio⟩
      rw [hhost, hprio]
  · have hne : moveGroupOf a ≠ moveGroupOf b := fun h => by
      have hl := congrArg List.getLast? h
      rw [hlast, hlast, if_pos ha, if_neg hb] at hl
      exact hdigit a hl
    simp [hne, ha, hb]
  · have hne : moveGroupOf a ≠ moveGroupOf b := fun h => by
      have hl := congrArg List.getLast? h
      rw [hlast, hlast, if_neg ha, if_pos hb] at hl
      exact hdigit b hl.symm
    simp [hne, ha, hb]
  · rw [fixed_group ha, fixed_group hb]
    simp only [ha, hb, false_and, false_or, ne_eq, not_false_eq_true, true_and]
    exact List.append_left_inj _

/-! ## The run order -/

def stamp (it : QueueItem) : Nat := it.sendNowAt.getD 0

/-- Rows sent now in the order of their clicks, and then tier after tier. -/
def inRunOrder (rows : List QueueItem) : List QueueItem :=
  let later := rows.filter fun it => !sent it
  sorted stamp (rows.filter sent) ++
    (later.filter (fun it => installOrderPriority it = 0) ++
      (later.filter (fun it => installOrderPriority it = 1) ++
        later.filter (fun it => installOrderPriority it = 2)))

/-- The rows that wait, in the order in which they are to run. -/
def runOrder (host : Text) (items : List QueueItem) : List QueueItem := inRunOrder (items.filter (waits host))

theorem sentLoop_some (host : Text) (items : List QueueItem) (b : QueueItem) :
    sentLoop host items (some b) = some (scan stamp ((items.filter (waits host)).filter sent) b) := by
  induction items generalizing b with
  | nil => rfl
  | cons it items ih =>
    rw [sentLoop, List.filter_cons]
    cases hw : waits host it with
    | false => exact ih b
    | true =>
      rw [if_pos rfl, List.filter_cons]
      cases hs : sent it with
      | false => exact ih b
      | true =>
        rw [if_pos rfl, scan, ← ih]
        change sentLoop host items (if stamp it < stamp b then some it else some b) = _
        rw [← apply_ite some]

theorem sentLoop_none (host : Text) (items : List QueueItem) :
    sentLoop host items none = firstBest stamp ((items.filter (waits host)).filter sent) := by
  induction items with
  | nil => rfl
  | cons it items ih =>
    rw [sentLoop, List.filter_cons]
    cases hw : waits host it with
    | false => exact ih
    | true =>
      rw [if_pos rfl, List.filter_cons]
      cases hs : sent it with
      | false => exact ih
      | true => exact sentLoop_some host items it

theorem scan_zero {b : QueueItem} (hb : installOrderPriority b = 0) :
    scan installOrderPriority items b = b := by
  induction items with
  | nil => rfl
  | cons it items ih => rw [scan, hb, if_neg (Nat.not_lt_zero _), ih]

theorem bestLoop_some (host : Text) (items : List QueueItem) (b : QueueItem) :
    bestLoop host items (some b) (some (installOrderPriority b)) =
      some (scan installOrderPriority (items.filter (waits host)) b) := by
  induction items generalizing b with
  | nil => rfl
  | cons it items ih =>
    rw [bestLoop, List.filter_cons]
    cases hw : waits host it with
    | false => exact ih b
    | true =>
      rw [if_pos rfl, scan]
      change (if decide (installOrderPriority it < installOrderPriority b) = true then _ else _) = _
      by_cases hlt : installOrderPriority it < installOrderPriority b
      · rw [if_pos (decide_eq_true hlt), if_pos hlt]
        split
        · rename_i hzero
          rw [scan_zero hzero]
        · exact ih it
      · rw [if_neg (by rwa [decide_eq_true_eq]), if_neg hlt]
        exact ih b

theorem bestLoop_none (host : Text) (items : List QueueItem) :
    bestLoop host items none none = firstBest installOrderPriority (items.filter (waits host)) := by
  induction items with
  | nil => rfl
  | cons it items ih =>
    rw [bestLoop, List.filter_cons]
    cases hw : waits host it with
    | false => exact ih
    | true =>
      rw [if_pos rfl]
      change (if installOrderPriority it = 0 then some it else _) = some (scan _ _ it)
      split
      · rename_i hzero
        rw [scan_zero hzero]
      · exact bestLoop_some host items it

/-- Tier after tier, each as it was. -/
theorem sorted_tiers (rows : List QueueItem) : sorted installOrderPriority rows =
    rows.filter (fun it => installOrderPriority it = 0) ++
      (rows.filter (fun it => installOrderPriority it = 1) ++
        rows.filter (fun it => installOrderPriority it = 2)) := by
  have htier : ∀ n, sorted installOrderPriority (rows.filter fun it => installOrderPriority it = n) =
      rows.filter fun it => installOrderPriority it = n := fun n =>
    sorted_of_eq _ (k := n) fun it hit => of_decide_eq_true (List.mem_filter.1 hit).2
  have hone : (rows.filter fun it => !decide (installOrderPriority it = 0)).filter
      (fun it => installOrderPriority it = 1) = rows.filter fun it => installOrderPriority it = 1 := by
    rw [List.filter_filter]
    refine List.filter_congr fun it _ => ?_
    by_cases h : installOrderPriority it = 1 <;> simp [h]
  have htwo : (rows.filter fun it => !decide (installOrderPriority it = 0)).filter
      (fun it => !decide (installOrderPriority it = 1)) = rows.filter fun it => installOrderPriority it = 2 := by
    rw [List.filter_filter]
    refine List.filter_congr fun it _ => ?_
    have hlt := priority_lt it
    rw [Bool.eq_iff_iff]
    simp only [Bool.and_eq_true, Bool.not_eq_true', decide_eq_false_iff_not, decide_eq_true_eq]
    omega
  rw [sorted_split _ (fun it => installOrderPriority it = 0), htier,
    sorted_split _ (fun it => installOrderPriority it = 1), hone, htwo, htier, htier]
  · intro a ha b hb h1 h2
    rw [decide_eq_true_eq] at h1
    rw [decide_eq_false_iff_not] at h2
    have h0 := (List.mem_filter.1 hb).2
    rw [Bool.not_eq_true', decide_eq_false_iff_not] at h0
    omega
  · intro a _ b _ h1 h2
    rw [decide_eq_true_eq] at h1
    rw [decide_eq_false_iff_not] at h2
    omega

theorem inRunOrder_eq (rows : List QueueItem) : inRunOrder rows =
    sorted stamp (rows.filter sent) ++ sorted installOrderPriority (rows.filter fun it => !sent it) := by
  rw [sorted_tiers]
  rfl

theorem inRunOrder_perm (rows : List QueueItem) : (inRunOrder rows).Perm rows := by
  rw [inRunOrder_eq]
  exact ((perm_sorted _ _).append (perm_sorted _ _)).trans (List.filter_append_perm sent rows)

theorem inRunOrder_filter (p : QueueItem → Bool) (rows : List QueueItem) :
    inRunOrder (rows.filter p) = (inRunOrder rows).filter p := by
  rw [inRunOrder_eq, inRunOrder_eq, List.filter_append, filter_sorted, filter_sorted, List.filter_filter,
    List.filter_filter, List.filter_filter, List.filter_filter]
  congr 2 <;> exact List.filter_congr fun it _ => Bool.and_comm _ _

/-- The next row is the first of the run order. -/
theorem nextPendingForHost_eq (items : List QueueItem) (host : Text) :
    nextPendingForHost items host = (runOrder host items).head? := by
  rw [nextPendingForHost, sentLoop_none, firstBest_eq, runOrder, inRunOrder_eq]
  cases hs : sorted stamp ((items.filter (waits host)).filter sent) with
  | cons a rest => rfl
  | nil =>
    have hnil : (items.filter (waits host)).filter sent = [] := by
      have hperm := perm_sorted stamp ((items.filter (waits host)).filter sent)
      rw [hs] at hperm
      exact hperm.nil_eq.symm
    have hall : (items.filter (waits host)).filter (fun it => !sent it) = items.filter (waits host) :=
      List.filter_eq_self.2 fun it hit => by
        rw [Bool.not_eq_true', Bool.eq_false_iff]
        exact List.filter_eq_nil_iff.1 hnil it hit
    rw [hall, List.nil_append, bestLoop_none, firstBest_eq]
    rfl

/-! ## Draining a console -/

theorem waits_take (host id : Text) (items : List QueueItem) :
    (take id items).filter (waits host) = (items.filter (waits host)).filter fun it => it.id ≠ id := by
  induction items with
  | nil => rfl
  | cons it items ih =>
    rw [take, List.map_cons, ← take, List.filter_cons, ih, List.filter_cons]
    by_cases hid : it.id = id
    · rw [if_pos hid]
      have hrun : waits host { it with status := .running } = false := rfl
      rw [hrun, if_neg Bool.false_ne_true]
      split
      · rw [List.filter_cons_of_neg (by simpa using hid)]
      · rfl
    · rw [if_neg hid]
      split
      · rw [List.filter_cons_of_pos (by simpa using hid)]
      · rfl

theorem take_ids (id : Text) (items : List QueueItem) :
    (take id items).map QueueItem.id = items.map QueueItem.id := by
  rw [take, List.map_map]
  refine List.map_congr_left fun it _ => ?_
  rw [Function.comp_apply]
  split <;> rfl

/-- Taking the first row of the order leaves the others. -/
theorem runOrder_take {host : Text} {rest : List QueueItem}
    (hids : (items.map QueueItem.id).Nodup) (h : runOrder host items = it :: rest) :
    runOrder host (take it.id items) = rest := by
  have hnodup : ((it :: rest).map QueueItem.id).Nodup := by
    rw [← h]
    exact ((inRunOrder_perm _).map _).nodup_iff.2 (hids.sublist (List.filter_sublist.map _))
  rw [List.map_cons, List.nodup_cons] at hnodup
  rw [runOrder, waits_take, inRunOrder_filter]
  change (runOrder host items).filter _ = _
  rw [h, List.filter_cons_of_neg (by simp)]
  refine List.filter_eq_self.2 fun a ha => decide_eq_true fun (heq : a.id = it.id) => ?_
  exact hnodup.1 (heq ▸ List.mem_map_of_mem ha)

/-- **A console that is drained runs its rows in the run order.** -/
theorem drain_eq (host : Text) {turns : Nat} (hids : (items.map QueueItem.id).Nodup)
    (hturns : (runOrder host items).length ≤ turns) : drain host turns items = runOrder host items := by
  induction turns generalizing items with
  | zero => rw [drain, List.length_eq_zero_iff.1 (Nat.le_zero.1 hturns)]
  | succ turns ih =>
    rw [drain, nextPendingForHost_eq]
    cases h : runOrder host items with
    | nil => rfl
    | cons it rest =>
      have hrest := runOrder_take hids h
      rw [h, List.length_cons] at hturns
      change it :: drain host turns (take it.id items) = it :: rest
      rw [ih ((take_ids it.id items).symm ▸ hids) (by rw [hrest]; omega), hrest]

theorem length_runOrder_le (host : Text) (items : List QueueItem) : (runOrder host items).length ≤ items.length := by
  rw [runOrder, (inRunOrder_perm _).length_eq]
  exact List.length_filter_le _ _

/-! ## Clicks -/

theorem le_foldl_max (items : List QueueItem) (now : Nat) :
    now ≤ sendNowStamp now items ∧ ∀ it ∈ items, stamp it < sendNowStamp now items := by
  induction items generalizing now with
  | nil => exact ⟨Nat.le_refl _, fun _ h => absurd h List.not_mem_nil⟩
  | cons it items ih =>
    obtain ⟨hnow, hall⟩ := ih (max now (it.sendNowAt.getD 0 + 1))
    rw [sendNowStamp, List.foldl_cons, ← sendNowStamp]
    refine ⟨(Nat.le_max_left _ _).trans hnow, List.forall_mem_cons.2 ⟨?_, hall⟩⟩
    exact Nat.lt_of_lt_of_le (Nat.lt_succ_self _) ((Nat.le_max_right now _).trans hnow)

/-- A click is later than all that were before. -/
theorem sendNow_last {now : Nat} (hids : (items.map QueueItem.id).Nodup)
    (hit : it ∈ items) (hpending : it.status = .pending) (hpaused : it.paused = none) :
    ∃ it' ∈ sendNow now it.id items, it'.id = it.id ∧ sent it' = true ∧
      ∀ a ∈ sendNow now it.id items, a.id ≠ it.id → stamp a < stamp it' := by
  have hfind := find_eq hids hit rfl
  have hstamp := (le_foldl_max items now).2
  have hrun : sendNow now it.id items = items.map fun a =>
      if a.id = it.id then { a with sendNowAt := some (sendNowStamp now items) } else a := by
    rw [sendNow, hfind]
    exact if_neg fun h => h.elim (fun h => h hpending) fun h => by rw [hpaused] at h; cases h
  rw [hrun]
  refine ⟨_, List.mem_map_of_mem hit, ?_, ?_, fun a ha hne => ?_⟩
  · rw [if_pos rfl]
  · rw [if_pos rfl]
    exact decide_eq_true (Nat.ne_of_gt (Nat.lt_of_le_of_lt (Nat.zero_le _) (hstamp it hit)))
  · obtain ⟨b, hb, rfl⟩ := List.mem_map.1 ha
    rw [if_pos rfl]
    split at hne
    · rename_i heq
      exact absurd heq hne
    · rename_i hb'
      rw [if_neg hb']
      exact hstamp b hb

/-! ## A queue that is reordered -/

/-- What one move does: at most it puts one row at another place of its group. -/
theorem move_step {l : List QueueItem} (hids : (l.map QueueItem.id).Nodup) (m : Move) :
    m.apply l = l ∨ ∃ x ∈ l, x.id = m.id ∧ ∃ i j, j < (membersOf moveGroupOf (moveGroupOf x) l).length ∧
      Moved moveGroupOf (moveGroupOf x) i j l (m.apply l) := by
  by_cases hx : ∃ x ∈ l, x.id = m.id
  · obtain ⟨x, hx, hid⟩ := hx
    have hmem : x ∈ membersOf moveGroupOf (moveGroupOf x) l := List.mem_filter.2 ⟨hx, decide_eq_true rfl⟩
    obtain ⟨i, hi⟩ := List.getElem?_of_mem hmem
    have hlt := (List.getElem?_eq_some_iff.1 hi).1
    cases m with
    | up id =>
      cases hid
      exact .inr ⟨x, hx, rfl, i, i - 1, by omega, moveUp_moved hids hx hi⟩
    | down id =>
      cases hid
      exact .inr ⟨x, hx, rfl, i, _, by omega, moveDown_moved hids hx hi⟩
    | to' id targetId =>
      cases hid
      by_cases hy : ∃ y ∈ l, y.id = targetId
      · obtain ⟨y, hy, rfl⟩ := hy
        by_cases hg : moveGroupOf y = moveGroupOf x
        · have hmemy : y ∈ membersOf moveGroupOf (moveGroupOf x) l := List.mem_filter.2 ⟨hy, decide_eq_true hg⟩
          obtain ⟨j, hj⟩ := List.getElem?_of_mem hmemy
          exact .inr ⟨x, hx, rfl, i, j, (List.getElem?_eq_some_iff.1 hj).1, moveTo_moved hids hx hy hg hi hj⟩
        · exact .inl (moveTo_apart hids hx hy hg)
      · exact .inl ((moves_missing fun a ha h => hy ⟨a, ha, h⟩).2.2 x.id).2
  · have hmissing := @moves_missing _ _ _ _ _ QueueItem.id moveGroupOf l m.id fun a ha h => hx ⟨a, ha, h⟩
    cases m with
    | up id => exact .inl hmissing.1
    | down id => exact .inl hmissing.2.1
    | to' id targetId => exact .inl (hmissing.2.2 targetId).1

/-- The rows stay, and a row of a group in which nothing is moved stays where it is. -/
theorem moves_kept (moves : List Move) (hids : (items.map QueueItem.id).Nodup) :
    (applyMoves items moves).Perm items ∧
      ∀ (k : Nat) (it : QueueItem), items[k]? = some it →
        (∀ m ∈ moves, ∀ x ∈ items, x.id = m.id → moveGroupOf x ≠ moveGroupOf it) →
        (applyMoves items moves)[k]? = some it := by
  induction moves generalizing items with
  | nil => exact ⟨List.Perm.refl _, fun _ _ h _ => h⟩
  | cons m moves ih =>
    change (applyMoves (m.apply items) moves).Perm items ∧ _
    rcases move_step hids m with hsame | ⟨x, hx, hid, i, j, hj, hmoved⟩
    · obtain ⟨hperm, hkept⟩ := @ih (m.apply items) (hsame.symm ▸ hids)
      rw [hsame] at hperm hkept
      refine ⟨hsame.symm ▸ hperm, fun k it hk hall => ?_⟩
      change (applyMoves (m.apply items) moves)[k]? = some it
      rw [hsame]
      exact hkept k it hk fun n hn => hall n (List.mem_cons_of_mem _ hn)
    · have hperm := hmoved.perm hj
      obtain ⟨hperm', hkept⟩ := ih (nodup_of_perm hids hperm)
      refine ⟨hperm'.trans hperm, fun k it hk hall => ?_⟩
      refine hkept k it (hmoved.getElem? hk fun h => ?_) fun n hn y hy =>
        hall n (List.mem_cons_of_mem _ hn) y (hperm.mem_iff.1 hy)
      exact hall m List.mem_cons_self x hx hid h.symm

/-- **A queue that is reordered**: the rows stay, a move puts its row past one neighbour or to the place of
its target among the rows of its console and tier, and the others stay where they are.  The console is
drained in the run order, in which a click comes after the clicks before it. -/
theorem queue_reorders {items : List QueueItem} (hids : (items.map QueueItem.id).Nodup) (moves : List Move) :
    let l := applyMoves items moves
    (∀ a b : QueueItem, moveGroupOf a = moveGroupOf b ↔
      (a.status = .pending ∧ b.status = .pending ∧ hostOf a.addr = hostOf b.addr ∧
        installOrderPriority a = installOrderPriority b) ∨
      (a.status ≠ .pending ∧ b.status ≠ .pending ∧ a.id = b.id)) ∧
    l.Perm items ∧
    (∀ (k : Nat) (it : QueueItem), items[k]? = some it →
      (∀ m ∈ moves, ∀ x ∈ items, x.id = m.id → moveGroupOf x ≠ moveGroupOf it) → l[k]? = some it) ∧
    (∀ x ∈ l, ∀ i, (membersOf moveGroupOf (moveGroupOf x) l)[i]? = some x →
      Moved moveGroupOf (moveGroupOf x) i (i - 1) l ((Move.up x.id).apply l) ∧
      Moved moveGroupOf (moveGroupOf x) i (min (i + 1) ((membersOf moveGroupOf (moveGroupOf x) l).length - 1)) l
        ((Move.down x.id).apply l) ∧
      ((Move.up x.id).apply l ≠ l → (Move.down x.id).apply ((Move.up x.id).apply l) = l) ∧
      ∀ y ∈ l, ∀ j, (membersOf moveGroupOf (moveGroupOf x) l)[j]? = some y →
        Moved moveGroupOf (moveGroupOf x) i j l ((Move.to' x.id y.id).apply l)) ∧
    (∀ host turns, l.length ≤ turns → drain host turns l = runOrder host l) ∧
    ∀ now, ∀ it ∈ l, it.status = .pending → it.paused = none →
      ∃ it' ∈ sendNow now it.id l, it'.id = it.id ∧ sent it' = true ∧
        ∀ a ∈ sendNow now it.id l, a.id ≠ it.id → stamp a < stamp it' := by
  intro l
  obtain ⟨hperm, hkept⟩ := moves_kept moves hids
  have hl : (l.map QueueItem.id).Nodup := nodup_of_perm hids hperm
  refine ⟨moveGroupOf_eq_iff, hperm, hkept, fun x hx i hi => ?_, fun host turns hturns => ?_,
    fun now it hit hpending hpaused => sendNow_last hl hit hpending hpaused⟩
  · refine ⟨moveUp_moved hl hx hi, moveDown_moved hl hx hi, moveDown_moveUp hl hx, fun y hy j hj => ?_⟩
    have hg : moveGroupOf y = moveGroupOf x :=
      of_decide_eq_true (List.mem_filter.1 (List.mem_of_getElem? hj)).2
    exact moveTo_moved hl hx hy hg hi hj
  · exact drain_eq host hl ((length_runOrder_le host l).trans hturns)

/-- A base game behind its update runs first. -/
theorem queue_reorders_two :
    let update : QueueItem := {
      id := ['u'], sourceKind := .pkg, sourcePath := [], resolvedDest := "/d/updates/u".toList
      addr := ['h'], txIdHex := [], status := .pending }
    let base : QueueItem := {
      id := ['b'], sourceKind := .pkg, sourcePath := [], resolvedDest := "/d/b".toList
      addr := ['h'], txIdHex := [], status := .pending }
    drain ['h'] 2 [update, base] = [base, update] := by
  intro update base
  obtain ⟨-, -, -, -, hdrain, -⟩ := @queue_reorders [update, base] (by decide) []
  exact (hdrain ['h'] 2 (by decide)).trans rfl

end Ps5Upload.UploadQueue
