import Mathlib.Data.List.Basic
import Mathlib.Tactic.Common
import Ps5Upload.Lib.Runs

/-!
# One queue runner per browser profile

The model of `createQueueLeader` in `client/src/lib/queueLeader.ts`: any number of tabs that share a
lease in localStorage.  A tab's synchronous section is one step: the read and write of a claim, the
read-back after the settle, the handler of `pagehide`.  Any clock may stand on any tab.

* `told` is what the tab's owner (`ensureLeaderElection`) was told last, by `onChange` or by a claim it
  waited for; `claimed` and `stepped` number the steps of the run;
* `Inv` — the holder of the lease claimed last, and a tab that was told it leads has not run since
  another's claim;
* `leaders_agree_iff` — the owners stay right exactly as long as no tab that was hidden while it led
  comes back to a claim that fails.
-/

namespace Ps5Upload.QueueLeader

variable {Id : Type} [DecidableEq Id]

/-! ## Tabs and their lease -/

def LEASE_TTL_MS : Int := 6000

structure Lease (Id : Type) where
  id : Id
  ts : Int

structure Tab where
  leader : Bool := false
  /-- A claim has written and waits for its read-back. -/
  settling : Bool := false
  /-- The owner waits for the claim under way. -/
  asked : Bool := false
  /-- In the back/forward cache, or gone. -/
  hidden : Bool := false
  /-- What the owner was told last; nothing counts as `false`. -/
  told : Bool := false
  /-- When it last wrote a claim, a heartbeat apart; 0 for never. -/
  claimed : Nat := 0
  /-- When a claim of it last ran. -/
  stepped : Nat := 0

structure World (Id : Type) where
  /-- Whether the browser has a localStorage, and whether it can be written. -/
  present : Bool := true
  writable : Bool := true
  lease : Option (Lease Id)
  tabs : Id → Tab := fun _ => {}
  steps : Nat := 0
  /-- The tab that the last step completed a claim of. -/
  completed : Option Id := none

def start (lease : Option (Lease Id)) : World Id := { lease }

namespace World

variable (w : World Id) (t : Id)

def put (tab : Tab) : World Id := { w with tabs := fun u => if u = t then tab else w.tabs u }

/-- `set`: `onChange` fires on every transition. -/
def set (v : Bool) : World Id :=
  if (w.tabs t).leader = v then w else w.put t { w.tabs t with leader := v, told := v }

def write (now : Int) : Option (World Id) :=
  if w.writable then some { w with lease := some ⟨t, now⟩ } else none

/-- The claim is over: `claiming` is cleared, and an owner that waits is told the result. -/
def complete (v : Bool) : World Id :=
  { w.put t { w.tabs t with
      settling := false
      asked := false
      told := if (w.tabs t).asked then v else (w.tabs t).told } with
    completed := some t }

/-- The write of a claim that is not a heartbeat, and the settle it begins. -/
def writeClaim (now : Int) : World Id :=
  match w.write t now with
  | none => (w.set t true).complete t true
  | some w' => w'.put t { w'.tabs t with settling := true, claimed := w'.steps }

/-- `claimOnce` up to its first wait. -/
def claimOnce (now : Int) : World Id :=
  if w.present = false then (w.set t true).complete t true
  else
    match w.lease with
    | none => w.writeClaim t now
    | some cur =>
      if cur.id ≠ t ∧ now - cur.ts < LEASE_TTL_MS then (w.set t false).complete t false
      else if cur.id = t ∧ (w.tabs t).leader then
        match w.write t now with
        | none => (w.set t true).complete t true
        | some w' => w'.complete t true
      else w.writeClaim t now

/-- Whether the tab's own lease is there. -/
def holds : Bool := w.lease.any fun l => l.id = t

/-- The rest of `claimOnce`, once the claim has settled. -/
def afterSettle : World Id := (w.set t (w.holds t)).complete t (w.holds t)

/-- `relinquish` -/
def relinquish : World Id :=
  { w.put t { w.tabs t with leader := false } with lease := if w.holds t then none else w.lease }

/-- A step begins. -/
def tick : World Id := { w with steps := w.steps + 1, completed := none }

end World

/-- What a tab can do next. -/
inductive Action (Id : Type) where
  /-- A claim: a heartbeat, a storage event, or `asked` for by the owner. -/
  | claim (t : Id) (now : Int) (asked : Bool)
  /-- The settle of a claim is over. -/
  | readBack (t : Id)
  /-- `pagehide` -/
  | hide (t : Id)
  /-- A page comes back from the back/forward cache. -/
  | restore (t : Id)

/-- One step; a hidden page runs nothing. -/
def step (w : World Id) : Action Id → Option (World Id)
  | .claim t now asked =>
    if (w.tabs t).hidden then none
    else
      let tab := { w.tabs t with asked := (w.tabs t).asked || asked }
      -- one claim at a time: a second one joins the first
      if tab.settling then some (w.tick.put t tab)
      else some ((w.tick.put t { tab with stepped := w.tick.steps }).claimOnce t now)
  | .readBack t =>
    if (w.tabs t).hidden = false ∧ (w.tabs t).settling then
      some ((w.tick.put t { w.tabs t with stepped := w.tick.steps }).afterSettle t)
    else none
  | .hide t =>
    if (w.tabs t).hidden then none
    else some ((w.tick.put t { w.tabs t with hidden := true }).relinquish t)
  | .restore t =>
    if (w.tabs t).hidden then some (w.tick.put t { w.tabs t with hidden := false }) else none

/-! ## What is asked of the election -/

/-- After a completed claim the owner knows what `isLeader` says, and two owners that believe they run
the queue do so only until one of the two tabs runs: it has not run since the other's claim. -/
structure Agree (w : World Id) : Prop where
  told : ∀ t, w.completed = some t → (w.tabs t).told = (w.tabs t).leader
  one : ∀ t u, t ≠ u → (w.tabs t).told = true → (w.tabs u).told = true →
    (w.tabs t).stepped < (w.tabs u).claimed ∨ (w.tabs u).stepped < (w.tabs t).claimed

/-- The tab was hidden while it led, and has not come to the end of a claim since. -/
def World.Silenced (w : World Id) (t : Id) : Prop :=
  (w.tabs t).told = true ∧ (w.tabs t).leader = false

/-- A tab that was hidden while it led comes to a claim that finds another's lease, and its owner does
not wait for it. -/
def Loses (w : World Id) : Action Id → Prop
  | .claim t now asked => w.Silenced t ∧ (w.tabs t).hidden = false ∧ (w.tabs t).settling = false ∧
      ((w.tabs t).asked || asked) = false ∧
      ∃ cur, w.lease = some cur ∧ cur.id ≠ t ∧ now - cur.ts < LEASE_TTL_MS
  | .readBack t => w.Silenced t ∧ (w.tabs t).hidden = false ∧ (w.tabs t).settling = true ∧
      (w.tabs t).asked = false ∧ w.holds t = false
  | _ => False

/-! ## The invariant -/

/-- **The invariant.**  What a claim leaves behind is ordered: the lease is its holder's, who claimed
last, and a tab that was told it leads has not run since any later claim. -/
structure Inv (w : World Id) : Prop where
  usable : w.present = true ∧ w.writable = true
  told : ∀ t, (w.tabs t).leader = true → (w.tabs t).told = true
  stamps : ∀ t, (w.tabs t).claimed ≤ w.steps ∧ (w.tabs t).stepped ≤ w.steps
  claimed : ∀ t, (w.tabs t).told = true ∨ (w.tabs t).settling = true → 0 < (w.tabs t).claimed
  holder : ∀ l, w.lease = some l → ∀ u, u ≠ l.id →
    (w.tabs u).claimed = 0 ∨ (w.tabs u).claimed < (w.tabs l.id).claimed
  last : ∀ t u, u ≠ t → (w.tabs t).told = true → (w.tabs u).claimed = 0 ∨
    (w.tabs u).claimed < (w.tabs t).claimed ∨ (w.tabs t).stepped < (w.tabs u).claimed

omit [DecidableEq Id] in
theorem inv_start (lease : Option (Lease Id)) : Inv (start lease) where
  usable := ⟨rfl, rfl⟩
  told _ h := absurd h (by simp [start])
  stamps _ := ⟨Nat.le_refl _, Nat.le_refl _⟩
  claimed _ h := absurd h (by simp [start])
  holder _ _ _ _ := .inl rfl
  last _ _ _ h := absurd h (by simp [start])

/-- The world after a step of the tab `t`. -/
def World.after (w : World Id) (t : Id) (tab : Tab) (lease : Option (Lease Id)) (c : Option Id) :
    World Id :=
  { w with tabs := fun u => if u = t then tab else w.tabs u, lease, steps := w.steps + 1, completed := c }

/-- What a step makes of its tab and of the lease. -/
inductive Effect (w : World Id) (a : Action Id) (t : Id) : Tab → Option (Lease Id) → Option Id → Prop
  /-- Nothing that the election knows of. -/
  | idle {tab : Tab} (hleader : tab.leader = (w.tabs t).leader) (htold : tab.told = (w.tabs t).told)
      (hclaimed : tab.claimed = (w.tabs t).claimed) (hstepped : tab.stepped = (w.tabs t).stepped)
      (hsettling : tab.settling = (w.tabs t).settling) (hno : ¬ Loses w a) :
      Effect w a t tab w.lease none
  | hidden {tab : Tab} {lease : Option (Lease Id)} (hleader : tab.leader = false)
      (htold : tab.told = (w.tabs t).told) (hclaimed : tab.claimed = (w.tabs t).claimed)
      (hstepped : tab.stepped = (w.tabs t).stepped) (hsettling : tab.settling = (w.tabs t).settling)
      (hlease : lease = none ∨ lease = w.lease) (hno : ¬ Loses w a) : Effect w a t tab lease none
  /-- A claim is written and settles. -/
  | wrote {tab : Tab} {l : Lease Id} (hleader : tab.leader = (w.tabs t).leader)
      (htold : tab.told = (w.tabs t).told) (hclaimed : tab.claimed = w.steps + 1)
      (hstepped : tab.stepped = w.steps + 1) (hl : l.id = t) (hno : ¬ Loses w a) :
      Effect w a t tab (some l) none
  /-- A claim ends. -/
  | ended {tab : Tab} {lease : Option (Lease Id)} {v : Bool} (hleader : tab.leader = v)
      (hclaimed : tab.claimed = (w.tabs t).claimed) (hstepped : tab.stepped = w.steps + 1)
      (hsettling : tab.settling = false) (hv : v = true → w.holds t = true ∧ 0 < (w.tabs t).claimed)
      (hlease : lease = w.lease ∨ w.holds t = true ∧ ∃ l, lease = some l ∧ l.id = t)
      (htold : Loses w a ∧ v = false ∧ tab.told = true ∨ ¬ Loses w a ∧ tab.told = v) :
      Effect w a t tab lease (some t)

@[simp] theorem put_tabs (w : World Id) (t : Id) (tab : Tab) : (w.put t tab).tabs t = tab := if_pos rfl

theorem put_put (w : World Id) (t : Id) (tab tab' : Tab) : (w.put t tab).put t tab' = w.put t tab' := by
  simp only [World.put, World.mk.injEq, true_and, and_true]
  funext u
  by_cases hu : u = t
  · rw [if_pos hu, if_pos hu]
  · rw [if_neg hu, if_neg hu, if_neg hu]

/-- A claim that ends with `v`. -/
def Tab.ended (tab : Tab) (v : Bool) : Tab :=
  { tab with
    leader := v
    told := if tab.asked = true ∨ tab.leader ≠ v then v else tab.told
    settling := false
    asked := false }

theorem complete_set (w : World Id) (t : Id) (v : Bool) :
    (w.set t v).complete t v = { w.put t ((w.tabs t).ended v) with completed := some t } := by
  by_cases h : (w.tabs t).leader = v
  · have hend : (w.tabs t).ended v = { w.tabs t with
        settling := false
        asked := false
        told := if (w.tabs t).asked then v else (w.tabs t).told } := by
      simp [Tab.ended, h]
    rw [World.set, if_pos h, World.complete, hend]
  · have hend : (w.tabs t).ended v = { w.tabs t with
        leader := v
        settling := false
        asked := false
        told := v } := by
      simp [Tab.ended, h]
    rw [World.set, if_neg h, World.complete, put_tabs, put_put, hend]
    simp only [ite_self]

/-- What `claimOnce` does where the storage works. -/
theorem claimOnce_cases {w : World Id} (hu : w.present = true ∧ w.writable = true) (t : Id) (now : Int) :
    (∃ cur, w.lease = some cur ∧ cur.id ≠ t ∧ now - cur.ts < LEASE_TTL_MS ∧
      w.claimOnce t now = { w.put t ((w.tabs t).ended false) with completed := some t }) ∨
    (¬ (∃ cur, w.lease = some cur ∧ cur.id ≠ t ∧ now - cur.ts < LEASE_TTL_MS) ∧
      w.holds t = true ∧ (w.tabs t).leader = true ∧
      w.claimOnce t now = { { w with lease := some ⟨t, now⟩ }.put t ((w.tabs t).ended true) with
        completed := some t }) ∨
    (¬ (∃ cur, w.lease = some cur ∧ cur.id ≠ t ∧ now - cur.ts < LEASE_TTL_MS) ∧
      w.claimOnce t now = { w with lease := some ⟨t, now⟩ }.put t
        { w.tabs t with settling := true, claimed := w.steps }) := by
  have hwrite : w.write t now = some { w with lease := some ⟨t, now⟩ } := by rw [World.write, if_pos hu.2]
  have hclaim : w.writeClaim t now = { w with lease := some ⟨t, now⟩ }.put t
      { w.tabs t with settling := true, claimed := w.steps } := by
    rw [World.writeClaim, hwrite]
  rw [World.claimOnce, if_neg (by simp [hu.1])]
  cases hl : w.lease with
  | none => exact .inr (.inr ⟨by simp, hclaim⟩)
  | some cur =>
    dsimp only
    split
    · rename_i hc
      exact .inl ⟨cur, rfl, hc.1, hc.2, complete_set w t false⟩
    · rename_i hc
      have hno : ¬ ∃ cur', some cur = some cur' ∧ cur'.id ≠ t ∧ now - cur'.ts < LEASE_TTL_MS := by
        rintro ⟨cur', hcur, hc'⟩
        rw [← Option.some.inj hcur] at hc'
        exact hc hc'
      split
      · rename_i hown
        refine .inr (.inl ⟨hno, ?_, hown.2, ?_⟩)
        · rw [World.holds, hl]
          simp [hown.1]
        · have hset : World.set { w with lease := some ⟨t, now⟩ } t true =
              { w with lease := some ⟨t, now⟩ } := if_pos hown.2
          rw [hwrite, ← complete_set, hset]
      · exact .inr (.inr ⟨hno, hclaim⟩)

theorem put_after (w : World Id) (t : Id) (tab tab' : Tab) (l : Option (Lease Id)) (c : Option Id) :
    { ({ w.tick.put t tab with lease := l } : World Id).put t tab' with completed := c } =
      w.after t tab' l c := by
  have h := put_put ({ w.tick with lease := l } : World Id) t tab tab'
  exact congrArg (fun w' : World Id => { w' with completed := c }) h

variable {a : Action Id} {tab : Tab} {w' : World Id}

/-- A claim that ends with `v` tells the owner so, unless nobody hears it. -/
theorem ended_told {w : World Id} {t : Id} {v : Bool} (h : Inv w)
    (hleader : tab.leader = (w.tabs t).leader) (htold : tab.told = (w.tabs t).told)
    (hloses : Loses w a ↔ w.Silenced t ∧ tab.asked = false ∧ v = false) :
    Loses w a ∧ v = false ∧ (tab.ended v).told = true ∨ ¬ Loses w a ∧ (tab.ended v).told = v := by
  have hkept := h.told t
  rw [hloses, World.Silenced, ← hleader, ← htold]
  rw [← hleader, ← htold] at hkept
  cases hl : tab.leader <;> cases ht : tab.told <;> cases ha : tab.asked <;> cases v <;>
    simp_all [Tab.ended]

theorem step_cases {w : World Id} (h : Inv w) (hs : step w a = some w') :
    ∃ t tab lease c, w' = w.after t tab lease c ∧ Effect w a t tab lease c := by
  cases a with
  | claim t now asked =>
    rw [step] at hs
    split at hs
    · simp at hs
    · rename_i hhidden
      dsimp only at hs
      split at hs
      · rename_i hset
        obtain rfl := Option.some.inj hs
        refine ⟨t, _, _, _, rfl, .idle rfl rfl rfl rfl rfl ?_⟩
        rintro ⟨-, -, hno, -⟩
        exact absurd (hset.symm.trans hno) (by simp)
      · rename_i hset
        obtain rfl := Option.some.inj hs
        have hloses : Loses w (.claim t now asked) ↔ w.Silenced t ∧ ((w.tabs t).asked || asked) = false ∧
            ∃ cur, w.lease = some cur ∧ cur.id ≠ t ∧ now - cur.ts < LEASE_TTL_MS := by
          rw [Bool.not_eq_true] at hhidden hset
          exact ⟨fun hc => ⟨hc.1, hc.2.2.2⟩, fun hc => ⟨hc.1, hhidden, hset, hc.2⟩⟩
        generalize htab : ({ w.tabs t with
          asked := (w.tabs t).asked || asked, stepped := w.tick.steps } : Tab) = tab
        have hleader : tab.leader = (w.tabs t).leader := by rw [← htab]
        have htold : tab.told = (w.tabs t).told := by rw [← htab]
        have hclaimed : tab.claimed = (w.tabs t).claimed := by rw [← htab]
        have hstepped : tab.stepped = w.steps + 1 := by rw [← htab]; rfl
        have hasked : tab.asked = ((w.tabs t).asked || asked) := by rw [← htab]
        have husable : (w.tick.put t tab).present = true ∧ (w.tick.put t tab).writable = true := h.usable
        rcases claimOnce_cases husable t now with ⟨cur, hcur, hend⟩ | ⟨hno, hholds, hlead, hend⟩ |
          ⟨hno, hend⟩
        · rw [put_tabs, put_put] at hend
          refine ⟨t, tab.ended false, w.lease, some t, hend.2.2, ?_⟩
          refine .ended rfl hclaimed hstepped rfl (fun hv => absurd hv Bool.false_ne_true) (.inl rfl)
            (ended_told h hleader htold ?_)
          rw [hloses, hasked]
          exact ⟨fun hc => ⟨hc.1, hc.2.1, rfl⟩, fun hc => ⟨hc.1, hc.2.1, cur, hcur, hend.1, hend.2.1⟩⟩
        · rw [put_tabs] at hend hlead
          refine ⟨t, tab.ended true, some ⟨t, now⟩, some t,
            hend.trans (put_after w t tab (tab.ended true) (some ⟨t, now⟩) (some t)), ?_⟩
          have hpos := h.claimed t (.inl (h.told t (hleader.symm.trans hlead)))
          refine .ended rfl hclaimed hstepped rfl (fun _ => ⟨hholds, hpos⟩)
            (.inr ⟨hholds, _, rfl, rfl⟩) (ended_told h hleader htold ?_)
          rw [hloses]
          exact ⟨fun hc => absurd hc.2.2 hno, fun hc => absurd hc.2.2 Bool.true_eq_false.mp⟩
        · rw [put_tabs] at hend
          refine ⟨t, _, some ⟨t, now⟩, none,
            hend.trans (put_after w t tab _ (some ⟨t, now⟩) none), ?_⟩
          refine .wrote hleader htold rfl hstepped rfl ?_
          rw [hloses]
          exact fun hc => hno hc.2.2
  | readBack t =>
    rw [step] at hs
    split at hs
    · rename_i hset
      obtain rfl := Option.some.inj hs
      rw [World.afterSettle, complete_set, put_tabs, put_put]
      refine ⟨t, _, w.lease, some t, rfl, ?_⟩
      have hholds : (w.tick.put t { w.tabs t with stepped := w.tick.steps }).holds t = w.holds t := rfl
      rw [hholds]
      refine .ended rfl rfl rfl rfl (fun hv => ⟨hv, h.claimed t (.inr hset.2)⟩) (.inl rfl)
        (ended_told h rfl rfl ?_)
      exact ⟨fun hc => ⟨hc.1, hc.2.2.2⟩, fun hc => ⟨hc.1, hset.1, hset.2, hc.2⟩⟩
    · simp at hs
  | hide t =>
    rw [step] at hs
    split at hs
    · simp at hs
    · obtain rfl := Option.some.inj hs
      rw [World.relinquish, put_tabs, put_put]
      refine ⟨t, _, _, none, rfl, .hidden rfl rfl rfl rfl rfl ?_ id⟩
      split
      · exact .inl rfl
      · exact .inr rfl
  | restore t =>
    rw [step] at hs
    split at hs
    · obtain rfl := Option.some.inj hs
      exact ⟨t, _, _, _, rfl, .idle rfl rfl rfl rfl rfl id⟩
    · simp at hs

/-! ## Runs -/

@[simp] theorem after_tabs_self (w : World Id) (t : Id) (tab : Tab) (l : Option (Lease Id)) (c : Option Id) :
    (w.after t tab l c).tabs t = tab := if_pos rfl

theorem after_tabs_of_ne (w : World Id) {t u : Id} (tab : Tab) (l : Option (Lease Id)) (c : Option Id)
    (h : u ≠ t) : (w.after t tab l c).tabs u = w.tabs u := if_neg h

/-- What a step leaves in the tab it is about, for the invariant. -/
structure Fits (w : World Id) (t : Id) (tab : Tab) (lease : Option (Lease Id)) : Prop where
  told : tab.leader = true → tab.told = true
  stamps : tab.claimed ≤ w.steps + 1 ∧ tab.stepped ≤ w.steps + 1
  claimed : tab.told = true ∨ tab.settling = true → 0 < tab.claimed
  fresh : tab.claimed = (w.tabs t).claimed ∨
    tab.claimed = w.steps + 1 ∧ ∃ l, lease = some l ∧ l.id = t
  holder : ∀ l, lease = some l → lease = w.lease ∨ l.id = t ∧ ∀ u, u ≠ t →
    (w.tabs u).claimed = 0 ∨ (w.tabs u).claimed < tab.claimed
  last : ∀ u, u ≠ t → tab.told = true → (w.tabs u).claimed = 0 ∨
    (w.tabs u).claimed < tab.claimed ∨ tab.stepped < (w.tabs u).claimed

theorem Inv.after {w : World Id} (h : Inv w) {t : Id} {lease : Option (Lease Id)}
    {c : Option Id} (hf : Fits w t tab lease) : Inv (w.after t tab lease c) := by
  have hsteps : (w.after t tab lease c).steps = w.steps + 1 := rfl
  have hge : (w.tabs t).claimed ≤ tab.claimed := by
    have := (h.stamps t).1
    rcases hf.fresh with hsame | ⟨hnew, -⟩ <;> omega
  refine ⟨h.usable, ?_, ?_, ?_, ?_, ?_⟩
  · intro u
    by_cases hu : u = t
    · rw [hu, after_tabs_self]
      exact hf.told
    · rw [after_tabs_of_ne _ _ _ _ hu]
      exact h.told u
  · intro u
    by_cases hu : u = t
    · rw [hu, after_tabs_self]
      exact hf.stamps
    · rw [after_tabs_of_ne _ _ _ _ hu]
      have := h.stamps u
      exact ⟨by omega, by omega⟩
  · intro u
    by_cases hu : u = t
    · rw [hu, after_tabs_self]
      exact hf.claimed
    · rw [after_tabs_of_ne _ _ _ _ hu]
      exact h.claimed u
  · intro l hl u hu
    change lease = some l at hl
    rcases hf.holder l hl with hsame | ⟨rfl, hlast⟩
    · have hold := h.holder l (hsame ▸ hl)
      by_cases hut : u = t
      · -- a new claim would have taken the lease
        rw [hut] at hu ⊢
        rw [after_tabs_self, after_tabs_of_ne _ _ _ _ (Ne.symm hu)]
        rcases hf.fresh with hc | ⟨-, l', hl', hid⟩
        · rw [hc]
          exact hold t hu
        · rw [hl, Option.some.injEq] at hl'
          exact absurd (hl' ▸ hid).symm hu
      · rw [after_tabs_of_ne _ _ _ _ hut]
        by_cases hlt : l.id = t
        · rw [hlt, after_tabs_self]
          have := hold u hu
          rw [hlt] at this
          omega
        · rw [after_tabs_of_ne _ _ _ _ hlt]
          exact hold u hu
    · rw [after_tabs_self, after_tabs_of_ne _ _ _ _ hu]
      exact hlast u hu
  · intro u v hv
    by_cases hu : u = t
    · rw [hu] at hv ⊢
      rw [after_tabs_self, after_tabs_of_ne _ _ _ _ hv]
      exact hf.last v hv
    · rw [after_tabs_of_ne _ _ _ _ hu]
      intro htold
      by_cases hvt : v = t
      · rw [hvt, after_tabs_self]
        rcases hf.fresh with hc | ⟨hc, -⟩
        · rw [hc]
          exact h.last u t (Ne.symm hu) htold
        · have := (h.stamps u).2
          omega
      · rw [after_tabs_of_ne _ _ _ _ hvt]
        exact h.last u v hv htold

theorem Inv.of_holds {w : World Id} (h : Inv w) {t u : Id} (hh : w.holds t = true) (hu : u ≠ t) :
    (w.tabs u).claimed = 0 ∨ (w.tabs u).claimed < (w.tabs t).claimed := by
  rw [World.holds, Option.any_eq_true] at hh
  obtain ⟨l, hl, hid⟩ := hh
  rw [decide_eq_true_eq] at hid
  have := h.holder l hl u (hid ▸ hu)
  rwa [hid] at this

theorem Effect.fits {w : World Id} {t : Id} {lease : Option (Lease Id)}
    {c : Option Id} (h : Inv w) (hok : ¬ Loses w a) (he : Effect w a t tab lease c) :
    Fits w t tab lease := by
  have hstamps := h.stamps t
  cases he with
  | idle hleader htold hclaimed hstepped hsettling =>
    refine ⟨?_, by omega, ?_, .inl hclaimed, fun _ _ => .inl rfl, fun u hu => ?_⟩
    · rw [hleader, htold]
      exact h.told t
    · rw [htold, hsettling, hclaimed]
      exact h.claimed t
    · rw [htold, hclaimed, hstepped]
      exact h.last t u hu
  | hidden hleader htold hclaimed hstepped hsettling hlease =>
    refine ⟨fun hl => ?_, by omega, ?_, .inl hclaimed, fun l hl => .inl ?_, fun u hu => ?_⟩
    · rw [hleader] at hl
      exact absurd hl Bool.false_ne_true
    · rw [htold, hsettling, hclaimed]
      exact h.claimed t
    · exact hlease.resolve_left (by rw [hl]; simp)
    · rw [htold, hclaimed, hstepped]
      exact h.last t u hu
  | wrote hleader htold hclaimed hstepped hl hno =>
    rename_i l
    refine ⟨?_, by omega, fun _ => by omega, .inr ⟨hclaimed, l, rfl, hl⟩, fun l' hl' => .inr ⟨?_, ?_⟩,
      fun u _ _ => ?_⟩
    · rw [hleader, htold]
      exact h.told t
    · exact Option.some.inj hl' ▸ hl
    · intro u _
      have := (h.stamps u).1
      omega
    · have := (h.stamps u).1
      omega
  | ended hleader hclaimed hstepped hsettling hv hlease htold =>
    rename_i v
    have htold := (htold.resolve_left fun hc => hok hc.1).2
    refine ⟨fun hl => ?_, by omega, ?_, .inl hclaimed, fun l hl => ?_, fun u hu ht => ?_⟩
    · rw [htold, ← hleader, hl]
    · rintro (ht | hs)
      · rw [hclaimed]
        exact (hv (htold.symm.trans ht)).2
      · rw [hsettling] at hs
        exact absurd hs Bool.false_ne_true
    · rcases hlease with hsame | ⟨hholds, l', hl', hid⟩
      · exact .inl hsame
      · rw [hl, Option.some.injEq] at hl'
        refine .inr ⟨hl' ▸ hid, fun u hu => ?_⟩
        rw [hclaimed]
        exact h.of_holds hholds hu
    · rw [hclaimed]
      have := h.of_holds (hv (htold.symm.trans ht)).1 hu
      omega

/-- **One step** keeps the invariant, unless a tab that was hidden while it led loses its claim. -/
theorem inv_step {w : World Id} (h : Inv w) (hok : ¬ Loses w a)
    (hs : step w a = some w') : Inv w' := by
  obtain ⟨t, tab, lease, c, rfl, he⟩ := step_cases h hs
  exact h.after (he.fits h hok)

/-- Such a claim leaves the owner with what it believed. -/
theorem not_agree_of_loses {w : World Id} (h : Inv w) (hbad : Loses w a)
    (hs : step w a = some w') : ¬ Agree w' := by
  obtain ⟨t, tab, lease, c, rfl, he⟩ := step_cases h hs
  intro hagree
  cases he with
  | idle _ _ _ _ _ hno => exact hno hbad
  | hidden _ _ _ _ _ _ hno => exact hno hbad
  | wrote _ _ _ _ _ hno => exact hno hbad
  | ended hleader _ _ _ _ _ htold =>
    have heq := hagree.told t rfl
    rw [after_tabs_self, hleader] at heq
    rcases htold with ⟨-, hv, htold⟩ | ⟨hno, -⟩
    · rw [hv, htold] at heq
      simp at heq
    · exact hno hbad

/-- Every other step leaves the owners right. -/
theorem agree_step {w : World Id} (h : Inv w) (hok : ¬ Loses w a)
    (hs : step w a = some w') : Agree w' := by
  have hinv := inv_step h hok hs
  obtain ⟨t, tab, lease, c, rfl, he⟩ := step_cases h hs
  refine ⟨fun u hu => ?_, fun u v huv hu hv => ?_⟩
  · change c = some u at hu
    cases he with
    | ended hleader _ _ _ _ _ htold =>
      obtain rfl := Option.some.inj hu
      rw [after_tabs_self, hleader]
      exact (htold.resolve_left fun hc => hok hc.1).2
    | _ => simp at hu
  · have h1 := hinv.last u v (Ne.symm huv) hu
    have h2 := hinv.last v u huv hv
    have h3 := hinv.claimed u (.inl hu)
    have h4 := hinv.claimed v (.inl hv)
    omega

/-- A step in which a claim is lost can be taken. -/
theorem step_of_loses {w : World Id} (hbad : Loses w a) : ∃ w', step w a = some w' := by
  cases a with
  | claim t now asked =>
    obtain ⟨-, hhidden, hset, -⟩ := hbad
    rw [step, hhidden, if_neg (by simp)]
    dsimp only
    rw [if_neg (by simp [hset])]
    exact ⟨_, rfl⟩
  | readBack t =>
    obtain ⟨-, hhidden, hset, -⟩ := hbad
    rw [step, if_pos ⟨hhidden, hset⟩]
    exact ⟨_, rfl⟩
  | hide t => exact absurd hbad id
  | restore t => exact absurd hbad id

theorem states_agree_iff {w : World Id} (h : Inv w) (ha : Agree w) (as : List (Action Id)) :
    (∀ w' ∈ Runs.States step w as, Agree w') ↔ Runs.Meets step (fun w a => ¬ Loses w a) w as := by
  induction as generalizing w with
  | nil =>
    refine ⟨fun _ => trivial, fun _ w' hw' => ?_⟩
    rw [List.mem_singleton.1 hw']
    exact ha
  | cons a as ih =>
    constructor
    · intro hall
      have hok : ¬ Loses w a := by
        intro hbad
        obtain ⟨w', hs⟩ := step_of_loses hbad
        refine not_agree_of_loses h hbad hs (hall w' ?_)
        rw [Runs.States, hs]
        cases as <;> simp [Runs.States]
      refine Runs.meets_cons hok fun w' hs => ?_
      refine (ih (inv_step h hok hs) (agree_step h hok hs)).1 fun w'' hw'' => hall w'' ?_
      rw [Runs.States, hs]
      exact List.mem_cons_of_mem _ hw''
    · intro hm w' hw'
      rw [Runs.States, List.mem_cons] at hw'
      rcases hw' with rfl | hw'
      · exact ha
      · cases hs : step w a with
        | none => rw [hs] at hw'; cases hw'
        | some v =>
          rw [hs] at hw'
          exact (ih (inv_step h hm.head hs) (agree_step h hm.head hs)).2 (hm.tail hs) w' hw'

/-- **One tab runs the queue**, in every state of a run of any number of tabs, if and only if no step of
it is a lost claim of a tab that was hidden while it led and whose owner does not wait for the claim. -/
theorem leaders_agree_iff (lease : Option (Lease Id)) (as : List (Action Id)) :
    (∀ w ∈ Runs.States step (start lease) as, Agree w) ↔
      Runs.Meets step (fun w a => ¬ Loses w a) (start lease) as :=
  states_agree_iff (inv_start lease)
    ⟨fun _ h => absurd h (by simp [start]), fun _ _ _ h => absurd h (by simp [start])⟩ as

/-- A tab that leads is hidden, another one takes over, and the first one comes back. -/
def restored : List (Action Nat) :=
  [.claim 0 0 true, .readBack 0, .hide 0, .claim 1 2000 true, .readBack 1, .restore 0,
    .claim 0 4000 false]

/-- Both owners believe that they run the queue, and both tabs have run since the other's claim. -/
theorem restored_both_lead :
    ¬ ∀ w ∈ Runs.States step (start (none : Option (Lease Nat))) restored, Agree w := by
  intro hall
  have hrun : ∃ w, Runs.exec step (start (none : Option (Lease Nat))) restored = some w ∧
      (w.tabs 0).told = true ∧ (w.tabs 1).told = true ∧
      ¬ ((w.tabs 0).stepped < (w.tabs 1).claimed ∨ (w.tabs 1).stepped < (w.tabs 0).claimed) :=
    ⟨_, rfl, rfl, rfl, by decide⟩
  obtain ⟨w, hw, h0, h1, hno⟩ := hrun
  exact hno ((hall w (Runs.mem_states_of_exec hw)).one 0 1 (by decide) h0 h1)

end Ps5Upload.QueueLeader
