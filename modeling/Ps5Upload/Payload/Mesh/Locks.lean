import Ps5Upload.Lib.Runs
import Ps5Upload.Payload.Mesh.Fields

/-!
# The console's lock table

The model of `do_lock` and of the part of `do_state` that touches the locks, in
`payload/src/mesh.c`.  A lock belongs to a device and a window of it (`owner`); it is free when
its time has run out or its device is not online.  Every call first expires locks, at the time
the clock shows when it looks at each of them.

The request's owner string goes through a buffer of 40 bytes.  One that is too long for it (or has
a NUL) is not refused but read as no owner at all, so two windows with long names are one holder:
`longOwners_share` is a run in which the second takes the first one's lock without force.
`locks_exclude` is what holds in the runs whose owner strings fit (`OwnerFits`).
-/

namespace Ps5Upload.Mesh

open ByteFile WebuiCodec

def lockNameMax : Nat := 160
def labelMax : Nat := 120
def ownerMax : Nat := 40
def lockTtlDefaultS : Nat := 60
def lockTtlMaxS : Nat := 600
def meshLocksMax : Nat := 64

/-- A used entry of the table. -/
structure Lock where
  name : Bytes
  label : Bytes
  by_ : Key
  owner : Bytes
  untilMono : Nat
  /-- Not in the source: the owner string of the request that took the lock. -/
  said : Bytes
  deriving DecidableEq, Repr

abbrev LockTable := List (Option Lock)

def LockTable.empty : LockTable := List.replicate meshLocksMax none

/-- A call: who makes it, its body, the devices online, the monotonic clock at each time the call
reads it and the wall clock. -/
structure Call where
  caller : Key
  body : Bytes
  online : List Key
  mono : Nat → Nat
  now : Nat

def holds (l : Lock) (caller : Key) (owner : Bytes) : Bool := l.by_ = caller && l.owner = owner

/-- The lock has not run out at time `m`, and its holder is online. -/
def lockLive (l : Lock) (m : Nat) (online : List Key) : Bool := m < l.untilMono && l.by_ ∈ online

/-- The loop over the table: what is left of it, the held entry of this name and the first free
one. -/
def scan (c : Call) (name : Bytes) :
    Nat → Option Nat → Option Nat → LockTable → LockTable × Option Nat × Option Nat
  | _, held, slot, [] => ([], held, slot)
  | i, held, slot, o :: os =>
    let o' := o.filter fun l => lockLive l (c.mono i) c.online
    let r :=
      match o' with
      | some l => scan c name (i + 1) (if l.name = name then some i else held) slot os
      | none => scan c name (i + 1) held (if slot = none then some i else slot) os
    (o' :: r.1, r.2)

/-- The loop of `do_state`. -/
def expire (c : Call) (table : LockTable) : LockTable :=
  table.mapIdx fun i o => o.filter fun l => lockLive l (c.mono i) c.online

inductive Reply where
  | badRequest
  | badOp
  | locksFull
  | released
  | refused (sameDevice : Bool) (by_ : Key) (label : Bytes) (until_ : Nat)
  | got (until_ : Nat)
  deriving DecidableEq, Repr

def lockUntilWall (c : Call) (untilMono : Nat) : Nat :=
  if c.mono (meshLocksMax + 1) < untilMono then c.now + (untilMono - c.mono (meshLocksMax + 1))
  else c.now

/-- The owner as the code reads it. -/
def readOwner (body : Bytes) : Bytes := (jsonStr body "owner" ownerMax).value?.getD []

/-- The owner string of a request; no owner is the empty one. -/
def saidOwner (body : Bytes) : Bytes := (strValue body "owner").getD []

def readTtl (body : Bytes) : Nat :=
  let ttl := (jsonU64 body "ttl").value?.getD lockTtlDefaultS
  min (if ttl = 0 then lockTtlDefaultS else ttl) lockTtlMaxS

def readForce (body : Bytes) : Bool := (jsonBool body "force").value?.getD false

def readLabel (body : Bytes) : Bytes :=
  match (jsonStr body "label" labelMax).value? with
  | some l => cleanField labelMax l
  | none => []

/-- The entry a take writes. -/
def newLock (c : Call) (name : Bytes) : Lock where
  name := name
  label := readLabel c.body
  by_ := c.caller
  owner := readOwner c.body
  untilMono := c.mono meshLocksMax + readTtl c.body * 1000
  said := saidOwner c.body

/-- The entry at an index the loop found. -/
def entryAt (table : LockTable) (held : Option Nat) : Option Lock :=
  held.bind fun i => (table[i]?).join

def doRelease (c : Call) (table : LockTable) (held : Option Nat) : LockTable × Reply :=
  match held with
  | none => (table, .released)
  | some i =>
    if readForce c.body || (entryAt table held).any fun l => holds l c.caller (readOwner c.body) then
      (table.set i none, .released)
    else (table, .released)

def doTake (c : Call) (name : Bytes) (table : LockTable) (held slot : Option Nat) :
    LockTable × Reply :=
  match entryAt table held with
  | some h =>
    if holds h c.caller (readOwner c.body) || readForce c.body then
      (table.set (held.getD 0) (some (newLock c name)),
        .got (lockUntilWall c (newLock c name).untilMono))
    else (table, .refused (h.by_ = c.caller) h.by_ h.label (lockUntilWall c h.untilMono))
  | none =>
    match slot with
    | some i =>
      (table.set i (some (newLock c name)), .got (lockUntilWall c (newLock c name).untilMono))
    | none => (table, .locksFull)

def doLock (c : Call) (table : LockTable) : LockTable × Reply :=
  match (jsonStr c.body "op" 16).value?, (jsonStr c.body "name" lockNameMax).value? with
  | some op, some name =>
    if name = [] then (table, .badRequest)
    else
      let r := scan c name 0 none none table
      if op = ascii "release" then doRelease c r.1 r.2.1
      else if op = ascii "take" then doTake c name r.1 r.2.1 r.2.2
      else (r.1, .badOp)
  | _, _ => (table, .badRequest)

/-! ## What the loop finds -/

theorem scan_fst (c : Call) (name : Bytes) (i : Nat) (held slot : Option Nat) (table : LockTable) :
    (scan c name i held slot table).1
      = table.mapIdx fun j o => o.filter fun l => lockLive l (c.mono (i + j)) c.online := by
  induction table generalizing i held slot with
  | nil => rfl
  | cons o os ih =>
    rw [scan, List.mapIdx_cons]
    have hshift : ∀ j, i + 1 + j = i + (j + 1) := by omega
    split <;> simp only [ih, hshift, Nat.add_zero]

variable {c : Call} {name : Bytes} {i k : Nat} {held slot : Option Nat} {table : LockTable}
  {l : Lock}

/-- The held entry the loop reports is one of this name. -/
theorem scan_held_some (h : (scan c name i held slot table).2.1 = some k) :
    held = some k ∨ ∃ (j : Nat) (l : Lock), k = i + j ∧
      (scan c name i held slot table).1[j]? = some (some l) ∧ l.name = name := by
  induction table generalizing i held slot with
  | nil => exact .inl h
  | cons o os ih =>
    simp only [scan] at h ⊢
    split at h
    · rename_i l hl
      rw [hl]
      rcases ih h with hh | ⟨j, l', rfl, hj, hn⟩
      · split at hh
        · rename_i hname
          obtain rfl := Option.some.inj hh
          exact .inr ⟨0, l, rfl, by simp, hname⟩
        · exact .inl hh
      · exact .inr ⟨j + 1, l', by omega, by simpa using hj, hn⟩
    · rename_i hl
      rw [hl]
      rcases ih h with hh | ⟨j, l', rfl, hj, hn⟩
      · exact .inl hh
      · exact .inr ⟨j + 1, l', by omega, by simpa using hj, hn⟩

/-- Where the loop reports none, none has the name. -/
theorem scan_held_none (h : (scan c name i held slot table).2.1 = none) :
    held = none ∧ ∀ (j : Nat) (l : Lock), (scan c name i held slot table).1[j]? = some (some l) →
      l.name ≠ name := by
  induction table generalizing i held slot with
  | nil => exact ⟨h, by simp [scan]⟩
  | cons o os ih =>
    simp only [scan] at h ⊢
    split at h
    · rename_i l hl
      rw [hl]
      obtain ⟨hh, hrest⟩ := ih h
      split at hh
      · simp at hh
      · rename_i hname
        refine ⟨hh, ?_⟩
        intro j l' hj
        cases j with
        | zero =>
          obtain rfl : l = l' := by simpa using hj
          exact hname
        | succ j =>
          rw [if_neg hname] at hj hrest
          exact hrest j l' (by simpa using hj)
    · rename_i hl
      rw [hl]
      obtain ⟨hh, hrest⟩ := ih h
      refine ⟨hh, ?_⟩
      intro j l' hj
      cases j with
      | zero => simp at hj
      | succ j => exact hrest j l' (by simpa using hj)

/-- The free entry the loop reports is free. -/
theorem scan_slot (h : (scan c name i held slot table).2.2 = some k) :
    slot = some k ∨ ∃ j, k = i + j ∧ (scan c name i held slot table).1[j]? = some none := by
  induction table generalizing i held slot with
  | nil => exact .inl h
  | cons o os ih =>
    simp only [scan] at h ⊢
    split at h
    · rename_i l hl
      rw [hl]
      rcases ih h with hh | ⟨j, rfl, hj⟩
      · exact .inl hh
      · exact .inr ⟨j + 1, by omega, by simpa using hj⟩
    · rename_i hl
      rw [hl]
      rcases ih h with hh | ⟨j, rfl, hj⟩
      · split at hh
        · obtain rfl := Option.some.inj hh
          exact .inr ⟨0, rfl, by simp⟩
        · exact .inl hh
      · exact .inr ⟨j + 1, by omega, by simpa using hj⟩

theorem scan_eq_expire (c : Call) (name : Bytes) (table : LockTable) :
    (scan c name 0 none none table).1 = expire c table := by
  rw [scan_fst]
  simp only [Nat.zero_add]
  rfl

/-- **What expiry does**: it frees the locks that have run out or whose holder is gone, and no
others. -/
theorem expire_getElem? (c : Call) (table : LockTable) (i : Nat) :
    (expire c table)[i]?
      = (table[i]?).map fun o => o.filter fun l => lockLive l (c.mono i) c.online := by
  rw [expire, List.getElem?_mapIdx]

theorem expire_some (h : (expire c table)[i]? = some (some l)) : table[i]? = some (some l) := by
  rw [expire_getElem?, Option.map_eq_some_iff] at h
  obtain ⟨o, ho, hf⟩ := h
  rw [Option.filter_eq_some_iff] at hf
  rw [ho, hf.1]

/-! ## The calls -/

/-- **What a call of `do_lock` can do.**  It is refused before it looks at the table; or it
expires locks and then does nothing, frees the entry of the request's name, or writes that entry
(or, where there is none, a free one) anew. -/
theorem doLock_cases (c : Call) (table : LockTable) :
    (doLock c table = (table, .badRequest)) ∨
    ∃ name, (jsonStr c.body "name" lockNameMax).value? = some name ∧
      (((doLock c table).1 = expire c table ∧ ∀ u, (doLock c table).2 ≠ .got u) ∨
       (∃ (i : Nat) (l : Lock), (expire c table)[i]? = some (some l) ∧ l.name = name ∧
          (readForce c.body = true ∨ holds l c.caller (readOwner c.body) = true) ∧
          doLock c table = ((expire c table).set i none, .released)) ∨
       (∃ (i u : Nat), ((∃ l : Lock, (expire c table)[i]? = some (some l) ∧ l.name = name ∧
            (readForce c.body = true ∨ holds l c.caller (readOwner c.body) = true)) ∨
          ((expire c table)[i]? = some none ∧
            ∀ (j : Nat) (l : Lock), (expire c table)[j]? = some (some l) → l.name ≠ name)) ∧
          doLock c table = ((expire c table).set i (some (newLock c name)), .got u))) := by
  unfold doLock
  split
  · rename_i op name hop hname
    by_cases hempty : name = []
    · exact .inl (by simp [hempty])
    · refine .inr ⟨name, hname, ?_⟩
      simp only [if_neg hempty]
      have htab := scan_eq_expire c name table
      cases hheld : (scan c name 0 none none table).2.1 with
      | none =>
        obtain ⟨-, hfree⟩ := scan_held_none hheld
        rw [htab] at hfree
        split
        · exact .inl ⟨by simp [doRelease, htab], by simp [doRelease]⟩
        · split
          · simp only [doTake, entryAt, Option.bind_none, htab]
            cases hslot : (scan c name 0 none none table).2.2 with
            | none => exact .inl ⟨rfl, by simp⟩
            | some k =>
              rcases scan_slot hslot with hk | ⟨j, hkj, hj⟩
              · simp at hk
              · rw [htab] at hj
                obtain rfl : k = j := by omega
                exact .inr (.inr ⟨k, _, .inr ⟨hj, hfree⟩, rfl⟩)
          · exact .inl ⟨htab, by simp⟩
      | some k =>
        rcases scan_held_some hheld with hk | ⟨j, l, hkj, hl, hn⟩
        · simp at hk
        · rw [htab] at hl
          obtain rfl : k = j := by omega
          have hentry : entryAt (expire c table) (some k) = some l := by
            simp [entryAt, hl]
          split
          · simp only [doRelease, htab, hentry, Option.any_some]
            split
            · rename_i hok
              rw [Bool.or_eq_true] at hok
              exact .inr (.inl ⟨k, l, hl, hn, hok, rfl⟩)
            · exact .inl ⟨rfl, by simp⟩
          · split
            · simp only [doTake, htab, hentry]
              split
              · rename_i hok
                rw [Bool.or_eq_true] at hok
                exact .inr (.inr ⟨k, _, .inl ⟨l, hl, hn, hok.symm⟩, rfl⟩)
              · exact .inl ⟨rfl, by simp⟩
            · exact .inl ⟨htab, by simp⟩
  · exact .inl rfl

/-! ## Runs -/

inductive LockAction where
  | lock (c : Call)
  | state (c : Call)

def LockAction.call : LockAction → Call
  | .lock c => c
  | .state c => c

def lockStep (table : LockTable) : LockAction → Option LockTable
  | .lock c => some (doLock c table).1
  | .state c => some (expire c table)

/-- No two used entries have the same name. -/
def OneEach (table : LockTable) : Prop :=
  ∀ (i j : Nat) (l l' : Lock), table[i]? = some (some l) → table[j]? = some (some l') → l.name = l'.name → i = j

/-- The owner string of a request goes into the buffer as it is. -/
def OwnerFits (body : Bytes) : Prop :=
  (saidOwner body).length < ownerMax ∧ (0 : UInt8) ∉ saidOwner body

instance (body : Bytes) : Decidable (OwnerFits body) := inferInstanceAs (Decidable (_ ∧ _))

/-- The owner is read as it was said exactly when it fits. -/
theorem readOwner_eq_iff (body : Bytes) : readOwner body = saidOwner body ↔ OwnerFits body := by
  have hread : readOwner body
      = ((strValue body "owner").filter fun v => v.length < ownerMax && (0 : UInt8) ∉ v).getD [] := by
    rw [readOwner, jsonStr_value? body "owner" (by decide)]
  unfold OwnerFits
  unfold saidOwner at *
  cases hv : strValue body "owner" with
  | none =>
    rw [hread, hv]
    simp [ownerMax]
  | some v =>
    rw [hread, hv]
    by_cases hfit : v.length < ownerMax ∧ (0 : UInt8) ∉ v
    · simp [Option.filter, hfit]
    · have hne : v ≠ [] := by
        rintro rfl
        exact hfit ⟨by decide, by simp⟩
      have htest : (decide (v.length < ownerMax) && decide ((0 : UInt8) ∉ v)) = false := by
        rw [Bool.eq_false_iff]
        intro hb
        rw [Bool.and_eq_true, decide_eq_true_eq, decide_eq_true_eq] at hb
        exact hfit hb
      rw [Option.filter_some, htest]
      simp only [Option.getD_some, Bool.false_eq_true, if_false, Option.getD_none]
      exact ⟨fun h => absurd h.symm hne, fun h => absurd h hfit⟩

theorem oneEach_expire (h : OneEach table) : OneEach (expire c table) := by
  intro i j l l' hi hj hn
  exact h i j l l' (expire_some hi) (expire_some hj) hn

theorem set_some {o : Option Lock} (h : (table.set i o)[k]? = some (some l)) :
    (k = i ∧ o = some l) ∨ (k ≠ i ∧ table[k]? = some (some l)) := by
  rw [List.getElem?_set] at h
  split at h
  · rename_i hik
    split at h
    · exact .inl ⟨hik.symm, by simpa using h⟩
    · simp at h
  · rename_i hik
    exact .inr ⟨fun hc => hik hc.symm, h⟩

/-- **A call keeps the names apart.** -/
theorem oneEach_doLock (h : OneEach table) : OneEach (doLock c table).1 := by
  have hexp := oneEach_expire (c := c) h
  rcases doLock_cases c table with hbad | ⟨name, -, ⟨hsame, -⟩ | ⟨i, l, hi, -, -, hfree⟩ |
      ⟨i, u, hwhere, htake⟩⟩
  · rw [hbad]
    exact h
  · rw [hsame]
    exact hexp
  · rw [hfree]
    intro a b l₁ l₂ ha hb hn
    rcases set_some ha with ⟨-, hc⟩ | ⟨-, ha⟩
    · simp at hc
    · rcases set_some hb with ⟨-, hc⟩ | ⟨-, hb⟩
      · simp at hc
      · exact hexp a b l₁ l₂ ha hb hn
  · rw [htake]
    -- no other entry has the name that is written
    have hother : ∀ (b : Nat) (l₂ : Lock), b ≠ i → (expire c table)[b]? = some (some l₂) → l₂.name ≠ name := by
      intro b l₂ hbi hb hn
      rcases hwhere with ⟨l, hl, hln, -⟩ | ⟨-, hnone⟩
      · exact hbi (hexp b i l₂ l hb hl (by rw [hn, hln]))
      · exact hnone b l₂ hb hn
    intro a b l₁ l₂ ha hb hn
    rcases set_some ha with ⟨hai, ha'⟩ | ⟨hai, ha'⟩ <;>
      rcases set_some hb with ⟨hbi, hb'⟩ | ⟨hbi, hb'⟩
    · rw [hai, hbi]
    · obtain rfl := Option.some.inj ha'
      exact absurd hn.symm (hother b l₂ hbi hb')
    · obtain rfl := Option.some.inj hb'
      exact absurd hn (hother a l₁ hai ha')
    · exact hexp a b l₁ l₂ ha' hb' hn

/-- Every entry has the owner its taker said. -/
def SaidKept (table : LockTable) : Prop :=
  ∀ (i : Nat) (l : Lock), table[i]? = some (some l) → l.owner = l.said

theorem saidKept_expire (h : SaidKept table) : SaidKept (expire c table) := by
  intro i l hi
  exact h i l (expire_some hi)

theorem saidKept_doLock (h : SaidKept table)
    (hfit : OwnerFits c.body) : SaidKept (doLock c table).1 := by
  rcases doLock_cases c table with hbad | ⟨name, -, ⟨hsame, -⟩ | ⟨i, l, -, -, -, hfree⟩ |
      ⟨i, u, -, htake⟩⟩
  · rw [hbad]
    exact h
  · rw [hsame]
    exact saidKept_expire h
  · rw [hfree]
    intro k l' hk
    rcases set_some hk with ⟨-, hc⟩ | ⟨-, hk⟩
    · simp at hc
    · exact saidKept_expire h k l' hk
  · rw [htake]
    intro k l' hk
    rcases set_some hk with ⟨-, hc⟩ | ⟨-, hk⟩
    · obtain rfl := Option.some.inj hc
      exact (readOwner_eq_iff c.body).2 hfit
    · exact saidKept_expire h k l' hk

/-! ## Exclusion -/

/-- What a call does to the table beside expiry: it writes or frees the entry of the request's
name. -/
def OnlyTheName (c : Call) (table : LockTable) : Prop :=
  ∀ i : Nat, (doLock c table).1[i]? = (expire c table)[i]? ∨
    ∃ name, (jsonStr c.body "name" lockNameMax).value? = some name ∧
      (∀ l : Lock, (expire c table)[i]? = some (some l) → l.name = name) ∧
      ((∃ u, (doLock c table).2 = .got u ∧
          (doLock c table).1[i]? = some (some (newLock c name))) ∨
        (doLock c table).2 = .released ∧ (doLock c table).1[i]? = some none)

theorem onlyTheName (c : Call) (table : LockTable) :
    (doLock c table = (table, .badRequest)) ∨ OnlyTheName c table := by
  rcases doLock_cases c table with hbad | ⟨name, hname, ⟨hsame, -⟩ | ⟨i, l, hi, hn, -, hfree⟩ |
      ⟨i, u, hwhere, htake⟩⟩
  · exact .inl hbad
  · refine .inr fun k => .inl ?_
    rw [hsame]
  · refine .inr fun k => ?_
    by_cases hk : i = k
    · subst hk
      refine .inr ⟨name, hname, ?_, .inr ?_⟩
      · intro l' hl'
        rw [hi] at hl'
        obtain rfl : l = l' := by simpa using hl'
        exact hn
      · obtain ⟨hlt, -⟩ := List.getElem?_eq_some_iff.1 hi
        rw [hfree]
        exact ⟨rfl, by simp [hlt]⟩
    · refine .inl ?_
      rw [hfree]
      exact List.getElem?_set_ne hk
  · refine .inr fun k => ?_
    by_cases hk : i = k
    · subst hk
      have hlt : i < (expire c table).length := by
        rcases hwhere with ⟨l, hl, -⟩ | ⟨hl, -⟩
        · exact (List.getElem?_eq_some_iff.1 hl).1
        · exact (List.getElem?_eq_some_iff.1 hl).1
      refine .inr ⟨name, hname, ?_, .inl ⟨u, ?_⟩⟩
      · intro l' hl'
        rcases hwhere with ⟨l, hl, hn, -⟩ | ⟨hl, -⟩
        · rw [hl] at hl'
          obtain rfl : l = l' := by simpa using hl'
          exact hn
        · rw [hl] at hl'
          simp at hl'
      · rw [htake]
        exact ⟨rfl, by simp [hlt]⟩
    · refine .inl ?_
      rw [htake]
      exact List.getElem?_set_ne hk

theorem holds_iff (hl : l.owner = l.said) (hfit : OwnerFits c.body) :
    holds l c.caller (readOwner c.body) = true ↔ l.by_ = c.caller ∧ l.said = saidOwner c.body := by
  rw [holds, Bool.and_eq_true, decide_eq_true_eq, decide_eq_true_eq, hl,
    (readOwner_eq_iff c.body).2 hfit]

/-- **The lock table excludes**, in every run whose owner strings fit.  No name is there twice; a
take without force is granted only where no other holder's live lock has the name; a release
without force frees its own holder's lock and no other; expiry frees exactly the locks that have
run out or whose holder is gone, and a call does nothing else to the other names; and a lock is the
caller's exactly when device and owner string are. -/
theorem locks_exclude {as : List LockAction} {table : LockTable}
    (hm : Runs.Meets lockStep (fun _ a => OwnerFits a.call.body) LockTable.empty as)
    (h : Runs.exec lockStep LockTable.empty as = some table) :
    OneEach table ∧ ∀ c : Call, OwnerFits c.body →
      (∀ u, (doLock c table).2 = .got u → readForce c.body = false →
        ∀ (i : Nat) (l : Lock), table[i]? = some (some l) →
          (jsonStr c.body "name" lockNameMax).value? = some l.name →
          lockLive l (c.mono i) c.online = true →
            l.by_ = c.caller ∧ l.said = saidOwner c.body) ∧
      ((doLock c table).2 = .released → readForce c.body = false →
        ∀ i : Nat, (doLock c table).1[i]? = (expire c table)[i]? ∨
          ∃ l : Lock, (expire c table)[i]? = some (some l) ∧ l.by_ = c.caller ∧
            l.said = saidOwner c.body) ∧
      (∀ (i : Nat) (l : Lock), table[i]? = some (some l) →
        (expire c table)[i]?
          = some (if lockLive l (c.mono i) c.online then some l else none)) ∧
      (doLock c table = (table, .badRequest) ∨ OnlyTheName c table) ∧
      ∀ (i : Nat) (l : Lock), table[i]? = some (some l) →
        (holds l c.caller (readOwner c.body) = true ↔
          l.by_ = c.caller ∧ l.said = saidOwner c.body) := by
  have hinv : OneEach table ∧ SaidKept table := by
    refine Runs.exec_inv_of_meets (P := fun t => OneEach t ∧ SaidKept t) ?_ ?_ hm h
    · intro t a t' ht hfit hs
      cases a with
      | lock c =>
        obtain rfl := Option.some.inj hs
        exact ⟨oneEach_doLock ht.1, saidKept_doLock ht.2 hfit⟩
      | state c =>
        obtain rfl := Option.some.inj hs
        exact ⟨oneEach_expire ht.1, saidKept_expire ht.2⟩
    · constructor
      · intro i j l l' hi
        simp [LockTable.empty, List.getElem?_replicate] at hi
      · intro i l hi
        simp [LockTable.empty, List.getElem?_replicate] at hi
  obtain ⟨hone, hsaid⟩ := hinv
  refine ⟨hone, fun c hfit => ⟨?_, ?_, ?_, onlyTheName c table, ?_⟩⟩
  · intro u hgot hforce i l hi hname hlive
    have hexp : (expire c table)[i]? = some (some l) := by
      rw [expire_getElem?, hi]
      simp [Option.filter, hlive]
    rcases doLock_cases c table with hbad | ⟨name, hname', ⟨-, hno⟩ | ⟨k, l', -, -, -, hfree⟩ |
        ⟨k, u', hwhere, -⟩⟩
    · rw [hbad] at hgot
      simp at hgot
    · exact absurd hgot (hno u)
    · rw [hfree] at hgot
      simp at hgot
    · obtain rfl : l.name = name := by
        rw [hname] at hname'
        simpa using hname'
      rcases hwhere with ⟨l', hl', hn', hok⟩ | ⟨-, hnone⟩
      · have hk : k = i := oneEach_expire hone k i l' l hl' hexp hn'
        subst hk
        rw [hexp] at hl'
        obtain rfl : l = l' := by simpa using hl'
        rcases hok with hok | hok
        · rw [hforce] at hok
          simp at hok
        · exact (holds_iff (hsaid k l hi) hfit).1 hok
      · exact absurd rfl (hnone i l hexp)
  · intro hrel hforce i
    rcases doLock_cases c table with hbad | ⟨name, -, ⟨hsame, -⟩ | ⟨k, l, hl, -, hok, hfree⟩ |
        ⟨k, u', -, htake⟩⟩
    · rw [hbad] at hrel
      simp at hrel
    · rw [hsame]
      exact .inl rfl
    · by_cases hk : k = i
      · subst hk
        rcases hok with hok | hok
        · rw [hforce] at hok
          simp at hok
        · exact .inr ⟨l, hl, (holds_iff (hsaid k l (expire_some hl)) hfit).1 hok⟩
      · refine .inl ?_
        rw [hfree]
        exact List.getElem?_set_ne hk
    · rw [htake] at hrel
      simp at hrel
  · intro i l hi
    rw [expire_getElem?, hi]
    simp [Option.filter]
  · intro i l hi
    exact holds_iff (hsaid i l hi) hfit

/-! Two windows of one device, and a lock one of them holds. -/

def aDevice : Key := Vector.replicate 32 7

/-- A take of `"n"` at time 1000, the device online. -/
def takeN (owner : String) : Call where
  caller := aDevice
  body := ascii "\x7b\"op\":\"take\",\"name\":\"n\",\"owner\":\"" ++ ascii owner ++ ascii "\"\x7d"
  online := [aDevice]
  mono _ := 1000
  now := 5000

theorem shortOwners_fit :
    Runs.Meets lockStep (fun _ a => OwnerFits a.call.body) LockTable.empty
      [.lock (takeN "one")] := by
  decide +kernel

theorem locks_exclude_shortOwners :
    ∃ table, Runs.exec lockStep LockTable.empty [.lock (takeN "one")] = some table ∧
      (doLock (takeN "two") table).2 = .refused true aDevice [] 65000 ∧
      OneEach table :=
  ⟨_, rfl, by decide +kernel,
    (locks_exclude shortOwners_fit rfl).1⟩

/-- Two owner strings of forty bytes: the second window is given the first one's live lock. -/
theorem longOwners_share :
    saidOwner (takeN "aaaaaaaaaaaaaaaaaaaaaaaaaaaaaaaaaaaaaaaa").body
      ≠ saidOwner (takeN "bbbbbbbbbbbbbbbbbbbbbbbbbbbbbbbbbbbbbbbb").body ∧
    readForce (takeN "bbbbbbbbbbbbbbbbbbbbbbbbbbbbbbbbbbbbbbbb").body = false ∧
    ∃ table, Runs.exec lockStep LockTable.empty
        [.lock (takeN "aaaaaaaaaaaaaaaaaaaaaaaaaaaaaaaaaaaaaaaa")] = some table ∧
      (∃ l : Lock, table[0]? = some (some l) ∧ lockLive l 1000 [aDevice] = true ∧ l.name = ascii "n" ∧
        l.said = saidOwner (takeN "aaaaaaaaaaaaaaaaaaaaaaaaaaaaaaaaaaaaaaaa").body) ∧
      (doLock (takeN "bbbbbbbbbbbbbbbbbbbbbbbbbbbbbbbbbbbbbbbb") table).2 = .got 65000 := by
  refine ⟨by decide +kernel, by decide +kernel, _, rfl, ⟨newLock (takeN
    "aaaaaaaaaaaaaaaaaaaaaaaaaaaaaaaaaaaaaaaa") (ascii "n"), ?_⟩, ?_⟩ <;> decide +kernel

end Ps5Upload.Mesh
