import Ps5Upload.Lib.ListAt
import Ps5Upload.Payload.Mesh.DeviceList

/-!
# The console's device list

The model of the calls of `payload/src/mesh.c` that touch the device list: `mesh_admit`, hello,
state (with pruning and the listing of sessions), device and settings, and the helper's start,
which loads the list from its file.  A call runs under one mutex, so a run is a list of calls.

* `Keeps` is what every change of the list has in common: no key is listed twice, and who was
  blocked is blocked.  Only unblock and remove are exempt, for the one key they name.
* `Sync` ties the file to the list, so that a restart brings every blocked device back.
* `blocked_stays_blocked` puts the two together over any run.
-/

namespace Ps5Upload.Mesh

open ByteFile WebuiCodec CText ListAt

def pruneDefaultDays : Nat := 90
def pruneEveryMs : UInt64 := 3600 * 1000
def pruneDaysMax : Nat := 3650

structure Settings where
  requireApproval : Bool
  pruneDays : Nat
  deriving DecidableEq, Repr

/-- The part of the helper's state the device list depends on, and its two files. -/
structure MeshState where
  dev : DevTable
  settings : Settings
  lastPrune : UInt64
  devFile : Option Bytes
  settingsFile : Option Bytes

/-- A device with a live session. -/
structure Online where
  key : Key
  ip : UInt32
  name : Bytes

def isOnline (key : Key) (on : List Online) : Bool := on.any fun o => o.key = key

/-! ## Files -/

def saveDevices (s : MeshState) : MeshState :=
  match saveText s.dev with
  | some text => { s with devFile := some text }
  | none => s

def saveSettings (s : MeshState) : MeshState :=
  { s with
    settingsFile := some (ascii "require_approval=" ++ dec s.settings.requireApproval.toNat
      ++ newline :: ascii "prune_days=" ++ dec s.settings.pruneDays ++ [newline]) }

def loadSettings (file : Option Bytes) : Settings :=
  match file with
  | none => ⟨false, pruneDefaultDays⟩
  | some text =>
    if 4096 < text.length then ⟨false, pruneDefaultDays⟩
    else
      let p := text.takeWhile (· ≠ 0)
      let approval := (afterFirst (ascii "require_approval=") p).any fun q => atoi q ≠ 0
      let days :=
        match afterFirst (ascii "prune_days=") p with
        | some q => (strtoull q).toUInt32.toNat
        | none => pruneDefaultDays
      ⟨approval, min days pruneDaysMax⟩

/-- `mesh_start`: everything but the files is forgotten. -/
def meshStart (devFile settingsFile : Option Bytes) : MeshState where
  dev := loadDevices devFile
  settings := loadSettings settingsFile
  lastPrune := 0
  devFile := devFile
  settingsFile := settingsFile

/-! ## Entries -/

def findDev (table : DevTable) (key : Key) : Option Nat :=
  table.findIdx? fun o => o.any fun d => d.key = key

def devAt (table : DevTable) (i : Nat) : Option Dev := (table[i]?).join

def updateDev (table : DevTable) (i : Nat) (f : Dev → Dev) : DevTable :=
  table.modify i (Option.map f)

/-- A cleared record of a key. -/
def Dev.blank (key : Key) : Dev where
  key := key
  first := 0
  last := 0
  ip := 0
  blocked := false
  kind := Field.empty _
  os := Field.empty _
  app := Field.empty _
  name := Field.empty _
  nick := Field.empty _

/-- The second loop of `new_dev`: the entry unseen longest that is not blocked. -/
def oldest : Nat → Option (Nat × UInt64) → DevTable → Option (Nat × UInt64)
  | _, pick, [] => pick
  | i, pick, none :: os => oldest (i + 1) pick os
  | i, pick, some d :: os =>
    if !d.blocked && pick.all fun p => d.last < p.2 then oldest (i + 1) (some (i, d.last)) os
    else oldest (i + 1) pick os

/-- A new record and where it stands; `none` when the list is full of blocked devices. -/
def newDev (table : DevTable) (key : Key) : Option (DevTable × Nat) :=
  match table.findIdx? Option.isNone with
  | some i => some (table.set i (some (Dev.blank key)), i)
  | none => (oldest 0 none table).map fun p => (table.set p.1 (some (Dev.blank key)), p.1)

/-! ## Calls -/

/-- A handshake's admission: 1 trust it, 0 ask for approval, -1 refuse. -/
def meshAdmit (s : MeshState) (key : Key) (name : Bytes) (ip : UInt32) (now : Nat → UInt64) :
    MeshState × Int :=
  if ((findDev s.dev key).bind (devAt s.dev)).any fun d => d.blocked then (s, -1)
  else if s.settings.requireApproval then (s, 0)
  else
    let listed :=
      match findDev s.dev key with
      | some i => some (s.dev, i)
      | none =>
        (newDev s.dev key).map fun r =>
          (updateDev r.1 r.2 fun d => { d with first := now 0, name := Field.clean nameMax name }, r.2)
    match listed with
    | some (table, i) =>
      (saveDevices { s with dev := updateDev table i fun d => { d with last := now 1, ip := ip } }, 1)
    | none => (saveDevices s, 1)

def meshRefused (s : MeshState) (key : Key) : Bool :=
  ((findDev s.dev key).bind (devAt s.dev)).any fun d => d.blocked

inductive DevReply where
  | ok
  | badRequest
  | badOp
  | notFound
  | devicesFull
  | verdict (v : Int)
  deriving DecidableEq, Repr

/-- A field of a hello; one that is missing or too long is empty. -/
def helloField (body : Bytes) (key : String) (cap : Nat) : Field cap :=
  match (jsonStr body key nameMax).value? with
  | some v => Field.clean cap v
  | none => Field.empty cap

def Field.orKeep {cap : Nat} (new old : Field cap) : Field cap := if new.text = [] then old else new

/-- A Docker engine that came back under a new key: the old entry. -/
def mergeable (on : List Online) (d o : Dev) : Bool :=
  d.name.text ≠ [] && d.ip ≠ 0 && d.kind.text = ascii "docker" && !o.blocked && o.name = d.name
    && o.kind = d.kind && o.ip = d.ip && !isOnline o.key on

/-- One turn of the merge loop of `do_hello`: entry `i` is the caller's. -/
def mergeOne (on : List Online) (i : Nat) (table : DevTable) (j : Nat) : DevTable :=
  match devAt table i, devAt table j with
  | some d, some o =>
    if j ≠ i && mergeable on d o then
      let named :=
        if d.nick.text = [] && o.nick.text ≠ [] then
          updateDev table i fun d => { d with nick := o.nick }
        else table
      named.set j none
    else table
  | _, _ => table

def mergeAll (on : List Online) (i : Nat) (table : DevTable) : DevTable :=
  (List.range meshMaxDevices).foldl (mergeOne on i) table

def sessionIp (on : List Online) (caller : Key) : UInt32 :=
  ((on.filter fun o => o.key = caller).getLast?).elim 0 fun o => o.ip

/-- What a hello writes into the caller's entry. -/
def sayHello (body : Bytes) (ip : UInt32) (t : UInt64) (d : Dev) : Dev :=
  { d with
    name := (helloField body "name" nameMax).orKeep d.name
    kind := (helloField body "kind" kindMax).orKeep d.kind
    os := (helloField body "os" osMax).orKeep d.os
    app := (helloField body "app" appMax).orKeep d.app
    last := t
    ip := if ip = 0 then d.ip else ip }

def doHello (s : MeshState) (caller : Key) (body : Bytes) (on : List Online) (now : Nat → UInt64) :
    MeshState × DevReply :=
  let listed :=
    match findDev s.dev caller with
    | some i => some (s.dev, i)
    | none =>
      (newDev s.dev caller).map fun r => (updateDev r.1 r.2 fun d => { d with first := now 0 }, r.2)
  match listed with
  | none => (s, .devicesFull)
  | some (table, i) =>
    let said := updateDev table i (sayHello body (sessionIp on caller) (now 1))
    (saveDevices { s with dev := mergeAll on i said }, .ok)

def pruneLocked (s : MeshState) (t : UInt64) (on : List Online) : MeshState :=
  let age := UInt64.ofNat (s.settings.pruneDays * 86400000)
  if s.settings.pruneDays = 0 ∨ t < age then s
  else
    let dev := s.dev.map fun o =>
      o.filter fun d => d.blocked || isOnline d.key on || t < d.last + age
    if dev = s.dev then s else saveDevices { s with dev := dev }

/-- The loop of `do_state` that lists the devices that never say hello. -/
def listOnline (t : UInt64) : List Online → MeshState → MeshState
  | [], s => s
  | o :: os, s =>
    match findDev s.dev o.key with
    | some _ => listOnline t os s
    | none =>
      match newDev s.dev o.key with
      | none => s
      | some (table, i) =>
        listOnline t os (saveDevices
          { s with
            dev := updateDev table i fun d =>
              { d with first := t, last := t, ip := o.ip, name := Field.clean nameMax o.name } })

/-- A poll marks its caller as seen; that is not saved. -/
def seeCaller (s : MeshState) (caller : Key) (t : UInt64) : MeshState :=
  match findDev s.dev caller with
  | some i => { s with dev := updateDev s.dev i fun d => { d with last := t } }
  | none => s

def pruneSome (s : MeshState) (t : UInt64) (on : List Online) : MeshState :=
  if pruneEveryMs ≤ t - s.lastPrune then pruneLocked { s with lastPrune := t } t on else s

def doState (s : MeshState) (caller : Key) (on : List Online) (t : UInt64) : MeshState :=
  listOnline t on (pruneSome (seeCaller s caller t) t on)

/-- The operation and the key a device call names. -/
def deviceRequest (body : Bytes) : Option (Bytes × Key) :=
  match (jsonStr body "op" 16).value?, (jsonStr body "id" 80).value? with
  | some op, some id => (fromHex id).map fun key => (op, key)
  | _, _ => none

def doDevice (s : MeshState) (body : Bytes) : MeshState × DevReply :=
  match deviceRequest body with
  | none => (s, .badRequest)
  | some (op, key) =>
    match findDev s.dev key with
    | none =>
      if op = ascii "block" then
        match newDev s.dev key with
        | none => (s, .devicesFull)
        | some (table, i) =>
          (saveDevices { s with dev := updateDev table i fun d => { d with blocked := true } }, .ok)
      else (s, .notFound)
    | some i =>
      if op = ascii "rename" then
        match (jsonStr body "name" (nameMax * 2)).value? with
        | none => (s, .badRequest)
        | some name =>
          (saveDevices
            { s with dev := updateDev s.dev i fun d => { d with nick := Field.clean nameMax name } },
            .ok)
      else if op = ascii "remove" then (saveDevices { s with dev := s.dev.set i none }, .ok)
      else if op = ascii "block" then
        (saveDevices { s with dev := updateDev s.dev i fun d => { d with blocked := true } }, .ok)
      else if op = ascii "unblock" then
        (saveDevices { s with dev := updateDev s.dev i fun d => { d with blocked := false } }, .ok)
      else (s, .badOp)

def doSettings (s : MeshState) (body : Bytes) : MeshState :=
  let approval := ((jsonBool body "require_approval").value?).getD s.settings.requireApproval
  let days :=
    match (jsonU64 body "prune_days").value? with
    | some days => if days ≠ s.settings.pruneDays then min days pruneDaysMax else s.settings.pruneDays
    | none => s.settings.pruneDays
  let changed := approval ≠ s.settings.requireApproval ∨
    ((jsonU64 body "prune_days").value?).any fun days => days ≠ s.settings.pruneDays
  if changed then saveSettings { s with settings := ⟨approval, days⟩ } else s

inductive DevCall where
  | admission (key : Key) (name : Bytes) (ip : UInt32) (now : Nat → UInt64)
  | hello (caller : Key) (body : Bytes) (on : List Online) (now : Nat → UInt64)
  | state (caller : Key) (on : List Online) (t : UInt64)
  | device (body : Bytes)
  | settings (body : Bytes)
  | restart

def devStep (s : MeshState) : DevCall → MeshState × DevReply
  | .admission key name ip now =>
    let r := meshAdmit s key name ip now
    (r.1, .verdict r.2)
  | .hello caller body on now => doHello s caller body on now
  | .state caller on t => (doState s caller on t, .ok)
  | .device body => doDevice s body
  | .settings body => (doSettings s body, .ok)
  | .restart => (meshStart s.devFile s.settingsFile, .ok)

/-- The state after some calls. -/
def afterCalls (s : MeshState) (calls : List DevCall) : MeshState :=
  calls.foldl (fun s c => (devStep s c).1) s

/-- A helper that was never run here. -/
def freshMesh : MeshState := meshStart none none

/-- The call unblocks or removes the key. -/
def Clears (key : Key) : DevCall → Prop
  | .device body =>
    deviceRequest body = some (ascii "unblock", key) ∨ deviceRequest body = some (ascii "remove", key)
  | _ => False

/-! ## What a change keeps -/

def UniqueKeys (table : DevTable) : Prop := ((entries table).map Dev.key).Nodup

/-- The key is listed as blocked. -/
def Blocked (table : DevTable) (key : Key) : Prop := ∃ d ∈ entries table, d.key = key ∧ d.blocked

/-- A change of the list that may clear only the keys `ex`. -/
structure Keeps (ex : Key → Prop) (table table' : DevTable) : Prop where
  length : table'.length = table.length
  unique : UniqueKeys table → UniqueKeys table'
  blocked : ∀ key, ¬ex key → Blocked table key → Blocked table' key

theorem Keeps.refl (ex : Key → Prop) (table : DevTable) : Keeps ex table table :=
  ⟨rfl, id, fun _ _ => id⟩

variable {ex : Key → Prop} {table : DevTable} {d : Dev} {i : Nat} {f : Dev → Dev} {key : Key}
  {s : MeshState}

theorem Keeps.trans {a b c : DevTable} (h : Keeps ex a b) (h' : Keeps ex b c) : Keeps ex a c :=
  ⟨h'.length.trans h.length, fun hu => h'.unique (h.unique hu),
    fun key hk hb => h'.blocked key hk (h.blocked key hk hb)⟩

theorem entries_append (a b : DevTable) : entries (a ++ b) = entries a ++ entries b :=
  List.reduceOption_append a b

theorem entries_cons (o : Option Dev) (os : DevTable) : entries (o :: os) = o.toList ++ entries os := by
  cases o <;> rfl

theorem mem_entries : d ∈ entries table ↔ some d ∈ table :=
  List.reduceOption_mem_iff

/-- **One entry is replaced.**  What is written has the old entry's key or one that is not listed,
and a blocked entry is replaced by a blocked one. -/
theorem keeps_set {x o : Option Dev} (hx : table[i]? = some x)
    (hkey : ∀ d, o = some d → ∀ e ∈ entries table, e.key = d.key → x.any fun e => e.key = d.key)
    (hblocked : ∀ d, x = some d → d.blocked → ¬ex d.key →
      ∃ d', o = some d' ∧ d'.key = d.key ∧ d'.blocked) :
    Keeps ex table (table.set i o) := by
  obtain ⟨pre, post, rfl, rfl⟩ := getElem?_split hx
  have hset : (pre ++ x :: post).set pre.length o = pre ++ o :: post := by simp
  rw [hset]
  refine ⟨by simp, ?_, ?_⟩
  · intro hu
    simp only [UniqueKeys, entries_append, entries_cons, List.map_append] at hu ⊢
    have hrest : ((entries pre).map Dev.key ++ (entries post).map Dev.key).Nodup :=
      hu.sublist ((List.Sublist.refl _).append (List.sublist_append_right _ _))
    cases ho : o with
    | none => simpa using hrest
    | some d =>
      -- the new key is nowhere else: if it was listed, it was at this place
      have hnot : d.key ∉ (entries pre).map Dev.key ++ (entries post).map Dev.key := by
        intro hd
        have hother : ∃ e ∈ entries (pre ++ x :: post), e.key = d.key := by
          rw [← List.map_append, List.mem_map] at hd
          obtain ⟨e, he, hed⟩ := hd
          refine ⟨e, ?_, hed⟩
          rw [entries_append, entries_cons]
          simp only [List.mem_append] at he ⊢
          tauto
        obtain ⟨e, he, hed⟩ := hother
        have hany := hkey d ho e he hed
        cases x with
        | none => simp at hany
        | some y =>
          have hy : y.key = d.key := by simpa using hany
          simp only [Option.toList_some, List.map_cons, List.map_nil, hy] at hu
          rw [List.nodup_append, List.singleton_append, List.nodup_cons] at hu
          rcases List.mem_append.1 hd with h | h
          · exact hu.2.2 _ h _ List.mem_cons_self rfl
          · exact hu.2.1.1 h
      simp only [Option.toList_some, List.map_cons, List.map_nil, List.singleton_append]
      rw [List.nodup_middle]
      exact List.nodup_cons.2 ⟨hnot, hrest⟩
  · rintro key hk ⟨d, hd, rfl, hb⟩
    simp only [Blocked, entries_append, entries_cons, List.mem_append] at hd ⊢
    rcases hd with hd | hd | hd
    · exact ⟨d, Or.inl hd, rfl, hb⟩
    · obtain ⟨d', rfl, hkey', hb'⟩ := hblocked d (by simpa using hd) hb hk
      exact ⟨d', Or.inr (Or.inl (by simp)), hkey', hb'⟩
    · exact ⟨d, Or.inr (Or.inr hd), rfl, hb⟩

theorem getElem?_of_devAt (h : devAt table i = some d) : table[i]? = some (some d) := by
  cases hi : table[i]? with
  | none => simp [devAt, hi] at h
  | some o => rw [devAt, hi] at h; exact congrArg some h

theorem updateDev_eq_set (h : devAt table i = some d)
    (f : Dev → Dev) : updateDev table i f = table.set i (some (f d)) := by
  have hi := getElem?_of_devAt h
  obtain ⟨pre, post, rfl, rfl⟩ := getElem?_split hi
  simp [updateDev]

theorem updateDev_of_none (h : devAt table i = none) (f : Dev → Dev) :
    updateDev table i f = table := by
  cases hi : table[i]? with
  | none =>
    rw [updateDev, List.modify_eq_self]
    simpa using hi
  | some o =>
    have ho : o = none := by rw [devAt, hi] at h; exact h
    subst ho
    obtain ⟨pre, post, rfl, rfl⟩ := getElem?_split hi
    simp [updateDev]

/-- An entry is written over without losing its key or, if it was blocked, its block. -/
theorem keeps_updateDev (table : DevTable) (i : Nat)
    (hkey : ∀ d, (f d).key = d.key) (hf : ∀ d, d.blocked → ¬ex d.key → (f d).blocked) :
    Keeps ex table (updateDev table i f) := by
  cases hd : devAt table i with
  | none =>
    rw [updateDev_of_none hd]
    exact Keeps.refl ex table
  | some d =>
    rw [updateDev_eq_set hd]
    refine keeps_set (getElem?_of_devAt hd) ?_ ?_
    · rintro d' ⟨⟩ e - hed
      simp [hkey]
    · rintro d' ⟨⟩ hb hk
      exact ⟨f d, rfl, hkey d, hf d hb hk⟩

/-- An entry that is not blocked leaves the list. -/
theorem keeps_remove (hd : devAt table i = some d) (hb : d.blocked → ex d.key) :
    Keeps ex table (table.set i none) := by
  refine keeps_set (getElem?_of_devAt hd) ?_ ?_
  · rintro d' ⟨⟩
  · rintro d' ⟨⟩ hblk hk
    exact absurd (hb hblk) hk

/-! ## Finding and adding entries -/

theorem findDev_eq_some (h : findDev table key = some i) :
    ∃ d, devAt table i = some d ∧ d.key = key := by
  obtain ⟨pre, x, post, rfl, rfl, hx⟩ := findIdx?_split h
  cases x with
  | none => simp at hx
  | some d =>
    refine ⟨d, ?_, by simpa using hx⟩
    simp [devAt]

theorem findDev_eq_none (h : findDev table key = none) (hd : d ∈ entries table) : d.key ≠ key := by
  have := List.findIdx?_eq_none_iff.1 h (some d) (mem_entries.1 hd)
  simpa using this

/-- The entry that makes room is not blocked. -/
theorem oldest_not_blocked (os : DevTable) (i : Nat) (pick : Option (Nat × UInt64))
    {p : Nat × UInt64} (h : oldest i pick os = some p) :
    pick = some p ∨ ∃ j d, p.1 = i + j ∧ os[j]? = some (some d) ∧ d.blocked = false := by
  have hnext : ∀ (i : Nat) (o : Option Dev) (os : DevTable),
      (∃ j d, p.1 = i + 1 + j ∧ os[j]? = some (some d) ∧ d.blocked = false) →
      ∃ j d, p.1 = i + j ∧ (o :: os)[j]? = some (some d) ∧ d.blocked = false := by
    rintro i o os ⟨j, d, hp, hj, hb⟩
    exact ⟨j + 1, d, by omega, by simpa using hj, hb⟩
  induction os generalizing i pick with
  | nil => exact Or.inl h
  | cons o os ih =>
    cases o with
    | none =>
      rcases ih (i + 1) pick h with h | h
      · exact Or.inl h
      · exact Or.inr (hnext i none os h)
    | some d =>
      rw [oldest] at h
      split at h
      · rename_i hd
        rcases ih (i + 1) _ h with h | h
        · cases h
          simp only [Bool.and_eq_true, Bool.not_eq_true'] at hd
          exact Or.inr ⟨0, d, rfl, rfl, hd.1⟩
        · exact Or.inr (hnext i (some d) os h)
      · rcases ih (i + 1) pick h with h | h
        · exact Or.inl h
        · exact Or.inr (hnext i (some d) os h)

theorem newDev_spec {table' : DevTable}
    (hnone : findDev table key = none) (h : newDev table key = some (table', i)) :
    Keeps ex table table' ∧ devAt table' i = some (Dev.blank key) := by
  -- a free place, or that of an entry that is not blocked
  have hplace : ∃ x, table[i]? = some x ∧ (∀ d, x = some d → d.blocked = false) ∧
      table' = table.set i (some (Dev.blank key)) := by
    unfold newDev at h
    split at h
    · rename_i j hj
      cases h
      obtain ⟨pre, x, post, rfl, rfl, hx⟩ := findIdx?_split hj
      rw [Option.isNone_iff_eq_none] at hx
      exact ⟨x, by simp, by simp [hx], rfl⟩
    · rw [Option.map_eq_some_iff] at h
      obtain ⟨p, hp, hpair⟩ := h
      cases hpair
      rcases oldest_not_blocked table 0 none hp with h | ⟨j, d, hj, hd, hb⟩
      · cases h
      · rw [Nat.zero_add] at hj
        refine ⟨some d, hj ▸ hd, ?_, rfl⟩
        rintro d' ⟨⟩
        exact hb
  obtain ⟨x, hx, hb, rfl⟩ := hplace
  refine ⟨keeps_set hx ?_ ?_, ?_⟩
  · rintro d ⟨⟩ e he hek
    exact absurd hek (findDev_eq_none hnone he)
  · intro d hd hblk
    simp [hb d hd] at hblk
  · obtain ⟨pre, post, rfl, rfl⟩ := getElem?_split hx
    simp [devAt]

/-! ## The list and its file -/

/-- What holds between calls: no key is listed twice, in the list or in the file, and whoever is
blocked is blocked in the file. -/
structure MeshOk (s : MeshState) : Prop where
  length : s.dev.length = meshMaxDevices
  unique : UniqueKeys s.dev
  fileUnique : UniqueKeys (loadDevices s.devFile)
  fileBlocked : ∀ key, Blocked s.dev key → Blocked (loadDevices s.devFile) key

/-- A call that leaves a good state, in which only the keys `ex` may have been cleared. -/
def Sound (ex : Key → Prop) (s s' : MeshState) : Prop :=
  MeshOk s → MeshOk s' ∧ ∀ key, ¬ex key → Blocked s.dev key → Blocked s'.dev key

theorem Sound.refl (ex : Key → Prop) (s : MeshState) : Sound ex s s :=
  fun h => ⟨h, fun _ _ => id⟩

theorem Sound.trans {a b c : MeshState} (h : Sound ex a b) (h' : Sound ex b c) : Sound ex a c := by
  intro ha
  obtain ⟨hb, hab⟩ := h ha
  obtain ⟨hc, hbc⟩ := h' hb
  exact ⟨hc, fun key hk hblk => hbc key hk (hab key hk hblk)⟩

theorem loadDevices_fresh : entries (loadDevices none) = [] :=
  List.reduceOption_replicate_none

theorem freshMesh_ok : MeshOk freshMesh where
  length := List.length_replicate
  unique := by simp [UniqueKeys, freshMesh, meshStart, loadDevices_fresh]
  fileUnique := by simp [UniqueKeys, freshMesh, meshStart, loadDevices_fresh]
  fileBlocked := fun _ h => h

/-- A change of the list that is saved. -/
theorem sound_save
    (h : Keeps ex s.dev table) : Sound ex s (saveDevices { s with dev := table }) := by
  intro hs
  have hlen : table.length = meshMaxDevices := h.length.trans hs.length
  have hfile : saveDevices { s with dev := table }
      = { s with dev := table, devFile := some (linesOf (entries table)) } := by
    simp only [saveDevices, saveText_eq hlen]
  have hload : entries (loadDevices (some (linesOf (entries table)))) = entries table := by
    rw [← saveText_eq hlen]
    exact entries_loadDevices_saveText hlen
  rw [hfile]
  refine ⟨⟨hlen, h.unique hs.unique, ?_, ?_⟩, h.blocked⟩
  · simp only [UniqueKeys, hload]
    exact h.unique hs.unique
  · intro key hb
    simpa only [Blocked, hload] using hb

theorem blocked_of_updateDev (hf : ∀ d, (f d).key = d.key ∧ (f d).blocked = d.blocked)
    (h : Blocked (updateDev table i f) key) : Blocked table key := by
  obtain ⟨d, hd, rfl, hb⟩ := h
  cases he : devAt table i with
  | none =>
    rw [updateDev_of_none he] at hd
    exact ⟨d, hd, rfl, hb⟩
  | some e =>
    rw [updateDev_eq_set he, mem_entries] at hd
    rcases List.mem_or_eq_of_mem_set hd with hd | hd
    · exact ⟨d, mem_entries.2 hd, rfl, hb⟩
    · cases hd
      refine ⟨e, mem_entries.2 (List.mem_of_getElem? (getElem?_of_devAt he)), (hf e).1.symm, ?_⟩
      rw [← (hf e).2]
      exact hb

/-- A change that is not saved: the key and the block of an entry stay. -/
theorem sound_touch (i : Nat) (hf : ∀ d, (f d).key = d.key ∧ (f d).blocked = d.blocked) :
    Sound ex s { s with dev := updateDev s.dev i f } := by
  intro hs
  have hkeeps : Keeps ex s.dev (updateDev s.dev i f) :=
    keeps_updateDev s.dev i (fun d => (hf d).1) fun d hb _ => (hf d).2.trans hb
  exact ⟨⟨hkeeps.length.trans hs.length, hkeeps.unique hs.unique, hs.fileUnique,
    fun key hb => hs.fileBlocked key (blocked_of_updateDev hf hb)⟩, hkeeps.blocked⟩

/-! ## Every call -/

/-- An entry found, or a new one with something written into it. -/
theorem listed_spec {table' : DevTable} (h : (match findDev table key with
      | some i => some (table, i)
      | none => (newDev table key).map fun r => (updateDev r.1 r.2 f, r.2)) = some (table', i))
    (hf : ∀ d, (f d).key = d.key ∧ (f d).blocked = d.blocked) : Keeps ex table table' := by
  cases hfind : findDev table key with
  | some j =>
    rw [hfind] at h
    cases h
    exact Keeps.refl ex table
  | none =>
    rw [hfind] at h
    simp only [Option.map_eq_some_iff] at h
    obtain ⟨r, hr, hpair⟩ := h
    cases hpair
    refine (newDev_spec hfind hr).1.trans (keeps_updateDev _ _ (fun d => (hf d).1) ?_)
    intro d hb _
    exact (hf d).2.trans hb

theorem meshAdmit_sound (s : MeshState) (key : Key) (name : Bytes) (ip : UInt32)
    (now : Nat → UInt64) : Sound ex s (meshAdmit s key name ip now).1 := by
  unfold meshAdmit
  split
  · exact Sound.refl ex s
  · split
    · exact Sound.refl ex s
    · simp only
      split
      · rename_i table i hlisted
        have hkeeps : Keeps ex s.dev table := listed_spec hlisted fun d => ⟨rfl, rfl⟩
        exact sound_save (hkeeps.trans (keeps_updateDev _ _ (fun _ => rfl) fun _ hb _ => hb))
      · exact sound_save (Keeps.refl ex s.dev)

theorem keeps_mergeOne (on : List Online) (i : Nat) (table : DevTable) (j : Nat) :
    Keeps ex table (mergeOne on i table j) := by
  unfold mergeOne
  split
  · rename_i d o hd ho
    split
    · rename_i hmerge
      simp only [mergeable, Bool.and_eq_true, decide_eq_true_eq, Bool.not_eq_true'] at hmerge
      obtain ⟨hji, ⟨⟨⟨⟨-, hob⟩, -⟩, -⟩, -⟩, -⟩ := hmerge
      split
      · have hstill : devAt (updateDev table i fun d => { d with nick := o.nick }) j = some o := by
          rw [updateDev_eq_set hd, devAt, List.getElem?_set_ne (Ne.symm hji)]
          exact ho
        refine Keeps.trans ?_ (keeps_remove hstill fun hb => absurd hb (by simp [hob]))
        exact keeps_updateDev table i (fun _ => rfl) fun _ hb _ => hb
      · exact keeps_remove ho fun hb => absurd hb (by simp [hob])
    · exact Keeps.refl ex table
  · exact Keeps.refl ex table

theorem keeps_mergeAll (on : List Online) (i : Nat) (table : DevTable) :
    Keeps ex table (mergeAll on i table) := by
  unfold mergeAll
  induction List.range meshMaxDevices generalizing table with
  | nil => exact Keeps.refl ex table
  | cons j js ih => exact (keeps_mergeOne on i table j).trans (ih _)

theorem doHello_sound (s : MeshState) (caller : Key) (body : Bytes)
    (on : List Online) (now : Nat → UInt64) : Sound ex s (doHello s caller body on now).1 := by
  unfold doHello
  simp only
  split
  · exact Sound.refl ex s
  · rename_i table i hlisted
    have hkeeps : Keeps ex s.dev table := listed_spec hlisted fun d => ⟨rfl, rfl⟩
    have hsaid : Keeps ex table (updateDev table i (sayHello body (sessionIp on caller) (now 1))) :=
      keeps_updateDev _ _ (fun _ => rfl) fun _ hb _ => hb
    have hall := (hkeeps.trans hsaid).trans (keeps_mergeAll on i _)
    generalize mergeAll on i _ = merged at hall ⊢
    exact sound_save hall

theorem keeps_filter (table : DevTable) {keep : Dev → Bool}
    (h : ∀ d, d.blocked → keep d) : Keeps ex table (table.map fun o => o.filter keep) := by
  have hentries : entries (table.map fun o => o.filter keep) = (entries table).filter keep := by
    induction table with
    | nil => rfl
    | cons o os ih =>
      rw [List.map_cons, entries_cons, entries_cons, ih, List.filter_append]
      cases o with
      | none => rfl
      | some d => cases hk : keep d <;> simp [Option.filter, hk]
  refine ⟨by simp, ?_, ?_⟩
  · intro hu
    rw [UniqueKeys, hentries]
    exact hu.sublist ((List.filter_sublist).map Dev.key)
  · rintro key - ⟨d, hd, hk, hb⟩
    exact ⟨d, by rw [hentries]; exact List.mem_filter.2 ⟨hd, h d hb⟩, hk, hb⟩

theorem pruneLocked_sound (s : MeshState) (t : UInt64) (on : List Online) :
    Sound ex s (pruneLocked s t on) := by
  unfold pruneLocked
  simp only
  split
  · exact Sound.refl ex s
  · split
    · exact Sound.refl ex s
    · refine sound_save (keeps_filter s.dev ?_)
      intro d hb
      simp [hb]

theorem listOnline_sound (t : UInt64) (on : List Online) (s : MeshState) :
    Sound ex s (listOnline t on s) := by
  induction on generalizing s with
  | nil => exact Sound.refl ex s
  | cons o os ih =>
    rw [listOnline]
    split
    · exact ih s
    · rename_i hnone
      split
      · exact Sound.refl ex s
      · rename_i table i hnew
        refine Sound.trans (sound_save ?_) (ih _)
        exact (newDev_spec hnone hnew).1.trans (keeps_updateDev _ _ (fun _ => rfl) fun _ hb _ => hb)

theorem seeCaller_sound (s : MeshState) (caller : Key) (t : UInt64) :
    Sound ex s (seeCaller s caller t) := by
  unfold seeCaller
  split
  · exact sound_touch _ fun d => ⟨rfl, rfl⟩
  · exact Sound.refl ex s

theorem pruneSome_sound (s : MeshState) (t : UInt64) (on : List Online) :
    Sound ex s (pruneSome s t on) := by
  unfold pruneSome
  split
  · refine Sound.trans ?_ (pruneLocked_sound _ t on)
    intro h
    exact ⟨⟨h.length, h.unique, h.fileUnique, h.fileBlocked⟩, fun _ _ => id⟩
  · exact Sound.refl ex _

theorem doState_sound (s : MeshState) (caller : Key) (on : List Online)
    (t : UInt64) : Sound ex s (doState s caller on t) :=
  ((seeCaller_sound s caller t).trans (pruneSome_sound _ t on)).trans (listOnline_sound t on _)

theorem doDevice_sound (s : MeshState) (body : Bytes) :
    Sound (fun key => Clears key (.device body)) s (doDevice s body).1 := by
  unfold doDevice
  cases hreq : deviceRequest body with
  | none => exact Sound.refl _ s
  | some r =>
    obtain ⟨op, key⟩ := r
    simp only
    cases hfind : findDev s.dev key with
    | none =>
      simp only
      split
      · split
        · exact Sound.refl _ s
        · rename_i table i hnew
          refine sound_save ((newDev_spec hfind hnew).1.trans ?_)
          exact keeps_updateDev _ _ (fun _ => rfl) fun _ _ _ => rfl
      · exact Sound.refl _ s
    | some i =>
      obtain ⟨d, hd, hkey⟩ := findDev_eq_some hfind
      simp only
      split
      · split
        · exact Sound.refl _ s
        · exact sound_save (keeps_updateDev _ _ (fun _ => rfl) fun _ hb _ => hb)
      · split
        · rename_i hop
          refine sound_save (keeps_remove hd fun _ => ?_)
          exact Or.inr (by rw [hreq, hop, hkey])
        · split
          · exact sound_save (keeps_updateDev _ _ (fun _ => rfl) fun _ _ _ => rfl)
          · split
            · rename_i hop
              -- the one entry that is written is that of the key the call names
              rw [updateDev_eq_set hd]
              refine sound_save (keeps_set (getElem?_of_devAt hd) ?_ ?_)
              · rintro d' ⟨⟩ e - -
                simp
              · rintro d' ⟨⟩ - hk
                exact absurd (Or.inl (by rw [hreq, hop, hkey])) hk
            · exact Sound.refl _ s

theorem doSettings_sound (s : MeshState) (body : Bytes) : Sound ex s (doSettings s body) := by
  unfold doSettings
  simp only
  split
  · intro h
    exact ⟨⟨h.length, h.unique, h.fileUnique, h.fileBlocked⟩, fun _ _ => id⟩
  · exact Sound.refl ex s

theorem restart_sound (s : MeshState) : Sound ex s (meshStart s.devFile s.settingsFile) := by
  intro h
  exact ⟨⟨length_loadDevices _, h.fileUnique, h.fileUnique, fun _ => id⟩,
    fun key _ hb => h.fileBlocked key hb⟩

/-- **No call loses a block** it does not name, and every call leaves a good state. -/
theorem devStep_sound (s : MeshState) (c : DevCall) :
    Sound (fun key => Clears key c) s (devStep s c).1 := by
  cases c with
  | admission key name ip now => exact meshAdmit_sound s key name ip now
  | hello caller body on now => exact doHello_sound s caller body on now
  | state caller on t => exact doState_sound s caller on t
  | device body => exact doDevice_sound s body
  | settings body => exact doSettings_sound s body
  | restart => exact restart_sound s

/-! ## Whole runs -/

theorem afterCalls_sound (calls : List DevCall) (s : MeshState) :
    Sound (fun key => ∃ c ∈ calls, Clears key c) s (afterCalls s calls) := by
  induction calls generalizing s with
  | nil => exact Sound.refl _ s
  | cons c calls ih =>
    intro hs
    obtain ⟨hmid, hkeep⟩ := devStep_sound s c hs
    obtain ⟨hend, hrest⟩ := ih (devStep s c).1 hmid
    refine ⟨hend, fun key hk hb => hrest key ?_ (hkeep key ?_ hb)⟩
    · rintro ⟨c', hc', hclear⟩
      exact hk ⟨c', List.mem_cons_of_mem _ hc', hclear⟩
    · intro hclear
      exact hk ⟨c, List.mem_cons_self, hclear⟩

theorem afterCalls_append (s : MeshState) (a b : List DevCall) :
    afterCalls s (a ++ b) = afterCalls (afterCalls s a) b :=
  List.foldl_append

theorem saveDevices_dev (s : MeshState) : (saveDevices s).dev = s.dev := by
  unfold saveDevices
  split <;> rfl

theorem blocked_updateDev_block (hd : devAt table i = some d) :
    Blocked (updateDev table i fun d => { d with blocked := true }) d.key := by
  rw [updateDev_eq_set hd]
  obtain ⟨pre, post, rfl, rfl⟩ := getElem?_split (getElem?_of_devAt hd)
  refine ⟨{ d with blocked := true }, ?_, rfl, rfl⟩
  rw [mem_entries, set_split]
  simp

theorem blocked_of_device_block {body : Bytes}
    (hreq : deviceRequest body = some (ascii "block", key)) (hok : (doDevice s body).2 = .ok) :
    Blocked (doDevice s body).1.dev key := by
  unfold doDevice at hok ⊢
  simp only [hreq] at hok ⊢
  cases hfind : findDev s.dev key with
  | none =>
    simp only [hfind, if_true] at hok ⊢
    cases hnew : newDev s.dev key with
    | none => simp [hnew] at hok
    | some r =>
      simp only [saveDevices_dev]
      have hspec : Keeps (fun _ => False) s.dev r.1 ∧ devAt r.1 r.2 = some (Dev.blank key) :=
        newDev_spec hfind hnew
      exact blocked_updateDev_block hspec.2
  | some i =>
    obtain ⟨d, hd, rfl⟩ := findDev_eq_some hfind
    have hrename : ascii "block" ≠ ascii "rename" := by decide
    have hremove : ascii "block" ≠ ascii "remove" := by decide
    simp only [if_neg hrename, if_neg hremove, if_true, saveDevices_dev]
    exact blocked_updateDev_block hd

/-- With one entry for each key, looking a blocked key up finds the blocked entry. -/
theorem meshRefused_of_blocked (hu : UniqueKeys s.dev)
    (hb : Blocked s.dev key) : meshRefused s key = true := by
  obtain ⟨d, hd, hkey, hblk⟩ := hb
  cases hfind : findDev s.dev key with
  | none => exact absurd hkey (findDev_eq_none hfind hd)
  | some i =>
    obtain ⟨e, he, hek⟩ := findDev_eq_some hfind
    have hmem : e ∈ entries s.dev := mem_entries.2 (List.mem_of_getElem? (getElem?_of_devAt he))
    have heq : e = d := List.inj_on_of_nodup_map hu hmem hd (hek.trans hkey.symm)
    simp only [meshRefused, hfind, Option.bind_some, he, Option.any_some, heq, hblk]

theorem meshAdmit_of_refused (h : meshRefused s key = true) (name : Bytes)
    (ip : UInt32) (now : Nat → UInt64) : (meshAdmit s key name ip now).2 = -1 := by
  have hrefuse : meshAdmit s key name ip now = (s, -1) := if_pos h
  rw [hrefuse]

/-- **A blocked device stays blocked.**  After any calls, in any order and with restarts between
them: no key is listed twice; a key that a device call blocked, and no later one unblocked or
removed, is listed as blocked and refused; and loading what `save_devices` writes gives the used
entries back, in order. -/
theorem blocked_stays_blocked (calls : List DevCall) :
    UniqueKeys (afterCalls freshMesh calls).dev ∧
    (∀ pre body post key, calls = pre ++ .device body :: post →
      deviceRequest body = some (ascii "block", key) →
      (devStep (afterCalls freshMesh pre) (.device body)).2 = .ok →
      (∀ c ∈ post, ¬Clears key c) →
      Blocked (afterCalls freshMesh calls).dev key ∧
        meshRefused (afterCalls freshMesh calls) key = true ∧
        ∀ name ip now, (meshAdmit (afterCalls freshMesh calls) key name ip now).2 = -1) ∧
    loadDevices (saveDevices (afterCalls freshMesh calls)).devFile
      = (entries (afterCalls freshMesh calls).dev).map some ++
        List.replicate (meshMaxDevices - (entries (afterCalls freshMesh calls).dev).length) none := by
  obtain ⟨hok, -⟩ := afterCalls_sound calls freshMesh freshMesh_ok
  refine ⟨hok.unique, ?_, ?_⟩
  · rintro pre body post key rfl hreq hreply hclear
    obtain ⟨hpre, -⟩ := afterCalls_sound pre freshMesh freshMesh_ok
    obtain ⟨hmid, -⟩ := devStep_sound (afterCalls freshMesh pre) (.device body) hpre
    obtain ⟨-, hkeep⟩ := afterCalls_sound post _ hmid
    have hrun : afterCalls freshMesh (pre ++ .device body :: post)
        = afterCalls (devStep (afterCalls freshMesh pre) (.device body)).1 post := by
      rw [afterCalls_append]
      rfl
    have hblocked : Blocked (afterCalls freshMesh (pre ++ .device body :: post)).dev key := by
      rw [hrun]
      refine hkeep key ?_ (blocked_of_device_block hreq hreply)
      rintro ⟨c, hc, hcl⟩
      exact hclear c hc hcl
    have hrefused := meshRefused_of_blocked hok.unique hblocked
    exact ⟨hblocked, hrefused, meshAdmit_of_refused hrefused⟩
  · have hfile : (saveDevices (afterCalls freshMesh calls)).devFile
        = saveText (afterCalls freshMesh calls).dev := by
      rw [saveDevices, saveText_eq hok.length]
    rw [hfile, loadDevices_saveText hok.length]

/-- Two devices connect, the second one is blocked by a call, and the helper starts again. -/
theorem blocked_stays_blocked_restarted :
    meshRefused (afterCalls freshMesh
      [.admission (Vector.replicate 32 1) (ascii "pc") 7 fun _ => 5,
        .device (ascii "\x7b\"op\":\"block\",\"id\":\"" ++ toHex (Vector.replicate 32 2) ++ ascii "\"\x7d"),
        .restart, .state (Vector.replicate 32 1) [] 9]) (Vector.replicate 32 2) = true :=
  ((blocked_stays_blocked _).2.1 [.admission (Vector.replicate 32 1) (ascii "pc") 7 fun _ => 5] _
    [.restart, .state (Vector.replicate 32 1) [] 9] (Vector.replicate 32 2) rfl (by decide +kernel)
    (by decide +kernel) (by simp [Clears])).2.1

end Ps5Upload.Mesh
