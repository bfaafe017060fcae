import Ps5Upload.Ava1.Pins.File

/-!
# Pinned keys under several processes

`session`, `pairing_status`, `confirm_pairing`, `forget_console_key` and `same_console` of
`ps5upload-ava1/src/pool.rs`, run by any number of processes that share one pins file.  A process has
one operation at a time for a host; between the steps of one operation the other processes, and the same
process for other hosts, do what they like.

* `pins_kept` — pins stay and sessions agree with them while every pin is written to a file that has
  none for the host, and no file with other pins is rewritten that could not be read;
* `two_first_connections` — two first connections at once, and the pin changes.
-/

namespace Ps5Upload.Pins

open ByteFile

/-- A session with a console: whose key it is, and whether it has ended. -/
structure Session where
  key : Key
  closed : Bool
  deriving DecidableEq

/-- Where an operation for a host stands. -/
inductive Op where
  | idle
  /-- `session` in its handshake, and the pin it read before. -/
  | connect (expected : Option Key)
  /-- `pairing_status` in its handshake, and the pin it read before. -/
  | look (expected : Option Key)
  /-- `session` with a first pin to write. -/
  | first (key : Key)
  /-- `session` with a session to cache. -/
  | cache (key : Key)
  /-- `confirm_pairing` waiting for the console's word on the code. -/
  | confirm (key : Key)
  /-- `confirm_pairing` with a code confirmed. -/
  | check (key : Key)
  /-- `confirm_pairing` with a pin to write. -/
  | confirmed (key : Key)
  /-- `forget_console_key` with a pin to remove. -/
  | unpin
  /-- `forget_console_key` with its sessions to drop. -/
  | drop
  deriving DecidableEq

/-- What a process has for a host. -/
structure Cell where
  session : Option Session
  pending : Option Session
  op : Op
  deriving DecidableEq

structure World where
  file : Text
  cell : Nat → Text → Cell

def live (s : Option Session) : Bool := s.any fun s => !s.closed

inductive ConsoleMatch where
  | same
  | different
  | unknown
  deriving DecidableEq

/-- How the rewriting of the pins file goes. -/
inductive Rewrite where
  /-- The file could not be locked, or not be replaced. -/
  | failed
  /-- The file could not be read: what is written is made of no lines. -/
  | unread
  | done
  deriving DecidableEq

/-- The file afterwards. -/
def Rewrite.file (how : Rewrite) (change : Text → Text) (file : Text) : Text :=
  match how with
  | .failed => file
  | .unread => change []
  | .done => change file

/-- One step of a process for a host; `read` says whether the pins file could be read. -/
inductive Act where
  | session (read : Bool)
  /-- `pairing_status`; whether a handshake kept for a dialog still waits for its code. -/
  | status (pairing read : Bool)
  | confirm
  | cancel
  | forget
  | forgetIf
  /-- `same_console` between the host and another. -/
  | sameConsole (new : Text)
  /-- A handshake that failed. -/
  | failed
  /-- A handshake that did not: the console's key, and whether a person must compare codes. -/
  | answered (key : Key) (needsUser : Bool)
  /-- The console's word on a code. -/
  | refused
  | agreed
  | check (read : Bool)
  | write (how : Rewrite)
  | cache
  | unpin (how : Rewrite)
  | drop
  /-- A session ends by itself. -/
  | died
  | pendingDied
  deriving DecidableEq

section Steps

variable (ava1 : Ava1)

/-- What a process takes for the pin: none where the file cannot be read. -/
def readPin (read : Bool) (file host : Text) : Option Key := if read then pinned ava1 file host else none

/-- Is the console at the new address the one paired at the old?  From the pins of both and the key
that answers at the new one; it pins nothing. -/
def sameConsole (old new answer : Option Key) : ConsoleMatch :=
  match old, new, answer with
  | none, _, _ => .unknown
  | some want, some have_, _ => if have_ = want then .same else .different
  | some _, none, none => .unknown
  | some want, none, some key => if key = want then .same else .different

/-- A key other than the one expected is refused. -/
def wrongPeer (expected : Option Key) (key : Key) : Bool := expected.any fun want => want ≠ key

def stepCell (host file : Text) (c : Cell) : Act → Option (Text × Cell)
  | .session read =>
    if c.op ≠ .idle then none
    else if live c.session then some (file, c)
    else if live c.pending then some (file, { c with session := none })
    else some (file, { c with session := none, op := .connect (readPin ava1 read file host) })
  | .status pairing read =>
    if c.op ≠ .idle then none
    else if live c.pending ∧ pairing then some (file, c)
    else if live c.session then some (file, { c with pending := none })
    else some (file, { c with pending := none, op := .look (readPin ava1 read file host) })
  | .failed =>
    match c.op with
    | .connect _ | .look _ => some (file, { c with op := .idle })
    | _ => none
  | .answered key needsUser =>
    if ava1.reachable host = false then none
    else match c.op with
      | .connect expected =>
        if wrongPeer expected key ∨ needsUser then some (file, { c with op := .idle })
        else if expected = none then some (file, { c with op := .first key })
        else some (file, { c with op := .cache key })
      | .look expected =>
        if wrongPeer expected key ∨ needsUser = false then some (file, { c with op := .idle })
        else some (file, { c with pending := some ⟨key, false⟩, op := .idle })
      | _ => none
  | .confirm =>
    if c.op ≠ .idle then none
    else match c.pending with
      | none => some (file, c)
      | some s =>
        if s.closed then some (file, { c with pending := none })
        else some (file, { c with pending := none, op := .confirm s.key })
  | .refused =>
    match c.op with
    | .confirm _ => some (file, { c with op := .idle })
    | _ => none
  | .agreed =>
    match c.op with
    | .confirm key => some (file, { c with op := .check key })
    | _ => none
  | .check read =>
    match c.op with
    | .check key =>
      if readPin ava1 read file host = none then some (file, { c with op := .confirmed key })
      else some (file, { c with op := .idle })
    | _ => none
  | .write how =>
    match c.op with
    | .first key => some (how.file (pin ava1 host key) file, { c with op := .cache key })
    | .confirmed key => some (how.file (pin ava1 host key) file, { c with op := .idle })
    | _ => none
  | .cache =>
    match c.op with
    | .cache key =>
      if live c.session then some (file, { c with op := .idle })
      else some (file, { c with session := some ⟨key, false⟩, op := .idle })
    | _ => none
  | .cancel => if c.op ≠ .idle then none else some (file, { c with pending := none })
  | .forget => if c.op ≠ .idle then none else some (file, { c with op := .unpin })
  | .unpin how =>
    match c.op with
    | .unpin => some (how.file (unpin host) file, { c with op := .drop })
    | _ => none
  | .drop =>
    match c.op with
    | .drop => some (file, ⟨none, none, .idle⟩)
    | _ => none
  | .forgetIf => some (file, { c with session := none })
  | .sameConsole _ => some (file, c)
  | .died => some (file, { c with session := c.session.map fun s => { s with closed := true } })
  | .pendingDied => some (file, { c with pending := c.pending.map fun s => { s with closed := true } })

/-- A step: the process, the host and what it does. -/
structure Label where
  proc : Nat
  host : Text
  act : Act
  deriving DecidableEq

def World.set (w : World) (l : Label) (q : Text × Cell) : World where
  file := q.1
  cell p h := if p = l.proc ∧ h = l.host then q.2 else w.cell p h

def step (w : World) (l : Label) : Option World :=
  (stepCell ava1 l.host w.file (w.cell l.proc l.host) l.act).map (w.set l)

def run : World → List Label → Option World
  | w, [] => some w
  | w, l :: ls => (step ava1 w l).bind fun w => run w ls

end Steps

/-! ## One step -/

/-- The key an operation is about to write. -/
def Op.writes : Op → Option Key
  | .first key | .confirmed key => some key
  | _ => none

/-- The keys an operation holds the pin to be. -/
def Op.keys : Op → List Key
  | .connect (some key) | .cache key => [key]
  | _ => []

/-- The keys a process holds a host's pin to be: of its session, and of the connection it makes. -/
def Cell.keys (c : Cell) : List Key := c.session.toList.map Session.key ++ c.op.keys

/-- Whether a console has answered. -/
def Op.met : Op → Bool
  | .first _ | .cache _ | .confirm _ | .check _ | .confirmed _ => true
  | _ => false

/-- No console has answered for a host. -/
def Cell.Unmet (c : Cell) : Prop := c.pending = none ∧ c.op.met = false

section Step

variable {ava1 : Ava1} {host file file' : Text} {c c' : Cell} {a : Act}

theorem mem_keys {k : Key} : k ∈ c.keys ↔ (∃ s, c.session = some s ∧ s.key = k) ∨ k ∈ c.op.keys := by
  rw [Cell.keys, List.mem_append, List.mem_map]
  simp only [Option.mem_toList]

/-- An operation that holds no key leaves the process with the keys it had. -/
theorem keys_quiet (hs : c'.session = c.session ∨ c'.session = none) (ho : c'.op.keys = []) :
    ∀ k ∈ c'.keys, k ∈ c.keys := fun k hk => by
  rw [mem_keys, ho] at hk
  rcases hk with ⟨s, hs', hk⟩ | hk
  · rcases hs with hs | hs
    · exact mem_keys.2 (.inl ⟨s, hs ▸ hs', hk⟩)
    · rw [hs] at hs'
      cases hs'
  · cases hk

/-- A process that read the file holds what it read. -/
theorem keys_read {expected : Option Key} (hs : c'.session = c.session ∨ c'.session = none)
    (ho : c'.op = .connect expected) : ∀ k ∈ c'.keys, k ∈ c.keys ∨ expected = some k := fun k hk => by
  rw [mem_keys, ho] at hk
  rcases hk with ⟨s, hs', hk⟩ | hk
  · rcases hs with hs | hs
    · exact .inl (mem_keys.2 (.inl ⟨s, hs ▸ hs', hk⟩))
    · rw [hs] at hs'
      cases hs'
  · cases expected with
    | none => cases hk
    | some key => exact .inr (congrArg some (List.mem_singleton.1 hk).symm)

theorem pinned_of_readPin {read : Bool} {k : Key} (h : readPin ava1 read file host = some k) :
    pinned ava1 file host = some k := by
  unfold readPin at h
  split at h
  · exact h
  · cases h

/-- **What a step does**: to the file nothing, or it writes a pin, or it removes one; and the keys the
process then holds are those it held, or the pin it has read or written. -/
theorem stepCell_cases (h : stepCell ava1 host file c a = some (file', c')) :
    (file' = file ∧ ∀ k ∈ c'.keys, k ∈ c.keys ∨ pinned ava1 file host = some k) ∨
    (∃ key how, a = .write how ∧ c.op.writes = some key ∧
      file' = how.file (pin ava1 host key) file ∧ ∀ k ∈ c'.keys, k ∈ c.keys ∨ k = key) ∨
    (∃ how, a = .unpin how ∧ file' = how.file (unpin host) file ∧ ∀ k ∈ c'.keys, k ∈ c.keys) := by
  have quiet : ∀ {c' : Cell}, (c'.session = c.session ∨ c'.session = none) → c'.op.keys = [] →
      ∀ k ∈ c'.keys, k ∈ c.keys ∨ pinned ava1 file host = some k := fun hs ho k hk =>
    .inl (keys_quiet hs ho k hk)
  cases a with
  | session read =>
    rw [stepCell] at h
    split at h
    · cases h
    · split at h
      · cases h
        exact .inl ⟨rfl, fun k hk => .inl hk⟩
      · rename_i hidle _
        split at h
        · cases h
          exact .inl ⟨rfl, quiet (.inr rfl) (by rw [not_not.1 hidle]; rfl)⟩
        · cases h
          exact .inl ⟨rfl, fun k hk => (keys_read (.inr rfl) rfl k hk).imp_right pinned_of_readPin⟩
  | status pairing read =>
    rw [stepCell] at h
    split at h
    · cases h
    · rename_i hidle
      have hkeys : c.op.keys = [] := by rw [not_not.1 hidle]; rfl
      split at h
      · cases h
        exact .inl ⟨rfl, fun k hk => .inl hk⟩
      · split at h
        · cases h
          exact .inl ⟨rfl, quiet (.inl rfl) hkeys⟩
        · cases h
          exact .inl ⟨rfl, quiet (.inl rfl) rfl⟩
  | failed =>
    rw [stepCell] at h
    split at h
    · cases h
      exact .inl ⟨rfl, quiet (.inl rfl) rfl⟩
    · cases h
      exact .inl ⟨rfl, quiet (.inl rfl) rfl⟩
    · cases h
  | answered key needsUser =>
    rw [stepCell] at h
    split at h
    · cases h
    · split at h
      · rename_i expected hop
        split at h
        · cases h
          exact .inl ⟨rfl, quiet (.inl rfl) rfl⟩
        · rename_i hright
          split at h
          · cases h
            exact .inl ⟨rfl, quiet (.inl rfl) rfl⟩
          · cases h
            refine .inl ⟨rfl, fun k hk => .inl ?_⟩
            rw [mem_keys] at hk ⊢
            refine hk.imp_right fun hk => ?_
            -- the key that answered is the one that was expected
            obtain ⟨want, rfl⟩ : ∃ want, expected = some want := Option.ne_none_iff_exists'.1 ‹_›
            rw [List.mem_singleton.1 hk, hop]
            have hsame : want = key := by
              rw [not_or] at hright
              simpa [wrongPeer] using hright.1
            exact List.mem_singleton.2 hsame.symm
      · split at h
        · cases h
          exact .inl ⟨rfl, quiet (.inl rfl) rfl⟩
        · cases h
          exact .inl ⟨rfl, quiet (.inl rfl) rfl⟩
      · cases h
  | confirm =>
    rw [stepCell] at h
    split at h
    · cases h
    · rename_i hidle
      have hkeys : c.op.keys = [] := by rw [not_not.1 hidle]; rfl
      split at h
      · cases h
        exact .inl ⟨rfl, fun k hk => .inl hk⟩
      · split at h
        · cases h
          exact .inl ⟨rfl, quiet (.inl rfl) hkeys⟩
        · cases h
          exact .inl ⟨rfl, quiet (.inl rfl) rfl⟩
  | refused =>
    rw [stepCell] at h
    split at h
    · cases h
      exact .inl ⟨rfl, quiet (.inl rfl) rfl⟩
    · cases h
  | agreed =>
    rw [stepCell] at h
    split at h
    · cases h
      exact .inl ⟨rfl, quiet (.inl rfl) rfl⟩
    · cases h
  | check read =>
    rw [stepCell] at h
    split at h
    · split at h
      · cases h
        exact .inl ⟨rfl, quiet (.inl rfl) rfl⟩
      · cases h
        exact .inl ⟨rfl, quiet (.inl rfl) rfl⟩
    · cases h
  | write how =>
    rw [stepCell] at h
    split at h
    · rename_i key hop
      cases h
      refine .inr (.inl ⟨key, how, rfl, by rw [hop]; rfl, rfl, fun k hk => ?_⟩)
      rw [mem_keys] at hk
      rcases hk with hk | hk
      · exact .inl (mem_keys.2 (.inl hk))
      · exact .inr (List.mem_singleton.1 hk)
    · rename_i key hop
      cases h
      have hkeys : ∀ k ∈ Cell.keys { c with op := .idle }, k ∈ c.keys := keys_quiet (.inl rfl) rfl
      exact .inr (.inl ⟨key, how, rfl, by rw [hop]; rfl, rfl, fun k hk => .inl (hkeys k hk)⟩)
    · cases h
  | cache =>
    rw [stepCell] at h
    split at h
    · rename_i key hop
      split at h
      · cases h
        exact .inl ⟨rfl, quiet (.inl rfl) rfl⟩
      · cases h
        refine .inl ⟨rfl, fun k hk => .inl (mem_keys.2 (.inr ?_))⟩
        rw [mem_keys] at hk
        rcases hk with ⟨s, hs, rfl⟩ | hk
        · cases hs
          rw [hop]
          exact List.mem_singleton.2 rfl
        · cases hk
    · cases h
  | cancel =>
    rw [stepCell] at h
    split at h
    · cases h
    · rename_i hidle
      cases h
      exact .inl ⟨rfl, quiet (.inl rfl) (by rw [not_not.1 hidle]; rfl)⟩
  | forget =>
    rw [stepCell] at h
    split at h
    · cases h
    · cases h
      exact .inl ⟨rfl, quiet (.inl rfl) rfl⟩
  | unpin how =>
    rw [stepCell] at h
    split at h
    · cases h
      exact .inr (.inr ⟨how, rfl, rfl, keys_quiet (.inl rfl) rfl⟩)
    · cases h
  | drop =>
    rw [stepCell] at h
    split at h
    · cases h
      exact .inl ⟨rfl, quiet (.inr rfl) rfl⟩
    · cases h
  | forgetIf =>
    cases h
    refine .inl ⟨rfl, fun k hk => .inl (mem_keys.2 ?_)⟩
    rcases mem_keys.1 hk with ⟨s, hs, -⟩ | hk
    · cases hs
    · exact .inr hk
  | sameConsole new =>
    cases h
    exact .inl ⟨rfl, fun k hk => .inl hk⟩
  | died =>
    cases h
    refine .inl ⟨rfl, fun k hk => .inl (mem_keys.2 ?_)⟩
    rcases mem_keys.1 hk with ⟨s, hs, rfl⟩ | hk
    · obtain ⟨s', hs', rfl⟩ := Option.map_eq_some_iff.1 hs
      exact .inl ⟨s', hs', rfl⟩
    · exact .inr hk
  | pendingDied =>
    cases h
    exact .inl ⟨rfl, fun k hk => .inl hk⟩

/-- No console answers for a host that cannot be reached. -/
theorem stepCell_unmet (hr : ava1.reachable host = false)
    (h : stepCell ava1 host file c a = some (file', c')) (hc : c.Unmet) : c'.Unmet := by
  obtain ⟨hp, hm⟩ := hc
  cases a with
  | session read =>
    rw [stepCell] at h
    split at h
    · cases h
    · split at h
      · cases h
        exact ⟨hp, hm⟩
      · split at h
        · cases h
          exact ⟨hp, hm⟩
        · cases h
          exact ⟨hp, rfl⟩
  | status pairing read =>
    rw [stepCell] at h
    split at h
    · cases h
    · split at h
      · cases h
        exact ⟨hp, hm⟩
      · split at h
        · cases h
          exact ⟨rfl, hm⟩
        · cases h
          exact ⟨rfl, rfl⟩
  | failed =>
    rw [stepCell] at h
    split at h
    · cases h
      exact ⟨hp, rfl⟩
    · cases h
      exact ⟨hp, rfl⟩
    · cases h
  | answered key needsUser =>
    rw [stepCell, if_pos hr] at h
    cases h
  | confirm =>
    rw [stepCell, hp] at h
    split at h
    · cases h
    · cases h
      exact ⟨hp, hm⟩
  | refused =>
    rw [stepCell] at h
    split at h
    · cases h
      exact ⟨hp, rfl⟩
    · cases h
  | agreed =>
    rw [stepCell] at h
    split at h
    · rename_i key hop
      rw [hop] at hm
      cases hm
    · cases h
  | check read =>
    rw [stepCell] at h
    split at h
    · rename_i key hop
      rw [hop] at hm
      cases hm
    · cases h
  | write how =>
    rw [stepCell] at h
    split at h
    · rename_i key hop
      rw [hop] at hm
      cases hm
    · rename_i key hop
      rw [hop] at hm
      cases hm
    · cases h
  | cache =>
    rw [stepCell] at h
    split at h
    · rename_i key hop
      rw [hop] at hm
      cases hm
    · cases h
  | cancel =>
    rw [stepCell] at h
    split at h
    · cases h
    · cases h
      exact ⟨rfl, hm⟩
  | forget =>
    rw [stepCell] at h
    split at h
    · cases h
    · cases h
      exact ⟨hp, rfl⟩
  | unpin how =>
    rw [stepCell] at h
    split at h
    · cases h
      exact ⟨hp, rfl⟩
    · cases h
  | drop =>
    rw [stepCell] at h
    split at h
    · cases h
      exact ⟨rfl, rfl⟩
    · cases h
  | forgetIf =>
    cases h
    exact ⟨hp, hm⟩
  | sameConsole new =>
    cases h
    exact ⟨hp, hm⟩
  | died =>
    cases h
    exact ⟨hp, hm⟩
  | pendingDied =>
    cases h
    exact ⟨by rw [hp]; rfl, hm⟩

theorem writes_met {op : Op} {key : Key} (h : op.writes = some key) : op.met = true := by
  cases op with
  | first _ => rfl
  | confirmed _ => rfl
  | _ => cases h

end Step

/-! ## Runs -/

/-- When a pin is written, the file has none for the host or the same, and no process holds the host's
pin to be another; and when the file is rewritten and could not be read, no other host has a pin. -/
structure Clean (ava1 : Ava1) (w : World) (l : Label) : Prop where
  write : ∀ how key, l.act = .write how → (w.cell l.proc l.host).op.writes = some key →
    (∀ k, pinned ava1 w.file l.host = some k → k = key) ∧
      ∀ q, ∀ k ∈ (w.cell q l.host).keys, k = key
  unread : l.act = .write .unread ∨ l.act = .unpin .unread →
    ∀ host, host ≠ l.host → pinned ava1 w.file host = none

def CleanRun (ava1 : Ava1) : World → List Label → Prop
  | _, [] => True
  | w, l :: ls => Clean ava1 w l ∧ ∀ w', step ava1 w l = some w' → CleanRun ava1 w' ls

/-- What holds in between: only consoles that can be reached have answered, and the keys held for a
host are its pin's. -/
structure Sound (ava1 : Ava1) (w : World) : Prop where
  unmet : ∀ p host, ava1.reachable host = false → (w.cell p host).Unmet
  agree : ∀ p host k, pinned ava1 w.file host = some k → ∀ key ∈ (w.cell p host).keys, key = k

/-- Processes that have done nothing yet, and any file. -/
def start (file : Text) : World := ⟨file, fun _ _ => ⟨none, none, .idle⟩⟩

section Run

variable {ava1 : Ava1} (hl : ava1.Lawful)

/-- A pin removed, where no other is lost. -/
theorem pinned_removed {how : Rewrite} {host file : Text}
    (hread : how = .unread → ∀ other, other ≠ host → pinned ava1 file other = none) (other : Text) :
    pinned ava1 (how.file (unpin host) file) other =
      if how ≠ .failed ∧ other = host then none else pinned ava1 file other := by
  by_cases hhost : other = host
  · subst hhost
    cases how <;> simp [Rewrite.file, pinned_unpin]
  · cases how with
    | failed => simp [Rewrite.file]
    | done => simp [Rewrite.file, hhost, pinned_unpin_other hhost]
    | unread =>
      rw [Rewrite.file, pinned_unpin_other hhost, if_neg fun h => hhost h.2, hread rfl other hhost]
      rfl

theorem sound_start (file : Text) : Sound ava1 (start file) := ⟨fun _ _ _ => ⟨rfl, rfl⟩, nofun⟩

include hl

/-- A pin written, where no other is lost. -/
theorem pinned_written {how : Rewrite} {host file : Text} (hh : Plain host) (key : Key)
    (hread : how = .unread → ∀ other, other ≠ host → pinned ava1 file other = none) (other : Text) :
    pinned ava1 (how.file (pin ava1 host key) file) other =
      if how ≠ .failed ∧ other = host then some key else pinned ava1 file other := by
  by_cases hhost : other = host
  · subst hhost
    cases how <;> simp [Rewrite.file, pinned_pin hl hh]
  · cases how with
    | failed => simp [Rewrite.file]
    | done => simp [Rewrite.file, hhost, pinned_pin_other hl hh hhost]
    | unread =>
      rw [Rewrite.file, pinned_pin_other hl hh hhost, if_neg fun h => hhost h.2, hread rfl other hhost]
      rfl

/-- **A clean step** keeps every pin but one that is forgotten, and sessions agree with pins after it. -/
theorem step_sound {w w' : World} {l : Label} (hw : Sound ava1 w) (hclean : Clean ava1 w l)
    (h : step ava1 w l = some w') :
    Sound ava1 w' ∧ ∀ host k, pinned ava1 w.file host = some k →
      (∀ how, l.act = .unpin how → l.host ≠ host) → pinned ava1 w'.file host = some k := by
  obtain ⟨⟨file', c'⟩, hstep, rfl⟩ := Option.map_eq_some_iff.1 h
  have hunmet : ∀ p host, ava1.reachable host = false → ((w.set l (file', c')).cell p host).Unmet := by
    intro p host hr
    show (if _ then _ else _ : Cell).Unmet
    split
    · rename_i hsame
      rw [hsame.2] at hr
      exact stepCell_unmet hr hstep (hw.unmet _ _ hr)
    · exact hw.unmet p host hr
  -- the keys held after the step, cell by cell
  have hkeys : ∀ {q : Prop} {p host key}, key ∈ ((w.set l (file', c')).cell p host).keys →
      (host = l.host → key ∈ c'.keys → q) → (key ∈ (w.cell p host).keys → q) → q := by
    intro q p host key hkey hnew hold
    rw [show (w.set l (file', c')).cell p host =
      if p = l.proc ∧ host = l.host then c' else w.cell p host from rfl] at hkey
    split at hkey
    · rename_i hsame
      exact hnew hsame.2 hkey
    · exact hold hkey
  rcases stepCell_cases hstep with ⟨rfl, hnew⟩ | ⟨key, how, hact, hwrites, rfl, hnew⟩ | ⟨how, hact, rfl, hnew⟩
  · refine ⟨⟨hunmet, fun p host k hpin key hkey => ?_⟩, fun host k hpin _ => hpin⟩
    refine hkeys hkey (fun hhost hin => ?_) (hw.agree p host k hpin key)
    subst hhost
    rcases hnew key hin with hold | hread
    · exact hw.agree _ _ k hpin key hold
    · exact Option.some.inj (hread.symm.trans hpin)
  · obtain ⟨hfile, hothers⟩ := hclean.write how key hact hwrites
    have hplain : Plain l.host := hl.plain _ (by
      by_contra hr
      have := (hw.unmet l.proc l.host (Bool.eq_false_iff.2 hr)).2
      rw [writes_met hwrites] at this
      cases this)
    have hafter := pinned_written hl hplain key fun hhow => hclean.unread (.inl (hhow ▸ hact))
    refine ⟨⟨hunmet, fun p host k hpin key' hkey => ?_⟩, fun host k hpin _ => ?_⟩
    · -- what is pinned now was pinned before, or is the key that is written
      have hcases : pinned ava1 w.file host = some k ∨ (host = l.host ∧ k = key) := by
        change pinned ava1 (how.file _ w.file) host = some k at hpin
        rw [hafter] at hpin
        split at hpin
        · rename_i hhost
          exact .inr ⟨hhost.2, (Option.some.inj hpin).symm⟩
        · exact .inl hpin
      have hk : host = l.host → k = key := fun hhost => hcases.elim (fun hpin => hfile k (hhost ▸ hpin)) And.right
      refine hkeys hkey (fun hhost hkey => ?_) fun hkey => ?_
      · rw [hk hhost]
        rcases hnew key' hkey with hold | rfl
        · exact hothers _ _ hold
        · rfl
      · rcases hcases with hpin | ⟨hhost, hk⟩
        · exact hw.agree p host k hpin key' hkey
        · rw [hk]
          exact hothers p key' (hhost ▸ hkey)
    · change pinned ava1 (how.file _ w.file) host = some k
      rw [hafter]
      split
      · rename_i hhost
        rw [hfile k (hhost.2 ▸ hpin)]
      · exact hpin
  · have hafter := pinned_removed fun hhow => hclean.unread (.inr (hhow ▸ hact))
    refine ⟨⟨hunmet, fun p host k hpin key hkey => ?_⟩, fun host k hpin hforget => ?_⟩
    · have hpin : pinned ava1 w.file host = some k := by
        change pinned ava1 (how.file _ w.file) host = some k at hpin
        rw [hafter] at hpin
        split at hpin
        · cases hpin
        · exact hpin
      refine hkeys hkey (fun hhost hin => ?_) (hw.agree p host k hpin key)
      subst hhost
      exact hw.agree _ _ k hpin key (hnew key hin)
    · change pinned ava1 (how.file _ w.file) host = some k
      rw [hafter, if_neg fun hhost => hforget how hact hhost.2.symm]
      exact hpin

/-- **Clean runs**, by induction on their steps. -/
theorem run_sound {w w' : World} {ls : List Label} (hw : Sound ava1 w) (hclean : CleanRun ava1 w ls)
    (h : run ava1 w ls = some w') :
    Sound ava1 w' ∧ ∀ host k, pinned ava1 w.file host = some k →
      (∀ l ∈ ls, ∀ how, l.act = .unpin how → l.host ≠ host) → pinned ava1 w'.file host = some k := by
  induction ls generalizing w with
  | nil =>
    cases h
    exact ⟨hw, fun _ _ hpin _ => hpin⟩
  | cons l ls ih =>
    obtain ⟨u, hu, hrest⟩ := Option.bind_eq_some_iff.1 h
    obtain ⟨hsound, hkeep⟩ := step_sound hl hw hclean.1 hu
    obtain ⟨hsound', hkeep'⟩ := ih hsound (hclean.2 u hu) hrest
    refine ⟨hsound', fun host k hpin hforget => ?_⟩
    exact hkeep' host k (hkeep host k hpin fun how => hforget l List.mem_cons_self how) fun l' hl' =>
      hforget l' (List.mem_cons_of_mem l hl')

/-- **Pinned keys stay.**  In a clean run a host's pin is the same at every later reading until a forget
for that host, no other host's pin is touched, and every cached session's key is the host's pin. -/
theorem pins_kept {file : Text} {before after : List Label} {v w : World}
    (hbefore : run ava1 (start file) before = some v) (hcleanBefore : CleanRun ava1 (start file) before)
    (hafter : run ava1 v after = some w) (hcleanAfter : CleanRun ava1 v after) :
    (∀ host k, pinned ava1 v.file host = some k →
      (∀ l ∈ after, ∀ how, l.act = .unpin how → l.host ≠ host) → pinned ava1 w.file host = some k) ∧
    ∀ p host s k, (w.cell p host).session = some s → pinned ava1 w.file host = some k → s.key = k := by
  have hv := (run_sound hl (sound_start file) hcleanBefore hbefore).1
  obtain ⟨hw, hkeep⟩ := run_sound hl hv hcleanAfter hafter
  exact ⟨hkeep, fun p host s k hs hpin =>
    hw.agree p host k hpin s.key (mem_keys.2 (.inl ⟨s, hs, rfl⟩))⟩

end Run

/-! ## Two processes -/

def hexDigit (n : Nat) : Char := "0123456789abcdef".toList.getD n '0'

def fromHexDigit (c : Char) : Option Nat :=
  if '0' ≤ c ∧ c ≤ '9' then some (c.toNat - '0'.toNat)
  else if 'a' ≤ c ∧ c ≤ 'f' then some (c.toNat - 'a'.toNat + 10)
  else if 'A' ≤ c ∧ c ≤ 'F' then some (c.toNat - 'A'.toNat + 10)
  else none

def hexEncode (bytes : Bytes) : Text :=
  bytes.flatMap fun b => [hexDigit (b.toNat / 16), hexDigit (b.toNat % 16)]

def hexDecode : Text → Option Bytes
  | [] => some []
  | [_] => none
  | a :: b :: rest => do
    let hi ← fromHexDigit a
    let lo ← fromHexDigit b
    let bytes ← hexDecode rest
    return UInt8.ofNat (hi * 16 + lo) :: bytes

/-- Keys in hex, and every name of no spaces and line feeds in reach. -/
def hexAva1 : Ava1 where
  encode key := hexEncode key.val
  decode := hexDecode
  reachable host := host.all fun c => c ≠ ' ' ∧ c ≠ '\n'

theorem fromHexDigit_hexDigit : ∀ n < 16, fromHexDigit (hexDigit n) = some n := by decide +kernel

theorem hexDigit_clean : ∀ n < 16, isWhitespace (hexDigit n) = false := by decide +kernel

theorem hexDecode_hexEncode (bytes : Bytes) : hexDecode (hexEncode bytes) = some bytes := by
  induction bytes with
  | nil => rfl
  | cons b bytes ih =>
    have hb := b.toNat_lt
    have hbyte : UInt8.ofNat (b.toNat / 16 * 16 + b.toNat % 16) = b := by
      rw [show b.toNat / 16 * 16 + b.toNat % 16 = b.toNat by omega, UInt8.ofNat_toNat]
    rw [hexEncode, List.flatMap_cons, ← hexEncode]
    show hexDecode (hexDigit _ :: hexDigit _ :: hexEncode bytes) = _
    rw [hexDecode, fromHexDigit_hexDigit _ (by omega), fromHexDigit_hexDigit _ (by omega), ih]
    exact congrArg (fun b => some (b :: bytes)) hbyte

theorem hexAva1_lawful : hexAva1.Lawful where
  decode_encode key := hexDecode_hexEncode key.val
  no_space key c hc := by
    obtain ⟨b, -, hc⟩ := List.mem_flatMap.1 hc
    have hb := b.toNat_lt
    rcases List.mem_cons.1 hc with rfl | hc
    · exact hexDigit_clean _ (by omega)
    · rw [List.mem_singleton.1 hc]
      exact hexDigit_clean _ (by omega)
  plain host h := by
    have hall := List.all_eq_true.1 h
    exact ⟨fun hmem => (of_decide_eq_true (hall _ hmem)).1 rfl,
      fun hmem => (of_decide_eq_true (hall _ hmem)).2 rfl⟩

def consoleAddr : Text := "10.0.0.2".toList

def keyOnes : Key := ⟨List.replicate 32 1, List.length_replicate ..⟩

def keyTwos : Key := ⟨List.replicate 32 2, List.length_replicate ..⟩

/-- Two processes, both at their first connection to one address, where one console after another
answers; the first has written its pin. -/
def overlapping : List Label :=
  [⟨0, consoleAddr, .session true⟩, ⟨1, consoleAddr, .session true⟩,
    ⟨0, consoleAddr, .answered keyOnes false⟩, ⟨1, consoleAddr, .answered keyTwos false⟩,
    ⟨0, consoleAddr, .write .done⟩, ⟨0, consoleAddr, .cache⟩]

theorem two_first_connections : ∃ v w,
    run hexAva1 (start []) overlapping = some v ∧
    pinned hexAva1 v.file consoleAddr = some keyOnes ∧
    run hexAva1 v [⟨1, consoleAddr, .write .done⟩] = some w ∧
    pinned hexAva1 w.file consoleAddr = some keyTwos ∧
    (w.cell 0 consoleAddr).session = some ⟨keyOnes, false⟩ := by
  refine ⟨_, _, rfl, ?_, rfl, ?_, ?_⟩
  · decide +kernel
  · decide +kernel
  · decide +kernel

/-- One process at its first connection. -/
def firstConnection : List Label :=
  [⟨0, consoleAddr, .session true⟩, ⟨0, consoleAddr, .answered keyOnes false⟩,
    ⟨0, consoleAddr, .write .done⟩]

/-- The pin is cached, and another process connects. -/
def nextConnection : List Label := [⟨0, consoleAddr, .cache⟩, ⟨1, consoleAddr, .session true⟩]

theorem firstConnection_clean : CleanRun hexAva1 (start []) firstConnection := by
  refine ⟨⟨nofun, nofun⟩, fun w hw => ⟨⟨nofun, nofun⟩, fun v hv =>
    ⟨⟨fun how key _ _ => ⟨?_, fun q k hk => ?_⟩, nofun⟩, fun _ _ => trivial⟩⟩⟩
  · cases hw
    cases hv
    exact nofun
  · cases hw
    cases hv
    by_cases hq : q = 0
    · subst hq
      cases hk
    · simp [World.set, start, Cell.keys, Op.keys, hq] at hk

theorem pins_kept_first : ∃ v w,
    run hexAva1 (start []) firstConnection = some v ∧ run hexAva1 v nextConnection = some w ∧
    (∀ host k, pinned hexAva1 v.file host = some k →
      (∀ l ∈ nextConnection, ∀ how, l.act = .unpin how → l.host ≠ host) →
        pinned hexAva1 w.file host = some k) ∧
    ∀ p host s k, (w.cell p host).session = some s → pinned hexAva1 w.file host = some k → s.key = k := by
  have hbefore : ∃ v, run hexAva1 (start []) firstConnection = some v := ⟨_, rfl⟩
  obtain ⟨v, hv⟩ := hbefore
  have hafter : ∃ w, run hexAva1 v nextConnection = some w := by
    cases hv
    exact ⟨_, rfl⟩
  obtain ⟨w, hw⟩ := hafter
  exact ⟨v, w, hv, hw, pins_kept hexAva1_lawful hv firstConnection_clean hw
    ⟨⟨nofun, nofun⟩, fun _ _ => ⟨⟨nofun, nofun⟩, fun _ _ => trivial⟩⟩⟩

end Ps5Upload.Pins
