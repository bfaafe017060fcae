import Mathlib.Data.List.Basic
import Mathlib.Tactic.Common
import Ps5Upload.Lib.Bytes
import Ps5Upload.Lib.Crc32

/-!
# Stored zips: the manifest, the layout and the bytes of an archive

The pure part of `engine/crates/ps5upload-ava1/src/zip_stored.rs`, with what it uses of
`download.rs` (`checkShape`, `zipEntryName`) and of `ps5upload-core`'s `transfer.rs`
(`hostUnsafeComponent`).  An entry of the archive is its local header, its data and its data
descriptor; the layout places the non-empty files one after the other in manifest order, so
every offset is a function of the manifest.
-/

namespace Ps5Upload.ZipStored

open ByteFile Crc32

/-! ## Errors -/

inductive ErrorKind where
  | invalidData
  | unexpectedEof
  /-- Not an error of the source: the call panics. -/
  | panic
  /-- `io::Error::other` around a `ZipRestart`. -/
  | zipRestart
  deriving DecidableEq, Repr

structure IoError where
  kind : ErrorKind
  why : String
  deriving DecidableEq, Repr

def invalid (why : String) : IoError := ⟨.invalidData, why⟩

def zipRestart (why : String) : IoError := ⟨.zipRestart, why⟩

/-- What `read_exact_at` says at the end of a file. -/
def eof : IoError := ⟨.unexpectedEof, "failed to fill whole buffer"⟩

/-- A character as the debug format of a string shows it. -/
def debugChar (c : Char) : String :=
  if c = '"' then "\\\""
  else if c = '\\' then "\\\\"
  else if c = '\n' then "\\n"
  else if c = '\r' then "\\r"
  else if c = '\t' then "\\t"
  else if c.toNat = 0 then "\\0"
  else if c.toNat < 32 ∨ (127 ≤ c.toNat ∧ c.toNat < 160) then
    "\\u\x7b" ++ String.ofList (Nat.toDigits 16 c.toNat) ++ "\x7d"
  else c.toString

/-- The debug format of a string. -/
def debug (s : String) : String := "\"" ++ String.join (s.toList.map debugChar) ++ "\""

/-! ## The manifest -/

inductive EntryKind where
  | file
  | other
  deriving DecidableEq, Repr

structure Entry where
  kind : EntryKind
  mode : UInt32
  size : Nat
  mtime : Nat
  path : String
  deriving DecidableEq, Repr

/-- A file's id is its place in the manifest. -/
structure Manifest where
  entries : List Entry
  deriving DecidableEq, Repr

def Manifest.entry (m : Manifest) (id : Nat) : Option Entry := m.entries[id]?

/-! ## What the manifest of a download may look like -/

def windowsReserved : List String := ["CON", "PRN", "AUX", "NUL", "CONIN$", "CONOUT$"]

/-- `COM1` to `COM9`, the superscript digits included. -/
def numbered (device : String) (up : List Char) : Bool :=
  match device.toList.isPrefixOf? up with
  | some [c] => ('1' ≤ c ∧ c ≤ '9') ∨ c.toNat = 0xb9 ∨ c.toNat = 0xb2 ∨ c.toNat = 0xb3
  | _ => false

/-- The part of a name before its first dot, as a device is called. -/
def deviceStem (comp : List Char) : List Char :=
  (((comp.takeWhile (· ≠ '.')).reverse.dropWhile (· = ' ')).reverse).map Char.toUpper

/-- Why a path component cannot be written safely on every host, if it cannot. -/
def hostUnsafeComponent (comp : List Char) : Option String :=
  if String.ofList (deviceStem comp) ∈ windowsReserved then some "a reserved device name"
  else if ':' ∈ comp then some "a name with ':' (a drive or stream on Windows)"
  else if comp.getLast? = some '.' ∨ comp.getLast? = some ' ' then
    some "a name ending in '.' or a space"
  else if String.ofList (deviceStem comp) ∈ windowsReserved ∨ numbered "COM" (deviceStem comp) ∨
      numbered "LPT" (deviceStem comp) then
    some "a reserved device name"
  else none

section Shape

-- `manifest::check_path` of the protocol crate: the text of its refusal, if it refuses.
variable (checkPath : String → Option String)

/-- The checks of one entry's path. -/
def checkEntry (e : Entry) : Except IoError Unit :=
  match checkPath e.path with
  | some why => .error (invalid why)
  | none =>
    if '\\' ∈ e.path.toList then .error (invalid (debug e.path ++ " contains a backslash"))
    else match (e.path.toList.splitOn '/').findSome? hostUnsafeComponent with
      | some why => .error (invalid (debug e.path ++ ": " ++ why))
      | none => .ok ()

def checkShape (m : Manifest) (single : Bool) : Except IoError Unit := do
  for e in m.entries do
    checkEntry checkPath e
  let files := m.entries.countP fun e => e.kind = .file
  if single ∧ (m.entries.length ≠ 1 ∨ files ≠ 1) then
    let n := m.entries.length
    .error (invalid s!"a single-file download received a manifest of {n} entries")
  else .ok ()

end Shape

def zipEntryName (single : Bool) (basename rel : String) : String :=
  if single then basename else basename ++ "/" ++ rel

/-! ## The bytes of an entry -/

def localSig : Nat := 0x04034b50
def descSig : Nat := 0x08074b50
def centralSig : Nat := 0x02014b50
def eocd64Sig : Nat := 0x06064b50
def loc64Sig : Nat := 0x07064b50
def eocdSig : Nat := 0x06054b50

/-- Data descriptor (bit 3) and UTF-8 names (bit 11). -/
def flags : Nat := 0x0808

def localExtra : Nat := 20
def descLen : Nat := 24
def readback : Nat := 2 ^ 20
def u16Max : Nat := 2 ^ 16 - 1
def u32Max : Nat := 2 ^ 32 - 1

/-- The DOS time and date of a unix mtime (UTC), clamped to what DOS can express. -/
def dosDatetime (unix : Nat) : Nat × Nat :=
  if unix = 0 then (0, 33)
  else
    let days : Int := (unix / 86400 : Nat)
    let secs := unix % 86400
    let z := days + 719468
    let era := z / 146097
    let doe := z % 146097
    let yoe := (doe - doe / 1460 + doe / 36524 - doe / 146096) / 365
    let doy := doe - (365 * yoe + yoe / 4 - yoe / 100)
    let mp := (5 * doy + 2) / 153
    let d := doy - (153 * mp + 2) / 5 + 1
    let m := if mp < 10 then mp + 3 else mp - 9
    let y := if m ≤ 2 then yoe + era * 400 + 1 else yoe + era * 400
    if y < 1980 then (0, 33)
    else
      let date := ((min y 2107 - 1980).toNat <<< 9) ||| (m.toNat <<< 5) ||| d.toNat
      let time := ((secs / 3600) <<< 11) ||| ((secs / 60 % 60) <<< 5) ||| (secs % 60 / 2)
      (time, date)

/-- The bytes of a name. -/
def utf8 (s : String) : Bytes := s.toUTF8.data.toList

/-- One entry of the archive, as the layout places it. -/
structure Slot where
  id : Nat
  name : String
  size : Nat
  mode : UInt32
  mtime : Nat
  hdrOff : Nat
  dataOff : Nat
  deriving DecidableEq, Repr

namespace Slot

def end_ (s : Slot) : Nat := s.dataOff + s.size + descLen

def header (s : Slot) : Bytes :=
  le 4 localSig ++ le 2 45 ++ le 2 flags ++ le 2 0
    ++ le 2 (dosDatetime s.mtime).1 ++ le 2 (dosDatetime s.mtime).2
    ++ le 4 0 ++ le 4 u32Max ++ le 4 u32Max
    ++ le 2 (utf8 s.name).length ++ le 2 localExtra ++ utf8 s.name
    ++ le 2 1 ++ le 2 16 ++ le 8 0 ++ le 8 0

def headerLen (s : Slot) : Nat := 30 + (utf8 s.name).length + localExtra

def descriptor (s : Slot) (crc : UInt32) : Bytes :=
  le 4 descSig ++ le 4 crc.toNat ++ le 8 s.size ++ le 8 s.size

/-- The entry's record in the central directory. -/
def central (s : Slot) (crc : UInt32) : Bytes :=
  le 4 centralSig ++ le 2 ((3 <<< 8) ||| 45) ++ le 2 45 ++ le 2 flags ++ le 2 0
    ++ le 2 (dosDatetime s.mtime).1 ++ le 2 (dosDatetime s.mtime).2
    ++ le 4 crc.toNat ++ le 4 u32Max ++ le 4 u32Max
    ++ le 2 (utf8 s.name).length ++ le 2 28 ++ le 2 0 ++ le 2 0 ++ le 2 0
    ++ le 4 (((s.mode &&& 0o7777) ||| 0o100000) <<< 16).toNat ++ le 4 u32Max
    ++ utf8 s.name
    ++ le 2 1 ++ le 2 24 ++ le 8 s.size ++ le 8 s.size ++ le 8 s.hdrOff

@[simp] theorem length_header (s : Slot) : s.header.length = s.headerLen := by
  simp only [header, headerLen, localExtra, List.length_append, length_le]

@[simp] theorem length_descriptor (s : Slot) (crc : UInt32) :
    (s.descriptor crc).length = descLen := by
  simp only [descriptor, descLen, List.length_append, length_le]

/-- The checksum a descriptor holds. -/
def crcOf (desc : Bytes) : UInt32 := UInt32.ofNat (fromLe ((desc.drop 4).take 4))

@[simp] theorem crcOf_descriptor (s : Slot) (crc : UInt32) : crcOf (s.descriptor crc) = crc := by
  have hcut : ((s.descriptor crc).drop 4).take 4 = le 4 crc.toNat := by
    rw [descriptor, List.append_assoc, List.append_assoc, List.drop_left' (length_le 4 descSig),
      List.take_left' (length_le 4 crc.toNat)]
  have hlt : crc.toNat < 256 ^ 4 := crc.toNat_lt
  rw [crcOf, hcut, fromLe_le, Nat.mod_eq_of_lt hlt, UInt32.ofNat_toNat]

end Slot

/-! ## The layout -/

/-- Where every entry sits: `slots` are the non-empty files with their offsets, `empties` the
empty ones, which `finish` appends. -/
structure Layout where
  slots : List Slot := []
  empties : List Slot := []
  deriving DecidableEq, Repr

/-- The place of a file among the slots. -/
def Layout.byId (l : Layout) (id : Nat) : Option Nat := l.slots.findIdx? fun s => s.id = id

/-- The slot of the `i`-th entry, not placed yet. -/
def Slot.ofEntry (single : Bool) (base : String) (i : Nat) (e : Entry) : Slot :=
  ⟨i, zipEntryName single base e.path, e.size, e.mode, e.mtime, 0, 0⟩

def Slot.placedAt (s : Slot) (off : Nat) : Slot :=
  { s with hdrOff := off, dataOff := off + s.headerLen }

/-- The entries from the `i`-th on, the first non-empty file among them at `off`. -/
def Layout.buildFrom (single : Bool) (base : String) :
    Nat → Nat → List Entry → Except IoError Layout
  | _, _, [] => .ok {}
  | i, off, e :: es =>
    if e.kind ≠ .file then buildFrom single base (i + 1) off es
    else if u16Max < (utf8 (zipEntryName single base e.path)).length then
      .error (invalid (debug e.path ++ " is too long for a zip entry"))
    else if e.size = 0 then do
      let l ← buildFrom single base (i + 1) off es
      .ok { l with empties := Slot.ofEntry single base i e :: l.empties }
    else do
      let s := (Slot.ofEntry single base i e).placedAt off
      let l ← buildFrom single base (i + 1) s.end_ es
      .ok { l with slots := s :: l.slots }

def Layout.build (m : Manifest) (single : Bool) (base : String) : Except IoError Layout :=
  buildFrom single base 0 0 m.entries

/-- The empty files' slots, placed one after the other from `at_` on. -/
def placeEmpties : Nat → List Slot → List Slot
  | _, [] => []
  | at_, s :: ss =>
    let s := s.placedAt at_
    s :: placeEmpties s.end_ ss

/-- Everything after the non-empty entries: the empty files' entries, the central directory
and the end records.  `at_` is where the tail starts. -/
def tailBytes (l : Layout) (crcs : List UInt32) (at_ : Nat) : Bytes :=
  let empties := placeEmpties at_ l.empties
  let entries := empties.flatMap fun s => s.header ++ s.descriptor 0
  let cdOff := empties.getLast?.elim at_ Slot.end_
  let cd := ((l.slots.zip crcs).flatMap fun p => p.1.central p.2)
    ++ empties.flatMap fun s => s.central 0
  let n := l.slots.length + empties.length
  entries ++ cd
    ++ le 4 eocd64Sig ++ le 8 44 ++ le 2 ((3 <<< 8) ||| 45) ++ le 2 45 ++ le 4 0 ++ le 4 0
    ++ le 8 n ++ le 8 n ++ le 8 cd.length ++ le 8 cdOff
    ++ le 4 loc64Sig ++ le 4 0 ++ le 8 (cdOff + cd.length) ++ le 4 1
    ++ le 4 eocdSig ++ le 2 0 ++ le 2 0 ++ le 2 u16Max ++ le 2 u16Max
    ++ le 4 u32Max ++ le 4 u32Max ++ le 2 0

/-! ## What a built layout is like -/

variable {single : Bool} {base : String}

variable {i off : Nat} {es : List Entry} {l : Layout}

/-- What one entry adds to the layout of those after it. -/
theorem buildFrom_cons {e : Entry} (h : Layout.buildFrom single base i off (e :: es) = .ok l) :
    (e.kind ≠ .file ∧ Layout.buildFrom single base (i + 1) off es = .ok l) ∨
    (e.kind = .file ∧ (utf8 (zipEntryName single base e.path)).length ≤ u16Max ∧
      ((e.size = 0 ∧ ∃ l', Layout.buildFrom single base (i + 1) off es = .ok l' ∧
          l = { l' with empties := Slot.ofEntry single base i e :: l'.empties }) ∨
        (0 < e.size ∧ ∃ l', Layout.buildFrom single base (i + 1)
            ((Slot.ofEntry single base i e).placedAt off).end_ es = .ok l' ∧
          l = { l' with slots := (Slot.ofEntry single base i e).placedAt off :: l'.slots }))) := by
  rw [Layout.buildFrom] at h
  split at h
  · rename_i hkind
    exact .inl ⟨hkind, h⟩
  · rename_i hkind
    split at h
    · simp at h
    · rename_i hname
      refine .inr ⟨not_not.1 hkind, Nat.le_of_not_lt hname, ?_⟩
      split at h
      · rename_i hsize
        cases hl : Layout.buildFrom single base (i + 1) off es with
        | error err => rw [hl] at h; simp [bind, Except.bind] at h
        | ok l' =>
          rw [hl] at h
          exact .inl ⟨hsize, l', rfl, (Except.ok.inj h).symm⟩
      · rename_i hsize
        dsimp only at h
        cases hl : Layout.buildFrom single base (i + 1)
            ((Slot.ofEntry single base i e).placedAt off).end_ es with
        | error err => rw [hl] at h; simp [bind, Except.bind] at h
        | ok l' =>
          rw [hl] at h
          exact .inr ⟨Nat.pos_of_ne_zero hsize, l', rfl, (Except.ok.inj h).symm⟩

/-- What one entry adds to the slots of those after it. -/
theorem buildFrom_cons_slots {e : Entry}
    (h : Layout.buildFrom single base i off (e :: es) = .ok l) :
    (∃ l', Layout.buildFrom single base (i + 1) off es = .ok l' ∧ l.slots = l'.slots) ∨
    (e.kind = .file ∧ 0 < e.size ∧
      ∃ l', Layout.buildFrom single base (i + 1)
          ((Slot.ofEntry single base i e).placedAt off).end_ es = .ok l' ∧
        l.slots = (Slot.ofEntry single base i e).placedAt off :: l'.slots) := by
  rcases buildFrom_cons h with ⟨-, hl⟩ | ⟨hkind, -, ⟨-, l', hl, rfl⟩ | ⟨hsize, l', hl, rfl⟩⟩
  · exact .inl ⟨l, hl, rfl⟩
  · exact .inl ⟨l', hl, rfl⟩
  · exact .inr ⟨hkind, hsize, l', hl, rfl⟩

/-- Slots that follow each other from `off` on, none of them empty. -/
def Placed : Nat → List Slot → Prop
  | _, [] => True
  | off, s :: ss =>
    s.hdrOff = off ∧ s.dataOff = off + s.headerLen ∧ 0 < s.size ∧ Placed s.end_ ss

theorem buildFrom_placed
    (h : Layout.buildFrom single base i off es = .ok l) : Placed off l.slots := by
  induction es generalizing i off l with
  | nil =>
    rw [Layout.buildFrom, Except.ok.injEq] at h
    subst h
    trivial
  | cons e es ih =>
    rcases buildFrom_cons_slots h with ⟨l', hl, hs⟩ | ⟨-, hsize, l', hl, hs⟩
    · exact hs ▸ ih hl
    · rw [hs]
      exact ⟨rfl, rfl, hsize, ih hl⟩

/-- The slots of a layout follow each other without a gap. -/
theorem build_placed {m : Manifest} (h : Layout.build m single base = .ok l) :
    Placed 0 l.slots := buildFrom_placed h

/-- A slot is that of a non-empty file of the manifest, from the `i`-th entry on. -/
theorem buildFrom_entry (h : Layout.buildFrom single base i off es = .ok l) :
    ∀ s ∈ l.slots, i ≤ s.id ∧ ∃ e, es[s.id - i]? = some e ∧ e.kind = .file ∧ e.size = s.size := by
  induction es generalizing i off l with
  | nil =>
    rw [Layout.buildFrom, Except.ok.injEq] at h
    subst h
    intro s hs
    cases hs
  | cons e es ih =>
    have later : ∀ {off l'}, Layout.buildFrom single base (i + 1) off es = .ok l' →
        ∀ s ∈ l'.slots, i ≤ s.id ∧
          ∃ e', (e :: es)[s.id - i]? = some e' ∧ e'.kind = .file ∧ e'.size = s.size := by
      intro off l' h s hs
      obtain ⟨hi, e', he', hk, hz⟩ := ih h s hs
      refine ⟨by omega, e', ?_, hk, hz⟩
      rw [show s.id - i = s.id - (i + 1) + 1 by omega, List.getElem?_cons_succ]
      exact he'
    rcases buildFrom_cons_slots h with ⟨l', hl, hslots⟩ | ⟨hkind, hsize, l', hl, hslots⟩
    · exact hslots ▸ later hl
    · intro s hs
      rw [hslots] at hs
      rcases List.mem_cons.1 hs with rfl | hs
      · refine ⟨Nat.le_refl i, e, ?_, hkind, rfl⟩
        show (e :: es)[i - i]? = some e
        rw [Nat.sub_self]
        rfl
      · exact later hl s hs

theorem buildFrom_ids (h : Layout.buildFrom single base i off es = .ok l) :
    l.slots.Pairwise fun s t => s.id < t.id := by
  induction es generalizing i off l with
  | nil =>
    rw [Layout.buildFrom, Except.ok.injEq] at h
    subst h
    exact List.Pairwise.nil
  | cons e es ih =>
    rcases buildFrom_cons_slots h with ⟨l', hl, hs⟩ | ⟨-, -, l', hl, hs⟩
    · exact hs ▸ ih hl
    · rw [hs]
      refine List.Pairwise.cons (fun t ht => ?_) (ih hl)
      have := (buildFrom_entry hl t ht).1
      show i < t.id
      omega

/-- The ids of the slots ascend, and each is the place of its file in the manifest. -/
theorem build_ids {m : Manifest} (h : Layout.build m single base = .ok l) :
    (l.slots.Pairwise fun s t => s.id < t.id) ∧
      ∀ s ∈ l.slots, ∃ e, m.entry s.id = some e ∧ e.kind = .file ∧ e.size = s.size :=
  ⟨buildFrom_ids h, fun s hs => (buildFrom_entry h s hs).2⟩

end Ps5Upload.ZipStored
