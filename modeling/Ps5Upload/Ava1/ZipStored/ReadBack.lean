import Mathlib.Data.List.Basic
import Mathlib.Tactic.Common
import Ps5Upload.Ava1.ZipStored.Resume
import Ps5Upload.Core.ZipCd

/-!
# Stored zips: a finished archive reads back

The archive of a `Job` as a reader sees it.  `Job.placed` are its entries in the order they are
written, the non-empty files and then the empty ones, each with its bytes; the archive is their
front parts, their records in the central directory, and the end records.

* `localAt_placed` — the offset of a record is that of its local header;
* `archive_reads_back` — the reader returns one entry per file, and every record of the central
  directory points at the file's bytes.
-/

namespace Ps5Upload.ZipStored

open ByteFile Crc32 Runs

/-! ## The parts of a header and of a record -/

namespace Slot

/-- A local header up to the name. -/
def headerHead (s : Slot) : Bytes :=
  le 4 localSig ++ le 2 45 ++ le 2 flags ++ le 2 0
    ++ le 2 (dosDatetime s.mtime).1 ++ le 2 (dosDatetime s.mtime).2
    ++ le 4 0 ++ le 4 u32Max ++ le 4 u32Max
    ++ le 2 (utf8 s.name).length ++ le 2 localExtra

/-- A record of the central directory up to the name. -/
def centralHead (s : Slot) (crc : UInt32) : Bytes :=
  le 4 centralSig ++ le 2 ((3 <<< 8) ||| 45) ++ le 2 45 ++ le 2 flags ++ le 2 0
    ++ le 2 (dosDatetime s.mtime).1 ++ le 2 (dosDatetime s.mtime).2
    ++ le 4 crc.toNat ++ le 4 u32Max ++ le 4 u32Max
    ++ le 2 (utf8 s.name).length ++ le 2 28 ++ le 2 0 ++ le 2 0 ++ le 2 0
    ++ le 4 (((s.mode &&& 0o7777) ||| 0o100000) <<< 16).toNat ++ le 4 u32Max

/-- The zip64 extra of a record: the sizes and the offset. -/
def centralExtra (s : Slot) : Bytes :=
  le 2 1 ++ le 2 24 ++ le 8 s.size ++ le 8 s.size ++ le 8 s.hdrOff

theorem header_eq (s : Slot) :
    s.header = s.headerHead ++ (utf8 s.name ++ (le 2 1 ++ le 2 16 ++ le 8 0 ++ le 8 0)) := by
  simp only [header, headerHead, List.append_assoc]

theorem central_eq (s : Slot) (crc : UInt32) :
    s.central crc = s.centralHead crc ++ (utf8 s.name ++ s.centralExtra) := by
  unfold central centralHead centralExtra
  -- The attributes stay closed, or they are evaluated on both sides.
  generalize le 4 (((s.mode &&& 0o7777) ||| 0o100000) <<< 16).toNat = attributes
  simp only [List.append_assoc]

@[simp] theorem length_headerHead (s : Slot) : s.headerHead.length = 30 := by
  simp only [headerHead, List.length_append, length_le]

@[simp] theorem length_centralHead (s : Slot) (crc : UInt32) :
    (s.centralHead crc).length = 46 := by
  simp only [centralHead, List.length_append, length_le]

@[simp] theorem length_centralExtra (s : Slot) : s.centralExtra.length = 28 := by
  simp only [centralExtra, List.length_append, length_le]

theorem length_central (s : Slot) (crc : UInt32) :
    (s.central crc).length = 46 + (utf8 s.name).length + 28 := by
  rw [central_eq]
  simp only [List.length_append, length_centralHead, length_centralExtra]
  omega

/-- The fields of a record, whatever follows it. -/
theorem centralHead_fields (s : Slot) (crc : UInt32) (rest : Bytes)
    (hname : (utf8 s.name).length ≤ u16Max) :
    leAt (s.centralHead crc ++ rest) 0 4 = centralSig ∧
    leAt (s.centralHead crc ++ rest) 16 4 = crc.toNat ∧
    leAt (s.centralHead crc ++ rest) 20 4 = u32Max ∧
    leAt (s.centralHead crc ++ rest) 24 4 = u32Max ∧
    leAt (s.centralHead crc ++ rest) 28 2 = (utf8 s.name).length ∧
    leAt (s.centralHead crc ++ rest) 30 2 = 28 ∧
    leAt (s.centralHead crc ++ rest) 32 2 = 0 ∧
    leAt (s.centralHead crc ++ rest) 42 4 = u32Max := by
  have hcrc : crc.toNat % 256 ^ 4 = crc.toNat := Nat.mod_eq_of_lt crc.toNat_lt
  have hlen : (utf8 s.name).length % 256 ^ 2 = (utf8 s.name).length :=
    Nat.mod_eq_of_lt (Nat.lt_of_le_of_lt hname (by decide))
  simp only [centralHead, List.append_assoc]
  refine ⟨?_, ?_, ?_, ?_, ?_, ?_, ?_, ?_⟩
  all_goals
    repeat rw [leAt_le_append _ _ (by decide)]
    rw [leAt_le]
  all_goals first | exact hcrc | exact hlen | rfl

/-- The values of a record's zip64 extra. -/
theorem centralExtra_fields (s : Slot) (rest : Bytes) (hsize : s.size < 2 ^ 64)
    (hoff : s.hdrOff < 2 ^ 64) :
    leAt (s.centralExtra ++ rest) 0 2 = 1 ∧ leAt (s.centralExtra ++ rest) 2 2 = 24 ∧
    leAt (s.centralExtra ++ rest) 4 8 = s.size ∧ leAt (s.centralExtra ++ rest) 12 8 = s.size ∧
    leAt (s.centralExtra ++ rest) 20 8 = s.hdrOff := by
  have hs : s.size % 256 ^ 8 = s.size := Nat.mod_eq_of_lt (Nat.lt_of_lt_of_le hsize (by decide))
  have ho : s.hdrOff % 256 ^ 8 = s.hdrOff := Nat.mod_eq_of_lt (Nat.lt_of_lt_of_le hoff (by decide))
  simp only [centralExtra, List.append_assoc]
  refine ⟨?_, ?_, ?_, ?_, ?_⟩
  all_goals
    repeat rw [leAt_le_append _ _ (by decide)]
    rw [leAt_le]
  all_goals first | exact hs | exact ho | rfl

end Slot

/-! ## The archive as a reader sees it -/

/-- An entry of the archive: its slot, placed, and its bytes. -/
structure Item where
  slot : Slot
  data : Bytes

namespace Item

def sum (p : Item) : UInt32 := crc32 p.data

/-- What stands in front of the central directory. -/
def front (p : Item) : Bytes := p.slot.header ++ p.data ++ p.slot.descriptor p.sum

/-- The record in the central directory. -/
def record (p : Item) : Bytes := p.slot.central p.sum

theorem length_front (p : Item) :
    p.front.length = p.slot.headerLen + p.data.length + descLen := by
  simp only [front, List.length_append, Slot.length_header, Slot.length_descriptor]

end Item

/-- Entries that follow each other from `off` on, with as many bytes as their slots say and names
that fit a record. -/
def Follow : Nat → List Item → Prop
  | _, [] => True
  | off, p :: ps =>
    p.slot.hdrOff = off ∧ p.data.length = p.slot.size ∧ (utf8 p.slot.name).length ≤ u16Max ∧
      Follow (off + p.front.length) ps

theorem follow_append {off : Nat} {ps qs : List Item} (hp : Follow off ps)
    (hq : Follow (off + (ps.flatMap Item.front).length) qs) : Follow off (ps ++ qs) := by
  induction ps generalizing off with
  | nil => simpa using hq
  | cons p ps ih =>
    obtain ⟨hoff, hlen, hname, hrest⟩ := hp
    refine ⟨hoff, hlen, hname, ih hrest ?_⟩
    rw [List.flatMap_cons, List.length_append, ← Nat.add_assoc] at hq
    exact hq

/-- Every entry stands where its slot says. -/
theorem Follow.split {off : Nat} {ps : List Item} (h : Follow off ps) {p : Item} (hp : p ∈ ps) :
    ∃ a b, ps.flatMap Item.front = a ++ p.front ++ b ∧ p.slot.hdrOff = off + a.length ∧
      p.data.length = p.slot.size ∧ (utf8 p.slot.name).length ≤ u16Max := by
  induction ps generalizing off with
  | nil => cases hp
  | cons q ps ih =>
    obtain ⟨hoff, hlen, hname, hrest⟩ := h
    rcases List.mem_cons.1 hp with rfl | hp
    · refine ⟨[], ps.flatMap Item.front, ?_, hoff, hlen, hname⟩
      rw [List.flatMap_cons, List.nil_append]
    · obtain ⟨a, b, hab, hpoff, hrest⟩ := ih hrest hp
      refine ⟨q.front ++ a, b, ?_, ?_, hrest⟩
      · rw [List.flatMap_cons, hab]
        simp only [List.append_assoc]
      · rw [hpoff, List.length_append, Nat.add_assoc]

/-- The zip64 end record, its locator and the end record. -/
def endRecords (n cdLen cdOff : Nat) : Bytes :=
  le 4 eocd64Sig ++ le 8 44 ++ le 2 ((3 <<< 8) ||| 45) ++ le 2 45 ++ le 4 0 ++ le 4 0
    ++ le 8 n ++ le 8 n ++ le 8 cdLen ++ le 8 cdOff
    ++ (le 4 loc64Sig ++ le 4 0 ++ le 8 (cdOff + cdLen) ++ le 4 1)
    ++ (le 4 eocdSig ++ le 2 0 ++ le 2 0 ++ le 2 u16Max ++ le 2 u16Max
      ++ le 4 u32Max ++ le 4 u32Max ++ le 2 0)

/-- An archive of the given entries. -/
def archiveOf (ps : List Item) : Bytes :=
  ps.flatMap Item.front ++ ps.flatMap Item.record
    ++ endRecords ps.length (ps.flatMap Item.record).length (ps.flatMap Item.front).length

/-! ## The entries of a job -/

theorem crc32_nil : crc32 [] = 0 := by decide

theorem placeEmpties_follow (at_ : Nat) (ss : List Slot) (hsize : ∀ s ∈ ss, s.size = 0)
    (hname : ∀ s ∈ ss, (utf8 s.name).length ≤ u16Max) :
    Follow at_ ((placeEmpties at_ ss).map fun s => ⟨s, []⟩) ∧
      (placeEmpties at_ ss).getLast?.elim at_ Slot.end_ =
        at_ + (((placeEmpties at_ ss).map fun s => Item.mk s []).flatMap Item.front).length := by
  induction ss generalizing at_ with
  | nil => exact ⟨trivial, rfl⟩
  | cons s ss ih =>
    have hzero : s.size = 0 := hsize s List.mem_cons_self
    have hend : (s.placedAt at_).end_ = at_ + (Item.mk (s.placedAt at_) []).front.length := by
      have hplace : (s.placedAt at_).end_ = at_ + s.headerLen + s.size + descLen := rfl
      have hhead : (s.placedAt at_).headerLen = s.headerLen := rfl
      rw [Item.length_front, hplace, hhead, hzero, List.length_nil]
      omega
    obtain ⟨hfollow, hlast⟩ := ih (s.placedAt at_).end_
      (fun t ht => hsize t (List.mem_cons_of_mem s ht))
      (fun t ht => hname t (List.mem_cons_of_mem s ht))
    constructor
    · rw [placeEmpties, List.map_cons]
      refine ⟨rfl, hzero.symm, hname s List.mem_cons_self, ?_⟩
      rw [← hend]
      exact hfollow
    · rw [placeEmpties, List.map_cons, List.flatMap_cons, List.length_append, ← Nat.add_assoc,
        ← hend, ← hlast, List.getLast?_cons]
      cases (placeEmpties (s.placedAt at_).end_ ss).getLast? with
      | none => rfl
      | some t => rfl

namespace Job

variable (J : Job)

/-- The entries of the archive in the order they are written. -/
def placed : List Item :=
  J.slots.map (fun t => ⟨t, J.content t.id⟩)
    ++ (placeEmpties (J.body J.slots.length).length J.layout.empties).map fun s => ⟨s, []⟩

/-- The central directory of the archive. -/
def directory : Bytes := J.placed.flatMap Item.record

end Job

/-- A file as the archive is to hold it. -/
structure Stored where
  name : String
  data : Bytes
  deriving DecidableEq, Repr

def Item.stored (p : Item) : Stored := ⟨p.slot.name, p.data⟩

/-- The files of a manifest, each with its place in it, the non-empty ones or the empty ones. -/
def filesOf (empty : Bool) (i : Nat) (es : List Entry) : List (Entry × Nat) :=
  (es.zipIdx i).filter fun p => p.1.kind = .file ∧ (p.1.size = 0 ↔ empty = true)

/-- The files of the manifest: the non-empty ones in its order, then the empty ones. -/
def Job.files (J : Job) : List Stored :=
  (filesOf false 0 J.m.entries).map
      (fun p => ⟨zipEntryName J.single J.base p.1.path, J.content p.2⟩)
    ++ (filesOf true 0 J.m.entries).map fun p => ⟨zipEntryName J.single J.base p.1.path, []⟩

theorem filesOf_cons (empty : Bool) (i : Nat) (e : Entry) (es : List Entry) :
    filesOf empty i (e :: es) =
      if e.kind = .file ∧ (e.size = 0 ↔ empty = true) then (e, i) :: filesOf empty (i + 1) es
      else filesOf empty (i + 1) es := by
  rw [filesOf, List.zipIdx_cons, List.filter_cons]
  simp only [decide_eq_true_eq]
  rfl

/-- The slots of a layout are the manifest's non-empty files and its empties the empty ones, with
names that fit a record. -/
theorem buildFrom_files {single : Bool} {base : String} {i off : Nat} {es : List Entry}
    {l : Layout} (h : Layout.buildFrom single base i off es = .ok l) :
    l.slots.map (fun s => (s.name, s.id)) =
        (filesOf false i es).map (fun p => (zipEntryName single base p.1.path, p.2)) ∧
    l.empties = (filesOf true i es).map (fun p => Slot.ofEntry single base p.2 p.1) ∧
    (∀ s ∈ l.slots ++ l.empties, (utf8 s.name).length ≤ u16Max) ∧
    ∀ s ∈ l.empties, s.size = 0 := by
  induction es generalizing i off l with
  | nil =>
    rw [Layout.buildFrom, Except.ok.injEq] at h
    subst h
    refine ⟨rfl, rfl, ?_, ?_⟩
    all_goals
      intro s hs
      cases hs
  | cons e es ih =>
    rw [filesOf_cons, filesOf_cons]
    rcases buildFrom_cons h with
      ⟨hkind, hl⟩ | ⟨hkind, hname, ⟨hsize, l', hl, rfl⟩ | ⟨hsize, l', hl, rfl⟩⟩
    · rw [if_neg (fun hc => hkind hc.1), if_neg (fun hc => hkind hc.1)]
      exact ih hl
    · obtain ⟨hslots, hempties, hnames, hzero⟩ := ih hl
      rw [if_neg (by simp [hsize]), if_pos (by simp [hkind, hsize])]
      refine ⟨hslots, ?_, ?_, ?_⟩
      · rw [List.map_cons, hempties]
      · intro s hs
        rcases List.mem_append.1 hs with hs | hs
        · exact hnames s (List.mem_append_left _ hs)
        · rcases List.mem_cons.1 hs with rfl | hs
          · exact hname
          · exact hnames s (List.mem_append_right _ hs)
      · intro s hs
        rcases List.mem_cons.1 hs with rfl | hs
        · exact hsize
        · exact hzero s hs
    · obtain ⟨hslots, hempties, hnames, hzero⟩ := ih hl
      have hne : e.size ≠ 0 := Nat.pos_iff_ne_zero.1 hsize
      rw [if_pos (by simp [hkind, hne]), if_neg (by simp [hne])]
      refine ⟨?_, hempties, ?_, hzero⟩
      · rw [List.map_cons, List.map_cons, hslots]
        rfl
      · intro s hs
        rcases List.mem_cons.1 hs with rfl | hs
        · exact hname
        · exact hnames s hs

namespace Job

variable (J : Job)

theorem flatMap_front_slots (ts : List Slot) :
    (ts.map fun t => Item.mk t (J.content t.id)).flatMap Item.front = ts.flatMap J.entryBytes := by
  rw [List.flatMap_map]
  rfl

theorem body_all : J.body J.slots.length = J.slots.flatMap J.entryBytes := by
  rw [body, List.take_length]

theorem follow_slots {off : Nat} {ts : List Slot} (hp : Placed off ts)
    (hw : ∀ t ∈ ts, (J.content t.id).length = t.size)
    (hname : ∀ t ∈ ts, (utf8 t.name).length ≤ u16Max) :
    Follow off (ts.map fun t => ⟨t, J.content t.id⟩) := by
  induction ts generalizing off with
  | nil => trivial
  | cons t ts ih =>
    obtain ⟨hoff, hdata, -, hrest⟩ := hp
    have hlen := hw t List.mem_cons_self
    have hend : t.end_ = off + (Item.mk t (J.content t.id)).front.length := by
      have hfront := Item.length_front ⟨t, J.content t.id⟩
      simp only [hlen] at hfront
      rw [hfront, Slot.end_, hdata]
      omega
    rw [List.map_cons]
    refine ⟨hoff, hlen, hname t List.mem_cons_self, ?_⟩
    rw [← hend]
    exact ih hrest (fun u hu => hw u (List.mem_cons_of_mem t hu))
      (fun u hu => hname u (List.mem_cons_of_mem t hu))

/-- The entries of a job follow each other without a gap. -/
theorem placed_follow : Follow 0 J.placed := by
  obtain ⟨-, -, hnames, hzero⟩ := buildFrom_files J.built
  refine follow_append ?_ ?_
  · exact J.follow_slots (build_placed J.built) J.whole
      fun t ht => hnames t (List.mem_append_left _ ht)
  · rw [flatMap_front_slots, ← body_all, Nat.zero_add]
    exact (placeEmpties_follow _ _ hzero fun t ht => hnames t (List.mem_append_right _ ht)).1

/-- The archive that the sink writes is that of its entries. -/
theorem archive_eq : J.archive = archiveOf J.placed := by
  obtain ⟨-, -, hnames, hzero⟩ := buildFrom_files J.built
  obtain ⟨-, hlast⟩ := placeEmpties_follow (J.body J.slots.length).length _ hzero
    fun t ht => hnames t (List.mem_append_right _ ht)
  have hfront : J.placed.flatMap Item.front = J.body J.slots.length ++
      (placeEmpties (J.body J.slots.length).length J.layout.empties).flatMap
        fun s => s.header ++ s.descriptor 0 := by
    rw [placed, List.flatMap_append, flatMap_front_slots, ← body_all, List.flatMap_map]
    simp only [Item.front, Item.sum, List.append_nil, crc32_nil]
  have hrecord : J.placed.flatMap Item.record =
      ((J.layout.slots.zip (J.slots.map J.sum)).flatMap fun p => p.1.central p.2) ++
        (placeEmpties (J.body J.slots.length).length J.layout.empties).flatMap
          fun s => s.central 0 := by
    have hempty : (fun s : Slot => Item.record ⟨s, []⟩) = fun s => s.central 0 := by
      funext s
      rw [Item.record, Item.sum, crc32_nil]
    have hfile : (fun t : Slot => Item.record ⟨t, J.content t.id⟩) =
        fun t => t.central (J.sum t) := by
      funext t
      rw [Item.record, Item.sum, sum]
    have hzip : J.slots.zip (J.slots.map J.sum) = J.slots.map fun t => (t, J.sum t) :=
      by simpa using List.zip_map' (f := id) (g := J.sum) (l := J.slots)
    rw [placed, List.flatMap_append, List.flatMap_map, List.flatMap_map, hempty, hfile, ← slots,
      hzip, List.flatMap_map]
  have hcount : J.placed.length =
      J.layout.slots.length
        + (placeEmpties (J.body J.slots.length).length J.layout.empties).length := by
    rw [placed, List.length_append, List.length_map, List.length_map]
    rfl
  rw [List.flatMap_map] at hlast
  simp only [Item.front, Item.sum, List.append_nil, crc32_nil] at hlast
  have hoff : (placeEmpties (J.body J.slots.length).length J.layout.empties).getLast?.elim
      (J.body J.slots.length).length Slot.end_ = (J.placed.flatMap Item.front).length := by
    rw [hfront, List.length_append]
    exact hlast
  unfold archive tailBytes archiveOf endRecords
  dsimp only
  rw [hoff, ← hrecord, ← hcount, hfront]
  simp only [List.append_assoc]

/-- The files in the order of their entries. -/
theorem stored_placed : J.placed.map Item.stored = J.files := by
  obtain ⟨hslots, hempties, -, -⟩ := buildFrom_files J.built
  rw [placed, files, List.map_append, List.map_map, List.map_map]
  congr 1
  · have : ∀ ts : List Slot, ts.map (Item.stored ∘ fun t => ⟨t, J.content t.id⟩) =
        (ts.map fun s => (s.name, s.id)).map fun p => ⟨p.1, J.content p.2⟩ := by
      intro ts
      rw [List.map_map]
      rfl
    rw [this, slots, hslots, List.map_map]
    rfl
  · have : ∀ at_ ss, (placeEmpties at_ ss).map (Item.stored ∘ fun s => ⟨s, []⟩) =
        ss.map fun s => ⟨s.name, []⟩ := by
      intro at_ ss
      induction ss generalizing at_ with
      | nil => rfl
      | cons s ss ih => rw [placeEmpties, List.map_cons, List.map_cons, ih]; rfl
    rw [this, hempties, List.map_map]
    rfl

end Job

/-! ## The end records -/

theorem length_endRecords (n cdLen cdOff : Nat) : (endRecords n cdLen cdOff).length = 98 := by
  simp only [endRecords, List.length_append, length_le]

theorem endRecords_fields {n cdLen cdOff : Nat} (hn : n < 2 ^ 64) (hsum : cdOff + cdLen < 2 ^ 64) :
    leAt (endRecords n cdLen cdOff) 0 4 = ZipCd.zip64EocdSig ∧
    leAt (endRecords n cdLen cdOff) 32 8 = n ∧
    leAt (endRecords n cdLen cdOff) 40 8 = cdLen ∧
    leAt (endRecords n cdLen cdOff) 48 8 = cdOff ∧
    leAt (endRecords n cdLen cdOff) 56 4 = ZipCd.zip64EocdLocatorSig ∧
    leAt (endRecords n cdLen cdOff) 64 8 = cdOff + cdLen ∧
    leAt (endRecords n cdLen cdOff) 76 4 = ZipCd.eocdSig ∧
    leAt (endRecords n cdLen cdOff) 86 2 = ZipCd.zip64SentinelU16 ∧
    leAt (endRecords n cdLen cdOff) 96 2 = 0 := by
  have h64 : (256 : Nat) ^ 8 = 2 ^ 64 := by decide
  have hcount : n % 256 ^ 8 = n := Nat.mod_eq_of_lt (by omega)
  have hlen : cdLen % 256 ^ 8 = cdLen := Nat.mod_eq_of_lt (by omega)
  have hoff : cdOff % 256 ^ 8 = cdOff := Nat.mod_eq_of_lt (by omega)
  have hend : (cdOff + cdLen) % 256 ^ 8 = cdOff + cdLen := Nat.mod_eq_of_lt (by omega)
  have hlast : leAt (le 2 0) 0 2 = 0 := by decide
  simp only [endRecords, List.append_assoc]
  refine ⟨?_, ?_, ?_, ?_, ?_, ?_, ?_, ?_, ?_⟩
  all_goals
    repeat rw [leAt_le_append _ _ (by decide)]
    try rw [leAt_le]
  · rfl
  · exact hcount
  · exact hlen
  · exact hoff
  · rfl
  · exact hend
  · rfl
  · rfl
  · exact hlast

/-- **The end record is found.**  The scan starts at the last 22 bytes and stops there, whatever
the bytes before them look like, and its sentinels lead to the zip64 record. -/
theorem locate_archive (a : Bytes) {n cdLen cdOff : Nat} (hn : n < 2 ^ 64)
    (ha : cdOff + cdLen = a.length) (hfile : a.length + 98 < 2 ^ 64) :
    ZipCd.locateCentralDirectory (a ++ endRecords n cdLen cdOff) = .ok (cdOff, cdLen, n) := by
  obtain ⟨hsig64, hcount, hsize, hoff, hloc, hat, hsig, htotal, hcomment⟩ :=
    endRecords_fields hn (show cdOff + cdLen < 2 ^ 64 by omega)
  have hlen : (a ++ endRecords n cdLen cdOff).length = a.length + 98 := by
    rw [List.length_append, length_endRecords]
  have hread : ∀ k width, leAt (a ++ endRecords n cdLen cdOff) (a.length + k) width =
      leAt (endRecords n cdLen cdOff) k width := by
    intro k width
    rw [leAt_append _ _ (by omega), Nat.add_sub_cancel_left]
  generalize hf : a ++ endRecords n cdLen cdOff = file at hlen hread
  have hwindow : ZipCd.eocdScanWindow = 65557 := rfl
  generalize hstart : file.length - min ZipCd.eocdScanWindow file.length = start
  have htail : (file.drop start).length = file.length - start := List.length_drop ..
  have hplace : start + ((file.drop start).length - 22) = a.length + 76 := by omega
  have hscan : ZipCd.scanEocd (file.drop start) ((file.drop start).length - 22) =
      some ((file.drop start).length - 22) := by
    refine ZipCd.scanEocd_here ?_
    rw [ZipCd.isEocd, leAt_drop, leAt_drop, ← Nat.add_assoc, hplace, hread,
      Nat.add_assoc a.length, hread, hsig, hcomment]
    simp only [decide_true, Bool.true_and, decide_eq_true_eq]
    omega
  rw [ZipCd.locateCentralDirectory]
  simp only [hstart]
  rw [if_pos (by omega), hscan]
  simp only [leAt_drop, ← Nat.add_assoc, hplace]
  simp only [Nat.add_assoc a.length, hread, htotal, decide_true, Bool.true_or, Bool.not_true]
  have hlocator : a.length + 76 - 20 = a.length + 56 := by omega
  rw [if_neg (by simp), if_neg (by omega), hlocator, hread, hloc, if_neg (by simp)]
  simp only [Nat.add_assoc a.length, hread, hat, ha]
  have hzero : leAt file a.length 4 = ZipCd.zip64EocdSig := by
    have := hread 0 4
    rwa [Nat.add_zero, hsig64] at this
  rw [if_neg (by omega), hzero, if_neg (by simp), hoff, hsize, hcount]

/-! ## The central directory -/

/-- What the reader says of a file. -/
def Stored.entry (f : Stored) : ZipCd.CentralDirEntry :=
  ⟨f.name, f.data.length, f.name.toList.getLast? = some '/'⟩

/-- An entry whose numbers fit their fields. -/
def Fits (p : Item) : Prop :=
  (utf8 p.slot.name).length ≤ u16Max ∧ p.data.length = p.slot.size ∧ p.slot.size < 2 ^ 64 ∧
    p.slot.hdrOff < 2 ^ 64

/-- `r` begins with the record of `p` and goes on with `rest`. -/
structure Begins (p : Item) (r rest : Bytes) : Prop where
  sig : leAt r 0 4 = ZipCd.cdfhSig
  crc : leAt r 16 4 = p.sum.toNat
  stored32 : leAt r 20 4 = ZipCd.zip64SentinelU32
  size32 : leAt r 24 4 = ZipCd.zip64SentinelU32
  nameLen : leAt r 28 2 = (utf8 p.slot.name).length
  extraLen : leAt r 30 2 = 28
  commentLen : leAt r 32 2 = 0
  offset32 : leAt r 42 4 = ZipCd.zip64SentinelU32
  name : r.drop 46 = utf8 p.slot.name ++ (p.slot.centralExtra ++ rest)
  extra : r.drop (46 + (utf8 p.slot.name).length) = p.slot.centralExtra ++ rest
  after : r.drop (46 + (utf8 p.slot.name).length + 28) = rest
  length : r.length = 46 + (utf8 p.slot.name).length + 28 + rest.length

theorem begins_record (p : Item) (rest : Bytes) (hname : (utf8 p.slot.name).length ≤ u16Max) :
    Begins p (p.record ++ rest) rest := by
  have hcut : p.record ++ rest =
      p.slot.centralHead p.sum ++ (utf8 p.slot.name ++ (p.slot.centralExtra ++ rest)) := by
    rw [Item.record, Slot.central_eq]
    simp only [List.append_assoc]
  have hhead := p.slot.length_centralHead p.sum
  have hextra := p.slot.length_centralExtra
  obtain ⟨hsig, hcrc, hstored, hsize, hn, he, hc, hoff⟩ := p.slot.centralHead_fields p.sum
    (utf8 p.slot.name ++ (p.slot.centralExtra ++ rest)) hname
  rw [hcut]
  have hafter : (p.slot.centralHead p.sum ++ (utf8 p.slot.name ++ (p.slot.centralExtra ++ rest))).drop
      46 = utf8 p.slot.name ++ (p.slot.centralExtra ++ rest) := List.drop_left' hhead
  refine ⟨hsig, hcrc, hstored, hsize, hn, he, hc, hoff, hafter, ?_, ?_, ?_⟩
  · rw [← List.drop_drop, hafter, List.drop_left]
  · rw [← List.drop_drop, ← List.drop_drop, hafter, List.drop_left, List.drop_left' hextra]
  · simp only [List.length_append, hhead, hextra]
    omega

/-- The extra of a record resolves its size. -/
theorem zip64_centralExtra (s : Slot) (hsize : s.size < 2 ^ 64) (hoff : s.hdrOff < 2 ^ 64) :
    ZipCd.zip64UncompressedFromExtra s.centralExtra = some s.size := by
  obtain ⟨hid, hlen, hval, -⟩ := s.centralExtra_fields [] hsize hoff
  rw [List.append_nil] at hid hlen hval
  have hex : s.centralExtra.length = 27 + 1 := s.length_centralExtra
  rw [ZipCd.zip64UncompressedFromExtra, hex, ZipCd.zip64Uncompressed]
  simp only [hid, hlen, hval, hex, ZipCd.zip64ExtraId]
  rw [if_neg (by decide), if_neg (by decide), if_pos ⟨trivial, by decide⟩]

variable {ps : List Item} {p : Item}

/-- **The walk takes one record after the other**, each for one entry. -/
theorem walk_records (h : ∀ p ∈ ps, Fits p) {turns : Nat} (cursor : Nat) (ht : ps.length ≤ turns) :
    ZipCd.walk turns cursor (ps.flatMap Item.record) =
      .ok (ps.map fun p => p.stored.entry) := by
  induction ps generalizing turns cursor with
  | nil =>
    cases turns with
    | zero => rfl
    | succ turns => rw [ZipCd.walk, if_pos (by decide)]; rfl
  | cons p ps ih =>
    rw [List.length_cons] at ht
    obtain ⟨turns, rfl⟩ : ∃ k, turns = k + 1 := ⟨turns - 1, by omega⟩
    obtain ⟨hname, hdata, hsize, hoff⟩ := h p List.mem_cons_self
    have hrest := ih (fun q hq => h q (List.mem_cons_of_mem p hq))
      (cursor + (46 + (utf8 p.slot.name).length + 28)) (Nat.le_of_succ_le_succ ht)
    have hb := begins_record p (ps.flatMap Item.record) hname
    have hlen := hb.length
    have hfixed : ZipCd.cdfhFixedLen = 46 := rfl
    rw [List.flatMap_cons, ZipCd.walk]
    simp only [hb.sig, hb.size32, hb.nameLen, hb.extraLen, hb.commentLen, hb.name, hb.extra,
      hb.after, hfixed, Nat.add_zero, hrest, List.take_left, List.take_left' p.slot.length_centralExtra,
      zip64_centralExtra _ hsize hoff]
    rw [if_neg (by omega), if_neg (not_not.2 rfl), if_neg (by omega), if_pos trivial]
    simp only [utf8, ZipCd.zipNameFromRaw_toUTF8]
    rw [List.map_cons, ← hdata]
    rfl

/-! ## The records and what they point at -/

/-- A record of a central directory with its zip64 values, in the order the format gives them. -/
structure CdRecord where
  name : Bytes
  crc : Nat
  stored : Nat
  size : Nat
  offset : Nat
  deriving DecidableEq, Repr

/-- The record that `r` begins with, every 32-bit field of it a sentinel. -/
def recordOf (r : Bytes) : Option CdRecord :=
  let extra := r.drop (46 + leAt r 28 2)
  if leAt r 0 4 = ZipCd.cdfhSig ∧ leAt r 20 4 = ZipCd.zip64SentinelU32
      ∧ leAt r 24 4 = ZipCd.zip64SentinelU32 ∧ leAt r 42 4 = ZipCd.zip64SentinelU32
      ∧ leAt extra 0 2 = ZipCd.zip64ExtraId ∧ leAt extra 2 2 = 24 then
    some ⟨(r.drop 46).take (leAt r 28 2), leAt r 16 4, leAt extra 12 8, leAt extra 4 8,
      leAt extra 20 8⟩
  else none

/-- The records of a central directory. -/
def recordsOf : Nat → Bytes → List (Option CdRecord)
  | 0, _ => []
  | turns + 1, r =>
    if r.length < 46 then []
    else recordOf r ::
      recordsOf turns (r.drop (46 + leAt r 28 2 + leAt r 30 2 + leAt r 32 2))

/-- A local header, `size` bytes of data and a data descriptor. -/
structure LocalEntry where
  name : Bytes
  data : Bytes
  crc : Nat
  stored : Nat
  size : Nat
  deriving DecidableEq, Repr

def localAt (file : Bytes) (off size : Nat) : Option LocalEntry :=
  let h := file.drop off
  let d := h.drop (30 + leAt h 26 2 + leAt h 28 2)
  let desc := d.drop size
  if leAt h 0 4 = localSig ∧ leAt desc 0 4 = descSig then
    some ⟨(h.drop 30).take (leAt h 26 2), d.take size, leAt desc 4 4, leAt desc 8 8,
      leAt desc 16 8⟩
  else none

/-- The record is that of the file, and what it points at is the file's entry. -/
def PointsAt (archive : Bytes) (r : Option CdRecord) (f : Stored) : Prop :=
  ∃ off,
    r = some ⟨utf8 f.name, (crc32 f.data).toNat, f.data.length, f.data.length, off⟩ ∧
    localAt archive off f.data.length =
      some ⟨utf8 f.name, f.data, (crc32 f.data).toNat, f.data.length, f.data.length⟩

/-- The fields of a local header, whatever follows it. -/
theorem headerHead_fields (s : Slot) (rest : Bytes) (hname : (utf8 s.name).length ≤ u16Max) :
    leAt (s.headerHead ++ rest) 0 4 = localSig ∧
    leAt (s.headerHead ++ rest) 26 2 = (utf8 s.name).length ∧
    leAt (s.headerHead ++ rest) 28 2 = 20 := by
  have hlen : (utf8 s.name).length % 256 ^ 2 = (utf8 s.name).length :=
    Nat.mod_eq_of_lt (Nat.lt_of_le_of_lt hname (by decide))
  simp only [Slot.headerHead, List.append_assoc]
  refine ⟨?_, ?_, ?_⟩
  all_goals
    repeat rw [leAt_le_append _ _ (by decide)]
    rw [leAt_le]
  · rfl
  · exact hlen
  · rfl

/-- The fields of a descriptor, whatever follows it. -/
theorem descriptor_fields (s : Slot) (crc : UInt32) (rest : Bytes) (hsize : s.size < 2 ^ 64) :
    leAt (s.descriptor crc ++ rest) 0 4 = descSig ∧
    leAt (s.descriptor crc ++ rest) 4 4 = crc.toNat ∧
    leAt (s.descriptor crc ++ rest) 8 8 = s.size ∧
    leAt (s.descriptor crc ++ rest) 16 8 = s.size := by
  have hcrc : crc.toNat % 256 ^ 4 = crc.toNat := Nat.mod_eq_of_lt crc.toNat_lt
  have hs : s.size % 256 ^ 8 = s.size := Nat.mod_eq_of_lt (Nat.lt_of_lt_of_le hsize (by decide))
  simp only [Slot.descriptor, List.append_assoc]
  refine ⟨?_, ?_, ?_, ?_⟩
  all_goals
    repeat rw [leAt_le_append _ _ (by decide)]
    rw [leAt_le]
  · rfl
  · exact hcrc
  · exact hs
  · exact hs

/-- The front part of an entry, wherever it stands. -/
theorem localAt_front (a b : Bytes) (h : Fits p) :
    localAt (a ++ p.front ++ b) a.length p.data.length =
      some ⟨utf8 p.slot.name, p.data, p.sum.toNat, p.data.length, p.data.length⟩ := by
  obtain ⟨hname, hdata, hsize, -⟩ := h
  have hcut : p.front ++ b = p.slot.headerHead ++ (utf8 p.slot.name
      ++ ((le 2 1 ++ le 2 16 ++ le 8 0 ++ le 8 0) ++ (p.data
      ++ (p.slot.descriptor p.sum ++ b)))) := by
    rw [Item.front, Slot.header_eq]
    simp only [List.append_assoc]
  have hextra : (le 2 1 ++ le 2 16 ++ le 8 0 ++ le 8 0).length = 20 := by
    simp only [List.length_append, length_le]
  obtain ⟨hsig, hn, he⟩ := headerHead_fields p.slot (utf8 p.slot.name
      ++ ((le 2 1 ++ le 2 16 ++ le 8 0 ++ le 8 0) ++ (p.data
      ++ (p.slot.descriptor p.sum ++ b)))) hname
  obtain ⟨hdsig, hcrc, hst, hsz⟩ := descriptor_fields p.slot p.sum b hsize
  have hhead := p.slot.length_headerHead
  rw [localAt, List.append_assoc, List.drop_left, hcut]
  simp only [hsig, hn, he, ← List.drop_drop, List.drop_left' hhead, List.drop_left,
    List.take_left, List.drop_left' hextra, hdsig, hcrc, hst, hsz, ← hdata, and_self, if_true]

/-- A record is that of its entry. -/
theorem recordOf_record (rest : Bytes) (h : Fits p) :
    recordOf (p.record ++ rest) = some ⟨utf8 p.slot.name, p.sum.toNat, p.data.length,
      p.data.length, p.slot.hdrOff⟩ := by
  obtain ⟨hname, hdata, hsize, hoff⟩ := h
  have hb := begins_record p rest hname
  obtain ⟨hid, hlen, hsz, hst, ho⟩ := p.slot.centralExtra_fields rest hsize hoff
  rw [recordOf]
  simp only [hb.sig, hb.stored32, hb.size32, hb.offset32, hb.nameLen, hb.extra, hb.name, hb.crc,
    hid, hlen, hsz, hst, ho, ZipCd.zip64ExtraId, List.take_left, and_self, if_true, hdata]

/-- **The records are those of the entries, in their order**, whatever else the archive has. -/
theorem recordsOf_points {archive : Bytes}
    (h : ∀ p ∈ ps, Fits p ∧ ∃ a b, archive = a ++ p.front ++ b ∧ a.length = p.slot.hdrOff)
    {turns : Nat} (ht : ps.length ≤ turns) :
    List.Forall₂ (PointsAt archive) (recordsOf turns (ps.flatMap Item.record))
      (ps.map Item.stored) := by
  induction ps generalizing turns with
  | nil =>
    cases turns with
    | zero => exact .nil
    | succ turns =>
      rw [recordsOf, if_pos (by decide)]
      exact .nil
  | cons p ps ih =>
    rw [List.length_cons] at ht
    obtain ⟨turns, rfl⟩ : ∃ k, turns = k + 1 := ⟨turns - 1, by omega⟩
    obtain ⟨hfits, a, b, harch, ha⟩ := h p List.mem_cons_self
    have hb := begins_record p (ps.flatMap Item.record) hfits.1
    have hlen := hb.length
    rw [List.flatMap_cons, recordsOf, if_neg (by omega), recordOf_record _ hfits, List.map_cons]
    simp only [hb.nameLen, hb.extraLen, hb.commentLen, Nat.add_zero, hb.after]
    refine .cons ⟨p.slot.hdrOff, rfl, ?_⟩ ?_
    · rw [harch, ← ha]
      exact localAt_front a b hfits
    · exact ih (fun q hq => h q (List.mem_cons_of_mem p hq)) (Nat.le_of_succ_le_succ ht)

/-! ## The whole archive -/

theorem length_records (ps : List Item) : ps.length ≤ (ps.flatMap Item.record).length := by
  induction ps with
  | nil => exact Nat.le_refl 0
  | cons p ps ih =>
    rw [List.flatMap_cons, List.length_append, List.length_cons, Item.record, Slot.length_central]
    omega

/-- The entries of an archive that is a file: every number fits its field. -/
theorem Follow.fits (h : Follow 0 ps) (hfile : (archiveOf ps).length < 2 ^ 64) (hp : p ∈ ps) :
    Fits p ∧ ∃ a b, archiveOf ps = a ++ p.front ++ b ∧ a.length = p.slot.hdrOff := by
  obtain ⟨a, b, hab, hoff, hlen, hname⟩ := h.split hp
  rw [Nat.zero_add] at hoff
  have hsplit : archiveOf ps = a ++ p.front ++ (b ++ (ps.flatMap Item.record ++
      endRecords ps.length (ps.flatMap Item.record).length (ps.flatMap Item.front).length)) := by
    rw [archiveOf, hab]
    simp only [List.append_assoc]
  have hfront := p.length_front
  have htotal : a.length + p.front.length ≤ (archiveOf ps).length := by
    rw [hsplit]
    simp only [List.length_append]
    omega
  exact ⟨⟨hname, hlen, by omega, by omega⟩, a, _, hsplit, hoff.symm⟩

theorem locate_archiveOf (hfile : (archiveOf ps).length < 2 ^ 64) :
    ZipCd.locateCentralDirectory (archiveOf ps) =
      .ok ((ps.flatMap Item.front).length, (ps.flatMap Item.record).length, ps.length) := by
  have hlen : (archiveOf ps).length =
      (ps.flatMap Item.front ++ ps.flatMap Item.record).length + 98 := by
    rw [archiveOf, List.length_append, length_endRecords]
  have hcount := length_records ps
  rw [List.length_append] at hlen
  rw [archiveOf]
  refine locate_archive _ ?_ ?_ ?_
  · omega
  · rw [List.length_append]
  · rw [List.length_append]
    omega

theorem drop_front (ps : List Item) :
    ((archiveOf ps).drop (ps.flatMap Item.front).length).take (ps.flatMap Item.record).length =
      ps.flatMap Item.record := by
  rw [archiveOf, List.append_assoc, List.drop_left, List.take_left]

theorem read_archiveOf (h : Follow 0 ps) (hfile : (archiveOf ps).length < 2 ^ 64)
    (hdir : (ps.flatMap Item.record).length ≤ ZipCd.maxCentralDirBytes) :
    ZipCd.readCentralDirectory (archiveOf ps) = .ok (ps.map fun p => p.stored.entry) := by
  have hlen : (archiveOf ps).length =
      (ps.flatMap Item.front).length + (ps.flatMap Item.record).length + 98 := by
    rw [archiveOf, List.length_append, length_endRecords, List.length_append]
  rw [ZipCd.readCentralDirectory, if_neg (by omega), locate_archiveOf hfile]
  simp only [drop_front]
  split
  · rename_i hzero
    have hnil : ps = [] := List.length_eq_zero_iff.1 (by have := length_records ps; omega)
    rw [hnil]
    rfl
  · rw [if_neg (by omega), if_neg (by omega)]
    exact walk_records (fun p hp => (h.fits hfile hp).1) 0 (length_records ps)

/-- **A finished archive reads back.**  Whatever calls and crashes led to a `finish`, what the sink
leaves is one archive, the one of the uninterrupted download.  When it is a file that can exist and
its central directory is one the reader takes, the reader returns one entry per file, the non-empty
ones in manifest order and then the empty ones, and the records of the central directory are those
of the files, each pointing at the file's local header, bytes and descriptor. -/
theorem archive_reads_back (J : Job) (hfile : J.archive.length < 2 ^ 64)
    (hdir : J.directory.length ≤ ZipCd.maxCentralDirBytes) :
    (∃ u, exec step (start J none none) J.plainRun = some u ∧ u.sink.dest = some J.archive) ∧
    (∀ part dest acts t, exec step (start J part dest) (acts ++ [.finish]) = some t →
      t.sink.dest = some J.archive) ∧
    ZipCd.readCentralDirectory J.archive = .ok (J.files.map Stored.entry) ∧
    ∃ cdOff cdSize,
      ZipCd.locateCentralDirectory J.archive = .ok (cdOff, cdSize, J.files.length) ∧
      List.Forall₂ (PointsAt J.archive)
        (recordsOf cdSize ((J.archive.drop cdOff).take cdSize)) J.files := by
  have hfollow := J.placed_follow
  refine ⟨plainRun_exec J none none, fun part dest acts t ht => ?_, ?_, ?_⟩
  · obtain ⟨w, hw, hfin⟩ := (exec_append step).1 ht
    obtain ⟨t', hstep, heq⟩ := (exec_cons_eq_some step).1 hfin
    obtain rfl : t' = t := Option.some.inj heq
    exact step_finish (exec_inv step_inv (start_inv part dest) hw) hstep
  · rw [J.archive_eq] at hfile ⊢
    rw [read_archiveOf hfollow hfile hdir, ← J.stored_placed, List.map_map]
    rfl
  · rw [J.archive_eq] at hfile ⊢
    have hlen : J.placed.length = J.files.length := by
      rw [← J.stored_placed, List.length_map]
    refine ⟨_, _, hlen ▸ locate_archiveOf hfile, ?_⟩
    rw [drop_front, ← J.stored_placed]
    exact recordsOf_points (fun p hp => hfollow.fits hfile hp) (length_records J.placed)

theorem archive_reads_back_threeFiles :
    threeFiles.archive.length < 2 ^ 64 ∧
    threeFiles.directory.length ≤ ZipCd.maxCentralDirBytes ∧
    ZipCd.readCentralDirectory threeFiles.archive =
      .ok [⟨"P/a", 3, false⟩, ⟨"P/b", 2, false⟩, ⟨"P/d", 2, false⟩, ⟨"P/e", 0, false⟩] := by
  have hfile : threeFiles.archive.length < 2 ^ 64 := by decide +kernel
  have hdir : threeFiles.directory.length ≤ ZipCd.maxCentralDirBytes := by decide +kernel
  refine ⟨hfile, hdir, ?_⟩
  rw [(archive_reads_back threeFiles hfile hdir).2.2.1]
  decide +kernel

end Ps5Upload.ZipStored
