import Ps5Upload.Fpkg.Inner.Tree

/-!
# Where the files are

What a plan says about its files, in afid order: each one starts where the cursors of the layout loop
stand when its turn comes.  In the image that is a boundary right after the file before it.

* `Cursors` — what the loop carries besides the files, and what it does to it, in 64 bits
  (`Cursors.place64`) and without a bound;
* `Placed64`, `placed_layFiles` — the layout loop places files one after the other;
* `placed_of_placed64` — the cursors do not wrap where the sizes leave room;
* `Laid` — the places in the image.
-/

namespace Ps5Upload.Inner

open Utf8 Blocks

theorem block_pos : 0 < block := by decide

/-! ## Cursors -/

/-- The two cursors, the ublock with the files started in it, and where the last file started. -/
structure Cursors where
  cursor : Nat
  onDisk : Nat
  starts : Nat × Nat
  lastStart : Option Nat

namespace Cursors

/-- Before the first file. -/
def origin : Cursors := ⟨0, 0, (0, 0), none⟩

/-- Where the next file starts: spread files have units of 16 bytes of their own. -/
def start (spread : Bool) (c : Cursors) : Nat :=
  match c.lastStart with
  | some prev => if spread ∧ c.cursor / 16 = prev / 16 then (prev / 16 + 1) * 16 else c.cursor
  | none => c.cursor

/-- The count of the ublock that a file starts in. -/
def countAt (starts : Nat × Nat) (start size : Nat) : Nat × Nat :=
  let starts := if starts.1 ≠ start / ublock then (start / ublock, 0) else starts
  if 0 < size then (starts.1, starts.2 + 1) else starts

/-- The count of the ublock that the next file starts in. -/
def counted (spread : Bool) (c : Cursors) (size : Nat) : Nat × Nat := countAt c.starts (c.start spread) size

/-- A file of `size` bytes is placed. -/
def place (spread : Bool) (c : Cursors) (size : Nat) : Cursors :=
  let next := c.start spread + size
  let starts := c.counted spread size
  let onDisk := alignUp (c.onDisk + size) fileAlign
  { cursor := if spread ∧ 0 < size ∧ maxStartsPerUblock ≤ starts.2 ∧ next / ublock = starts.1 ∧
      alignUp next ublock ≤ onDisk then alignUp next ublock else next
    onDisk
    starts
    lastStart := some (c.start spread) }

/-- Where the next file starts, in 64 bits. -/
def start64 (spread : Bool) (c : Cursors) : Nat :=
  match c.lastStart with
  | some prev => if spread ∧ c.cursor / 16 = prev / 16 then wrap ((prev / 16 + 1) * 16) else c.cursor
  | none => c.cursor

/-- A file of `size` bytes is placed, in 64 bits. -/
def place64 (spread : Bool) (c : Cursors) (size : Nat) : Cursors :=
  let next := wrap (c.start64 spread + size)
  let starts := countAt c.starts (c.start64 spread) size
  let onDisk := wrap (alignUp (wrap (c.onDisk + size)) fileAlign)
  { cursor := if spread ∧ 0 < size ∧ maxStartsPerUblock ≤ starts.2 ∧ next / ublock = starts.1 ∧
      wrap (alignUp next ublock) ≤ onDisk then wrap (alignUp next ublock) else next
    onDisk
    starts
    lastStart := some (c.start64 spread) }

variable (c : Cursors) (size : Nat)

theorem cursor_le_start (spread : Bool) : c.cursor ≤ c.start spread := by
  unfold start
  split
  · split
    · omega
    · exact Nat.le_refl _
  · exact Nat.le_refl _

theorem start_le_add (spread : Bool) : c.start spread ≤ c.cursor + 16 := by
  unfold start
  split
  · split
    · omega
    · exact Nat.le_add_right _ _
  · exact Nat.le_add_right _ _

@[simp] theorem place_lastStart (spread : Bool) : (c.place spread size).lastStart = some (c.start spread) :=
  rfl

@[simp] theorem place_onDisk (spread : Bool) :
    (c.place spread size).onDisk = alignUp (c.onDisk + size) fileAlign := rfl

@[simp] theorem place_starts (spread : Bool) : (c.place spread size).starts = c.counted spread size := rfl

/-- A file's bytes end at the cursor, or in front of it. -/
theorem le_place_cursor (spread : Bool) : c.start spread + size ≤ (c.place spread size).cursor := by
  unfold place
  dsimp only
  split
  · exact le_alignUp (by decide) _
  · exact Nat.le_refl _

/-- How far the cursors have come. -/
def reach : Nat := max c.cursor c.onDisk

/-- A file moves them on by its bytes, rounded up, and a unit. -/
theorem reach_place (spread : Bool) (haligned : fileAlign ∣ c.onDisk) :
    (c.place spread size).reach ≤ c.reach + (alignUp size fileAlign + 16) := by
  have hstart := c.start_le_add spread
  have hround := le_alignUp (n := fileAlign) (by decide) size
  have hdisk : alignUp (c.onDisk + size) fileAlign = c.onDisk + alignUp size fileAlign :=
    alignUp_add (by decide) haligned size
  have hcursor : (c.place spread size).cursor ≤
      max (c.start spread + size) (alignUp (c.onDisk + size) fileAlign) := by
    unfold place
    dsimp only
    split
    · rename_i hgap
      exact hgap.2.2.2.2.trans (Nat.le_max_right _ _)
    · exact Nat.le_max_left _ _
  unfold reach
  rw [place_onDisk]
  omega

/-- Where there is room, nothing wraps. -/
theorem place64_eq (spread : Bool) (haligned : fileAlign ∣ c.onDisk)
    (h : c.reach + (alignUp size fileAlign + 16) + ublock ≤ 2 ^ 64) :
    c.start64 spread = c.start spread ∧ c.place64 spread size = c.place spread size := by
  have hle := c.start_le_add spread
  have hround := le_alignUp (n := fileAlign) (by decide) size
  have hublock : ublock = 0x40000 := rfl
  unfold reach at h
  have hstart : c.start64 spread = c.start spread := by
    unfold start64 start
    split
    · split
      · rename_i hsame
        exact Nat.mod_eq_of_lt (by omega)
      · rfl
    · rfl
  have hnext : wrap (c.start spread + size) = c.start spread + size := Nat.mod_eq_of_lt (by omega)
  have hsum : wrap (c.onDisk + size) = c.onDisk + size := Nat.mod_eq_of_lt (by omega)
  have hdisk : wrap (alignUp (c.onDisk + size) fileAlign) = alignUp (c.onDisk + size) fileAlign := by
    rw [alignUp_add (by decide) haligned]
    exact Nat.mod_eq_of_lt (by omega)
  have hgap : wrap (alignUp (c.start spread + size) ublock) = alignUp (c.start spread + size) ublock := by
    have := alignUp_lt (n := ublock) (by decide) (c.start spread + size)
    exact Nat.mod_eq_of_lt (by omega)
  refine ⟨hstart, ?_⟩
  unfold place64 place counted
  simp only [hstart, hnext, hsum, hdisk, hgap]

end Cursors

/-! ## Files one after the other -/

/-- The files are placed from `c` on, and the next one would be placed at `c'`. -/
def Placed (spread : Bool) : Cursors → List PlannedFile → Cursors → Prop
  | c, [], c' => c = c'
  | c, f :: files, c' => f.logicalOffset = c.start spread ∧ f.onDiskOffset = c.onDisk ∧
      Placed spread (c.place spread f.size) files c'

/-- The same in 64 bits. -/
def Placed64 (spread : Bool) : Cursors → List PlannedFile → Cursors → Prop
  | c, [], c' => c = c'
  | c, f :: files, c' => f.logicalOffset = c.start64 spread ∧ f.onDiskOffset = c.onDisk ∧
      Placed64 spread (c.place64 spread f.size) files c'

/-- What files take at most: their bytes, rounded up, and a unit for each. -/
def roomFor (sizes : List Nat) : Nat := (sizes.map fun size => alignUp size fileAlign + 16).sum

theorem placed_of_placed64 {spread : Bool} {files : List PlannedFile} {c c' : Cursors}
    (h : Placed64 spread c files c') (haligned : fileAlign ∣ c.onDisk)
    (hroom : c.reach + roomFor (files.map (·.size)) + ublock ≤ 2 ^ 64) :
    Placed spread c files c' ∧ fileAlign ∣ c'.onDisk ∧
      c'.reach ≤ c.reach + roomFor (files.map (·.size)) ∧
      ∀ f ∈ files, f.logicalOffset + f.size ≤ c.reach + roomFor (files.map (·.size)) := by
  induction files generalizing c with
  | nil => exact ⟨h, h ▸ haligned, h ▸ Nat.le_refl _, nofun⟩
  | cons f files ih =>
    obtain ⟨hlog, hdisk, hrest⟩ := h
    simp only [roomFor, List.map_cons, List.sum_cons] at hroom ⊢
    obtain ⟨hstart, hplace⟩ := c.place64_eq f.size spread haligned (by omega)
    have hreach := c.reach_place f.size spread haligned
    rw [hplace] at hrest
    obtain ⟨hplaced, haligned', hle, hends⟩ := ih hrest (dvd_alignUp _ _) (by unfold roomFor; omega)
    simp only [roomFor] at hle hends
    refine ⟨⟨hlog.trans hstart, hdisk, hplaced⟩, haligned', by omega, List.forall_mem_cons.2 ⟨?_, fun g hg => ?_⟩⟩
    · have hend := c.le_place_cursor f.size spread
      rw [hlog, hstart]
      unfold Cursors.reach at *
      omega
    · have := hends g hg
      omega

/-- The files are laid from `at'` on, and the next one would start at `stop`. -/
def Laid : Nat → List PlannedFile → Nat → Prop
  | at', [], stop => at' = stop
  | at', f :: files, stop => f.onDiskOffset = at' ∧ Laid (alignUp (at' + f.size) fileAlign) files stop

theorem Placed.laid {spread : Bool} {files : List PlannedFile} {c c' : Cursors}
    (h : Placed spread c files c') : Laid c.onDisk files c'.onDisk := by
  induction files generalizing c with
  | nil => exact congrArg Cursors.onDisk h
  | cons f files ih => exact ⟨h.2.1, ih h.2.2⟩

/-- Files that end inside an image of fewer than 2^64 bytes are laid without a wrap. -/
theorem Placed64.laid {spread : Bool} {files : List PlannedFile} {c c' : Cursors}
    (h : Placed64 spread c files c') {mount : Nat} (hmount : mount < 2 ^ 64) (haligned : fileAlign ∣ mount)
    (hin : ∀ f ∈ files, f.onDiskOffset + f.size ≤ mount) : Laid c.onDisk files c'.onDisk := by
  induction files generalizing c with
  | nil => exact congrArg Cursors.onDisk h
  | cons f files ih =>
    obtain ⟨-, hdisk, hrest⟩ := h
    have hend := hin f List.mem_cons_self
    rw [hdisk] at hend
    have hup := alignUp_le (by decide) haligned hend
    have hsum : wrap (c.onDisk + f.size) = c.onDisk + f.size := Nat.mod_eq_of_lt (by omega)
    have honDisk : (c.place64 spread f.size).onDisk = alignUp (c.onDisk + f.size) fileAlign := by
      unfold Cursors.place64
      dsimp only
      rw [hsum]
      exact Nat.mod_eq_of_lt (by omega)
    have hlaid := ih hrest fun g hg => hin g (List.mem_cons_of_mem _ hg)
    rw [honDisk] at hlaid
    exact ⟨hdisk, hlaid⟩

def fileAt (files : List PlannedFile) (fi : Nat) : PlannedFile := files[fi]?.getD default

/-- A file but for its place in its folder. -/
def PlannedFile.bare (f : PlannedFile) : PlannedFile := { f with direntOffset := -1 }

theorem placed_of_bare {spread : Bool} {files files' : List PlannedFile}
    (hbare : files'.map (·.bare) = files.map (·.bare)) {c c' : Cursors} (h : Placed64 spread c files c') :
    Placed64 spread c files' c' := by
  induction files generalizing files' c with
  | nil =>
    rw [List.map_nil, List.map_eq_nil_iff] at hbare
    exact hbare ▸ h
  | cons f files ih =>
    obtain ⟨f', files', rfl, hf, hrest⟩ := List.map_eq_cons_iff.1 hbare
    have hf : f'.bare = f.bare := hf
    have hlog : f'.logicalOffset = f.logicalOffset := congrArg (·.logicalOffset) hf
    have hdisk : f'.onDiskOffset = f.onDiskOffset := congrArg (·.onDiskOffset) hf
    have hsize : f'.size = f.size := congrArg (·.size) hf
    exact ⟨hlog.trans h.1, hdisk.trans h.2.1, hsize ▸ ih hrest h.2.2⟩

/-- Lists that agree in what `g` reads agree in it file by file. -/
theorem fileAt_congr {β : Type} (g : PlannedFile → β) {files files' : List PlannedFile}
    (h : files.map g = files'.map g) (fi : Nat) : g (fileAt files fi) = g (fileAt files' fi) := by
  have hget := congrArg (·[fi]?.getD (g default)) h
  simp only [List.getElem?_map, Option.getD_map] at hget
  exact hget

theorem fileAt_modify_ne {files : List PlannedFile} {fi fj : Nat} (f : PlannedFile → PlannedFile)
    (hne : fi ≠ fj) : fileAt (files.modify fi f) fj = fileAt files fj := by
  unfold fileAt
  rw [List.getElem?_modify]
  cases files[fj]? <;> simp [hne]

theorem fileAt_modify_self {files : List PlannedFile} {fi : Nat} (f : PlannedFile → PlannedFile)
    (hfi : fi < files.length) : fileAt (files.modify fi f) fi = f (fileAt files fi) := by
  unfold fileAt
  rw [List.getElem?_modify, List.getElem?_eq_getElem hfi]
  simp

/-! ## Numbers -/

/-- The files of a list are numbered in its order, and nothing else about them changes. -/
theorem numberFiles_afid {fis : List Nat} (hnodup : fis.Nodup) (next : Nat) {files : List PlannedFile}
    (hlt : ∀ fi ∈ fis, fi < files.length) :
    fis.map (fun fi =>
        (fileAt (numberFiles (fun n f => { f with afid := n }) fis next files) fi).afid) =
      List.range' next fis.length ∧
    ∀ fj, fj ∉ fis →
      fileAt (numberFiles (fun n f => { f with afid := n }) fis next files) fj = fileAt files fj := by
  induction fis generalizing next files with
  | nil => exact ⟨rfl, fun _ _ => rfl⟩
  | cons fi fis ih =>
    obtain ⟨hfi, hnodup⟩ := List.nodup_cons.1 hnodup
    have hfilt := hlt fi List.mem_cons_self
    obtain ⟨hmap, hrest⟩ := @ih hnodup (next + 1)
      (files.modify fi fun f => { f with afid := next }) fun fj hfj => by
        rw [List.length_modify]
        exact hlt fj (List.mem_cons_of_mem _ hfj)
    simp only [numberFiles]
    refine ⟨?_, fun fj hfj => ?_⟩
    · rw [List.map_cons, hmap, hrest fi hfi, fileAt_modify_self _ hfilt, List.length_cons,
        List.range'_succ]
    · rw [List.mem_cons, not_or] at hfj
      rw [hrest fj hfj.2, fileAt_modify_ne _ (Ne.symm hfj.1)]

/-- What the numbers are not about stays. -/
theorem map_numberFiles {β : Type} (g : PlannedFile → β) {field : Nat → PlannedFile → PlannedFile}
    (hfield : ∀ n f, g (field n f) = g f) (fis : List Nat) (next : Nat) (files : List PlannedFile) :
    (numberFiles field fis next files).map g = files.map g := by
  induction fis generalizing next files with
  | nil => rfl
  | cons fi fis ih =>
    rw [numberFiles, ih]
    refine List.ext_getElem? fun i => ?_
    rw [List.getElem?_map, List.getElem?_map, List.getElem?_modify]
    cases files[i]? with
    | none => rfl
    | some f => by_cases hi : fi = i <;> simp [hi, hfield]

@[simp] theorem length_numberFiles (field : Nat → PlannedFile → PlannedFile) (fis : List Nat)
    (next : Nat) (files : List PlannedFile) :
    (numberFiles field fis next files).length = files.length := by
  induction fis generalizing next files with
  | nil => rfl
  | cons fi fis ih =>
    rw [numberFiles, ih, List.length_modify]

/-! ## The layout loop -/

section Lay

variable {dirs : List DirNode} {spread : Bool} {s s' : Laying} {fi : Nat}

def Laying.cursors (s : Laying) : Cursors := ⟨s.cursor, s.onDisk, s.starts, s.lastStart⟩

/-- One turn stores where its file goes, and the cursors move behind it. -/
theorem layFile_ok (h : layFile dirs spread s fi = .ok s') :
    (∃ parent, s'.files = s.files.modify fi (fun f => { f with
        logicalOffset := s.cursors.start64 spread, onDiskOffset := s.onDisk, parentInode := parent })) ∧
      s'.cursors = s.cursors.place64 spread (fileAt s.files fi).size := by
  unfold layFile at h
  dsimp only at h
  split at h
  · cases h
  · cases h
    exact ⟨⟨_, rfl⟩, rfl⟩

theorem placed_layFiles {fis : List Nat} (hnodup : fis.Nodup) (hlt : ∀ fi ∈ fis, fi < s.files.length)
    (h : layFiles dirs spread fis s = .ok s') :
    Placed64 spread s.cursors (fis.map (fileAt s'.files)) s'.cursors ∧
      (∀ fj, fj ∉ fis → fileAt s'.files fj = fileAt s.files fj) ∧
      s'.files.length = s.files.length ∧
      s'.files.map (fun f => (f.afid, f.size)) = s.files.map fun f => (f.afid, f.size) := by
  induction fis generalizing s with
  | nil =>
    cases h
    exact ⟨rfl, fun _ _ => rfl, rfl, rfl⟩
  | cons fi fis ih =>
    rw [layFiles] at h
    cases hone : layFile dirs spread s fi with
    | error e => rw [hone] at h; cases h
    | ok s₁ =>
      rw [hone] at h
      obtain ⟨hfi, hnodup⟩ := List.nodup_cons.1 hnodup
      have hfilt := hlt fi List.mem_cons_self
      obtain ⟨⟨parent, hfiles⟩, hcur⟩ := layFile_ok hone
      have hlen : s₁.files.length = s.files.length := by rw [hfiles, List.length_modify]
      obtain ⟨hplaced, hrest, hlen', hafid⟩ := ih hnodup
        (fun fj hfj => hlen ▸ hlt fj (List.mem_cons_of_mem _ hfj)) h
      have hself : fileAt s'.files fi = { fileAt s.files fi with
          logicalOffset := s.cursors.start64 spread, onDiskOffset := s.onDisk, parentInode := parent } := by
        rw [hrest fi hfi, hfiles, fileAt_modify_self _ hfilt]
      refine ⟨⟨?_, ?_, ?_⟩, fun fj hfj => ?_, hlen'.trans hlen, hafid.trans ?_⟩
      · rw [hself]
      · rw [hself]
        rfl
      · rw [hself]
        exact hcur ▸ hplaced
      · rw [List.mem_cons, not_or] at hfj
        rw [hrest fj hfj.2, hfiles, fileAt_modify_ne _ (Ne.symm hfj.1)]
      · rw [hfiles]
        refine List.ext_getElem? fun i => ?_
        rw [List.getElem?_map, List.getElem?_map, List.getElem?_modify]
        cases s.files[i]? with
        | none => rfl
        | some f => by_cases hi : fi = i <;> simp [hi]

end Lay

/-! ## The rest of the plan -/

theorem bare_setFileOffsets (fis : List Nat) (extents : List (Int × Int)) (files : List PlannedFile) :
    (setFileOffsets fis extents files).map (·.bare) = files.map (·.bare) := by
  induction fis generalizing extents files with
  | nil => rfl
  | cons fi fis ih =>
    cases extents with
    | nil => rfl
    | cons e extents =>
      rw [setFileOffsets, ih]
      refine List.ext_getElem? fun i => ?_
      rw [List.getElem?_map, List.getElem?_map, List.getElem?_modify]
      cases files[i]? with
      | none => rfl
      | some f => by_cases hi : fi = i <;> simp [hi, PlannedFile.bare]

theorem bare_planDirs (ds : List Nat) (dirs : List DirNode) (files : List PlannedFile)
    (out : List PlannedDir) :
    (planDirs ds dirs files out).2.1.map (·.bare) = files.map (·.bare) := by
  induction ds generalizing dirs files out with
  | nil => rfl
  | cons d ds ih =>
    rw [planDirs, ih, bare_setFileOffsets]

/-- The places of an order's elements are the numbers in turn. -/
theorem positions_eq {order : List Nat} (hnodup : order.Nodup) (new : Nat) {position : List Nat}
    (hlt : ∀ old ∈ order, old < position.length) :
    order.map (fun old => (positions order new position)[old]?.getD 0) =
      List.range' new order.length ∧
    ∀ old, old ∉ order → (positions order new position)[old]? = position[old]? := by
  induction order generalizing new position with
  | nil => exact ⟨rfl, fun _ _ => rfl⟩
  | cons old order ih =>
    obtain ⟨hold, hnodup⟩ := List.nodup_cons.1 hnodup
    obtain ⟨hmap, hrest⟩ := @ih hnodup (new + 1) (position.set old new) fun o ho => by
      rw [List.length_set]
      exact hlt o (List.mem_cons_of_mem _ ho)
    rw [positions]
    refine ⟨?_, fun o ho => ?_⟩
    · rw [List.map_cons, hmap, hrest old hold, List.getElem?_set_self (hlt old List.mem_cons_self),
        List.length_cons, List.range'_succ]
      rfl
    · rw [List.mem_cons, not_or] at ho
      rw [hrest o ho.2, List.getElem?_set_ne (Ne.symm ho.1)]

/-- The files in afid order. -/
def Plan.inOrder (plan : Plan) : List PlannedFile := plan.afidOrder.map (fileAt plan.files)

/-- The structures of the metadata region, in order. -/
def MetadataLayout.spans (m : MetadataLayout) : List (Nat × Nat) :=
  [m.inodeTable, m.superRoot, m.flt, m.fltApr, m.afid] ++ m.dirs

/-- How long the structures of the region are. -/
def structureLens (plan : Plan) : List Nat :=
  [inodeTableLen (4 + plan.dirs.length + plan.files.length), (direntsBytes superRootDirents).length,
    (fltBytes plan.fltInode).length, (fltBytes plan.fltApr).length, plan.afidToIno.length * 4] ++
      plan.dirs.map fun d => (direntsBytes d.dirents).length

/-- The sizes of a source's files, in afid order. -/
def sizesInOrder (input : List SourceFile) (emptyDirs : List Text) : List Nat :=
  let files := collectFiles input
  let paths := files.map (·.path)
  let dirs := buildDirs paths emptyDirs
  (afidOrder dirs (preOrder dirs dirs.length 0) paths).map fun fi => (fileAt files fi).size

/-- What an image of files of these sizes, in afid order, is planned like. -/
structure Planned (sizes : List Nat) (spread : Bool) (plan : Plan) : Prop where
  order : plan.afidOrder.Perm (List.range plan.files.length)
  afid : plan.inOrder.map (·.afid) = List.range plan.files.length
  sizes : plan.inOrder.map (·.size) = sizes
  placed : ∃ c, Placed64 spread .origin plan.inOrder c ∧ c.onDisk = plan.dataEnd
  metaBase : plan.metaBase = metaBaseOf plan.files plan.dataEnd spread
  /-- The structures come one behind the other, a block behind the base and a block before the end. -/
  spans : ∃ stop, placeSpans (structureLens plan) (wrap (plan.metaBase + block)) = (plan.metadata.spans, stop) ∧
    plan.metadataBlocks = wrap (stop + (2 ^ 64 - plan.metaBase)) / block + 1
  ndblock : plan.ndblock = plan.metaBase / block + plan.metadataBlocks
  blocks : plan.metadata.blocks = plan.metadataBlocks

/-- The files of the plan are taken in another order, and the afid order follows them. -/
theorem planned_finishPlan {dirs : List DirNode} {dirsPre fileOrder order : List Nat} {s : Laying}
    {spread : Bool} (hfile : fileOrder.Perm (List.range s.files.length))
    (horder : order.Perm (List.range s.files.length))
    (hplaced : Placed64 spread .origin (order.map (fileAt s.files)) s.cursors)
    (hafid : (order.map fun fi => (fileAt s.files fi).afid) = List.range s.files.length) :
    Planned (order.map fun fi => (fileAt s.files fi).size) spread
      (finishPlan dirs dirsPre fileOrder order s spread) := by
  set plan := finishPlan dirs dirsPre fileOrder order s spread with hplan
  set files := (planDirs dirsPre dirs s.files []).2.1 with hfiles
  have hbare : files.map (·.bare) = s.files.map (·.bare) := bare_planDirs _ _ _ _
  have hlen : files.length = s.files.length := by
    have h := congrArg List.length hbare
    rwa [List.length_map, List.length_map] at h
  have hn : fileOrder.length = s.files.length := by rw [hfile.length_eq, List.length_range]
  obtain ⟨hpos, -⟩ := @positions_eq _ (hfile.nodup_iff.2 List.nodup_range) 0
    (List.replicate files.length 0) fun old hold => by
      rw [List.length_replicate, hlen]
      exact List.mem_range.1 (hfile.mem_iff.1 hold)
  set position := positions fileOrder 0 (List.replicate files.length 0)
  have hpf : plan.files = fileOrder.map (fileAt files) := rfl
  have hpo : plan.afidOrder = order.map fun old => position[old]?.getD 0 := rfl
  -- A file is found again at its new place.
  have hat : ∀ old ∈ order, fileAt plan.files (position[old]?.getD 0) = fileAt files old := by
    intro old hold
    obtain ⟨k, hk, hget⟩ := List.getElem_of_mem (hfile.mem_iff.2 (horder.mem_iff.1 hold))
    have hposk : position[old]?.getD 0 = k := by
      have h := congrArg (·[k]?) hpos
      simp only [List.getElem?_map, List.getElem?_eq_getElem hk, hget, Option.map_some,
        List.getElem?_range' hk, Option.some.injEq] at h
      omega
    rw [hposk, hpf]
    simp only [fileAt, List.getElem?_map, List.getElem?_eq_getElem hk, hget, Option.map_some,
      Option.getD_some]
  have hin : plan.inOrder = order.map (fileAt files) := by
    rw [Plan.inOrder, hpo, List.map_map]
    exact List.map_congr_left hat
  have hsame : (order.map (fileAt files)).map (·.bare) = (order.map (fileAt s.files)).map (·.bare) := by
    rw [List.map_map, List.map_map]
    exact List.map_congr_left fun old _ => fileAt_congr _ hbare old
  exact {
    order := by
      rw [hpo, hpf, List.length_map]
      refine ((horder.trans hfile.symm).map _).trans ?_
      rw [hpos, List.range_eq_range']
    afid := by
      rw [hpf, List.length_map, hn, ← hafid, hin]
      have h := congrArg (List.map PlannedFile.afid) hsame
      simpa [Function.comp_def, PlannedFile.bare] using h
    sizes := by
      rw [hin]
      have h := congrArg (List.map PlannedFile.size) hsame
      simpa [Function.comp_def, PlannedFile.bare] using h
    placed := ⟨s.cursors, hin ▸ placed_of_bare hsame hplaced, rfl⟩
    metaBase := rfl
    spans := ⟨_, rfl, rfl⟩
    ndblock := rfl
    blocks := rfl }

/-- Every plan. -/
theorem planned {input : List SourceFile} {emptyDirs : List Text} {spread : Bool} {plan : Plan}
    (h : buildTree input emptyDirs spread = .ok plan) :
    Planned (sizesInOrder input emptyDirs) spread plan := by
  unfold buildTree at h
  dsimp only at h
  set files := collectFiles input
  split at h
  · cases h
  · set paths := files.map (·.path) with hpaths
    set dirs := buildDirs paths emptyDirs
    have hgrown : Grown dirs paths.length := grown_buildDirs paths emptyDirs
    have hfile := hgrown.perm_fileOrder
    have horder := hgrown.perm_afidOrder paths
    set fileOrder := (postOrder dirs dirs.length 0).flatMap (filesOf dirs)
    set order := afidOrder dirs (preOrder dirs dirs.length 0) paths
    have hn : paths.length = files.length := List.length_map _
    have hnodup : order.Nodup := horder.nodup_iff.2 List.nodup_range
    set numbered := numberFiles (fun n f => { f with afid := n }) order 0
      (numberFiles (fun n f => { f with inode := n }) fileOrder (firstDirInode + (numberDirs
        (preOrder dirs dirs.length 0) firstDirInode dirs).length) files) with hnum
    have hnlen : numbered.length = files.length := by rw [hnum, length_numberFiles, length_numberFiles]
    have hlt : ∀ fi ∈ order, fi < numbered.length := fun fi hfi => by
      rw [hnlen, ← hn]
      exact List.mem_range.1 (horder.mem_iff.1 hfi)
    cases hcase : checkCase ((paths ++ emptyDirs.map trimSlashes).flatMap slashPrefixes) [] with
    | error e => rw [hcase] at h; cases h
    | ok _ =>
      rw [hcase] at h
      cases hlay : layFiles (numberDirs (preOrder dirs dirs.length 0) firstDirInode dirs) spread order
          ⟨numbered, 0, 0, (0, 0), none⟩ with
      | error e =>
        simp only [bind, Except.bind, pure, Except.pure] at h
        rw [hlay] at h
        cases h
      | ok s =>
        simp only [bind, Except.bind, pure, Except.pure] at h
        rw [hlay] at h
        cases h
        obtain ⟨hplaced, -, hslen, hlabel⟩ := placed_layFiles hnodup hlt hlay
        have hsafid : s.files.map (·.afid) = numbered.map (·.afid) := by
          have h := congrArg (List.map Prod.fst) hlabel
          rwa [List.map_map, List.map_map] at h
        have hssize : s.files.map (·.size) = files.map (·.size) := by
          have h := congrArg (List.map Prod.snd) hlabel
          rw [List.map_map, List.map_map] at h
          have hnumbered : numbered.map (·.size) = files.map (·.size) := by
            rw [hnum, map_numberFiles (·.size), map_numberFiles (·.size)]
            · exact fun _ _ => rfl
            · exact fun _ _ => rfl
          exact h.trans hnumbered
        have hsizes : sizesInOrder input emptyDirs = order.map fun fi => (fileAt s.files fi).size :=
          List.map_congr_left fun fi _ => (fileAt_congr (·.size) hssize fi).symm
        have hslen' : s.files.length = paths.length := hslen.trans (hnlen.trans hn.symm)
        obtain ⟨hafid, -⟩ := @numberFiles_afid _ hnodup 0 (numberFiles
          (fun n f => { f with inode := n }) fileOrder (firstDirInode + (numberDirs
            (preOrder dirs dirs.length 0) firstDirInode dirs).length) files) fun fi hfi => by
              rw [length_numberFiles, ← hn]
              exact List.mem_range.1 (horder.mem_iff.1 hfi)
        rw [hsizes]
        refine planned_finishPlan (hslen' ▸ hfile) (hslen' ▸ horder) hplaced ?_
        rw [hslen', List.range_eq_range', ← List.length_range (n := paths.length),
          ← horder.length_eq, ← hafid]
        exact List.map_congr_left fun fi _ => fileAt_congr (·.afid) hsafid fi

/-! ## Plans that fit -/

theorem Planned.perm_inOrder {sizes : List Nat} {spread : Bool} {plan : Plan}
    (h : Planned sizes spread plan) : plan.inOrder.Perm plan.files := by
  have hmap : (List.range plan.files.length).map (fileAt plan.files) = plan.files := by
    refine List.ext_getElem (by simp) fun i h₁ h₂ => ?_
    simp only [List.getElem_map, List.getElem_range, fileAt, List.getElem?_eq_getElem h₂, Option.getD_some]
  exact hmap ▸ h.order.map _

/-- The files of a plan whose sizes leave room in 64 bits. -/
theorem Planned.files_fit {sizes : List Nat} {spread : Bool} {plan : Plan} (h : Planned sizes spread plan)
    (hroom : roomFor sizes + ublock ≤ 2 ^ 64) :
    ∃ c, Placed spread .origin plan.inOrder c ∧ c.onDisk = plan.dataEnd ∧ plan.dataEnd ≤ roomFor sizes ∧
      ∀ f ∈ plan.files, f.logicalOffset + f.size ≤ roomFor sizes := by
  obtain ⟨c, hplaced, hend⟩ := h.placed
  have hreach : Cursors.origin.reach = 0 := rfl
  have hfits := placed_of_placed64 hplaced (Nat.dvd_zero _) (by rw [h.sizes, hreach]; omega)
  rw [h.sizes, hreach, Nat.zero_add] at hfits
  obtain ⟨hplaced, -, hle, hends⟩ := hfits
  have hdisk : c.onDisk ≤ c.reach := Nat.le_max_right _ _
  exact ⟨c, hplaced, hend, by omega, fun f hf => hends f (h.perm_inOrder.mem_iff.2 hf)⟩

/-- The bytes of the structures, each on blocks of its own. -/
def structureRoom (plan : Plan) : Nat := ((structureLens plan).map fun len => alignUp len block).sum

/-- With the gap in front of the metadata the files and the structures take fewer than 2^64 bytes. -/
def Fits64 (sizes : List Nat) (plan : Plan) : Prop := roomFor sizes + structureRoom plan + 0x500000 ≤ 2 ^ 64

instance (sizes : List Nat) (plan : Plan) : Decidable (Fits64 sizes plan) := Nat.decLe _ _

/-- Structures placed one behind the other are on blocks of their own. -/
theorem placeSpans_ok {lens : List Nat} {at' : Nat} (hat : block ∣ at')
    (hfit : at' + (lens.map fun len => alignUp len block).sum < 2 ^ 64) :
    (placeSpans lens at').2 = at' + (lens.map fun len => alignUp len block).sum ∧
      (placeSpans lens at').1.map Prod.snd = lens ∧
      ((placeSpans lens at').1.Pairwise fun a b => a.1 + a.2 ≤ b.1) ∧
      ∀ m ∈ (placeSpans lens at').1, block ∣ m.1 ∧ at' ≤ m.1 ∧ m.1 + m.2 ≤ (placeSpans lens at').2 := by
  induction lens generalizing at' with
  | nil => exact ⟨rfl, rfl, .nil, nofun⟩
  | cons len lens ih =>
    have hlen := le_alignUp block_pos len
    rw [List.map_cons, List.sum_cons] at hfit ⊢
    have hwrap : wrap (at' + alignUp len block) = at' + alignUp len block := Nat.mod_eq_of_lt (by omega)
    obtain ⟨hstop, hlens, hpair, hall⟩ := ih (Nat.dvd_add hat (dvd_alignUp len block)) (by omega)
    rw [placeSpans, hwrap]
    dsimp only
    refine ⟨by omega, congrArg (len :: ·) hlens, List.pairwise_cons.2 ⟨fun m hm => ?_, hpair⟩, fun m hm => ?_⟩
    · have := hall m hm
      dsimp only
      omega
    · rcases List.mem_cons.1 hm with rfl | hm
      · exact ⟨hat, Nat.le_refl _, by dsimp only; omega⟩
      · have := hall m hm
        exact ⟨this.1, by omega, this.2.2⟩

/-- Where the metadata of a plan that fits is: behind the files, and in front of the last blocks. -/
theorem Planned.metaBase_fits {sizes : List Nat} {spread : Bool} {plan : Plan} (h : Planned sizes spread plan)
    (hfits : Fits64 sizes plan) : block ∣ plan.metaBase ∧ plan.metaBase ≤ roomFor sizes + compressedMetaGap ∧
      (spread = true → ∀ f ∈ plan.files, f.logicalOffset + f.size ≤ plan.metaBase) ∧
      (spread = false → plan.dataEnd + block ≤ plan.metaBase) := by
  have hublock : ublock = 0x40000 := rfl
  have hgap : compressedMetaGap = 0x400000 := rfl
  have hround : metaAlign = 0x40000 := rfl
  have hblock : block = 0x10000 := rfl
  unfold Fits64 at hfits
  obtain ⟨c, -, -, hend, hends⟩ := h.files_fit (by omega)
  have hdvd : block ∣ metaAlign := by decide
  rw [h.metaBase]
  cases spread with
  | true =>
    rw [metaBaseOf, if_pos rfl]
    have hwraps : (plan.files.map fun f => wrap (f.logicalOffset + f.size)) =
        plan.files.map fun f => f.logicalOffset + f.size :=
      List.map_congr_left fun f hf => Nat.mod_eq_of_lt (by have := hends f hf; omega)
    rw [hwraps]
    set last := (plan.files.map fun f => f.logicalOffset + f.size).max?.getD 0 with hlast
    have hle : ∀ f ∈ plan.files, f.logicalOffset + f.size ≤ last := fun f hf => by
      have hmem := List.mem_map_of_mem (f := fun f : PlannedFile => f.logicalOffset + f.size) hf
      cases hmax : (plan.files.map fun f => f.logicalOffset + f.size).max? with
      | none =>
        rw [List.max?_eq_none_iff] at hmax
        rw [hmax] at hmem
        cases hmem
      | some n =>
        rw [hlast, hmax, Option.getD_some]
        exact (List.max?_eq_some_iff.1 hmax).2 _ hmem
    have hbound : last ≤ roomFor sizes := by
      cases hmax : (plan.files.map fun f => f.logicalOffset + f.size).max? with
      | none =>
        rw [hlast, hmax]
        exact Nat.zero_le _
      | some n =>
        obtain ⟨f, hf, heq⟩ := List.mem_map.1 (List.max?_eq_some_iff.1 hmax).1
        rw [hlast, hmax, Option.getD_some, ← heq]
        exact hends f hf
    have hwrap : wrap (last + compressedMetaGap) = last + compressedMetaGap := Nat.mod_eq_of_lt (by omega)
    rw [hwrap]
    have hdown := Nat.div_add_mod (last + compressedMetaGap) metaAlign
    have hlt := Nat.mod_lt (last + compressedMetaGap) (show metaAlign > 0 by decide)
    rw [Nat.mul_comm] at hdown
    exact ⟨Nat.dvd_mul_left_of_dvd hdvd _, by omega, (fun _ f hf => by have := hle f hf; omega), nofun⟩
  | false =>
    rw [metaBaseOf, if_neg Bool.false_ne_true]
    have hsum : wrap (plan.dataEnd + block) = plan.dataEnd + block := Nat.mod_eq_of_lt (by omega)
    have hlt := alignUp_lt (n := metaAlign) (by decide) (plan.dataEnd + block)
    have hup : wrap (alignUp (plan.dataEnd + block) metaAlign) = alignUp (plan.dataEnd + block) metaAlign :=
      Nat.mod_eq_of_lt (by omega)
    rw [hsum, hup]
    exact ⟨hdvd.trans (dvd_alignUp _ _), by omega, nofun, fun _ => le_alignUp (by decide) _⟩

/-- The region has room for its structures, behind the superblock. -/
structure Roomy (plan : Plan) : Prop where
  base : block ∣ plan.metaBase
  lens : plan.metadata.spans.map Prod.snd = structureLens plan
  disjoint : plan.metadata.spans.Pairwise fun a b => a.1 + a.2 ≤ b.1
  inside : ∀ span ∈ plan.metadata.spans, block ∣ span.1 ∧ plan.metaBase + block ≤ span.1 ∧
    span.1 + span.2 ≤ plan.metaBase + plan.metadata.blocks * block
  blocks : plan.metadata.blocks = plan.metadataBlocks
  pos : 0 < plan.metadata.blocks
  mount : plan.ndblock * block = plan.metaBase + plan.metadataBlocks * block
  short : plan.ndblock * block < 2 ^ 64

theorem Planned.roomy {sizes : List Nat} {spread : Bool} {plan : Plan} (h : Planned sizes spread plan)
    (hfits : Fits64 sizes plan) : Roomy plan := by
  obtain ⟨hbase, hle, -, -⟩ := h.metaBase_fits hfits
  have hgap : compressedMetaGap = 0x400000 := rfl
  have hblock : block = 0x10000 := rfl
  unfold Fits64 at hfits
  obtain ⟨stop, hspans, hblocks⟩ := h.spans
  have hwrap : wrap (plan.metaBase + block) = plan.metaBase + block := Nat.mod_eq_of_lt (by omega)
  rw [hwrap] at hspans
  obtain ⟨hstop, hlens, hpair, hall⟩ := @placeSpans_ok (structureLens plan) _
    (Nat.dvd_add hbase (Nat.dvd_refl block)) (by unfold structureRoom at hfits; omega)
  rw [hspans] at hstop hlens hpair hall
  have hroom : ((structureLens plan).map fun len => alignUp len block).sum = structureRoom plan := rfl
  dsimp only at hstop hlens hpair hall
  rw [hroom] at hstop
  have hsub : wrap (stop + (2 ^ 64 - plan.metaBase)) = block + structureRoom plan := by
    have heq : stop + (2 ^ 64 - plan.metaBase) = block + structureRoom plan + 2 ^ 64 := by omega
    rw [heq, wrap, Nat.add_mod_right]
    exact Nat.mod_eq_of_lt (by omega)
  rw [hsub] at hblocks
  have hcover := Nat.lt_div_mul_add block_pos (a := block + structureRoom plan)
  have hbelow := Nat.div_mul_le_self (block + structureRoom plan) block
  have hmul : plan.metadataBlocks * block = (block + structureRoom plan) / block * block + block := by
    rw [hblocks, Nat.succ_mul]
  have hmount : plan.ndblock * block = plan.metaBase + plan.metadataBlocks * block := by
    rw [h.ndblock, Nat.add_mul, Nat.div_mul_cancel hbase]
  refine ⟨hbase, hlens, hpair, fun span hspan => ?_, h.blocks, by rw [h.blocks, hblocks]; exact Nat.succ_pos _,
    hmount, by omega⟩
  have := hall span hspan
  rw [h.blocks]
  exact ⟨this.1, this.2.1, by omega⟩

end Ps5Upload.Inner
