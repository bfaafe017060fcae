import Ps5Upload.Fpkg.Inner.Layout

/-!
# Spread files

For a compressed image the layout loop starts every file in 16 bytes of its own and moves on to a fresh
ublock when enough files have started in the current one, as long as that stays inside the image.

* `Follows`, `isChain_placed` — how one file follows another;
* `spotAfter`, `imageAfter` — where the next file starts in the mount and in the image, by the sizes of
  the files in front of it;
* `capped_iff` — the files that start in a ublock, and what keeps the logical space inside the image: no
  empty file has caught up with it while another one is behind.
-/

namespace Ps5Upload.Inner

open Utf8 Blocks

/-! ## Steps of the cursors -/

namespace Cursors

variable (c : Cursors) (size : Nat)

/-- The last start is behind the next one, by a unit. -/
theorem unit_lt {prev : Nat} (hlast : c.lastStart = some prev) (hle : prev ≤ c.cursor) :
    prev / 16 < c.start true / 16 := by
  rw [start, hlast]
  dsimp only
  split
  · omega
  · rename_i h
    have hne : c.cursor / 16 ≠ prev / 16 := fun heq => h ⟨rfl, heq⟩
    have := Nat.div_le_div_right (c := 16) hle
    omega

/-- Behind a file the next one starts in the next unit at the earliest. -/
theorem start_place : (c.place true size).start true =
    max (c.place true size).cursor ((c.start true / 16 + 1) * 16) := by
  have hend := c.le_place_cursor size true
  rw [start, place_lastStart]
  dsimp only
  split
  · omega
  · rename_i h
    have hne : (c.place true size).cursor / 16 ≠ c.start true / 16 := fun heq => h ⟨rfl, heq⟩
    omega

/-- The gap belongs to a file with bytes. -/
theorem place_zero_cursor (spread : Bool) : (c.place spread 0).cursor = c.start spread := by
  unfold place
  dsimp only
  rw [if_neg fun h => absurd h.2.1 (Nat.lt_irrefl 0), Nat.add_zero]

end Cursors

/-! ## How files follow one another -/

/-- One file's bytes are behind another's, and their starts are in different units. -/
def Follows (f g : PlannedFile) : Prop :=
  f.logicalOffset + f.size ≤ g.logicalOffset ∧ f.logicalOffset / 16 < g.logicalOffset / 16

/-- And what separates an empty file from the next one is a unit at most. -/
def Next (f g : PlannedFile) : Prop :=
  Follows f g ∧ (f.size = 0 → g.logicalOffset ≤ f.logicalOffset + 16)

instance : IsTrans PlannedFile Follows where
  trans f g h hfg hgh := by
    unfold Follows at *
    omega

theorem next_place {c : Cursors} {f g : PlannedFile} (hf : f.logicalOffset = c.start true)
    (hg : g.logicalOffset = (c.place true f.size).start true) : Next f g := by
  have hend := c.le_place_cursor f.size true
  have hstart := (c.place true f.size).cursor_le_start true
  have hunit := (c.place true f.size).unit_lt (c.place_lastStart f.size true) (by omega)
  refine ⟨⟨by omega, by rwa [hf, hg]⟩, fun h0 => ?_⟩
  rw [h0] at hg
  rw [hg, hf, ← c.place_zero_cursor true]
  exact Cursors.start_le_add _ _

theorem isChain_placed {files : List PlannedFile} {c c' : Cursors} (h : Placed true c files c') :
    files.IsChain Next := by
  induction files generalizing c with
  | nil => exact .nil
  | cons f files ih =>
    obtain ⟨hf, -, hrest⟩ := h
    cases files with
    | nil => exact .singleton f
    | cons g files => exact List.isChain_cons_cons.2 ⟨next_place hf hrest.1, ih hrest⟩

/-- Files placed in two parts. -/
theorem placed_append {spread : Bool} {a b : List PlannedFile} {c c' : Cursors}
    (h : Placed spread c (a ++ b) c') : ∃ m, Placed spread c a m ∧ Placed spread m b c' := by
  induction a generalizing c with
  | nil => exact ⟨c, rfl, h⟩
  | cons f a ih =>
    obtain ⟨hlog, hdisk, hrest⟩ := h
    obtain ⟨m, ha, hb⟩ := ih hrest
    exact ⟨m, ⟨hlog, hdisk, ha⟩, hb⟩

theorem pairwise_placed {files : List PlannedFile} {c c' : Cursors} (h : Placed true c files c') :
    files.Pairwise Follows :=
  List.isChain_iff_pairwise.1 ((isChain_placed h).imp fun _ _ h => h.1)

/-! ## Files that start in a ublock -/

/-- The files with bytes that start in a ublock. -/
def startsIn (files : List PlannedFile) (u : Nat) : Nat :=
  files.countP fun f => 0 < f.size ∧ f.logicalOffset / ublock = u

theorem startsIn_append_singleton (files : List PlannedFile) (f : PlannedFile) (u : Nat) :
    startsIn (files ++ [f]) u =
      startsIn files u + if 0 < f.size ∧ f.logicalOffset / ublock = u then 1 else 0 := by
  rw [startsIn, List.countP_append, List.countP_singleton]
  simp only [decide_eq_true_eq, startsIn]

theorem startsIn_eq_zero {files : List PlannedFile} {u v : Nat}
    (hpast : ∀ f ∈ files, f.logicalOffset / ublock ≤ v) (h : v < u) : startsIn files u = 0 := by
  refine List.countP_eq_zero.2 fun f hf => ?_
  have := hpast f hf
  simp only [decide_eq_true_eq, not_and]
  omega

/-- What the cursors know of the files placed so far. -/
structure Spaced (files : List PlannedFile) (c : Cursors) : Prop where
  cursor_le : c.cursor ≤ c.onDisk
  aligned : fileAlign ∣ c.onDisk
  current : c.starts.1 ≤ c.cursor / ublock
  /-- A file with bytes takes a boundary of the image, and a ublock has the room of four. -/
  room : c.starts.1 * ublock + c.starts.2 * fileAlign ≤ c.onDisk
  count_le : c.starts.2 ≤ maxStartsPerUblock
  full : c.starts.2 = maxStartsPerUblock → c.starts.1 < c.cursor / ublock
  past : ∀ f ∈ files, f.logicalOffset / ublock ≤ c.starts.1
  counted : startsIn files c.starts.1 ≤ c.starts.2
  capped : ∀ u, startsIn files u ≤ maxStartsPerUblock
  behind : ∀ f ∈ files, f.logicalOffset ≤ f.onDiskOffset

theorem spaced_origin : Spaced [] .origin where
  cursor_le := Nat.le_refl _
  aligned := Nat.dvd_zero _
  current := Nat.le_refl _
  room := Nat.le_refl _
  count_le := Nat.zero_le _
  full := nofun
  past := nofun
  counted := Nat.le_refl _
  capped := fun _ => Nat.zero_le _
  behind := nofun

namespace Spaced

variable {files : List PlannedFile} {c : Cursors} (h : Spaced files c)

include h

/-- The count that a file joins when it starts inside the image. -/
theorem joined (hstart : c.start true ≤ c.onDisk) (size : Nat) :
    ∃ k, c.counted true size = (c.start true / ublock, k + if 0 < size then 1 else 0) ∧
      k < maxStartsPerUblock ∧ startsIn files (c.start true / ublock) ≤ k ∧
      c.starts.1 ≤ c.start true / ublock ∧
      c.start true / ublock * ublock + k * fileAlign ≤ c.onDisk := by
  have hle := Nat.div_le_div_right (c := ublock) (c.cursor_le_start true)
  have hcur := h.current
  unfold Cursors.counted Cursors.countAt
  by_cases hsame : c.starts.1 = c.start true / ublock
  · refine ⟨c.starts.2, ?_, ?_, hsame ▸ h.counted, Nat.le_of_eq hsame, hsame ▸ h.room⟩
    · rw [if_neg (not_not_intro hsame), ← hsame]
      by_cases hs : 0 < size
      · rw [if_pos hs, if_pos hs]
      · rw [if_neg hs, if_neg hs]
        rfl
    · refine Nat.lt_of_le_of_ne h.count_le fun hfull => ?_
      have := h.full hfull
      omega
  · refine ⟨0, ?_, by decide, ?_, by omega, ?_⟩
    · rw [if_pos hsame]
      by_cases hs : 0 < size
      · rw [if_pos hs, if_pos hs]
      · rw [if_neg hs, if_neg hs]
    · rw [startsIn_eq_zero h.past (by omega)]
    · rw [Nat.zero_mul, Nat.add_zero]
      exact Nat.le_trans (Nat.div_mul_le_self _ _) hstart

/-- Placing a file with bytes takes a boundary of the image. -/
theorem lt_place_onDisk {size : Nat} (hs : 0 < size) :
    c.onDisk + fileAlign ≤ (c.place true size).onDisk := by
  obtain ⟨k, hk⟩ := h.aligned
  obtain ⟨m, hm⟩ := dvd_alignUp (c.onDisk + size) fileAlign
  have hle := le_alignUp (n := fileAlign) (by decide) (c.onDisk + size)
  have hpos : 0 < fileAlign := by decide
  have hlt : fileAlign * k < fileAlign * m := by omega
  have hkm := Nat.lt_of_mul_lt_mul_left hlt
  have hmul := Nat.mul_le_mul_left fileAlign hkm
  rw [Nat.mul_succ] at hmul
  rw [Cursors.place_onDisk, hm, hk]
  exact hmul

/-- Four boundaries of the image are a ublock already, so behind the sixteenth start in a ublock the gap up to
the next one stays inside the image. -/
theorem gap_le {size : Nat} (hs : 0 < size) (hstart : c.start true ≤ c.onDisk)
    (hfull : maxStartsPerUblock ≤ (c.counted true size).2)
    (hsame : (c.start true + size) / ublock = c.start true / ublock) :
    alignUp (c.start true + size) ublock = (c.start true / ublock + 1) * ublock ∧
      (c.start true / ublock + 1) * ublock ≤ (c.place true size).onDisk := by
  obtain ⟨k, hcounted, hk, -, -, hroom⟩ := h.joined hstart size
  have hdisk := h.lt_place_onDisk hs
  rw [hcounted, if_pos hs] at hfull
  have hublock : ublock = 4 * fileAlign := rfl
  have hmax : maxStartsPerUblock = 16 := rfl
  have hpos : 0 < ublock := by decide
  have hk15 : k = 15 := by omega
  have hnext : c.start true + size < (c.start true / ublock + 1) * ublock := by
    rw [← hsame]
    exact Nat.lt_mul_of_div_lt (Nat.lt_succ_self _) hpos
  have hbelow : c.start true / ublock * ublock ≤ c.start true := Nat.div_mul_le_self _ _
  have hle := alignUp_le hpos (Nat.dvd_mul_left ublock (c.start true / ublock + 1)) (Nat.le_of_lt hnext)
  have hover := le_alignUp hpos (c.start true + size)
  obtain ⟨m, hm⟩ := dvd_alignUp (c.start true + size) ublock
  have hlt : ublock * (c.start true / ublock) < ublock * m := by
    rw [Nat.mul_comm ublock (c.start true / ublock)]
    omega
  have hge : (c.start true / ublock + 1) * ublock ≤ ublock * m := by
    rw [Nat.mul_comm]
    exact Nat.mul_le_mul_left ublock (Nat.lt_of_mul_lt_mul_left hlt)
  refine ⟨by omega, ?_⟩
  rw [hk15] at hroom
  rw [Nat.succ_mul]
  omega

/-- Where the cursor is behind a file that is placed inside the image. -/
theorem place_cursor (hstart : c.start true ≤ c.onDisk) (size : Nat) :
    (c.place true size).cursor = if 0 < size ∧ maxStartsPerUblock ≤ (c.counted true size).2 ∧
      (c.start true + size) / ublock = c.start true / ublock then (c.start true / ublock + 1) * ublock
        else c.start true + size := by
  obtain ⟨k, hcounted, -⟩ := h.joined hstart size
  have hu : (c.counted true size).1 = c.start true / ublock := by rw [hcounted]
  rw [Cursors.place]
  dsimp only
  rw [hu]
  by_cases hfull : 0 < size ∧ maxStartsPerUblock ≤ (c.counted true size).2 ∧
      (c.start true + size) / ublock = c.start true / ublock
  · obtain ⟨hs, hcount, hsame⟩ := hfull
    obtain ⟨heq, hle⟩ := h.gap_le hs hstart hcount hsame
    rw [if_pos ⟨rfl, hs, hcount, hsame, heq.le.trans hle⟩, if_pos ⟨hs, hcount, hsame⟩, heq]
  · rw [if_neg fun hgap => hfull ⟨hgap.2.1, hgap.2.2.1, hgap.2.2.2.1⟩, if_neg hfull]

/-- When the ublock is full, the next file starts in another one. -/
theorem past_full {size : Nat} (hs : 0 < size) (hstart : c.start true ≤ c.onDisk)
    (hfull : maxStartsPerUblock ≤ (c.counted true size).2) :
    c.start true / ublock < (c.place true size).cursor / ublock := by
  have hpos : 0 < ublock := by decide
  rw [h.place_cursor hstart size]
  split
  · rw [Nat.mul_div_cancel _ hpos]
    exact Nat.lt_succ_self (c.start true / ublock)
  · rename_i hgap
    have hle : c.start true / ublock ≤ (c.start true + size) / ublock :=
      Nat.div_le_div_right (Nat.le_add_right _ _)
    exact Nat.lt_of_le_of_ne hle fun hsame => hgap ⟨hs, hfull, hsame.symm⟩

/-- With a file placed inside the image, the next one has a ublock that is not full. -/
theorem place (hstart : c.start true ≤ c.onDisk) {f : PlannedFile} (hlog : f.logicalOffset = c.start true)
    (hdisk : f.onDiskOffset = c.onDisk) : Spaced (files ++ [f]) (c.place true f.size) := by
  obtain ⟨k, hcounted, hk, hin, hcur, hroom⟩ := h.joined hstart f.size
  set u := c.start true / ublock with hu
  have hend := c.le_place_cursor f.size true
  have hstarts : (c.place true f.size).starts = (u, k + if 0 < f.size then 1 else 0) := hcounted
  have hdiskle : c.onDisk + f.size ≤ (c.place true f.size).onDisk := le_alignUp (by decide) _
  have hlast : u ≤ (c.place true f.size).cursor / ublock :=
    Nat.div_le_div_right (Nat.le_trans (Nat.le_add_right _ _) hend)
  have hnewroom : u * ublock + (k + if 0 < f.size then 1 else 0) * fileAlign ≤
      (c.place true f.size).onDisk := by
    by_cases hs : 0 < f.size
    · have := h.lt_place_onDisk hs
      rw [if_pos hs, Nat.succ_mul]
      omega
    · rw [if_neg hs, Nat.add_zero]
      omega
  have hstartsIn : ∀ v, startsIn (files ++ [f]) v =
      startsIn files v + if 0 < f.size ∧ u = v then 1 else 0 := fun v => by
    rw [startsIn_append_singleton, hlog]
  exact {
    cursor_le := by
      unfold Cursors.place
      dsimp only
      split
      · rename_i hgap
        exact hgap.2.2.2.2
      · exact Nat.le_trans (Nat.add_le_add_right hstart _) hdiskle
    aligned := dvd_alignUp _ _
    current := by rwa [hstarts]
    room := by rwa [hstarts]
    count_le := by
      rw [hstarts]
      dsimp only
      split <;> omega
    full := by
      intro hfull
      rw [hstarts] at hfull ⊢
      dsimp only at hfull ⊢
      have hs : 0 < f.size := by
        by_contra hs
        rw [if_neg hs] at hfull
        omega
      exact h.past_full hs hstart (by rw [hcounted]; exact Nat.le_of_eq hfull.symm)
    past := by
      intro g hg
      rw [hstarts]
      rcases List.mem_append.1 hg with hg | hg
      · exact Nat.le_trans (h.past g hg) hcur
      · rw [List.mem_singleton.1 hg, hlog]
    counted := by
      rw [hstarts, hstartsIn]
      simp only [and_true]
      omega
    capped := by
      intro v
      rw [hstartsIn]
      by_cases hv : 0 < f.size ∧ u = v
      · rw [if_pos hv, ← hv.2]
        omega
      · rw [if_neg hv]
        exact h.capped v
    behind := by
      intro g hg
      rcases List.mem_append.1 hg with hg | hg
      · exact h.behind g hg
      · rw [List.mem_singleton.1 hg, hlog, hdisk]
        exact hstart }

end Spaced

/-! ## Where files start, by the sizes in front of them -/

theorem unit_le_ublock (n : Nat) : (n / 16 + 1) * 16 ≤ (n / ublock + 1) * ublock := by
  unfold ublock
  omega

theorem max_ite {p : Prop} [Decidable p] {a b m : Nat} (h : m ≤ a) :
    max (if p then a else b) m = if p then a else max b m := by
  split
  · exact Nat.max_eq_left h
  · rfl

/-- Where the next file starts in the mount, with the number of files with bytes that start in front of it
in the same ublock. -/
abbrev Spot := Nat × Nat

/-- Behind a file: in the next unit at the earliest, and in the next ublock when this one is full. -/
def Spot.next (p : Spot) (size : Nat) : Spot :=
  let count := if 0 < size then p.2 + 1 else p.2
  let start := if 0 < size ∧ maxStartsPerUblock ≤ count ∧ (p.1 + size) / ublock = p.1 / ublock then
      (p.1 / ublock + 1) * ublock
    else max (p.1 + size) ((p.1 / 16 + 1) * 16)
  (start, if start / ublock = p.1 / ublock then count else 0)

/-- The spot behind files of these sizes. -/
def spotAfter (sizes : List Nat) : Spot := sizes.foldl Spot.next (0, 0)

/-- The place in the image behind files of these sizes: each is rounded up. -/
def imageAfter (sizes : List Nat) : Nat := (sizes.map fun size => alignUp size fileAlign).sum

theorem spotAfter_append (sizes : List Nat) (size : Nat) :
    spotAfter (sizes ++ [size]) = (spotAfter sizes).next size := List.foldl_append

theorem imageAfter_append (sizes : List Nat) (size : Nat) :
    imageAfter (sizes ++ [size]) = imageAfter sizes + alignUp size fileAlign := by
  rw [imageAfter, List.map_append, List.sum_append, List.map_singleton, List.sum_singleton, imageAfter]

/-- Files placed inside the image: the cursors are where their sizes say. -/
structure Tracked (files : List PlannedFile) (c : Cursors) : Prop where
  spaced : Spaced files c
  start : c.start true = (spotAfter (files.map (·.size))).1
  count : (if c.starts.1 = c.start true / ublock then c.starts.2 else 0) = (spotAfter (files.map (·.size))).2
  image : c.onDisk = imageAfter (files.map (·.size))

theorem tracked_origin : Tracked [] .origin := ⟨spaced_origin, rfl, rfl, rfl⟩

theorem Tracked.place {files : List PlannedFile} {c : Cursors} (h : Tracked files c)
    (hstart : c.start true ≤ c.onDisk) {f : PlannedFile} (hlog : f.logicalOffset = c.start true)
    (hdisk : f.onDiskOffset = c.onDisk) : Tracked (files ++ [f]) (c.place true f.size) := by
  have hsizes : (files ++ [f]).map (·.size) = files.map (·.size) ++ [f.size] := List.map_append
  have hspot := h.start
  have hcount := h.count
  -- the count that the file joins
  have hcounted : c.counted true f.size = (c.start true / ublock,
      if 0 < f.size then (spotAfter (files.map (·.size))).2 + 1 else (spotAfter (files.map (·.size))).2) := by
    rw [← hcount]
    unfold Cursors.counted Cursors.countAt
    by_cases hsame : c.starts.1 = c.start true / ublock <;> by_cases hs : 0 < f.size <;> simp [hsame, hs]
    exact hsame ▸ rfl
  have hnext : (c.place true f.size).start true = ((spotAfter (files.map (·.size))).next f.size).1 := by
    rw [c.start_place, h.spaced.place_cursor hstart f.size, hcounted, Spot.next, ← hspot]
    exact max_ite (unit_le_ublock _)
  refine ⟨h.spaced.place hstart hlog hdisk, ?_, ?_, ?_⟩
  · rw [hsizes, spotAfter_append, hnext]
  · rw [hsizes, spotAfter_append, hnext, Cursors.place_starts, hcounted, Spot.next]
    dsimp only
    rw [← hspot]
    simp only [eq_comm]
  · rw [hsizes, imageAfter_append, ← h.image, Cursors.place_onDisk]
    exact alignUp_add (by decide) h.spaced.aligned _

/-- Files that all start inside the image. -/
theorem tracked_of_behind {files placed : List PlannedFile} {c c' : Cursors} (h : Tracked placed c)
    (hfiles : Placed true c files c') (hbehind : ∀ f ∈ files, f.logicalOffset ≤ f.onDiskOffset) :
    Tracked (placed ++ files) c' := by
  induction files generalizing placed c with
  | nil =>
    rw [List.append_nil]
    exact hfiles ▸ h
  | cons f files ih =>
    obtain ⟨hlog, hdisk, hrest⟩ := hfiles
    have hstart := hbehind f List.mem_cons_self
    rw [hlog, hdisk] at hstart
    rw [List.append_cons]
    exact ih (h.place hstart hlog hdisk) hrest fun g hg => hbehind g (List.mem_cons_of_mem _ hg)

/-! ## Empty files -/

/-- No empty file with another one behind it has caught up with the image: it moves the one cursor by a
unit, and the other not at all. -/
def EmptyInside (sizes : List Nat) : Prop :=
  ∀ front next behind, sizes = front ++ 0 :: next :: behind → (spotAfter front).1 < imageAfter front

/-- The next file starts inside the image unless this one is empty and has caught up with it. -/
theorem Spaced.next_start {files : List PlannedFile} {c : Cursors} (h : Spaced files c)
    (hstart : c.start true ≤ c.onDisk) {size : Nat} (hs : size = 0 → c.start true < c.onDisk) :
    (c.place true size).start true ≤ (c.place true size).onDisk := by
  obtain ⟨f, hlog, hdisk, hsize⟩ : ∃ f : PlannedFile, f.logicalOffset = c.start true ∧
      f.onDiskOffset = c.onDisk ∧ f.size = size :=
    ⟨{ (default : PlannedFile) with logicalOffset := c.start true, onDiskOffset := c.onDisk, size }, rfl, rfl,
      rfl⟩
  have hplaced := h.place hstart hlog hdisk
  rw [hsize] at hplaced
  have hle := hplaced.cursor_le
  have hend := c.le_place_cursor size true
  have hlt : c.start true < (c.place true size).onDisk := by
    rcases Nat.eq_zero_or_pos size with h0 | hpos
    · have := le_alignUp (n := fileAlign) (by decide) (c.onDisk + size)
      have hlt := hs h0
      rw [Cursors.place_onDisk]
      omega
    · have := h.lt_place_onDisk hpos
      omega
  have h16 : 16 ∣ (c.place true size).onDisk := Nat.dvd_trans (by decide) hplaced.aligned
  unfold Cursors.start
  rw [Cursors.place_lastStart]
  dsimp only
  split
  · omega
  · exact hle

/-- Where no empty file has caught up with the image, every file starts inside it. -/
theorem tracked_of_emptyInside {files placed : List PlannedFile} {c c' : Cursors} (h : Tracked placed c)
    (hstart : files ≠ [] → c.start true ≤ c.onDisk) (hfiles : Placed true c files c')
    (hempty : EmptyInside ((placed ++ files).map (·.size))) : Tracked (placed ++ files) c' := by
  induction files generalizing placed c with
  | nil =>
    rw [List.append_nil]
    exact hfiles ▸ h
  | cons f files ih =>
    obtain ⟨hlog, hdisk, hrest⟩ := hfiles
    have hin := hstart (List.cons_ne_nil _ _)
    have hone := h.place hin hlog hdisk
    rw [List.append_cons] at hempty ⊢
    refine ih hone (fun hne => ?_) hrest hempty
    refine h.spaced.next_start hin fun h0 => ?_
    obtain ⟨g, files, rfl⟩ := List.exists_cons_of_ne_nil hne
    rw [h.start, h.image]
    refine hempty _ g.size (files.map (·.size)) ?_
    simp [h0]

/-- Where every file starts inside the image, no empty one has caught up with it. -/
theorem emptyInside_of_behind {files : List PlannedFile} {c : Cursors} (hfiles : Placed true .origin files c)
    (h : ∀ f ∈ files, f.logicalOffset ≤ f.onDiskOffset) : EmptyInside (files.map (·.size)) := by
  intro front next behind hsizes
  obtain ⟨a, rest, rfl, hfront, hrest⟩ := List.map_eq_append_iff.1 hsizes
  obtain ⟨f, rest, rfl, h0, hrest⟩ := List.map_eq_cons_iff.1 hrest
  obtain ⟨g, rest, rfl, -, -⟩ := List.map_eq_cons_iff.1 hrest
  obtain ⟨m, ha, hlog, hdisk, hg⟩ := placed_append hfiles
  have htracked := tracked_of_behind tracked_origin ha fun x hx => h x (List.mem_append_left _ hx)
  rw [List.nil_append] at htracked
  have hunit := (next_place hlog hg.1).1.2
  have hbehind := h g (List.mem_append_right _ (List.mem_cons_of_mem _ List.mem_cons_self))
  have hzero : f.size = 0 := h0
  rw [hg.2.1, Cursors.place_onDisk, hzero, Nat.add_zero,
    alignUp_of_dvd (by decide) htracked.spaced.aligned] at hbehind
  rw [← hfront, ← htracked.start, ← htracked.image, ← hlog]
  omega

/-! ## Plans -/

/-- No ublock has more starts than the descriptor can index, and no file is behind its place in the image. -/
structure Capped (plan : Plan) : Prop where
  starts : ∀ u, startsIn plan.files u ≤ maxStartsPerUblock
  behind : ∀ f ∈ plan.files, f.logicalOffset ≤ f.onDiskOffset

/-- A spread plan of files that leave room in 64 bits is capped exactly when none of its empty files has
caught up with the image while another file is behind it. -/
theorem capped_iff {input : List SourceFile} {emptyDirs : List Text} {plan : Plan}
    (h : buildTree input emptyDirs true = .ok plan)
    (hroom : roomFor (sizesInOrder input emptyDirs) + ublock ≤ 2 ^ 64) :
    Capped plan ↔ EmptyInside (sizesInOrder input emptyDirs) := by
  have hplanned := planned h
  have hperm := hplanned.perm_inOrder
  obtain ⟨c, hplaced, -⟩ := hplanned.files_fit hroom
  rw [← hplanned.sizes]
  constructor
  · intro hcapped
    exact emptyInside_of_behind hplaced fun f hf => hcapped.behind f (hperm.mem_iff.1 hf)
  · intro hempty
    have htracked := tracked_of_emptyInside tracked_origin (fun _ => Nat.le_refl _) hplaced
      ((List.nil_append _).symm ▸ hempty)
    rw [List.nil_append] at htracked
    exact {
      starts := fun u => by
        rw [startsIn, ← hperm.countP_eq]
        exact htracked.spaced.capped u
      behind := fun f hf => htracked.spaced.behind f (hperm.mem_iff.2 hf) }

/-- An empty file between two others. -/
def emptyBetween : List SourceFile := [⟨['a'], 1⟩, ⟨['b'], 0⟩, ⟨['c'], 5⟩]

theorem capped_iff_between : ∃ plan, buildTree emptyBetween [] true = .ok plan ∧ Capped plan := by
  have hsome : (buildTree emptyBetween [] true).toOption.map (fun _ => ()) = some () := by decide +kernel
  obtain ⟨plan, h, -⟩ := Checked.ok_of_map hsome
  have hsizes : sizesInOrder emptyBetween [] = [keystoneLen, 1, 0, 5] := by decide +kernel
  refine ⟨plan, h, (capped_iff h ?_).2 ?_⟩
  · rw [hsizes]
    decide
  · rw [hsizes]
    intro front next behind heq
    have hfront : front = [keystoneLen, 1] := by
      have hlen := congrArg List.length heq
      rcases front with _ | ⟨x, _ | ⟨y, _ | ⟨z, front⟩⟩⟩ <;> simp [keystoneLen] at heq hlen ⊢
      · exact ⟨heq.1.symm, heq.2.1.symm⟩
      · omega
    rw [hfront]
    decide

/-- A keystone without bytes starts the layout level with the image, and the file behind it is a unit
ahead. -/
theorem not_capped_emptyKeystone :
    ¬ ∀ plan, buildTree [⟨keystonePath, 0⟩, ⟨['a'], 1⟩] [] true = .ok plan → Capped plan := by
  intro hall
  have hahead : (buildTree [⟨keystonePath, 0⟩, ⟨['a'], 1⟩] [] true).toOption.map (fun p =>
      p.files.all fun f => f.logicalOffset ≤ f.onDiskOffset) = some false := by decide +kernel
  obtain ⟨plan, h, hahead⟩ := Checked.ok_of_map hahead
  rw [List.all_eq_false] at hahead
  obtain ⟨f, hf, hnot⟩ := hahead
  exact hnot (decide_eq_true ((hall plan h).behind f hf))

end Ps5Upload.Inner
