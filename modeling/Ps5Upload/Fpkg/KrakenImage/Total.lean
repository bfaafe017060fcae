import Ps5Upload.Fpkg.KrakenImage.Describe
import Ps5Upload.Lib.ListAt
import Mathlib.Data.List.Dedup

/-!
# Kraken images: a descriptor of any bytes

Every count, window and nibble of a descriptor comes from the file.  What the header's tables promise is
checked before they are read, every stretch ends past its start, and a block's length is at least one
byte and at most what is left before the next boundary.

* `readTables_safe` — the tables lie in the bytes, and the boundaries before the mount's end;
* `describe_total` — no check fails, and the blocks returned decode to their lengths or not at all.
-/

namespace Ps5Upload.KrakenImage

open ByteFile Checked ListAt

/-! ## The header -/

/-- How many files, outer digests and shuffle patterns the two words of a descriptor say. -/
def declaredFiles (blob : Bytes) : Nat := leAt blob 0 8 % 2 ^ 24 + 1

def declaredTables (blob : Bytes) : Nat := leAt blob 8 8 % 2 ^ 24 + leAt blob 0 8 / 2 ^ 28 % 2 ^ 4

/-- The mount's size: the last boundary of the table. -/
def declaredMount (blob : Bytes) : Nat :=
  leAt blob (16 + declaredTables blob * 8 + (declaredFiles blob - 1) * 6) 5

/-- The tables of a header, one after another and inside the bytes. -/
structure HeaderOk (blob : Bytes) (h : Header) : Prop where
  files : h.files = declaredFiles blob
  fidxAt : h.fidxAt = 16 + (h.outer + h.shuffle) * 8
  tables : h.outer + h.shuffle = declaredTables blob
  fidx : h.fidxAt + h.files * 6 ≤ h.recAt
  recs : h.recAt + h.records * 9 ≤ blob.length
  records : 2 ≤ h.records
  before : 3 ≤ h.recAt
  small : h.recAt + h.records * 9 < 2 ^ 40

theorem readHeader_safe (blob : Bytes) : Safe (HeaderOk blob) (readHeader blob) := by
  rw [readHeader]
  split
  · exact safe_fail _
  · rename_i hlong
    refine Safe.bind (safe_field (by omega)) fun w0 hw0 => ?_
    refine Safe.bind (safe_field (by omega)) fun w1 hw1 => ?_
    refine Safe.bind (safe_add (by omega)) fun files hfiles => ?_
    refine Safe.bind (safe_add (by omega)) fun records hrecords => ?_
    refine Safe.bind (safe_add (by omega)) fun tables htables => ?_
    refine Safe.bind (safe_mul (by omega)) fun tables8 htables8 => ?_
    refine Safe.bind (safe_add (by omega)) fun fidxAt hfidxAt => ?_
    refine Safe.bind (safe_mul (by omega)) fun fidx hfidx => ?_
    refine Safe.bind (safe_add (by omega)) fun fidxEnd hfidxEnd => ?_
    refine Safe.bind (safe_add (by omega)) fun groups hgroups => ?_
    refine Safe.bind (safe_mul (by omega)) fun u2c hu2c => ?_
    refine Safe.bind (safe_add (by omega)) fun u2cEnd hu2cEnd => ?_
    refine Safe.bind (safe_add (by omega)) fun padded hpadded => ?_
    refine Safe.bind (safe_add (by omega)) fun recAt hrecAt => ?_
    refine Safe.bind (safe_mul (by omega)) fun recs hrecs => ?_
    refine Safe.bind (safe_add (by omega)) fun recEnd hrecEnd => ?_
    split
    · exact safe_fail _
    · subst hw0 hw1
      exact ⟨hfiles, by dsimp only; omega, by rw [declaredTables], by dsimp only; omega, by dsimp only; omega,
        by dsimp only; omega, by dsimp only; omega, by dsimp only; omega⟩

theorem readPattern_safe {blob : Bytes} {h : Header} (hh : HeaderOk blob h) {p : Nat} (hp : p < h.shuffle) :
    Safe (fun _ => True) (readPattern blob h.outer p) := by
  have h1 := hh.fidxAt
  have h2 := hh.fidx
  have h3 := hh.recs
  have h4 := hh.small
  refine Safe.bind (safe_add (by omega)) fun i hi => ?_
  refine Safe.bind (safe_mul (by omega)) fun i8 hi8 => ?_
  refine Safe.bind (safe_add (by omega)) fun at_ hat => ?_
  refine Safe.bind (safe_add (by omega)) fun stop hstop => ?_
  refine Safe.bind (safe_slice (by omega) (by omega)) fun e he => ?_
  have hused : (e.findIdx? (· = 0)).getD 8 ≤ e.length := by
    cases hfind : e.findIdx? (· = 0) with
    | none => rw [Option.getD_none, he]; omega
    | some k =>
      rw [Option.getD_some]
      exact Nat.le_of_lt (List.findIdx?_eq_some_iff_getElem.1 hfind).1
  refine Safe.bind (safe_slice (Nat.zero_le _) hused) fun head _ => ?_
  refine Safe.bind (safe_slice hused (Nat.le_refl _)) fun tail _ => ?_
  split
  · trivial
  · exact safe_fail _

variable {i logical v : Nat} {s : Walk} {unit : Bytes}

theorem readEntry_safe {blob : Bytes} {h : Header} (hh : HeaderOk blob h) (hi : i < h.files) :
    Safe (fun e => e.1 = leAt blob (h.fidxAt + i * 6) 5) (readEntry blob h.fidxAt i) := by
  have h2 := hh.fidx
  have h3 := hh.recs
  have h4 := hh.small
  refine Safe.bind (safe_mul (by omega)) fun off hoff => ?_
  refine Safe.bind (safe_add (by omega)) fun at_ hat => ?_
  refine Safe.bind (safe_add (by omega)) fun stop hstop => ?_
  have hat' : at_ + 6 ≤ blob.length := by omega
  rw [slice_eq (by omega) (by omega), ok_bind, hstop, Nat.add_sub_cancel_left]
  have hlen : ((blob.drop at_).take 6).length = 6 := by
    rw [List.length_take, List.length_drop]
    omega
  refine Safe.bind (safe_field (by omega)) fun start hstart => ?_
  refine Safe.bind (safe_index (by omega)) fun kind _ => ?_
  show start = _
  rw [hstart, leAt, leAt, List.drop_zero, List.take_take, hat, hoff]
  rfl

/-! ## The tables -/

/-- The tables of a walk: records inside the bytes, and stretches that end past their starts. -/
structure TablesOk (blob : Bytes) (c : Tables) : Prop where
  recs : c.recAt + c.records * 9 ≤ c.blob.length
  small : c.recAt + c.records * 9 < 2 ^ 40
  records : 2 ≤ c.records
  mount : c.mount = declaredMount blob
  mount_lt : c.mount < 2 ^ 40
  gaps : ∀ g ∈ c.gaps, g.1 < g.2 ∧ g.2 ≤ c.mount

theorem lt_of_partitionPoint {bounds : List Nat} {n b : Nat}
    (h : bounds[partitionPoint bounds n]? = some b) : n < b := by
  induction bounds with
  | nil => cases h
  | cons a bounds ih =>
    by_cases ha : a ≤ n
    · have hcount : partitionPoint (a :: bounds) n = partitionPoint bounds n + 1 := by
        rw [partitionPoint, List.takeWhile_cons_of_pos (by rw [decide_eq_true_eq]; exact ha), List.length_cons]
        rfl
      rw [hcount, List.getElem?_cons_succ] at h
      exact ih h
    · have hcount : partitionPoint (a :: bounds) n = 0 := by
        rw [partitionPoint, List.takeWhile_cons_of_neg (by rw [decide_eq_true_eq]; exact ha)]
        rfl
      rw [hcount, List.getElem?_cons_zero] at h
      cases h
      omega

theorem mem_sortedBounds {entries : List (Nat × UInt8)} {b : Nat} :
    b ∈ sortedBounds entries ↔ ∃ e ∈ entries, e.1 = b := by
  rw [sortedBounds, List.mem_dedup, (List.perm_insertionSort _ _).mem_iff, List.mem_map]

/-- **A stretch ends past its start**, and in the mount. -/
theorem gapsOf_ok {entries : List (Nat × UInt8)} {mount : Nat} (hm : ∀ e ∈ entries, e.1 ≤ mount) :
    ∀ g ∈ gapsOf entries (sortedBounds entries) mount, g.1 < g.2 ∧ g.2 ≤ mount := by
  intro g hg
  rw [gapsOf, List.mem_map] at hg
  obtain ⟨e, he, rfl⟩ := hg
  obtain ⟨-, hcond⟩ := List.mem_filter.1 he
  rw [decide_eq_true_eq] at hcond
  dsimp only
  cases hb : (sortedBounds entries)[partitionPoint (sortedBounds entries) e.1]? with
  | none => exact ⟨hcond.2.1, Nat.le_refl _⟩
  | some b =>
    obtain ⟨a, ha, hab⟩ := mem_sortedBounds.1 (List.mem_of_getElem? hb)
    exact ⟨lt_of_partitionPoint hb, hab ▸ hm a ha⟩

theorem readTables_safe (blob : Bytes) : Safe (TablesOk blob) (readTables blob) := by
  rw [readTables]
  refine Safe.bind (readHeader_safe blob) fun h hh => ?_
  refine Safe.bind (safe_collect fun p hp => readPattern_safe hh (List.mem_range.1 hp)) fun patterns _ => ?_
  refine Safe.bind (safe_collect fun i hi => readEntry_safe hh (List.mem_range.1 hi)) fun entries hent => ?_
  have hfiles : 0 < h.files := by rw [hh.files, declaredFiles]; omega
  have hmount : (entries.getLast?.map Prod.fst).getD 0 = declaredMount blob := by
    have hlen : entries.length = h.files := by rw [← hent.length_eq, List.length_range]
    have hlast := List.forall₂_iff_get.1 hent
    have hi : h.files - 1 < entries.length := by omega
    have hval := hlast.2 (h.files - 1) (by rw [List.length_range]; omega) hi
    rw [List.getLast?_eq_getElem?, hlen, List.getElem?_eq_getElem hi, Option.map_some, Option.getD_some]
    refine hval.trans ?_
    rw [declaredMount, ← hh.tables, ← hh.files, hh.fidxAt, List.get_eq_getElem, List.getElem_range]
  dsimp only
  rw [hmount]
  have h2 := hh.fidx
  have h3 := hh.recs
  split
  · exact safe_fail _
  · rename_i hnone
    have hle : ∀ e ∈ entries, e.1 ≤ declaredMount blob := fun e he =>
      Nat.le_of_not_lt fun hlt => List.find?_eq_none.1 hnone e he (decide_eq_true hlt)
    refine Safe.bind (safe_sub hh.before) fun before hbefore => ?_
    refine Safe.bind (safe_slice (by omega) (by omega)) fun three _ => ?_
    exact ⟨h3, hh.small, hh.records, rfl, leAt_lt blob _ 5, gapsOf_ok hle⟩

/-! ## The walk -/

variable {blob : Bytes} {c : Tables}

theorem record_safe (hc : TablesOk blob c) (hi : i < c.records) :
    Safe (fun _ => True) (c.record i) := by
  have h1 := hc.recs
  have h2 := hc.small
  refine Safe.bind (safe_mul (by omega)) fun off hoff => ?_
  refine Safe.bind (safe_add (by omega)) fun at_ hat => ?_
  refine Safe.bind (safe_add (by omega)) fun stop hstop => ?_
  exact (safe_field (by omega)).mono fun _ _ => trivial

theorem gapAt_mem {gaps : List (Nat × Nat)} {stop : Nat} (h : gapAt gaps logical = some stop) :
    (logical, stop) ∈ gaps := by
  obtain ⟨g, hg, rfl⟩ := Option.map_eq_some_iff.1 h
  have hstart := List.find?_some hg
  rw [decide_eq_true_eq] at hstart
  exact hstart ▸ List.mem_of_find?_eq_some hg

/-- **A stretch is stepped over once at most**: those that start at or past the place are counted. -/
theorem skipGaps_safe {gaps : List (Nat × Nat)} {mount : Nat} (hg : ∀ g ∈ gaps, g.1 < g.2 ∧ g.2 ≤ mount)
    (turns : Nat) (hl : logical ≤ mount)
    (ht : gaps.countP (fun g => logical ≤ g.1) ≤ turns) :
    Safe (fun l => logical ≤ l ∧ l ≤ mount) (skipGaps gaps turns logical) := by
  induction turns generalizing logical with
  | zero =>
    unfold skipGaps
    split
    · exact ⟨Nat.le_refl _, hl⟩
    · rename_i stop hstop
      have hpos : 0 < gaps.countP (fun g => logical ≤ g.1) :=
        List.countP_pos_iff.2 ⟨_, gapAt_mem hstop, decide_eq_true (Nat.le_refl logical)⟩
      omega
  | succ turns ih =>
    unfold skipGaps
    split
    · exact ⟨Nat.le_refl _, hl⟩
    · rename_i stop hstop
      obtain ⟨hlt, hle⟩ : logical < stop ∧ stop ≤ mount := hg _ (gapAt_mem hstop)
      have hfewer : gaps.countP (fun g => stop ≤ g.1) < gaps.countP (fun g => logical ≤ g.1) :=
        countP_lt (fun g _ h => by rw [decide_eq_true_eq] at h ⊢; omega) (gapAt_mem hstop)
          (by rw [decide_eq_false_iff_not]; omega) (by rw [decide_eq_true_eq])
      exact (ih hle (by omega)).mono fun l hl' => ⟨by omega, hl'.2⟩

theorem skip_safe (hc : TablesOk blob c) (hl : logical ≤ c.mount) :
    Safe (fun l => logical ≤ l ∧ l ≤ c.mount) (c.skip logical) :=
  skipGaps_safe hc.gaps c.gaps.length hl List.countP_le_length

theorem cap_safe (hc : TablesOk blob c) (hl : logical < c.mount) :
    Safe (fun cap => logical < cap ∧ cap ≤ c.mount ∧ cap ≤ logical + ublock) (c.cap logical) := by
  have hmount := hc.mount_lt
  have hub : ublock = 262144 := rfl
  have hbound : logical < (c.bounds.find? fun b => logical < b).getD c.mount := by
    cases hfind : c.bounds.find? fun b => logical < b with
    | none => exact hl
    | some b =>
      have hb := List.find?_some hfind
      rw [decide_eq_true_eq] at hb
      exact hb
  rw [Tables.cap]
  generalize (c.bounds.find? fun b => logical < b).getD c.mount = next at hbound
  refine Safe.bind (safe_sub (by omega)) fun room hroom => ?_
  refine (safe_add (by omega)).mono fun cap hcap => ?_
  subst hcap hroom
  omega

theorem carried_safe (hc : TablesOk blob c) {next : Nat} (hpos : 0 < next) (hn : next ≤ c.records) :
    Safe (fun low => low < 16) (c.carried next) := by
  refine Safe.bind (safe_sub hpos) fun prev hprev => ?_
  refine Safe.bind (record_safe hc (by omega)) fun v _ => ?_
  exact Nat.mod_lt _ (by decide)

/-- A multiple of a power of two and a number below it. -/
theorem or_eq_add {k n low : Nat} (h : low < 2 ^ k) : n * 2 ^ k ||| low = n * 2 ^ k + low := by
  rw [← Nat.shiftLeft_eq, Nat.shiftLeft_add_eq_or_of_lt h]

/-- Where a place's window starts. -/
theorem window_floor (n : Nat) :
    n / window * window ≤ n ∧ n < n / window * window + 2 ^ 18 ∧ n / window * window % 16 = 0 := by
  have hw : window = 2 ^ 18 := rfl
  rw [hw]
  omega

/-- **A block has at least a byte, and ends before the cap.** -/
theorem blockLen_safe (hc : TablesOk blob c) (hi : i + 1 < c.records) (hl : logical < c.mount) :
    Safe (fun len => 0 < len ∧ len ≤ ublock ∧ logical + len ≤ c.mount) (c.blockLen i v logical) := by
  have hmount := hc.mount_lt
  have hsmall := hc.small
  have hrecords := hc.records
  have hw : window = 2 ^ 18 := rfl
  rw [Tables.blockLen]
  refine Safe.bind (cap_safe hc hl) fun cap hcap => ?_
  have hnext : Safe (fun next => i < next ∧ next ≤ i + 2)
      (if bits v 66 1 = 1 then add 64 i 2 else add 64 i 1 : Res Nat) := by
    split
    · exact (safe_add (by omega)).mono fun n hn => by omega
    · exact (safe_add (by omega)).mono fun n hn => by omega
  refine Safe.bind hnext fun next hnext => ?_
  refine Safe.bind (skip_safe hc hcap.2.1) fun afterCap _ => ?_
  refine Safe.bind (safe_sub (by omega)) fun last hlast => ?_
  refine Safe.bind (record_safe hc (by omega)) fun nextRec _ => ?_
  dsimp only
  have hkey : bits nextRec 0 14 < 2 ^ 14 := Nat.mod_lt _ (by decide)
  generalize bits nextRec 0 14 = nextKey at hkey
  have hleaves : Safe (fun _ => True)
      (if nextKey = afterCap % window / 16 then
        if c.strict then do
          let low ← c.carried next
          return low = afterCap % 16
        else .ok true
      else .ok false : Res Bool) := by
    split
    · split
      · exact Safe.bind (carried_safe hc (by omega) (by omega)) fun _ _ => trivial
      · trivial
    · trivial
  refine Safe.bind hleaves fun leaves _ => ?_
  refine Safe.bind (safe_add (by omega)) fun after _ => ?_
  have hfull : Safe (fun len => 0 < len ∧ len ≤ ublock ∧ logical + len ≤ c.mount)
      (sub cap logical : Res Nat) := (safe_sub (by omega)).mono fun len hlen => by omega
  split
  · -- the next record's place, in this window or the next one, is past this block's start
    have hplace : (logical / window * window) ||| (nextKey <<< 4) = logical / window * window + nextKey * 16 := by
      rw [hw, Nat.shiftLeft_eq, or_eq_add (by omega)]
    have hfloor := window_floor logical
    rw [hplace]
    have hat : Safe (fun a => logical / 16 * 16 < a ∧ a % 16 = 0 ∧ a < 2 ^ 41)
        (if logical / window * window + nextKey * 16 ≤ logical / 16 * 16 then
          add 64 (logical / window * window + nextKey * 16) window
        else .ok (logical / window * window + nextKey * 16) : Res Nat) := by
      split
      · rw [add_eq (by omega)]
        exact ⟨by omega, by omega, by omega⟩
      · exact ⟨by omega, by omega, by omega⟩
    refine Safe.bind hat fun at16 hat16 => ?_
    have hlow : Safe (fun low => low < 16)
        (if c.strict then c.carried next else .ok (logical % 16) : Res Nat) := by
      split
      · exact carried_safe hc (by omega) (by omega)
      · exact Nat.mod_lt _ (by decide)
    refine Safe.bind hlow fun low hlow => ?_
    have hexact : at16 ||| low = at16 + low := by
      have hdiv : at16 = at16 / 16 * 2 ^ 4 := by omega
      rw [hdiv, or_eq_add hlow]
    rw [hexact]
    refine Safe.bind (safe_add (by omega)) fun end16 hend => ?_
    split
    · exact (safe_sub (by omega)).mono fun len hlen => by omega
    · exact hfull
  · exact hfull

/-- A block's stored bytes are at most two windows. -/
theorem storedEnd_safe {cursor len : Nat} (hcur : cursor < 2 ^ 60) :
    Safe (fun stop => cursor ≤ stop ∧ stop ≤ cursor + window) (storedEnd v cursor len) := by
  have hw : window = 2 ^ 18 := rfl
  have hpos : bits v 48 18 < 2 ^ 18 := Nat.mod_lt _ (by decide)
  have heven : bits v 14 17 < 2 ^ 17 := Nat.mod_lt _ (by decide)
  have hstart : cursor / window * window ||| bits v 48 18 = cursor / window * window + bits v 48 18 := by
    rw [hw, or_eq_add hpos]
  have hfloor := window_floor cursor
  rw [storedEnd]
  dsimp only
  rw [hstart]
  have hstop : Safe (fun stop => cursor ≤ stop ∧ stop < cursor + window)
      (if cursor / window * window + bits v 48 18 < cursor then
        add 64 (cursor / window * window + bits v 48 18) window
      else .ok (cursor / window * window + bits v 48 18) : Res Nat) := by
    split
    · rw [add_eq (by omega)]
      exact ⟨by omega, by omega⟩
    · exact ⟨by omega, by omega⟩
  refine Safe.bind hstop fun stop hstop => ?_
  refine Safe.bind (safe_add (by omega)) fun even _ => ?_
  split
  · rw [add_eq (by omega)]
    exact ⟨by omega, by omega⟩
  · exact ⟨hstop.1, by omega⟩

theorem shuffleOf_safe (i v : Nat) : Safe (fun _ => True) (c.shuffleOf i v) := by
  rw [Tables.shuffleOf]
  split
  · trivial
  · refine Safe.bind (safe_sub (by omega)) fun k _ => ?_
    exact (safe_getOr _ _ _).mono fun _ _ => trivial

/-- Blocks in ascending order, none over another, each of a block's size and in the mount. -/
structure Tiled (mount : Nat) (blocks : List DescribedBlock) : Prop where
  ascending : blocks.Pairwise fun a b => a.logical + a.len ≤ b.logical
  each : ∀ b ∈ blocks, 0 < b.len ∧ b.len ≤ ublock ∧ b.storedLen ≤ 2 * window ∧ b.logical + b.len ≤ mount

/-- The walk after `i` records. -/
structure WalkOk (c : Tables) (i : Nat) (s : Walk) : Prop where
  cursor : s.cursor ≤ 2 ^ 40 + i * window
  logical : s.logical ≤ c.mount
  tiled : Tiled c.mount s.out
  before : ∀ b ∈ s.out, b.logical + b.len ≤ s.logical

theorem anchorTurn_safe {nibble : Nat} (hi : i < 2 ^ 40) (hs : WalkOk c i s) :
    Safe (WalkOk c (i + 1)) (c.anchorTurn i v nibble s) := by
  have hhigh : bits v 26 22 < 2 ^ 22 := Nat.mod_lt _ (by decide)
  have hlow : bits v 48 18 < 2 ^ 18 := Nat.mod_lt _ (by decide)
  rw [Tables.anchorTurn, shl_eq (by omega), ok_bind]
  dsimp only
  have hcursor : (bits v 26 22 <<< 18) % 2 ^ 64 ||| bits v 48 18 = bits v 26 22 * 2 ^ 18 + bits v 48 18 := by
    rw [Nat.shiftLeft_eq, Nat.mod_eq_of_lt (by omega), or_eq_add hlow]
  rw [hcursor]
  refine Safe.bind (safe_add (by omega)) fun second _ => ?_
  split
  · exact safe_fail _
  · exact ⟨by dsimp only; omega, hs.logical, hs.tiled, hs.before⟩

theorem blockTurn_safe (hc : TablesOk blob c) {nibble : Nat} (hi : i + 1 < c.records)
    (hs : WalkOk c i s) : Safe (WalkOk c (i + 1)) (c.blockTurn i v nibble s) := by
  have hmount := hc.mount_lt
  have hsmall := hc.small
  have hw : window = 2 ^ 18 := rfl
  have hcur := hs.cursor
  rw [hw] at hcur
  rw [Tables.blockTurn]
  refine Safe.bind (skip_safe hc hs.logical) fun logical hlog => ?_
  split
  · exact safe_fail _
  split
  · exact safe_fail _
  rename_i hin
  split
  · exact safe_fail _
  refine Safe.bind (blockLen_safe hc hi (by omega)) fun len hlen => ?_
  refine Safe.bind (storedEnd_safe (by omega)) fun stop hstop => ?_
  refine Safe.bind (shuffleOf_safe i v) fun shuffle _ => ?_
  have heven : bits v 14 17 < 2 ^ 17 := Nat.mod_lt _ (by decide)
  refine Safe.bind (safe_add (by omega)) fun evenLen _ => ?_
  refine Safe.bind (safe_sub hstop.1) fun storedLen hstored => ?_
  refine Safe.bind (safe_add (by omega)) fun after hafter => ?_
  rw [hw] at hstop
  refine ⟨by rw [hw]; dsimp only; omega, by dsimp only; omega, ⟨?_, fun b hb => ?_⟩, fun b hb => ?_⟩
  · refine List.pairwise_append.2 ⟨hs.tiled.ascending, List.pairwise_singleton _ _, fun a ha b hb => ?_⟩
    rw [List.mem_singleton.1 hb]
    exact Nat.le_trans (hs.before a ha) hlog.1
  · rcases List.mem_append.1 hb with hb | hb
    · exact hs.tiled.each b hb
    · rw [List.mem_singleton.1 hb]
      exact ⟨hlen.1, hlen.2.1, by rw [hw]; dsimp only; omega, hlen.2.2⟩
  · rcases List.mem_append.1 hb with hb | hb
    · have := hs.before b hb
      dsimp only
      omega
    · rw [List.mem_singleton.1 hb]
      exact Nat.le_of_eq hafter.symm

/-- **One record of the walk.** -/
theorem walk_safe (hc : TablesOk blob c) (hi : i < c.records - 1) (hs : WalkOk c i s) :
    Safe (WalkOk c (i + 1)) (c.turn s i) := by
  have hsmall := hc.small
  rw [Tables.turn]
  refine Safe.bind (record_safe hc (by omega)) fun v _ => ?_
  have hs' : WalkOk c i { s with nextIsAnchor := bits v 66 1 = 1 && !s.nextIsAnchor, carriedNibble := bits v 68 4 } :=
    ⟨hs.cursor, hs.logical, hs.tiled, hs.before⟩
  dsimp only
  split
  · exact anchorTurn_safe (by omega) hs'
  · exact blockTurn_safe hc (by omega) hs'

/-! ## Decoding -/

/-- What putting a field back into its place needs: it lies inside a vector. -/
theorem putField_safe {stride off f vectors : Nat} (hfield : off + f ≤ stride)
    (hunit : vectors * stride ≤ unit.length) (hsmall : unit.length < 2 ^ 60) (hv : v < vectors)
    {s : Bytes × Nat} (hs : s.1.length = unit.length ∧ s.2 = vectors * off + v * f) :
    Safe (fun t => t.1.length = unit.length ∧ t.2 = vectors * off + (v + 1) * f)
      (putField unit stride off f s v) := by
  have hrow : v * stride + stride ≤ vectors * stride := by
    rw [← Nat.succ_mul]
    exact Nat.mul_le_mul_right stride hv
  have hread : vectors * off + v * f + f ≤ vectors * stride := by
    calc vectors * off + v * f + f = vectors * off + (v + 1) * f := by ring
      _ ≤ vectors * off + vectors * f := Nat.add_le_add_left (Nat.mul_le_mul_right f hv) _
      _ = vectors * (off + f) := by ring
      _ ≤ vectors * stride := Nat.mul_le_mul_left vectors hfield
  refine Safe.bind (safe_mul (by omega)) fun row hrow' => ?_
  refine Safe.bind (safe_add (by omega)) fun at_ hat => ?_
  refine Safe.bind (safe_add (by omega)) fun stop hstop => ?_
  refine Safe.bind (safe_slice (by omega) (by omega)) fun bytes hbytes => ?_
  refine Safe.bind (safe_blit (by omega)) fun chunk hchunk => ?_
  exact ⟨hchunk.trans hs.1, by rw [hstop, hs.2]; ring⟩

/-- The fields of a pattern, from the ones before on. -/
theorem putFields_safe {stride vectors : Nat} (hunit : vectors * stride ≤ unit.length)
    (hsmall : unit.length < 2 ^ 60) (fields : Bytes) {s : Nat × Bytes × Nat}
    (hfields : s.1 + (fields.map UInt8.toNat).sum ≤ stride) (hstride : stride < 2 ^ 60)
    (hs : s.2.1.length = unit.length ∧ s.2.2 = vectors * s.1) :
    Safe (fun t => t.2.1.length = unit.length) (fold (putFields unit stride vectors) s fields) := by
  induction fields generalizing s with
  | nil => exact hs.1
  | cons f fields ih =>
    obtain ⟨off, t⟩ := s
    rw [List.map_cons, List.sum_cons] at hfields
    dsimp only at hfields hs
    have hrow : Safe (fun u => u.1.length = unit.length ∧ u.2 = vectors * (off + f.toNat))
        (fold (putField unit stride off f.toNat) t (List.range vectors)) := by
      have hstart : t.1.length = unit.length ∧ t.2 = vectors * off + 0 * f.toNat := ⟨hs.1, by rw [hs.2]; ring⟩
      have hloop := @safe_fold_range String _
        (fun v (u : Bytes × Nat) => u.1.length = unit.length ∧ u.2 = vectors * off + v * f.toNat)
        (putField unit stride off f.toNat) vectors t hstart
        fun v u hv hu => putField_safe (by omega) hunit hsmall hv hu
      refine hloop.mono fun u hu => ?_
      exact ⟨hu.1, by rw [hu.2]; ring⟩
    have hfield : Safe (fun u => u.1 + (fields.map UInt8.toNat).sum ≤ stride ∧
        u.2.1.length = unit.length ∧ u.2.2 = vectors * u.1) (putFields unit stride vectors (off, t) f) := by
      refine Safe.bind hrow fun u hu => ?_
      refine Safe.bind (safe_add (by omega)) fun off' hoff => ?_
      exact ⟨by dsimp only; omega, hu.1, by rw [hu.2, ← hoff]⟩
    exact Safe.bind hfield fun u hu => ih hu.1 hu.2

theorem deshuffleUnit_safe {fields : Bytes} (hunit : unit.length < 2 ^ 60)
    (hstride : (fields.map UInt8.toNat).sum < 2 ^ 60) :
    Safe (fun out => out.length = unit.length) (deshuffleUnit fields (fields.map UInt8.toNat).sum unit) := by
  refine Safe.bind (putFields_safe (Nat.div_mul_le_self _ _) hunit fields ?_ hstride ?_) fun s hs => hs
  · rw [Nat.zero_add]
  · exact ⟨rfl, rfl⟩

/-- A whole is as long as its pieces. -/
theorem length_pieces {data : Bytes} {unit : Nat} (hu : 0 < unit) (n : Nat) :
    (((List.range n).map fun i => (data.drop (i * unit)).take unit).map List.length).sum =
      min data.length (n * unit) := by
  induction n with
  | zero => rw [Nat.zero_mul, Nat.min_zero]; rfl
  | succ n ih =>
    rw [List.range_succ, List.map_append, List.map_append, List.sum_append, ih, List.map_singleton,
      List.map_singleton, List.sum_singleton, List.length_take, List.length_drop, Nat.succ_mul]
    omega

theorem sum_lengths_of_forall₂ {as bs : List Bytes} (h : List.Forall₂ (fun a b => b.length = a.length) as bs) :
    (bs.map List.length).sum = (as.map List.length).sum := by
  induction h with
  | nil => rfl
  | cons hab _ ih => rw [List.map_cons, List.map_cons, List.sum_cons, List.sum_cons, hab, ih]

/-- **A shuffle undone keeps the length**, and is never out of range. -/
theorem deshuffle_safe (data : Bytes) (pattern : Nat) :
    Safe (fun out => out.length = data.length) (deshuffle data pattern) := by
  have hunit : shuffleUnit = 65536 := rfl
  rw [deshuffle]
  refine Safe.bind (safe_getOr _ _ _) fun fields hfields => ?_
  have hstride : (fields.map UInt8.toNat).sum < 2 ^ 60 := by
    have hall : ∀ s ∈ shuffles, (s.map UInt8.toNat).sum < 2 ^ 60 := by decide
    exact hall fields (List.mem_of_getElem? hfields)
  dsimp only
  split
  · exact rfl
  · refine Safe.bind (safe_collect (P := fun a b => b.length = a.length) fun unit hmem => ?_) fun units hlen => ?_
    · obtain ⟨i, -, rfl⟩ := List.mem_map.1 hmem
      refine deshuffleUnit_safe ?_ hstride
      rw [List.length_take]
      omega
    · show units.flatten.length = data.length
      rw [List.length_flatten, sum_lengths_of_forall₂ hlen, length_pieces (by decide), hunit]
      omega

/-- **A described block decodes to its length or not at all.** -/
theorem decodeDescribed_safe (image : Bytes) (b : DescribedBlock) :
    Safe (fun data => data.length = b.len) (decodeDescribed image b) := by
  rw [decodeDescribed]
  split
  · exact safe_fail _
  split
  · exact safe_fail _
  split
  · exact safe_fail _
  rename_i hin
  refine Safe.bind (safe_slice (by omega) (by omega)) fun src _ => ?_
  refine Safe.bind (safe_slice (Nat.zero_le _) (Nat.min_le_right _ _)) fun e _ => ?_
  refine Safe.bind (safe_slice (Nat.min_le_right _ _) (Nat.le_refl _)) fun o _ => ?_
  dsimp only
  have hhalves : Safe (fun _ => True)
      (if Kraken.half < b.len then do
        let oddLogical ← sub b.len Kraken.half
        return [halfOf e b.evenLz (b.modeBits % 2 = 1) (min b.len Kraken.half),
          halfOf o b.oddLz (b.modeBits / 8 % 2 = 1) oddLogical]
      else .ok [halfOf e b.evenLz (b.modeBits % 2 = 1) (min b.len Kraken.half)] : Res (List Kraken.Half)) := by
    split
    · exact Safe.bind (safe_sub (by omega)) fun _ _ => trivial
    · trivial
  refine Safe.bind hhalves fun halves _ => ?_
  refine Safe.bind (Kraken.decode_block_total halves b.len) fun data hdata => ?_
  exact (deshuffle_safe data b.shuffle).mono fun out hout => hout.trans hdata

/-! ## A descriptor of any bytes -/

/-- **Reading a layout descriptor is total.**  Whatever its bytes are, no check of an index, slice,
addition, multiplication or subtraction fails and no stretch is followed twice; the blocks returned are
in ascending order and in the declared mount, and each decodes, from any image, to its length or to an
error. -/
theorem describe_total (blob : Bytes) :
    Safe (fun blocks => Tiled (declaredMount blob) blocks ∧
      ∀ b ∈ blocks, ∀ image, Safe (fun data => data.length = b.len) (decodeDescribed image b))
      (describe blob) := by
  rw [describe]
  refine Safe.bind (readTables_safe blob) fun c hc => ?_
  have hstart : WalkOk c 0 ⟨0, 0, true, 0, []⟩ :=
    ⟨Nat.zero_le _, Nat.zero_le _, ⟨List.Pairwise.nil, nofun⟩, nofun⟩
  refine Safe.bind (safe_fold_range hstart fun i s hi hs => walk_safe hc hi hs) fun s hs => ?_
  refine Safe.bind (skip_safe hc hs.logical) fun logical _ => ?_
  split
  · exact safe_fail _
  · exact ⟨hc.mount ▸ hs.tiled, fun b _ image => decodeDescribed_safe image b⟩

end Ps5Upload.KrakenImage
