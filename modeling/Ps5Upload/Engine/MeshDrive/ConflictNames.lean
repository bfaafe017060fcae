import Mathlib.Tactic.Common
import Ps5Upload.Lib.CText
import Ps5Upload.Lib.Utf8
import Ps5Upload.Engine.MeshDrive.Plan

/-!
# Mesh Drive: conflict names taken apart

The model of `parse_conflict` in `engine/crates/ps5upload-engine/src/mesh_drive_plan.rs`, which
finds in the name of a conflict copy the file it is a copy of, the device that made it, and when.
It works at byte offsets, so each cut is checked.

* `parseConflict_safe` — no name makes it panic, and what it answers stands in the name.
-/

namespace Ps5Upload.MeshDrive

open Checked Utf8

/-! ## The model -/

/-- A conflict copy's name taken apart: the file it is a copy of, the device that made it, and
when (`YYYY-MM-DD HHMM`). -/
structure ConflictName where
  original : Path
  device : String
  stamp : String
  deriving DecidableEq, Repr

def conflictTag : Text := " (conflict from ".toList

/-- "YYYY-MM-DD HHMM". -/
def isStamp (s : Text) : Bool :=
  (bytes s).length = 15 && (bytes s).zipIdx.all fun (c, i) =>
    if i = 4 ∨ i = 7 then c = 0x2d else if i = 10 then c = 0x20 else CText.isDigit c

/-- The path cut after its last `/`. -/
def cutDir (path : Text) : Res Empty (Text × Text) :=
  match rfind '/' path with
  | none => .ok ([], path)
  | some i => do
    let dir ← sliceTo path (i + 1)
    let file ← sliceFrom path (i + 1)
    .ok (dir, file)

/-- Whether the bracket at offset `i` closes the tag that opens before `innerFrom`: it stands
right after a stamp. -/
def closes (file : Text) (innerFrom i : Nat) : Res Empty Bool :=
  if innerFrom + 17 ≤ i then do
    let from_ ← sub i 15
    .ok (isStamp ((get file from_ i).getD []))
  else .ok false

/-- The first of the offsets at which the tag closes. -/
def closing (file : Text) (innerFrom : Nat) : List Nat → Res Empty (Option Nat)
  | [] => .ok none
  | i :: is => do
    let here ← closes file innerFrom i
    if here then .ok (some i) else closing file innerFrom is

/-- What follows the tag, without `free_name`'s " (2)". -/
def withoutNumber (rest : Text) : Res Empty Text :=
  match rest with
  | ' ' :: '(' :: r =>
    match find ')' r with
    | none => .ok rest
    | some stop => do
      let digits ← sliceTo r stop
      if digits ≠ [] ∧ (bytes digits).all CText.isDigit then sliceFrom r (stop + 1) else .ok rest
  | _ => .ok rest

def parseConflict (path : Path) : Res Empty (Option ConflictName) := do
  let (dir, file) ← cutDir path.toList
  match rfindStr conflictTag file with
  | none => .ok none
  | some start => do
    let innerFrom := start + size conflictTag
    let inner ← sliceFrom file innerFrom
    -- A device name from before 8.1.1 may hold brackets of its own.
    match ← closing file innerFrom ((offsets ')' inner).map (innerFrom + ·)) with
    | none => .ok none
    | some close => do
      let before ← sub close 16
      match get file innerFrom before with
      | none => .ok none
      | some device =>
        if device = [] then .ok none
        else do
          let space ← index (bytes file) before
          if space ≠ 0x20 then .ok none
          else do
            let stampFrom ← sub close 15
            let stamp ← sliceBetween file stampFrom close
            let after ← sliceFrom file (close + 1)
            let rest ← withoutNumber after
            let stem ← sliceTo file start
            .ok (some
              { original := String.ofList (dir ++ stem ++ rest)
                device := String.ofList device
                stamp := String.ofList stamp })

/-! ## Folders and extensions -/

/-- A folder part: empty, or up to a `/`. -/
def IsDir (dir : Text) : Prop := dir = [] ∨ ∃ d, dir = d ++ ['/']

theorem splitDir_append {dir file : Text} (hdir : IsDir dir) (hfile : '/' ∉ file) :
    splitDir (dir ++ file) = (dir, file) := by
  have hall : ∀ c ∈ file.reverse, (c ≠ '/') := by
    rintro c hc rfl
    exact hfile (List.mem_reverse.1 hc)
  have hall' : ∀ c ∈ file.reverse, decide (c ≠ '/') = true := fun c hc => by simpa using hall c hc
  rw [splitDir, List.reverse_append, List.dropWhile_append_of_pos hall',
    List.takeWhile_append_of_pos hall']
  rcases hdir with rfl | ⟨d, rfl⟩ <;> simp

theorem splitDir_spec (path : Text) :
    path = (splitDir path).1 ++ (splitDir path).2 ∧ IsDir (splitDir path).1 ∧
      '/' ∉ (splitDir path).2 := by
  by_cases h : '/' ∈ path
  · obtain ⟨f, d, hr, hf⟩ := List.eq_append_cons_of_mem (List.mem_reverse.2 h)
    have hpath : path = (d.reverse ++ ['/']) ++ f.reverse := by
      have := congrArg List.reverse hr
      simpa using this
    have hf' : '/' ∉ f.reverse := by simpa using hf
    rw [hpath, splitDir_append (.inr ⟨_, rfl⟩) hf']
    exact ⟨rfl, .inr ⟨_, rfl⟩, hf'⟩
  · have := splitDir_append (.inl rfl) h
    rw [List.nil_append] at this
    rw [this]
    exact ⟨rfl, .inl rfl, h⟩

theorem cutDir_eq (path : Text) : cutDir path = .ok (splitDir path) := by
  by_cases h : '/' ∈ path
  · obtain ⟨f, d, hr, hf⟩ := List.eq_append_cons_of_mem (List.mem_reverse.2 h)
    have hpath : path = d.reverse ++ '/' :: f.reverse := by
      have := congrArg List.reverse hr
      simpa using this
    have hf' : '/' ∉ f.reverse := by simpa using hf
    have hcut : path = (d.reverse ++ ['/']) ++ f.reverse := by simpa using hpath
    have hsize : size d.reverse + 1 = size (d.reverse ++ ['/']) := by
      rw [size_append]
      rfl
    rw [cutDir, hpath, rfind_append _ hf', ← hpath, hcut]
    simp only [hsize, sliceTo_append, sliceFrom_append, ok_bind]
    rw [splitDir_append (.inr ⟨_, rfl⟩) hf']
  · have := splitDir_append (.inl rfl) h
    rw [List.nil_append] at this
    rw [cutDir, rfind_eq_none.2 h, this]

theorem splitExt_dot {stem ext : Text} (hstem : stem ≠ []) (hext : '.' ∉ ext) :
    splitExt (stem ++ '.' :: ext) = (stem, '.' :: ext) := by
  have hall : ∀ c ∈ ext.reverse, decide (c ≠ '.') = true := by
    intro c hc
    refine decide_eq_true fun h => ?_
    subst h
    exact hext (List.mem_reverse.1 hc)
  have hrev : (stem ++ '.' :: ext).reverse = ext.reverse ++ '.' :: stem.reverse := by simp
  have hdrop : ((stem ++ '.' :: ext).reverse.dropWhile (· ≠ '.')).reverse.dropLast = stem := by
    rw [hrev, List.dropWhile_append_of_pos hall]
    simp
  simp only [splitExt, hdrop, if_neg hstem, List.drop_left]

theorem splitExt_plain {file : Text} (h : '.' ∉ file.tail) : splitExt file = (file, []) := by
  have hnil : (file.reverse.dropWhile (· ≠ '.')).reverse.dropLast = [] := by
    cases file with
    | nil => rfl
    | cons c f =>
      have hall : ∀ c ∈ f.reverse, decide (c ≠ '.') = true := by
        intro c hc
        refine decide_eq_true fun hd => ?_
        subst hd
        exact h (List.mem_reverse.1 hc)
      rw [List.reverse_cons, List.dropWhile_append_of_pos hall]
      by_cases hc : c = '.' <;> simp [hc]
  simp only [splitExt, hnil, if_true]

theorem splitExt_cases (file : Text) : '.' ∉ file.tail ∧ splitExt file = (file, []) ∨
    ∃ stem ext, stem ≠ [] ∧ '.' ∉ ext ∧ file = stem ++ '.' :: ext ∧
      splitExt file = (stem, '.' :: ext) := by
  by_cases h : '.' ∈ file.tail
  · obtain ⟨e, s, hr, he⟩ := List.eq_append_cons_of_mem (List.mem_reverse.2 h)
    obtain ⟨c, f, rfl⟩ : ∃ c f, file = c :: f := by
      cases file with
      | nil => cases h
      | cons c f => exact ⟨c, f, rfl⟩
    have hf : f = s.reverse ++ '.' :: e.reverse := by
      have := congrArg List.reverse hr
      simpa using this
    have he' : '.' ∉ e.reverse := by simpa using he
    have hne : c :: s.reverse ≠ [] := List.cons_ne_nil _ _
    refine .inr ⟨c :: s.reverse, e.reverse, hne, he', by rw [hf]; rfl, ?_⟩
    rw [hf]
    exact splitExt_dot hne he'
  · exact .inl ⟨h, splitExt_plain h⟩

theorem splitExt_append (file : Text) : (splitExt file).1 ++ (splitExt file).2 = file := by
  rcases splitExt_cases file with ⟨-, h⟩ | ⟨stem, ext, -, -, hfile, h⟩
  · rw [h, List.append_nil]
  · rw [h, hfile]

/-! ## Stamps -/

theorem size_of_isStamp {s : Text} (h : isStamp s = true) : size s = 15 := by
  simp only [isStamp, Bool.and_eq_true, decide_eq_true_eq] at h
  rw [← length_bytes]
  exact h.1

theorem mem_bytes_of_isStamp {s : Text} (h : isStamp s = true) {b : UInt8} (hb : b ∈ bytes s) :
    b = 0x2d ∨ b = 0x20 ∨ CText.isDigit b = true := by
  simp only [isStamp, Bool.and_eq_true, List.all_eq_true] at h
  obtain ⟨i, hi⟩ := List.mem_iff_getElem?.1 hb
  have := h.2 (b, i) (List.mk_mem_zipIdx_iff_getElem?.2 hi)
  simp only at this
  split at this
  · exact .inl (by simpa using this)
  · split at this
    · exact .inr (.inl (by simpa using this))
    · exact .inr (.inr this)

/-- None of the characters a name is taken apart by stands in a stamp. -/
theorem not_mem_of_isStamp {s : Text} (h : isStamp s = true) {c : Char}
    (hc : c = '(' ∨ c = ')' ∨ c = '.' ∨ c = '/') : c ∉ s := by
  intro hs
  have hbytes : ∀ b ∈ String.utf8EncodeChar c, b ∈ bytes s := fun b hb =>
    List.mem_flatMap.2 ⟨c, hs, hb⟩
  rcases hc with rfl | rfl | rfl | rfl <;>
    exact absurd (mem_bytes_of_isStamp h (hbytes _ (List.mem_singleton.2 rfl))) (by decide)

/-! ## Dates -/

theorem bytes_digits {ds : Text} (h : ∀ c ∈ ds, c.isDigit = true) :
    bytes ds = ds.map fun c => UInt8.ofNat c.toNat := by
  induction ds with
  | nil => rfl
  | cons c ds ih =>
    have hc : c.utf8Size = 1 := by
      have := h c List.mem_cons_self
      simp only [Char.isDigit, Bool.and_eq_true, decide_eq_true_eq] at this
      rw [Char.utf8Size_eq_one_iff]
      exact UInt32.le_trans this.2 (by decide)
    rw [bytes_cons, String.utf8EncodeChar_eq_singleton hc,
      ih fun d hd => h d (List.mem_cons_of_mem c hd)]
    rfl

theorem padded_digits {w : Nat} {v : Int} (hw : 0 < w) (h0 : 0 ≤ v) (h : v < 10 ^ w) :
    (padded w v).length = w ∧ ∀ c ∈ padded w v, c.isDigit = true := by
  obtain ⟨n, rfl⟩ := Int.eq_ofNat_of_zero_le h0
  have hlen : (Nat.toDigits 10 n).length ≤ w :=
    (Nat.length_toDigits_le_iff (by decide) hw).2 (by exact_mod_cast h)
  have hp : padded w n
      = List.replicate (w - (Nat.toDigits 10 n).length) '0' ++ Nat.toDigits 10 n := by
    rw [padded, if_neg (by omega)]
    simp
  rw [hp]
  constructor
  · rw [List.length_append, List.length_replicate]
    omega
  · intro c hc
    rcases List.mem_append.1 hc with hc | hc
    · rw [List.eq_of_mem_replicate hc]
      rfl
    · exact Nat.isDigit_of_mem_toDigits (by decide) (by decide) hc

/-- The year, the month and the day that `date_parts` prints. -/
def civil (secs : Int) : Int × Int × Int :=
  let z := secs / 86400 + 719468
  let era := z / 146097
  let doe := z - era * 146097
  let yoe := (doe - doe / 1460 + doe / 36524 - doe / 146096) / 365
  let doy := doe - (365 * yoe + yoe / 4 - yoe / 100)
  let mp := (5 * doy + 2) / 153
  let m := if mp < 10 then mp + 3 else mp - 9
  (if m ≤ 2 then yoe + era * 400 + 1 else yoe + era * 400, m, doy - (153 * mp + 2) / 5 + 1)

theorem toList_stamp (secs : Int) : (dateParts secs).2.toList =
    padded 4 (civil secs).1 ++ ['-'] ++ padded 2 (civil secs).2.1 ++ ['-'] ++
      padded 2 (civil secs).2.2 ++ [' '] ++ padded 2 (secs % 86400 / 3600) ++
      padded 2 (secs % 86400 % 3600 / 60) := by
  simp only [dateParts, civil, String.toList_ofList]

/-- A month and a day are written with two digits. -/
theorem civil_bounds (secs : Int) : (0 ≤ (civil secs).2.1 ∧ (civil secs).2.1 < 100) ∧
    0 ≤ (civil secs).2.2 ∧ (civil secs).2.2 < 100 := by
  set z := secs / 86400 + 719468 with hz
  set doe := z - z / 146097 * 146097 with hdoe
  set yoe := (doe - doe / 1460 + doe / 36524 - doe / 146096) / 365 with hyoe
  set doy := doe - (365 * yoe + yoe / 4 - yoe / 100) with hdoy
  set mp := (5 * doy + 2) / 153 with hmp
  have hday : -90 ≤ doy ∧ doy ≤ 600 := by
    have : 0 ≤ doe ∧ doe < 146097 := by omega
    omega
  have hd : 0 ≤ doy - (153 * mp + 2) / 5 + 1 ∧ doy - (153 * mp + 2) / 5 + 1 < 100 := by omega
  have hm : 0 ≤ (if mp < 10 then mp + 3 else mp - 9) ∧
      (if mp < 10 then mp + 3 else mp - 9) < 100 := by omega
  exact ⟨hm, hd⟩

/-- Digits with the separators of a stamp between them are a stamp. -/
theorem isStamp_of_digits {y m d h i : Text} (hy : y.length = 4 ∧ ∀ c ∈ y, c.isDigit = true)
    (hm : m.length = 2 ∧ ∀ c ∈ m, c.isDigit = true) (hd : d.length = 2 ∧ ∀ c ∈ d, c.isDigit = true)
    (hh : h.length = 2 ∧ ∀ c ∈ h, c.isDigit = true)
    (hi : i.length = 2 ∧ ∀ c ∈ i, c.isDigit = true) :
    isStamp (y ++ ['-'] ++ m ++ ['-'] ++ d ++ [' '] ++ h ++ i) = true := by
  have hdash : bytes ['-'] = [0x2d] := rfl
  have hspace : bytes [' '] = [0x20] := rfl
  rw [isStamp]
  simp only [bytes_append, bytes_digits hy.2, bytes_digits hm.2, bytes_digits hd.2,
    bytes_digits hh.2, bytes_digits hi.2, hdash, hspace]
  have two : ∀ {t : Text}, t.length = 2 → ∃ a b, t = [a, b] := fun ht =>
    List.length_eq_two.1 ht
  obtain ⟨y1, y2, y3, y4, rfl⟩ : ∃ a b c e, y = [a, b, c, e] := by
    match y, hy.1 with
    | [a, b, c, e], _ => exact ⟨a, b, c, e, rfl⟩
  obtain ⟨m1, m2, rfl⟩ := two hm.1
  obtain ⟨d1, d2, rfl⟩ := two hd.1
  obtain ⟨h1, h2, rfl⟩ := two hh.1
  obtain ⟨i1, i2, rfl⟩ := two hi.1
  have digit : ∀ {t : Text}, (∀ c ∈ t, c.isDigit = true) → ∀ c ∈ t,
      CText.isDigit (UInt8.ofNat c.toNat) = true := fun ht c hc => CText.isDigit_digitByte (ht c hc)
  simp [digit hy.2, digit hm.2, digit hd.2, digit hh.2, digit hi.2]

/-- What `date_parts` prints for the years 0 to 9999 is a stamp. -/
theorem isStamp_dateParts {secs : Int} (h0 : 0 ≤ (civil secs).1) (h : (civil secs).1 ≤ 9999) :
    isStamp (dateParts secs).2.toList = true := by
  obtain ⟨hm, hd⟩ := civil_bounds secs
  rw [toList_stamp]
  refine isStamp_of_digits (padded_digits (by decide) h0 ?_) (padded_digits (by decide) hm.1 hm.2)
    (padded_digits (by decide) hd.1 hd.2) (padded_digits (by decide) ?_ ?_)
    (padded_digits (by decide) ?_ ?_) <;> omega

/-! ## Safety -/

theorem withoutNumber_spec (rest : Text) : ∃ r, withoutNumber rest = .ok r ∧ r <:+ rest := by
  unfold withoutNumber
  split
  · rename_i r
    split
    · exact ⟨_, rfl, List.suffix_refl _⟩
    · rename_i stop hstop
      obtain ⟨a, b, rfl, -, rfl⟩ := find_eq_some.1 hstop
      rw [sliceTo_append, ok_bind]
      split
      · have hcut : (sliceFrom (a ++ ')' :: b) (size a + 1) : Res Empty _) = .ok b := by
          have := sliceFrom_append (ε := Empty) (a ++ [')']) b
          rwa [size_append, List.append_assoc] at this
        exact ⟨b, hcut, ' ' :: '(' :: a ++ [')'], by simp⟩
      · exact ⟨_, rfl, List.suffix_refl _⟩
  · exact ⟨_, rfl, List.suffix_refl _⟩

/-- The bracket that closes the tag is one of the candidates, and a stamp stands before it. -/
theorem closing_safe (file : Text) (innerFrom : Nat) (is : List Nat) :
    Checked.Safe (fun r => ∀ i, r = some i → i ∈ is ∧ innerFrom + 17 ≤ i ∧
      ∃ stamp, get file (i - 15) i = some stamp ∧ isStamp stamp = true)
      (closing file innerFrom is) := by
  induction is with
  | nil =>
    rintro i h
    cases h
  | cons i is ih =>
    rw [closing]
    have hcloses : Checked.Safe (fun here => here = true → innerFrom + 17 ≤ i ∧
        ∃ stamp, get file (i - 15) i = some stamp ∧ isStamp stamp = true)
        (closes file innerFrom i) := by
      rw [closes]
      split
      · rename_i hle
        rw [sub_eq (by omega), ok_bind]
        intro h
        refine ⟨hle, ?_⟩
        cases hget : get file (i - 15) i with
        | none => simp [hget, isStamp, bytes] at h
        | some stamp =>
          rw [hget] at h
          exact ⟨stamp, rfl, h⟩
      · intro h
        cases h
    refine Checked.Safe.bind hcloses fun here hhere => ?_
    split
    · rename_i ht
      rintro k hk
      cases hk
      exact ⟨List.mem_cons_self, hhere ht⟩
    · refine ih.mono fun r hr k hk => ?_
      obtain ⟨hmem, h⟩ := hr k hk
      exact ⟨List.mem_cons_of_mem i hmem, h⟩

/-- What is answered for a name stands in it: at its last tag, the device's name, and in what is
left the original. -/
def Describes (path : Path) (c : ConflictName) : Prop :=
  ∃ stem tail rest, (splitDir path.toList).2 = stem ++ conflictTag ++ c.device.toList ++ tail ∧
    rfindStr conflictTag (splitDir path.toList).2 = some (size stem) ∧
    isStamp c.stamp.toList = true ∧ c.device ≠ "" ∧
    c.original.toList = (splitDir path.toList).1 ++ stem ++ rest ∧ rest <:+ tail

theorem parseConflict_safe (path : Path) :
    Checked.Safe (fun r => ∀ c, r = some c → Describes path c) (parseConflict path) := by
  have hnone : Checked.Safe (fun r => ∀ c, r = some c → Describes path c)
      (.ok none : Res Empty (Option ConflictName)) := by
    rintro c h
    cases h
  rw [parseConflict, cutDir_eq, ok_bind]
  simp only
  generalize hfile : (splitDir path.toList).2 = file
  split
  · exact hnone
  rename_i start hstart
  obtain ⟨stem, inner, rfl, rfl⟩ := rfindStr_some hstart
  have hinner : (sliceFrom (stem ++ conflictTag ++ inner) (size stem + size conflictTag) :
      Res Empty _) = .ok inner := by
    rw [← size_append, sliceFrom_append]
  rw [hinner, ok_bind]
  refine Checked.Safe.bind (closing_safe _ _ _) fun found hfound => ?_
  split
  · exact hnone
  rename_i close
  obtain ⟨hmem, hle, stamp, hget, hstamp⟩ := hfound close rfl
  rw [sub_eq (by omega), ok_bind]
  split
  · exact hnone
  rename_i device hdevice
  split
  · exact hnone
  rename_i hne
  -- The tag's device stands right after its opening, and its bracket where it was looked for.
  obtain ⟨a, tail, hcut, hsa, hsd⟩ := get_eq_some.1 hdevice
  obtain ⟨rfl, rfl⟩ : stem ++ conflictTag = a ∧ inner = device ++ tail := by
    refine append_inj_size (by rw [hcut, List.append_assoc]) ?_
    rw [hsa, size_append]
  obtain ⟨k, hk, rfl⟩ := List.mem_map.1 hmem
  obtain ⟨u, v, hv, rfl⟩ := mem_offsets.1 hk
  have hwhole : stem ++ conflictTag ++ (device ++ tail)
      = (stem ++ conflictTag ++ u ++ [')']) ++ v := by
    rw [hv]
    simp
  have hafter : (sliceFrom (stem ++ conflictTag ++ (device ++ tail))
      (size stem + size conflictTag + size u + 1) : Res Empty _) = .ok v := by
    have := sliceFrom_append (ε := Empty) (stem ++ conflictTag ++ u ++ [')']) v
    rw [← hwhole] at this
    have hone : size [')'] = 1 := rfl
    simpa only [size_append, hone, Nat.add_assoc] using this
  have hlen : size stem + size conflictTag + size u - 16
      < (bytes (stem ++ conflictTag ++ (device ++ tail))).length := by
    rw [length_bytes, hwhole]
    simp only [size_append]
    omega
  refine Checked.Safe.bind (safe_index hlen) fun space _ => ?_
  split
  · exact hnone
  obtain ⟨r, hr, hsuf⟩ := withoutNumber_spec v
  rw [sub_eq (by omega), ok_bind, sliceBetween, hget, ok_bind, hafter, ok_bind, hr, ok_bind,
    List.append_assoc, sliceTo_append, ok_bind]
  rintro c hc
  cases hc
  have htail : v <:+ tail := by
    rcases List.append_eq_append_iff.1
      (show device ++ tail = (u ++ [')']) ++ v by rw [hv]; simp) with ⟨w, -, rfl⟩ | ⟨w, rfl, -⟩
    · exact ⟨w, rfl⟩
    · simp only [size_append] at hsd
      omega
  refine ⟨stem, tail, r, ?_, ?_, ?_, ?_, ?_, hsuf.trans htail⟩
  · rw [hfile]
    simp
  · rwa [hfile]
  · rwa [String.toList_ofList]
  · intro h
    exact hne (by simpa using congrArg String.toList h)
  · rw [String.toList_ofList]

/-! ## Names with a tag -/

section Tagged

variable {stem device stamp after : Text}

/-- The name of a conflict copy, up to its folder. -/
def tagged (stem device stamp after : Text) : Text :=
  stem ++ conflictTag ++ (device ++ ' ' :: stamp ++ ')' :: after)

/-- A tag starts in the second of two texts only, where the first has no bracket. -/
theorem noTag_append {x y : Text} (hx : '(' ∉ x) (hhead : y.head? ≠ some '(')
    (hy : ¬ conflictTag <:+: y) : ¬ conflictTag <:+: x ++ y := by
  induction x with
  | nil => exact hy
  | cons c x ih =>
    have hx' : '(' ∉ x := fun h => hx (List.mem_cons_of_mem c h)
    rw [List.cons_append, List.infix_cons_iff, not_or]
    refine ⟨?_, ih hx'⟩
    rintro ⟨z, hz⟩
    have hopen : x ++ y = '(' :: "conflict from ".toList ++ z := by
      have := congrArg List.tail hz
      exact this.symm
    cases x with
    | nil =>
      rw [List.nil_append] at hopen
      exact hhead (by rw [hopen]; rfl)
    | cons d x =>
      have : d = '(' := (List.cons.inj hopen).1
      exact hx' (this ▸ List.mem_cons_self)

theorem noTag_of_not_mem {x : Text} (hx : '(' ∉ x) : ¬ conflictTag <:+: x := by
  have := noTag_append (y := []) hx (by simp) (by decide)
  rwa [List.append_nil] at this

/-- After the tag's first character no other tag begins. -/
theorem noTag_tail (hdevice : '(' ∉ device) (hstamp : isStamp stamp = true)
    (hhead : after.head? ≠ some '(') (hafter : ¬ conflictTag <:+: after) :
    ¬ conflictTag <:+: (conflictTag ++ (device ++ ' ' :: stamp ++ ')' :: after)).tail := by
  have hno := not_mem_of_isStamp hstamp (c := '(') (by simp)
  have hcut : (conflictTag ++ (device ++ ' ' :: stamp ++ ')' :: after)).tail
      = '(' :: (("conflict from ".toList ++ device ++ ' ' :: stamp ++ [')']) ++ after) := by
    have : conflictTag.tail = '(' :: "conflict from ".toList := by decide
    rw [List.tail_append_of_ne_nil (by decide), this]
    simp
  rw [hcut, List.infix_cons_iff, not_or]
  constructor
  · rintro ⟨z, hz⟩
    have : ' ' = '(' := (List.cons.inj hz).1
    exact absurd this (by decide)
  · refine noTag_append ?_ hhead hafter
    simp [hdevice, hno]

theorem get_stamp (hstamp : isStamp stamp = true) :
    get (tagged stem device stamp after) (size (stem ++ conflictTag) + size device + 16 - 15)
      (size (stem ++ conflictTag) + size device + 16) = some stamp := by
  have hsize := size_of_isStamp hstamp
  have hspace : size [' '] = 1 := rfl
  refine get_eq_some.2 ⟨stem ++ conflictTag ++ device ++ [' '], ')' :: after, ?_, ?_, ?_⟩
  · simp [tagged]
  · simp only [size_append, hspace]
    omega
  · simp only [size_append, hspace, hsize]

theorem closing_tagged (hdevice : device ≠ []) (hclose : ')' ∉ device)
    (hstamp : isStamp stamp = true) :
    closing (tagged stem device stamp after) (size (stem ++ conflictTag))
        ((offsets ')' (device ++ ' ' :: stamp ++ ')' :: after)).map
          (size (stem ++ conflictTag) + ·)) =
      .ok (some (size (stem ++ conflictTag) + size device + 16)) := by
  have hsize := size_of_isStamp hstamp
  have hpos := size_pos hdevice
  have hone : (' ' : Char).utf8Size = 1 := rfl
  obtain ⟨more, hmore⟩ : ∃ more, offsets ')' (device ++ ' ' :: stamp ++ ')' :: after)
      = (size device + 16) :: more := by
    have hno : ')' ∉ device ++ ' ' :: stamp := by
      have := not_mem_of_isStamp hstamp (c := ')') (by simp)
      simp [hclose, this]
    rw [offsets_append, offsets_eq_nil hno]
    exact ⟨_, by simp [offsets, hsize, hone]; rfl⟩
  rw [hmore, List.map_cons, ← Nat.add_assoc, closing, closes, if_pos (by omega),
    sub_eq (by omega), ok_bind, get_stamp hstamp, Option.getD_some, hstamp]
  rfl

/-- A name whose last tag closes at its stamp is taken apart at that tag. -/
theorem parseConflict_tagged {path : Path} {dir rest : Text}
    (hpath : splitDir path.toList = (dir, tagged stem device stamp after))
    (hlast : ¬ conflictTag <:+: (conflictTag ++ (device ++ ' ' :: stamp ++ ')' :: after)).tail)
    (hdevice : device ≠ []) (hclose : ')' ∉ device) (hstamp : isStamp stamp = true)
    (hrest : withoutNumber after = .ok rest) :
    parseConflict path = .ok (some
      { original := String.ofList (dir ++ stem ++ rest)
        device := String.ofList device
        stamp := String.ofList stamp }) := by
  have hsize := size_of_isStamp hstamp
  have hspace : size [' '] = 1 := rfl
  have hfind : rfindStr conflictTag (tagged stem device stamp after) = some (size stem) :=
    rfindStr_append stem (by decide) hlast
  have hinner : (sliceFrom (tagged stem device stamp after) (size stem + size conflictTag) :
      Res Empty _) = .ok (device ++ ' ' :: stamp ++ ')' :: after) := by
    rw [← size_append]
    exact sliceFrom_append _ _
  have hget : get (tagged stem device stamp after) (size (stem ++ conflictTag))
      (size (stem ++ conflictTag) + size device) = some device := by
    refine get_eq_some.2 ⟨_, ' ' :: stamp ++ ')' :: after, ?_, rfl, rfl⟩
    simp [tagged]
  have hindex : (bytes (tagged stem device stamp after))[size (stem ++ conflictTag)
      + size device]? = some 0x20 := by
    have hbytes : bytes (tagged stem device stamp after)
        = bytes (stem ++ conflictTag ++ device) ++ (0x20 :: bytes (stamp ++ ')' :: after)) := by
      have : String.utf8EncodeChar ' ' = [0x20] := rfl
      simp [tagged, this]
    rw [hbytes, ← size_append, ← length_bytes, List.getElem?_append_right (Nat.le_refl _),
      Nat.sub_self]
    rfl
  have hafter : (sliceFrom (tagged stem device stamp after)
      (size (stem ++ conflictTag) + size device + 16 + 1) : Res Empty _) = .ok after := by
    have hcut : tagged stem device stamp after
        = (stem ++ conflictTag ++ device ++ [' '] ++ stamp ++ [')']) ++ after := by
      simp [tagged]
    have hclosed : size [')'] = 1 := rfl
    have hall : size (stem ++ conflictTag) + size device + 16 + 1
        = size (stem ++ conflictTag ++ device ++ [' '] ++ stamp ++ [')']) := by
      simp only [size_append, hspace, hclosed, hsize]
    rw [hall, hcut, sliceFrom_append]
  have hstem : (sliceTo (tagged stem device stamp after) (size stem) : Res Empty _) = .ok stem := by
    rw [tagged, List.append_assoc, sliceTo_append]
  rw [parseConflict, cutDir_eq, ok_bind, hpath]
  simp only [hfind, hinner, ok_bind]
  rw [← size_append, closing_tagged hdevice hclose hstamp, ok_bind]
  simp only [sub_eq (show 16 ≤ size (stem ++ conflictTag) + size device + 16 by omega), ok_bind,
    Nat.add_sub_cancel, hget, if_neg hdevice, index_eq hindex, ne_eq, not_true_eq_false, if_false,
    sub_eq (show 15 ≤ size (stem ++ conflictTag) + size device + 16 by omega), sliceBetween,
    get_stamp hstamp, hafter, hrest, hstem]

end Tagged

end Ps5Upload.MeshDrive
