import Mathlib.Tactic.Common
import Ps5Upload.Engine.MeshDrive.ConflictNames

/-!
# Mesh Drive: conflict copies of conflict copies

The names that `conflict_name` and `free_name` give a file which conflicts again and again, and
what `parse_conflict` finds in them.

* `splitDir_conflictName`, `splitDir_numberedName` — the names as texts around their tag;
* `noTagExt_copyName` — no tag is ever in an extension, which keeps the newest tag the last one;
* `copies_peel_iff` — a copy's name leads back to the name it was made from, except where its
  number fell into the device's name, or its folder was dropped.
-/

namespace Ps5Upload.MeshDrive

open Checked Utf8

/-- One conflict: the device that lost, the time, and the number of `free_name` where the name was
used already. -/
structure Copy where
  device : String
  secs : Int
  number : Option Nat

/-- The name that the copy of the file at `p` gets. -/
def copyName (p : Path) (c : Copy) : Path :=
  let made := conflictName p c.device (dateParts c.secs).2
  match c.number with
  | none => made
  | some n => numberedName made n

/-! ## Names as texts -/

section Names

variable {p : Path} {device stamp : String}

/-- A file's name, without its folder. -/
def fileOf (p : Path) : Text := (splitDir p.toList).2

def extOf (p : Path) : Text := (splitExt (fileOf p)).2

def stemOf (p : Path) : Text := (splitExt (fileOf p)).1

theorem toList_eq (p : Path) : p.toList = (splitDir p.toList).1 ++ stemOf p ++ extOf p := by
  rw [stemOf, extOf, List.append_assoc, splitExt_append]
  exact (splitDir_spec p.toList).1

theorem conflictDevice_clean {c : Char} (h : c ∈ conflictDevice device) :
    c ≠ '/' ∧ c ≠ '(' ∧ c ≠ ')' := by
  obtain ⟨d, -, rfl⟩ := List.mem_map.1 (List.mem_of_mem_take h)
  split
  · decide
  · rename_i hd
    simp only [not_or] at hd
    exact ⟨hd.1, hd.2.2.1, hd.2.2.2.1⟩

theorem conflictDevice_ne_nil (h : device ≠ "") : conflictDevice device ≠ [] := by
  have hlist : device.toList ≠ [] := by simpa using h
  obtain ⟨c, cs, hc⟩ := List.exists_cons_of_ne_nil hlist
  simp [conflictDevice, hc]

theorem slash_not_mem_tagged {stem dev st after : Text} (hstem : '/' ∉ stem) (hdev : '/' ∉ dev)
    (hst : '/' ∉ st) (hafter : '/' ∉ after) : '/' ∉ tagged stem dev st after := by
  have : '/' ∉ conflictTag := by decide
  simp [tagged, hstem, hdev, hst, hafter, this]

theorem slash_not_mem_stem (p : Path) : '/' ∉ stemOf p ∧ '/' ∉ extOf p := by
  have h : '/' ∉ stemOf p ++ extOf p := by
    rw [stemOf, extOf, splitExt_append]
    exact (splitDir_spec p.toList).2.2
  exact ⟨fun hm => h (List.mem_append_left _ hm), fun hm => h (List.mem_append_right _ hm)⟩

theorem splitDir_conflictName (p : Path) (device : String) (hstamp : isStamp stamp.toList = true) :
    splitDir (conflictName p device stamp).toList =
      ((splitDir p.toList).1, tagged (stemOf p) (conflictDevice device) stamp.toList (extOf p)) := by
  have htext : (conflictName p device stamp).toList = (splitDir p.toList).1 ++
      tagged (stemOf p) (conflictDevice device) stamp.toList (extOf p) := by
    have h : (conflictName p device stamp).toList = (splitDir p.toList).1 ++ stemOf p ++
        (conflictTag ++ conflictDevice device ++ [' '] ++ stamp.toList ++ [')']) ++ extOf p :=
      String.toList_ofList
    rw [h]
    simp [tagged]
  have hparts := slash_not_mem_stem p
  have hslash : '/' ∉ tagged (stemOf p) (conflictDevice device) stamp.toList (extOf p) :=
    slash_not_mem_tagged hparts.1 (fun h => (conflictDevice_clean h).1 rfl)
      (not_mem_of_isStamp hstamp (by simp)) hparts.2
  rw [htext, splitDir_append (splitDir_spec p.toList).2.1 hslash]

/-- `free_name`'s number, as it stands in a name. -/
def numberText (n : Nat) : Text := " (".toList ++ Nat.toDigits 10 n ++ [')']

theorem isDigit_of_mem {n : Nat} {c : Char} (h : c ∈ Nat.toDigits 10 n) : c.isDigit = true :=
  Nat.isDigit_of_mem_toDigits (by decide) (by decide) h

theorem not_mem_numberText {n : Nat} {c : Char} (hc : c = '/' ∨ c = '.') : c ∉ numberText n := by
  intro h
  have : c ∈ Nat.toDigits 10 n := by
    rcases hc with rfl | rfl <;> simpa [numberText] using h
  rcases hc with rfl | rfl <;> exact absurd (isDigit_of_mem this) (by decide)

/-- The folder `free_name` keeps: one without a name before its `/` is dropped. -/
def keptDir (dir : Text) : Text := if dir.dropLast = [] then [] else dir

theorem isDir_keptDir {dir : Text} (h : IsDir dir) : IsDir (keptDir dir) := by
  rw [keptDir]
  split
  · exact .inl rfl
  · exact h

theorem keptDir_eq_iff {dir : Text} (h : IsDir dir) : keptDir dir = dir ↔ dir ≠ ['/'] := by
  rcases h with rfl | ⟨d, rfl⟩
  · simp [keptDir]
  · by_cases hd : d = [] <;> simp [keptDir, hd]

theorem splitDir_numberedName (p : Path) (n : Nat) : splitDir (numberedName p n).toList =
    (keptDir (splitDir p.toList).1, stemOf p ++ numberText n ++ extOf p) := by
  have hparts := slash_not_mem_stem p
  have hslash : '/' ∉ stemOf p ++ numberText n ++ extOf p := by
    simp [hparts.1, hparts.2, not_mem_numberText]
  have htext : (numberedName p n).toList =
      keptDir (splitDir p.toList).1 ++ (stemOf p ++ numberText n ++ extOf p) := by
    rw [numberedName, String.toList_ofList, keptDir]
    split <;> simp [stemOf, extOf, fileOf, numberText]
  rw [htext, splitDir_append (isDir_keptDir (splitDir_spec p.toList).2.1) hslash]

/-- A number goes before an extension that stays what it was. -/
theorem splitExt_number (file : Text) (n : Nat) :
    (splitExt ((splitExt file).1 ++ numberText n ++ (splitExt file).2)).2 = (splitExt file).2 := by
  have hdot : '.' ∉ numberText n := not_mem_numberText (.inr rfl)
  rcases splitExt_cases file with ⟨hplain, h⟩ | ⟨stem, ext, hstem, hext, -, h⟩
  · rw [h, List.append_nil, splitExt_plain]
    cases file with
    | nil => exact fun hm => hdot (List.mem_of_mem_tail hm)
    | cons c f =>
      have : '.' ∉ f := hplain
      simp [this, hdot]
  · rw [h, splitExt_dot _ hext]
    simp [hstem]

/-! ## No tag in an extension -/

def NoTagExt (p : Path) : Prop := ¬ conflictTag <:+: extOf p

theorem noTagExt_of_file (h : ¬ conflictTag <:+: fileOf p) : NoTagExt p := by
  intro htag
  refine h (htag.trans ?_)
  have : extOf p <:+ fileOf p := ⟨stemOf p, splitExt_append _⟩
  exact this.isInfix

/-- The extension of a conflict copy: the file's, or else what follows the last dot of the
device's name, if it has one. -/
theorem splitExt_tagged (device : String) (p : Path) (hstamp : isStamp stamp.toList = true) :
    (∃ e, extOf p = '.' :: e ∧ splitExt (tagged (stemOf p) (conflictDevice device) stamp.toList
        (extOf p)) = (tagged (stemOf p) (conflictDevice device) stamp.toList [], '.' :: e)) ∨
      extOf p = [] ∧ '.' ∉ conflictDevice device ∧
        splitExt (tagged (stemOf p) (conflictDevice device) stamp.toList []) =
          (tagged (stemOf p) (conflictDevice device) stamp.toList [], []) ∨
      extOf p = [] ∧ ∃ d1 d2, conflictDevice device = d1 ++ '.' :: d2 ∧
        splitExt (tagged (stemOf p) (conflictDevice device) stamp.toList []) =
          (stemOf p ++ conflictTag ++ d1, '.' :: (d2 ++ ' ' :: stamp.toList ++ [')'])) := by
  have htag : conflictTag ≠ [] := by decide
  have hnodot : '.' ∉ stamp.toList := not_mem_of_isStamp hstamp (by simp)
  rcases splitExt_cases (fileOf p) with ⟨hplain, h⟩ | ⟨stem, ext, hstem, hext, -, h⟩
  · have hext : extOf p = [] := by rw [extOf, h]
    by_cases hdot : '.' ∈ conflictDevice device
    · obtain ⟨d2, d1, hr, hd2⟩ := List.eq_append_cons_of_mem (List.mem_reverse.2 hdot)
      have hdev : conflictDevice device = d1.reverse ++ '.' :: d2.reverse := by
        have := congrArg List.reverse hr
        simpa using this
      refine .inr (.inr ⟨hext, d1.reverse, d2.reverse, hdev, ?_⟩)
      have hcut : tagged (stemOf p) (conflictDevice device) stamp.toList [] =
          (stemOf p ++ conflictTag ++ d1.reverse) ++
            '.' :: (d2.reverse ++ ' ' :: stamp.toList ++ [')']) := by
        simp [tagged, hdev]
      rw [hcut, splitExt_dot (by simp [htag]) (by simp [hd2, hnodot])]
    · refine .inr (.inl ⟨hext, hdot, splitExt_plain ?_⟩)
      have hstemOf : stemOf p = fileOf p := by rw [stemOf, h]
      have hrest : '.' ∉ conflictTag ++ (conflictDevice device ++ ' ' :: stamp.toList ++ [')']) := by
        have : '.' ∉ conflictTag := by decide
        simp [this, hdot, hnodot]
      rw [tagged, hstemOf, List.append_assoc]
      cases hf : fileOf p with
      | nil => exact fun hm => hrest (List.mem_of_mem_tail hm)
      | cons c f =>
        rw [hf] at hplain
        simpa [not_or] using ⟨hplain, by simpa [not_or] using hrest⟩
  · refine .inl ⟨ext, by rw [extOf, h], ?_⟩
    have hcut : tagged (stemOf p) (conflictDevice device) stamp.toList (extOf p) =
        tagged (stemOf p) (conflictDevice device) stamp.toList [] ++ '.' :: ext := by
      simp [tagged, extOf, h]
    rw [hcut, splitExt_dot (by simp [tagged, htag]) hext]

theorem noTagExt_copyName {c : Copy} (hstamp : isStamp (dateParts c.secs).2.toList = true)
    (h : NoTagExt p) : NoTagExt (copyName p c) := by
  have hmade : NoTagExt (conflictName p c.device (dateParts c.secs).2) := by
    rw [NoTagExt, extOf, fileOf, splitDir_conflictName p c.device hstamp]
    rcases splitExt_tagged c.device p hstamp with ⟨e, he, hs⟩ | ⟨he, -, hs⟩ |
      ⟨he, d1, d2, hd, hs⟩
    · rw [hs, ← he]
      exact h
    · rw [he, hs]
      exact noTag_of_not_mem (x := []) (by simp)
    · rw [he, hs]
      have hd2 : '(' ∉ d2 := fun hm =>
        (conflictDevice_clean (hd ▸ List.mem_append_right _ (List.mem_cons_of_mem _ hm))).2.1 rfl
      have hopen : '(' ∉ (dateParts c.secs).2.toList := not_mem_of_isStamp hstamp (by simp)
      exact noTag_of_not_mem (by simp [hd2, hopen])
  rw [copyName]
  split
  · exact hmade
  · rw [NoTagExt, extOf, fileOf, splitDir_numberedName]
    simp only [stemOf, extOf, splitExt_number]
    exact hmade

end Names

/-! ## Back to the name a copy was made from -/

/-- The number, where there is one, stands behind the tag, and the folder is still the file's. -/
def NumberApart (p : Path) (c : Copy) : Prop :=
  c.number.isSome → (splitDir p.toList).1 ≠ ['/'] ∧
    ('.' ∈ (fileOf p).tail ∨ '.' ∉ conflictDevice c.device)

/-- What the name of a conflict copy should be taken apart to. -/
def origin (p : Path) (c : Copy) : ConflictName :=
  { original := p
    device := String.ofList (conflictDevice c.device)
    stamp := (dateParts c.secs).2 }

section Peeling

variable {p : Path} {c : Copy}

theorem extOf_cases (p : Path) : extOf p = [] ∧ '.' ∉ (fileOf p).tail ∨
    ∃ e, extOf p = '.' :: e ∧ '.' ∈ (fileOf p).tail := by
  rcases splitExt_cases (fileOf p) with ⟨hplain, h⟩ | ⟨stem, ext, hstem, -, hfile, h⟩
  · exact .inl ⟨by rw [extOf, h], hplain⟩
  · refine .inr ⟨ext, by rw [extOf, h], ?_⟩
    rw [hfile, List.tail_append_of_ne_nil hstem]
    exact List.mem_append_right _ List.mem_cons_self

theorem withoutNumber_ext (p : Path) : withoutNumber (extOf p) = .ok (extOf p) := by
  rcases extOf_cases p with ⟨h, -⟩ | ⟨e, h, -⟩ <;> rw [h] <;> rfl

theorem withoutNumber_number (n : Nat) (ext : Text) :
    withoutNumber (numberText n ++ ext) = .ok ext := by
  have hdigits : ∀ c ∈ Nat.toDigits 10 n, c.isDigit = true := fun c hc => isDigit_of_mem hc
  have hclose : ')' ∉ Nat.toDigits 10 n := fun h => absurd (hdigits _ h) (by decide)
  have hcut : numberText n ++ ext = ' ' :: '(' :: (Nat.toDigits 10 n ++ ')' :: ext) := by
    simp [numberText]
  have hall : (bytes (Nat.toDigits 10 n)).all CText.isDigit = true := by
    rw [bytes_digits hdigits, List.all_map, List.all_eq_true]
    exact fun c hc => CText.isDigit_digitByte (hdigits c hc)
  have hrest : (sliceFrom (Nat.toDigits 10 n ++ ')' :: ext) (size (Nat.toDigits 10 n) + 1) :
      Res Empty _) = .ok ext := by
    have := sliceFrom_append (ε := Empty) (Nat.toDigits 10 n ++ [')']) ext
    rwa [size_append, List.append_assoc] at this
  rw [hcut, withoutNumber]
  simp only [find_append hclose, sliceTo_append, ok_bind, hall, hrest, ne_eq, Nat.toDigits_ne_nil,
    not_false_eq_true, and_self, if_true]

/-- A number behind a tag is no tag, nor does a bracket follow the tag at once. -/
theorem noTag_number (n : Nat) {ext : Text} (hext : ¬ conflictTag <:+: ext)
    (hhead : ext.head? ≠ some '(') : ¬ conflictTag <:+: numberText n ++ ext := by
  have hopen : '(' ∉ Nat.toDigits 10 n := fun h => absurd (isDigit_of_mem h) (by decide)
  obtain ⟨d, ds, hd⟩ := List.exists_cons_of_ne_nil (Nat.toDigits_ne_nil (n := n) (b := 10))
  have hc : d ≠ 'c' := by
    rintro rfl
    exact absurd (isDigit_of_mem (hd ▸ List.mem_cons_self)) (by decide)
  have htail := noTag_append (x := Nat.toDigits 10 n ++ [')']) (by simp [hopen]) hhead hext
  have hcut : numberText n ++ ext = ' ' :: '(' :: (Nat.toDigits 10 n ++ [')'] ++ ext) := by
    simp [numberText]
  have htag : conflictTag = ' ' :: '(' :: 'c' :: "onflict from ".toList := by decide
  rw [hcut, List.infix_cons_iff, List.infix_cons_iff, not_or, not_or]
  refine ⟨?_, ?_, htail⟩
  · rw [hd, htag]
    rintro ⟨z, hz⟩
    simp only [List.cons_append, List.cons.injEq, true_and] at hz
    exact hc hz.1.symm
  · rw [htag]
    rintro ⟨z, hz⟩
    have : ' ' = '(' := (List.cons.inj hz).1
    exact absurd this (by decide)

/-- A name with the folder, the stem and the device of a copy leads back to what it is a copy
of. -/
theorem parseConflict_of_parts {q : Path} (after : Text)
    (hstamp : isStamp (dateParts c.secs).2.toList = true) (hdevice : c.device ≠ "")
    (hq : splitDir q.toList = ((splitDir p.toList).1,
      tagged (stemOf p) (conflictDevice c.device) (dateParts c.secs).2.toList after))
    (hhead : after.head? ≠ some '(') (hafter : ¬ conflictTag <:+: after)
    (hrest : withoutNumber after = .ok (extOf p)) :
    parseConflict q = .ok (some (origin p c)) := by
  have hopen : '(' ∉ conflictDevice c.device := fun h => (conflictDevice_clean h).2.1 rfl
  have hclose : ')' ∉ conflictDevice c.device := fun h => (conflictDevice_clean h).2.2 rfl
  rw [parseConflict_tagged hq (noTag_tail hopen hstamp hhead hafter)
    (conflictDevice_ne_nil hdevice) hclose hstamp hrest, ← toList_eq, String.ofList_toList,
    String.ofList_toList, origin]

theorem head_ext (p : Path) : (extOf p).head? ≠ some '(' := by
  rcases extOf_cases p with ⟨h, -⟩ | ⟨e, h, -⟩ <;> rw [h] <;> simp

/-- Without a number a copy leads back. -/
theorem parseConflict_plain (hstamp : isStamp (dateParts c.secs).2.toList = true)
    (hdevice : c.device ≠ "") (htag : NoTagExt p) :
    parseConflict (conflictName p c.device (dateParts c.secs).2) = .ok (some (origin p c)) :=
  parseConflict_of_parts _ hstamp hdevice (splitDir_conflictName p c.device hstamp) (head_ext p) htag
    (withoutNumber_ext p)

section Numbered

variable {n : Nat}

/-- The folder and the name of a numbered copy. -/
theorem splitDir_numbered (hstamp : isStamp (dateParts c.secs).2.toList = true) :
    splitDir (numberedName (conflictName p c.device (dateParts c.secs).2) n).toList =
      (keptDir (splitDir p.toList).1,
        (splitExt (tagged (stemOf p) (conflictDevice c.device) (dateParts c.secs).2.toList
          (extOf p))).1 ++ numberText n ++
        (splitExt (tagged (stemOf p) (conflictDevice c.device) (dateParts c.secs).2.toList
          (extOf p))).2) := by
  rw [splitDir_numberedName]
  simp only [stemOf, extOf, fileOf, splitDir_conflictName p c.device hstamp]

/-- A number that stands behind the tag is taken off again. -/
theorem parseConflict_number (hstamp : isStamp (dateParts c.secs).2.toList = true)
    (hdevice : c.device ≠ "") (htag : NoTagExt p) (hdir : (splitDir p.toList).1 ≠ ['/'])
    (hdot : '.' ∈ (fileOf p).tail ∨ '.' ∉ conflictDevice c.device) :
    parseConflict (numberedName (conflictName p c.device (dateParts c.secs).2) n) =
      .ok (some (origin p c)) := by
  have hkept := (keptDir_eq_iff (splitDir_spec p.toList).2.1).2 hdir
  refine parseConflict_of_parts (numberText n ++ extOf p) hstamp hdevice ?_
    (by simp [numberText]) (noTag_number n htag (head_ext p)) (withoutNumber_number n _)
  rw [splitDir_numbered hstamp, hkept]
  rcases splitExt_tagged c.device p hstamp with ⟨e, he, hs⟩ | ⟨he, -, hs⟩ |
    ⟨he, d1, d2, hd, -⟩
  · rw [hs, he]
    simp [tagged]
  · rw [he, hs]
    simp [tagged]
  · -- The name has no extension, so the device has no dot either.
    rcases extOf_cases p with ⟨-, hplain⟩ | ⟨e, he', -⟩
    · exact absurd (hd ▸ List.mem_append_right _ List.mem_cons_self)
        (hdot.resolve_left hplain)
    · rw [he] at he'
      cases he'

/-- A copy of a file in the topmost folder loses that folder with a number. -/
theorem not_origin_of_root (hstamp : isStamp (dateParts c.secs).2.toList = true)
    (hdir : (splitDir p.toList).1 = ['/']) :
    parseConflict (numberedName (conflictName p c.device (dateParts c.secs).2) n) ≠
      .ok (some (origin p c)) := by
  intro h
  obtain ⟨stem, tail, rest, hfile, -, -, -, horigin, hsuf⟩ :=
    (parseConflict_safe _).of_ok h _ rfl
  have hslash := (splitDir_spec (numberedName (conflictName p c.device
    (dateParts c.secs).2) n).toList).2.2
  have hdir' : (splitDir (numberedName (conflictName p c.device
      (dateParts c.secs).2) n).toList).1 = [] := by
    rw [splitDir_numbered hstamp, hdir]
    rfl
  rw [hfile] at hslash
  have hmem : '/' ∈ (origin p c).original.toList := by
    show '/' ∈ p.toList
    rw [toList_eq, hdir]
    simp
  rw [horigin, hdir', List.nil_append] at hmem
  rcases List.mem_append.1 hmem with hm | hm
  · exact hslash (by simp [hm])
  · exact hslash (List.mem_append_right _ (hsuf.mem hm))

/-- A number before the last dot of the device's name becomes part of that name. -/
theorem not_origin_of_dot (hstamp : isStamp (dateParts c.secs).2.toList = true)
    (hplain : '.' ∉ (fileOf p).tail) (hdot : '.' ∈ conflictDevice c.device) :
    parseConflict (numberedName (conflictName p c.device (dateParts c.secs).2) n) ≠
      .ok (some (origin p c)) := by
  intro h
  have hopen : ∀ {x}, x ∈ conflictDevice c.device → x ≠ '(' := fun hx => (conflictDevice_clean hx).2.1
  obtain ⟨stem, tail, rest, hfile, hlast, -, -, -, -⟩ := (parseConflict_safe _).of_ok h _ rfl
  rcases splitExt_tagged c.device p hstamp with ⟨e, he, -⟩ | ⟨-, hno, -⟩ |
    ⟨he, d1, d2, hd, hs⟩
  · rcases extOf_cases p with ⟨hnil, -⟩ | ⟨e', -, hmem⟩
    · rw [hnil] at he
      cases he
    · exact hplain hmem
  · exact hno hdot
  · have hname : (splitDir (numberedName (conflictName p c.device
        (dateParts c.secs).2) n).toList).2 = stemOf p ++ conflictTag ++
          (d1 ++ (numberText n ++ '.' :: (d2 ++ ' ' :: (dateParts c.secs).2.toList ++ [')']))) := by
      rw [splitDir_numbered hstamp, he, hs]
      simp
    have hd1 : '(' ∉ "conflict from ".toList ++ d1 := by
      intro hm
      rcases List.mem_append.1 hm with hm | hm
      · exact absurd hm (by decide)
      · exact hopen (hd ▸ List.mem_append_left _ hm) rfl
    have hd2 : '(' ∉ '.' :: (d2 ++ ' ' :: (dateParts c.secs).2.toList ++ [')']) := by
      have h2 : '(' ∉ d2 := fun hm =>
        hopen (hd ▸ List.mem_append_right _ (List.mem_cons_of_mem _ hm)) rfl
      have hst : '(' ∉ (dateParts c.secs).2.toList := not_mem_of_isStamp hstamp (by simp)
      simp [h2, hst]
    have hsize : rfindStr conflictTag (splitDir (numberedName (conflictName p c.device
        (dateParts c.secs).2) n).toList).2 = some (size (stemOf p)) := by
      rw [hname]
      refine rfindStr_append _ (by decide) ?_
      have htail : conflictTag.tail = '(' :: "conflict from ".toList := by decide
      rw [List.tail_append_of_ne_nil (by decide), htail, List.cons_append, ← List.append_assoc,
        List.infix_cons_iff, not_or]
      constructor
      · rintro ⟨z, hz⟩
        have : ' ' = '(' := (List.cons.inj hz).1
        exact absurd this (by decide)
      · exact noTag_append hd1 (by simp [numberText])
          (noTag_number n (noTag_of_not_mem hd2) (by simp))
    rw [hsize] at hlast
    rw [hname, List.append_assoc _ _ tail] at hfile
    have hstem := (append_inj_size (by simpa using hfile) (Option.some.inj hlast)).1
    subst hstem
    -- Behind the tag a space follows the device's name up to its dot, not the dot.
    have hrest := List.append_cancel_left hfile
    rw [origin, String.toList_ofList, hd, List.append_assoc, List.append_assoc] at hrest
    have := List.append_cancel_left hrest
    exact absurd (List.cons.inj this).1 (by decide)

end Numbered

theorem parseConflict_copyName_iff (hstamp : isStamp (dateParts c.secs).2.toList = true)
    (hdevice : c.device ≠ "") (htag : NoTagExt p) :
    parseConflict (copyName p c) = .ok (some (origin p c)) ↔ NumberApart p c := by
  rw [copyName, NumberApart]
  cases c.number with
  | none =>
    refine iff_of_true (parseConflict_plain hstamp hdevice htag) fun h => ?_
    cases h
  | some n =>
    constructor
    · intro h _
      refine ⟨fun hdir => not_origin_of_root hstamp hdir h, ?_⟩
      by_contra hno
      rw [not_or, not_not] at hno
      exact not_origin_of_dot hstamp hno.1 hno.2 h
    · intro h
      obtain ⟨hdir, hdot⟩ := h rfl
      exact parseConflict_number hstamp hdevice htag hdir hdot

end Peeling

/-! ## Copies of copies -/

theorem noTagExt_copies {p : Path} {cs : List Copy}
    (hcs : ∀ c ∈ cs, isStamp (dateParts c.secs).2.toList = true) (h : NoTagExt p) :
    NoTagExt (cs.foldl copyName p) := by
  induction cs generalizing p with
  | nil => exact h
  | cons c cs ih =>
    exact ih (fun c' hc' => hcs c' (List.mem_cons_of_mem c hc'))
      (noTagExt_copyName (hcs c List.mem_cons_self) h)

/-- The name of a copy of copies leads back to the name it was made from, with its device and its
stamp, where its number stands apart from both; and no name at all makes the parser panic. -/
theorem copies_peel_iff (p : Path) (cs : List Copy) (c : Copy)
    (hp : ¬ conflictTag <:+: fileOf p)
    (hcs : ∀ c' ∈ cs ++ [c], c'.device ≠ "" ∧ 0 ≤ (civil c'.secs).1 ∧ (civil c'.secs).1 ≤ 9999) :
    (parseConflict (copyName (cs.foldl copyName p) c) = .ok (some (origin (cs.foldl copyName p) c)) ↔
      NumberApart (cs.foldl copyName p) c) ∧
    ∀ name, parseConflict name ≠ panic := by
  have hstamp : ∀ c' ∈ cs ++ [c], isStamp (dateParts c'.secs).2.toList = true := fun c' hc' =>
    isStamp_dateParts (hcs c' hc').2.1 (hcs c' hc').2.2
  have htag := noTagExt_copies (fun c' hc' => hstamp c' (List.mem_append_left _ hc'))
    (noTagExt_of_file hp)
  have hlast : c ∈ cs ++ [c] := List.mem_append_right _ List.mem_cons_self
  exact ⟨parseConflict_copyName_iff (hstamp c hlast) (hcs c hlast).1 htag,
    fun name => (parseConflict_safe name).ne_panic⟩

/-- The second copy of `notes` from a device named `my.pc`, made in the minute of the first. -/
theorem numbered_device :
    parseConflict (copyName "notes" { device := "my.pc", secs := 1761426720, number := some 2 }) =
        .ok (some { original := "notes", device := "my (2).pc", stamp := "2025-10-25 2112" }) ∧
      parseConflict (copyName "notes" { device := "my.pc", secs := 1761426720, number := some 2 }) ≠
        .ok (some (origin "notes" { device := "my.pc", secs := 1761426720, number := some 2 })) := by
  decide +kernel

theorem copies_peel_twice :
    parseConflict "notes (conflict from my (conflict from Mac 2025-10-25 2112) (2).pc 2025-10-25 2112)" =
      .ok (some
        { original := "notes (conflict from my.pc 2025-10-25 2112)"
          device := "Mac"
          stamp := "2025-10-25 2112" }) :=
  (copies_peel_iff "notes" [{ device := "my.pc", secs := 1761426720, number := none }]
    { device := "Mac", secs := 1761426720, number := some 2 } (by decide)
    (by decide +kernel)).1.2 fun _ => by decide +kernel

end Ps5Upload.MeshDrive
