import Mathlib.Data.List.Dedup
import Mathlib.Data.List.Sort
import Mathlib.Data.String.Basic
import Mathlib.Tactic.Common
import Ps5Upload.Lib.BTreeMap

/-!
# Mesh Drive: what one pass does

The model of `engine/crates/ps5upload-engine/src/mesh_drive_plan.rs`: the three-way comparison
of a member folder and the hub's against what the two last agreed on, and the names of conflict
copies; with `free_name` of `mesh_drive.rs`, which picks a name nothing has.
-/

namespace Ps5Upload.MeshDrive

/-- A path below a drive's root, with `/` between its names. -/
abbrev Path := String

/-- A file as one side lists it. -/
structure Meta where
  size : Nat
  mtime : Int
  deriving DecidableEq, Repr

/-- What the two sides last agreed on for one path: each side's own view of the file then. -/
structure BaseEntry where
  m : Meta
  h : Meta
  deriving DecidableEq, Repr

inductive Side where
  | member
  | hub
  deriving DecidableEq, Repr

/-- The member's of two things, or the hub's. -/
def Side.pick {α : Type} (m h : α) : Side → α
  | .member => m
  | .hub => h

/-- One side's view. -/
def BaseEntry.view (b : BaseEntry) (side : Side) : Meta := side.pick b.m b.h

abbrev Listing := BTreeMap Path Meta
abbrev Base := BTreeMap Path BaseEntry

inductive Op where
  /-- Member to hub. -/
  | upload (p : Path)
  /-- Hub to member. -/
  | download (p : Path)
  | deleteMember (p : Path)
  | deleteHub (p : Path)
  /-- Both changed: the member's copy is renamed, then the hub's is downloaded. -/
  | conflict (p : Path)
  /-- Changed or new on both with one size: the same file if their hashes match. -/
  | compare (p : Path)
  /-- Gone from both. -/
  | forget (p : Path)
  deriving DecidableEq, Repr

namespace Op

def path : Op → Path
  | upload p | download p | deleteMember p | deleteHub p | conflict p | compare p | forget p => p

def isDelete : Op → Bool
  | deleteMember _ | deleteHub _ => true
  | _ => false

def deletesHub : Op → Bool
  | deleteHub _ => true
  | _ => false

def isUpload : Op → Bool
  | upload _ => true
  | _ => false

/-- The operations that bring the hub's file to the member. -/
def fetches : Op → Bool
  | download _ | conflict _ | compare _ => true
  | _ => false

/-- The operations that replace or remove a side's file.  A conflict moves the member's file
out of the way first. -/
def replaces : Op → Side → Bool
  | upload _, .hub | deleteHub _, .hub | download _, .member | deleteMember _, .member => true
  | _, _ => false

end Op

/-! ## The plan -/

/-- Both sides have the path, and neither has what was agreed on. -/
def planBoth (p : Path) (m h : Meta) : Op := if m.size = h.size then .compare p else .conflict p

/-- What is done about one path. -/
def planOne (p : Path) : Option Meta → Option Meta → Option BaseEntry → Option Op
  | some _, none, none => some (.upload p)
  | none, some _, none => some (.download p)
  | some m, some h, none => some (planBoth p m h)
  | some m, some h, some b =>
    if m ≠ b.m then if h ≠ b.h then some (planBoth p m h) else some (.upload p)
    else if h ≠ b.h then some (.download p) else none
  | some m, none, some b => if m ≠ b.m then some (.upload p) else some (.deleteMember p)
  | none, some h, some b => if h ≠ b.h then some (.download p) else some (.deleteHub p)
  | none, none, some _ => some (.forget p)
  | none, none, none => none

/-- The paths of three maps, in order. -/
def pathsOf (member hub : Listing) (base : Base) : List Path :=
  ((member.keys ++ hub.keys ++ base.keys).dedup).insertionSort (· ≤ ·)

def plan (member hub : Listing) (base : Base) : List Op :=
  (pathsOf member hub base).filterMap fun p => planOne p (member.get p) (hub.get p) (base.get p)

def massDeleteMin : Nat := 50

/-- More than `massDeleteMin` deletes, and more than half of what the drive held. -/
def tooManyDeletes (ops : List Op) (baseLen : Nat) : Bool :=
  let n := ops.countP Op.isDelete
  massDeleteMin < n ∧ baseLen < n * 2

/-- Why an operation is in the plan, from the three entries of its path. -/
inductive Planned (p : Path) : Option Meta → Option Meta → Option BaseEntry → Op → Prop
  | uploadNew (m : Meta) : Planned p (some m) none none (.upload p)
  | downloadNew (h : Meta) : Planned p none (some h) none (.download p)
  | bothNew (m h : Meta) : Planned p (some m) (some h) none (planBoth p m h)
  | bothChanged (m h : Meta) (b : BaseEntry) (hm : m ≠ b.m) (hh : h ≠ b.h) :
      Planned p (some m) (some h) (some b) (planBoth p m h)
  | upload (m : Meta) (b : BaseEntry) (hm : m ≠ b.m) :
      Planned p (some m) (some b.h) (some b) (.upload p)
  | download (h : Meta) (b : BaseEntry) (hh : h ≠ b.h) :
      Planned p (some b.m) (some h) (some b) (.download p)
  | uploadBack (m : Meta) (b : BaseEntry) (hm : m ≠ b.m) :
      Planned p (some m) none (some b) (.upload p)
  | downloadBack (h : Meta) (b : BaseEntry) (hh : h ≠ b.h) :
      Planned p none (some h) (some b) (.download p)
  | deleteMember (b : BaseEntry) : Planned p (some b.m) none (some b) (.deleteMember p)
  | deleteHub (b : BaseEntry) : Planned p none (some b.h) (some b) (.deleteHub p)
  | forget (b : BaseEntry) : Planned p none none (some b) (.forget p)

variable {p q : Path} {m h : Option Meta} {b : Option BaseEntry} {o : Op}

/-- A path's folder, with its last `/`, and its last name. -/
def splitDir (path : List Char) : List Char × List Char :=
  ((path.reverse.dropWhile (· ≠ '/')).reverse, (path.reverse.takeWhile (· ≠ '/')).reverse)

/-- A name's stem, and its extension with the dot; a dot in front starts no extension. -/
def splitExt (file : List Char) : List Char × List Char :=
  let stem := (file.reverse.dropWhile (· ≠ '.')).reverse.dropLast
  if stem = [] then (file, []) else (stem, file.drop stem.length)

/-- `char::is_control`. -/
def isControl (c : Char) : Bool := c.toNat < 32 ∨ (127 ≤ c.toNat ∧ c.toNat < 160)

def conflictDevice (device : String) : List Char :=
  (device.toList.map fun c =>
    if c = '/' ∨ c = '\\' ∨ c = '(' ∨ c = ')' ∨ isControl c then '-' else c).take 40

/-- "photo (conflict from Pixel 2026-10-25 1405).jpg" -/
def conflictName (path : Path) (device stamp : String) : Path :=
  let (dir, file) := splitDir path.toList
  let tag := " (conflict from ".toList ++ conflictDevice device ++ [' '] ++ stamp.toList ++ [')']
  let (stem, ext) := splitExt file
  String.ofList (dir ++ stem ++ tag ++ ext)

/-- `rel` with " (n)" before its extension.  A folder without a name before its `/` is dropped. -/
def numberedName (rel : Path) (n : Nat) : Path :=
  let (dir, file) := splitDir rel.toList
  let (stem, ext) := splitExt file
  let name := stem ++ " (".toList ++ Nat.toDigits 10 n ++ [')'] ++ ext
  String.ofList (if dir.dropLast = [] then name else dir ++ name)

/-- `rel`, or `rel` with " (2)", " (3)"… before its extension when `taken` says that name is
used; `newId` is what `new_id` answers when none of them is free. -/
def freeName (rel : Path) (taken : Path → Bool) (newId : String) : Path :=
  if taken rel = false then rel
  else match (List.range' 2 9998).find? fun n => taken (numberedName rel n) = false with
    | some n => numberedName rel n
    | none => rel ++ "." ++ newId

example : conflictName "photos/a.jpg" "Pixel 9" "2026-10-25 2112"
    = "photos/a (conflict from Pixel 9 2026-10-25 2112).jpg" := by decide +kernel

/-- `value` in decimal, with zeros in front up to `width` characters. -/
def padded (width : Nat) (value : Int) : List Char :=
  let digits := Nat.toDigits 10 value.natAbs
  let sign := if value < 0 then ['-'] else []
  sign ++ List.replicate (width - sign.length - digits.length) '0' ++ digits

/-- `YYYY-MM-DD` and `YYYY-MM-DD HHMM` (UTC) for a time in seconds since 1970. -/
def dateParts (secs : Int) : String × String :=
  let days := secs / 86400
  let rem := secs % 86400
  let z := days + 719468
  let era := z / 146097
  let doe := z - era * 146097
  let yoe := (doe - doe / 1460 + doe / 36524 - doe / 146096) / 365
  let doy := doe - (365 * yoe + yoe / 4 - yoe / 100)
  let mp := (5 * doy + 2) / 153
  let d := doy - (153 * mp + 2) / 5 + 1
  let m := if mp < 10 then mp + 3 else mp - 9
  let y := if m ≤ 2 then yoe + era * 400 + 1 else yoe + era * 400
  let date := padded 4 y ++ ['-'] ++ padded 2 m ++ ['-'] ++ padded 2 d
  (String.ofList date,
    String.ofList (date ++ [' '] ++ padded 2 (rem / 3600) ++ padded 2 (rem % 3600 / 60)))

end Ps5Upload.MeshDrive
