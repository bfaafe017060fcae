import Ps5Upload.Lib.Bytes
import Ps5Upload.Lib.Moments

/-!
# The organizer's tree

`Tree` of `ps5upload-engine/src/collection/organize_fs.rs`: what the organizer lists, asks about,
makes, renames and removes below a collection folder, and Finder's files of `collection/junk.rs`,
which it may delete on this computer.

Every operation meets the next `Fate` of the run: it works, it fails, or the server stops answering,
before or after the operation took effect.  Each operation is one moment.

* `renameNew` — asks whether the new name is free, then renames; `fsRename` itself replaces what is
  there, and `View.replaced` notes it;
* `removeJunk`, `removeDir` — the only removals.
-/

namespace Ps5Upload.Collection

open ByteFile Moments

/-- A name, as the characters of its text. -/
abbrev Name := List Char

/-- A place below the collection folder, which is the empty path. -/
abbrev Path := List Name

inductive Node where
  | dir
  | file (bytes : Bytes)
  deriving DecidableEq, Repr

/-- Everything below the collection folder. -/
abbrev Tree := List (Path × Node)

namespace Tree

/-- Something is at `p`, or below it. -/
def has (t : Tree) (p : Path) : Bool := p = [] || t.any fun n => p <+: n.1

/-- A folder is at `p`. -/
def isDir (t : Tree) (p : Path) : Bool :=
  p = [] || t.any fun n => (n.1 = p && n.2 = .dir) || (p <+: n.1 && n.1 ≠ p)

/-- The names in the folder `p`. -/
def names (t : Tree) (p : Path) : List Name :=
  (t.filterMap fun n => if p <+: n.1 then (n.1.drop p.length).head? else none).eraseDups

end Tree

/-- Where a rename of `src` to `dst` takes what is at `p`. -/
def reloc (src dst p : Path) : Path := if src <+: p then dst ++ p.drop src.length else p

/-- `std::fs::rename`: what is at `dst` is replaced. -/
def Tree.rename (t : Tree) (src dst : Path) : Tree :=
  (t.filter fun n => !decide (dst <+: n.1)).map fun n => (reloc src dst n.1, n.2)

/-! ## Finder's files -/

/-- `is_junk_name` -/
def isJunkName (name : Name) : Bool :=
  ['.', '_'] <+: name || name = ".DS_Store".toList || name = ".localized".toList ||
    name = "Icon\r".toList

/-- `APPLEDOUBLE_MAGIC` -/
def appledoubleMagic : Bytes := [0x00, 0x05, 0x16, 0x07]

/-- `MAX_SIDECAR_BYTES` -/
def maxSidecarBytes : Nat := 16 * 1024 * 1024

/-- `is_sidecar`, of a regular file. -/
def isSidecar (name : Name) (bytes : Bytes) : Bool :=
  ['.', '_'] <+: name && name ≠ ['.', '_'] && bytes.length ≤ maxSidecarBytes &&
    bytes.take 4 = appledoubleMagic

/-- `is_removable_junk` of a file on this computer. -/
def isRemovableJunk (name : Name) (bytes : Bytes) : Bool :=
  if ['.', '_'] <+: name then isSidecar name bytes else isJunkName name

/-- A file that no tree deletes; a server's tree deletes none. -/
def solid (server : Bool) (n : Path × Node) : Bool :=
  match n.2 with
  | .dir => false
  | .file bytes => server || !isRemovableJunk (n.1.getLast?.getD []) bytes

/-! ## The state -/

inductive OpError where
  /-- The name is taken; nothing was changed. -/
  | exists'
  /-- What the last operation did is unknown. -/
  | lost
  | other
  deriving DecidableEq, Repr

/-- What becomes of an operation. -/
inductive Fate where
  | works
  | fails
  | lost
  /-- The operation took effect, and its answer is lost. -/
  | lostAfter
  deriving DecidableEq, Repr

/-- The tree, the log on the disk, and whether a rename has ever replaced something. -/
structure View (Log : Type) where
  tree : Tree
  disk : Option Log
  replaced : Bool

structure World (Log : Type) where
  view : View Log
  fates : Nat → Fate
  /-- The order in which a hash set lists its paths, operation by operation. -/
  sets : Nat → Path → Nat

variable {Log : Type}

abbrev Prog (Log : Type) (α : Type) := Moments.Prog (World Log) α

/-- One operation: the next fate decides what it returns and does. -/
def call {α : Type} (f : Fate → View Log → α × View Log) : Prog Log α :=
  .act fun w => ((f (w.fates 0) w.view).1, ⟨(f (w.fates 0) w.view).2, fun n => w.fates (n + 1), fun n => w.sets (n + 1)⟩)

/-- An operation that only asks. -/
def ask {α : Type} (r : Tree → α) : Prog Log (Except OpError α) :=
  call fun fate v => (match fate with
    | .works => .ok (r v.tree)
    | .fails => .error .other
    | .lost | .lostAfter => .error .lost, v)

/-- An operation that changes the state to `r`, if it can. -/
def change (r : View Log → Except OpError (View Log)) : Prog Log (Except OpError Unit) :=
  call fun fate v =>
    match fate, r v with
    | .works, .ok v' => (.ok (), v')
    | .works, .error e => (.error e, v)
    | .fails, _ => (.error .other, v)
    | .lostAfter, .ok v' => (.error .lost, v')
    | .lost, _ | .lostAfter, .error _ => (.error .lost, v)

/-! ## The operations of `Tree` -/

/-- Whether anything is at `p` now. -/
def exists' (p : Path) : Prog Log (Except OpError Bool) := ask fun t => t.has p

/-- The names in `dir`, or `none` when it cannot be read. -/
def list (dir : Path) : Prog Log (Option (List Name)) := do
  match ← ask fun t => if t.isDir dir then some (t.names dir) else none with
  | .ok names => return names
  | .error _ => return none

/-- One folder; one already there is success. -/
def createDir (p : Path) : Prog Log (Except OpError Unit) :=
  change fun v =>
    if v.tree.isDir p then .ok v
    else if v.tree.has p then .error .exists'
    else if v.tree.isDir p.dropLast then .ok { v with tree := v.tree ++ [(p, .dir)] }
    else .error .other

/-- `rename` of the system, which replaces what is at `dst`. -/
def fsRename (src dst : Path) : Prog Log (Except OpError Unit) :=
  change fun v =>
    if v.tree.has src && src ≠ [] && v.tree.isDir dst.dropLast && !decide (src <+: dst) then
      .ok { v with tree := v.tree.rename src dst, replaced := v.replaced || v.tree.has dst }
    else .error .other

/-- Renames without ever replacing what is at `dst`. -/
def renameNew (src dst : Path) : Prog Log (Except OpError Unit) := do
  match ← exists' dst with
  | .error e => return .error e
  | .ok true => return .error .exists'
  | .ok false => fsRename src dst

/-- Removes an empty folder. -/
def removeDir (p : Path) : Prog Log (Except OpError Unit) :=
  change fun v =>
    if v.tree.isDir p && (v.tree.names p).isEmpty then
      .ok { v with tree := v.tree.filter fun n => n ≠ (p, .dir) }
    else .error .other

/-- A file of Finder's is at `p`. -/
def Tree.junkAt (server : Bool) (t : Tree) (p : Path) : Bool :=
  t.any fun n => n.1 = p && n.2 ≠ .dir && !solid server n

section Junk

variable (server : Bool)

/-- A file of Finder's that may be deleted to empty a folder; never on a server. -/
def isRemovable (p : Path) : Prog Log Bool := do
  if server then return false
  else
    match ← ask fun t => t.junkAt server p with
    | .ok junk => return junk
    | .error _ => return false

/-- Deletes such a file; whatever else is at `p` stays. -/
def removeJunk (p : Path) : Prog Log Unit := do
  if ← isRemovable server p then
    let _ ← change fun v =>
      .ok { v with tree := v.tree.filter fun n => n.1 ≠ p || n.2 = .dir || solid server n }
    return ()
  else return ()

end Junk

end Ps5Upload.Collection
