import Ps5Upload.Lib.CText

/-!
# The console's file jobs: walks over a tree

`payload/src/fs_jobs.c`: the walkers that count, remove and chmod a tree, and the two jobs that use them.  A
file system is a tree of entries, each with its object, the device it is on and what the kernel lets one do with
it; a link knows the object it leads to.  A walk polls its cancel hook, whose answers are a parameter.

* `rmIn`, `chmodIn`, `treeSizeIn` — the walkers, 64 folders deep at most;
* `opDelete`, `opChmodR` — the jobs, with their guards.
-/

namespace Ps5Upload.FsJobs

open ByteFile CText

/-! ## The file system -/

abbrev Name := Bytes

/-- An entry's object, the device it is on, and what the kernel answers about it. -/
structure Inode where
  id : Nat
  dev : Nat
  size : Nat
  /-- `lstat` answers. -/
  stats : Bool
  /-- `opendir` opens it. -/
  opens : Bool
  /-- `unlink`, or `rmdir` once it is empty, removes it; a busy file has had its second. -/
  removes : Bool
  /-- `chmod` of its path is allowed. -/
  chmods : Bool
  deriving DecidableEq, Repr

inductive Node where
  | file (i : Inode)
  /-- A link and the object that its path resolves to. -/
  | link (i : Inode) (leadsTo : Option Nat)
  /-- A folder in the order of its listing. -/
  | dir (i : Inode) (entries : List (Name × Node))

namespace Node

def inode : Node → Inode
  | file i => i
  | link i _ => i
  | dir i _ => i

def isLink : Node → Bool
  | link .. => true
  | _ => false

def isDir : Node → Bool
  | dir .. => true
  | _ => false

/-- The object that a call which follows links acts on. -/
def resolves : Node → Option Nat
  | file i => some i.id
  | link _ t => t
  | dir i _ => some i.id

def find : List Name → Node → Option Node
  | [], n => some n
  | x :: xs, dir _ es => (es.find? fun p => p.1 = x).bind fun p => find xs p.2
  | _ :: _, _ => none

/-- The tree with the entry at a place replaced, or gone. -/
def put (r : Option Node) : List Name → Node → Option Node
  | [], _ => r
  | x :: xs, dir i es =>
    some (dir i (es.filterMap fun p => (if p.1 = x then put r xs p.2 else some p.2).map (p.1, ·)))
  | _ :: _, n => some n

end Node

/-- `-1`, `-2` and `0`. -/
inductive Rc where
  | ok
  | failed
  | cancelled
  deriving DecidableEq, Repr

/-- What a walk has told its hooks, and how often it has asked whether it is cancelled. -/
structure Walk where
  polls : Nat := 0
  files : Nat := 0
  bytes : Nat := 0
  notes : List (Bytes × String) := []

namespace Walk

def polled (s : Walk) : Walk := { s with polls := s.polls + 1 }

def failed (s : Walk) (path : Bytes) (what : String) : Walk := { s with notes := s.notes ++ [(path, what)] }

def visited (s : Walk) (bytes : Nat) : Walk := { s with files := s.files + 1, bytes := s.bytes + bytes }

end Walk

/-! ## The walkers -/

def maxDepth : Nat := 64

/-- `"%s/%s"` -/
def sub (path : Bytes) (name : Name) : Bytes := path ++ 0x2f :: name

/-- The path of an entry fits into the walkers' buffer. -/
def Fits (path : Bytes) (p : Name × Node) : Prop := (sub path p.1).length < 1024

instance (path : Bytes) : DecidablePred (Fits path) := fun p => inferInstanceAs (Decidable ((sub path p.1).length < 1024))

section Walkers

variable (cancels : Nat → Bool) (rootDev : Nat)

/-- The entries of a folder, one after the other, and those that stay. -/
def rmEntries (rm : Bytes → Node → Walk → Rc × Option Node × Walk) (path : Bytes) :
    List (Name × Node) → Walk → Rc × List (Name × Node) × Walk
  | [], s => (.ok, [], s)
  | p :: es, s =>
    if cancels s.polls then (.cancelled, p :: es, s.polled)
    else if ¬Fits path p then (.failed, p :: es, s.polled.failed path "path too long")
    else
      let (rc, kept, s) := rm (sub path p.1) p.2 s.polled
      let kept := (kept.map (p.1, ·)).toList
      match rc with
      | .cancelled => (.cancelled, kept ++ es, s)
      | .ok =>
        let (rc, more, s) := rmEntries rm path es s
        (rc, kept ++ more, s)
      | .failed =>
        let (rc, more, s) := rmEntries rm path es s
        (if rc = .cancelled then .cancelled else .failed, kept ++ more, s)

/-- `rm_rf_in`, with the levels that are left, and the entry if it stays. -/
def rmIn : Nat → Bytes → Node → Walk → Rc × Option Node × Walk
  | 0, _, node, s => (.failed, some node, s)
  | left + 1, path, node, s =>
    if cancels s.polls then (.cancelled, some node, s.polled)
    else
      let s := s.polled
      if ¬node.inode.stats then (.failed, some node, s.failed path "lstat")
      else if node.inode.dev ≠ rootDev then (.failed, some node, s.failed path "mount")
      else
        match node with
        | .dir i es =>
          if ¬i.opens then (.failed, some node, s.failed path "opendir")
          else
            let (rc, kept, s) := rmEntries cancels (rmIn left) path es s
            if rc = .cancelled then (.cancelled, some (.dir i kept), s)
            else if kept.isEmpty ∧ i.removes then (rc, none, s)
            -- a folder kept only by a failed child is no new failure
            else (.failed, some (.dir i kept), if rc = .failed then s else s.failed path "rmdir")
        | .file i => if i.removes then (.ok, none, s.visited i.size) else (.failed, some node, s.failed path "unlink")
        | .link i _ => if i.removes then (.ok, none, s.visited 0) else (.failed, some node, s.failed path "unlink")

/-- `fsj_rm_rf` -/
def fsjRmRf (path : Bytes) (node : Node) (s : Walk) : Rc × Option Node × Walk :=
  if ¬node.inode.stats then (.failed, some node, s)
  else rmIn cancels node.inode.dev (maxDepth + 1) path node s

/-- The entries of a folder, one after the other, behind the outcome so far. -/
def chmodEntries (chmod : Bytes → Node → (Nat → Nat) → Walk → Rc × (Nat → Nat) × Walk) (path : Bytes) :
    List (Name × Node) → Rc → (Nat → Nat) → Walk → Rc × (Nat → Nat) × Walk
  | [], rc, modes, s => (rc, modes, s)
  | p :: es, rc, modes, s =>
    if ¬Fits path p then (.failed, modes, s.failed path "path too long")
    else
      let (rc', modes, s) := chmod (sub path p.1) p.2 modes s
      match rc' with
      | .cancelled => (.cancelled, modes, s)
      | .ok => chmodEntries chmod path es rc modes s
      | .failed => chmodEntries chmod path es .failed modes s

/-- `chmod`: of the object that the path resolves to. -/
def chmod (mode : Nat) (path : Bytes) (node : Node) (modes : Nat → Nat) (s : Walk) : Rc × (Nat → Nat) × Walk :=
  match node.resolves with
  | some x =>
    if node.inode.chmods then (.ok, fun y => if y = x then mode else modes y, s)
    else (.failed, modes, s.failed path "chmod")
  | none => (.failed, modes, s.failed path "chmod")

/-- `chmod_rf_in`, with the levels that are left. -/
def chmodIn (inProtected : Bytes → Bool) (mode : Nat) :
    Nat → Bytes → Node → (Nat → Nat) → Walk → Rc × (Nat → Nat) × Walk
  | 0, _, _, modes, s => (.failed, modes, s)
  | left + 1, path, node, modes, s =>
    if cancels s.polls then (.cancelled, modes, s.polled)
    else
      let s := s.polled
      if ¬node.inode.stats then (.failed, modes, s.failed path "lstat")
      else if node.inode.dev ≠ rootDev then (.failed, modes, s.failed path "mount")
      -- a link that leads into the trust store is left alone
      else if node.isLink ∧ inProtected path then (.ok, modes, s)
      else
        let (rc, modes, s) := chmod mode path node modes s
        match node with
        | .dir i es =>
          if ¬i.opens then (.failed, modes, s.failed path "opendir")
          else chmodEntries (chmodIn inProtected mode left) path es rc modes s
        | _ => (rc, modes, s.visited 0)

/-- `fsj_chmod_rf` -/
def fsjChmodRf (inProtected : Bytes → Bool) (mode : Nat) (path : Bytes) (node : Node) (modes : Nat → Nat)
    (s : Walk) : Rc × (Nat → Nat) × Walk :=
  if ¬node.inode.stats then (.failed, modes, s)
  else chmodIn cancels node.inode.dev inProtected mode (maxDepth + 1) path node modes s

/-- The entries of a folder; one whose path is too long is passed over. -/
def sizeEntries (size : Bytes → Node → Walk → Rc × Walk) (path : Bytes) : List (Name × Node) → Walk → Rc × Walk
  | [], s => (.ok, s)
  | p :: es, s =>
    if cancels s.polls then (.cancelled, s.polled)
    else if ¬Fits path p then
      let (rc, s) := sizeEntries size path es (s.polled.failed path "path too long")
      (if rc = .cancelled then .cancelled else .failed, s)
    else
      let (rc, s) := size (sub path p.1) p.2 s.polled
      match rc with
      | .cancelled => (.cancelled, s)
      | .ok => sizeEntries size path es s
      | .failed =>
        let (rc, s) := sizeEntries size path es s
        (if rc = .cancelled then .cancelled else .failed, s)

/-- `tree_size_in`, with the levels that are left. -/
def treeSizeIn : Nat → Bytes → Node → Walk → Rc × Walk
  | 0, path, _, s => (.failed, s.failed path "too deep")
  | left + 1, path, node, s =>
    if cancels s.polls then (.cancelled, s.polled)
    else
      let s := s.polled
      if ¬node.inode.stats then (.failed, s.failed path "lstat")
      else if node.inode.dev ≠ rootDev then (.ok, s)
      else
        match node with
        | .dir i es =>
          if ¬i.opens then (.failed, s.failed path "opendir") else sizeEntries cancels (treeSizeIn left) path es s
        | .file i => (.ok, s.visited i.size)
        | .link _ _ => (.ok, s.visited 0)

/-- `fsj_tree_size` -/
def fsjTreeSize (path : Bytes) (node : Node) (s : Walk) : Rc × Walk :=
  if ¬node.inode.stats then (.failed, s.failed path "lstat")
  else treeSizeIn cancels node.inode.dev (maxDepth + 1) path node s

end Walkers

/-! ## Paths -/

/-- The components of a path. -/
def components (path : Bytes) : List Name := (path.splitOn 0x2f).filter (· ≠ [])

/-- `fsj_normalize_path`; none for a relative path, or one with `..`. -/
def fsjNormalizePath (path : Bytes) : Option Bytes :=
  if path.head? ≠ some 0x2f then none
  else
    let comps := (components path).filter (· ≠ [0x2e])
    if [0x2e, 0x2e] ∈ comps then none
    else if comps = [] then some [0x2f]
    else some (comps.flatMap (0x2f :: ·))

def mnt : Bytes := [0x2f, 0x6d, 0x6e, 0x74]

/-- `fsj_path_is_root` -/
def fsjPathIsRoot (path : Bytes) : Bool :=
  let comps := (components path).length
  if mnt <+: path ∧ (path[4]? = some 0x2f ∨ path[4]? = none) then comps < 3 else comps < 2

/-- `parent_of`: `/a/b/c` to `/a/b`, `/c` to `/`. -/
def parentOf (path : Bytes) : Bytes :=
  let front := (path.reverse.dropWhile (· ≠ 0x2f)).drop 1
  if front = [] then [0x2f] else front.reverse

/-! ## The jobs -/

/-- What the jobs ask of the rest of the console. -/
structure Hooks where
  /-- The writable roots, without the trust store and what is above it. -/
  mayWrite : Bytes → Bool
  /-- Whether two paths are on one device; none if that cannot be told. -/
  sameDevice : Bytes → Bytes → Option Bool
  inProtected : Bytes → Bool
  cancels : Nat → Bool
  /-- `strerror` of the call that failed at a path, if it set `errno`. -/
  errno : Bytes → String → Option Bytes
  /-- Where the kernel finds a path whose last component it does not follow. -/
  place : Bytes → List Name

def ascii (s : String) : Bytes := s.toList.map fun c => UInt8.ofNat c.toNat

/-- `fail_message`: the first path that a walk failed at and how many there are.  A path below `base` is shown from
there on, and of a long one the end is kept. -/
def failMessage (errno : Bytes → String → Option Bytes) (base : Bytes) (token unit : String) :
    List (Bytes × String) → Bytes
  | [] => ascii token
  | (path, what) :: rest =>
    let first := path.take 599
    let inBase := 1 < base.length ∧ base <+: first ∧ first[base.length]? = some 0x2f ∧ base.length + 1 < first.length
    let p := if inBase then first.drop (base.length + 1) else first
    let shown := if 109 < p.length then ascii "..." ++ p.drop (p.length - 106) else p
    -- these three are the walker's own refusals
    let err := if what ∈ ["mount", "path too long", "too deep"] then none else errno path what
    ascii (token ++ ": " ++ what ++ " ") ++ shown ++ err.elim [] (ascii ": " ++ ·) ++
      ascii (" (" ++ Nat.repr (rest.length + 1) ++ " " ++ unit ++ ")")

/-- `AVA1_STATUS_OK` and the errors. -/
inductive Status where
  | ok
  | protocol
  | path
  | cancelled
  | io
  deriving DecidableEq, Repr

/-- The guards of `op_delete`: the path it acts on. -/
def deleteTarget (h : Hooks) (arg : Option Bytes) : Except (Status × Bytes) Bytes :=
  match arg with
  | none => .error (.protocol, ascii "fs_delete_missing_path")
  | some raw =>
    if raw = [] then .error (.protocol, ascii "fs_delete_missing_path")
    else
      match fsjNormalizePath raw with
      | none => .error (.path, ascii "fs_delete_path_not_allowed")
      | some path =>
        if fsjPathIsRoot path ∨ ¬h.mayWrite path then .error (.path, ascii "fs_delete_path_not_allowed")
        else
          match h.sameDevice path (parentOf path) with
          | some true => .ok path
          | some false => .error (.path, ascii "fs_delete_path_is_mount_point")
          | none => .error (.path, ascii "fs_delete_device_unknown")

/-- `op_delete`: the status, its message and the file system. -/
def opDelete (h : Hooks) (arg : Option Bytes) (root : Node) : (Status × Bytes) × Option Node :=
  match deleteTarget h arg with
  | .error e => (e, some root)
  | .ok path =>
    match root.find (h.place path) with
    | none => ((.ok, []), some root)
    | some node =>
      let (counted, s) := fsjTreeSize h.cancels path node {}
      if counted = .cancelled then ((.cancelled, ascii "fs_delete_cancelled"), some root)
      else
        let (rc, kept, s') := fsjRmRf h.cancels path node { polls := s.polls }
        let root := root.put kept (h.place path)
        -- the removal's failures, or those of the count if it has none
        let notes := if s'.notes = [] then s.notes else s'.notes
        match rc with
        | .cancelled => ((.cancelled, ascii "fs_delete_cancelled"), root)
        | .failed => ((.io, failMessage h.errno (parentOf path) "fs_delete_failed" "left" notes), root)
        | .ok => ((.ok, []), root)

/-- The octal digits in front. -/
def octalDigits (text : Bytes) : Nat :=
  (text.takeWhile fun c => 0x30 ≤ c ∧ c ≤ 0x37).foldl (fun v c => 8 * v + (c.toNat - 0x30)) 0

/-- The mode of a text: `strtoull` in base eight, the largest mode at most. -/
def modeOf (text : Bytes) : Nat :=
  let text := text.dropWhile isCSpace
  let neg := text.head? = some 0x2d
  let v := octalDigits (if neg ∨ text.head? = some 0x2b then text.drop 1 else text)
  let v := if 2 ^ 64 ≤ v then 2 ^ 64 - 1 else if neg then (2 ^ 64 - v) % 2 ^ 64 else v
  min v 0o7777

/-- The guards of `op_chmod_r`: the path it acts on, and the mode. -/
def chmodTarget (h : Hooks) (arg modeArg : Option Bytes) : Except (Status × Bytes) (Bytes × Nat) :=
  match arg with
  | none => .error (.protocol, ascii "fs_chmod_missing_path")
  | some raw =>
    if raw = [] then .error (.protocol, ascii "fs_chmod_missing_path")
    else
      match fsjNormalizePath raw with
      | none => .error (.path, ascii "fs_chmod_path_not_allowed")
      | some path =>
        if ¬h.mayWrite path then .error (.path, ascii "fs_chmod_path_not_allowed")
        else
          match modeArg with
          | none => .error (.protocol, ascii "fs_chmod_missing_mode")
          | some text => if text = [] then .error (.protocol, ascii "fs_chmod_missing_mode") else .ok (path, modeOf text)

/-- `op_chmod_r`: the status, its message and the modes. -/
def opChmodR (h : Hooks) (arg modeArg : Option Bytes) (root : Node) (modes : Nat → Nat) :
    (Status × Bytes) × (Nat → Nat) :=
  match chmodTarget h arg modeArg with
  | .error e => (e, modes)
  | .ok (path, mode) =>
    match root.find (h.place path) with
    | none => ((.io, ascii "fs_chmod_failed"), modes)
    | some node =>
      let (counted, s) := fsjTreeSize h.cancels path node {}
      if counted = .cancelled then ((.cancelled, ascii "fs_chmod_cancelled"), modes)
      else
        let (rc, modes, s') := fsjChmodRf h.cancels h.inProtected mode path node modes { polls := s.polls }
        match rc with
        | .cancelled => ((.cancelled, ascii "fs_chmod_cancelled"), modes)
        | .failed => ((.io, failMessage h.errno [] "fs_chmod_failed" "failed" s'.notes), modes)
        | .ok => ((.ok, []), modes)

end Ps5Upload.FsJobs
