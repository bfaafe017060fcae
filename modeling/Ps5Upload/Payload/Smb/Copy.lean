import Ps5Upload.Lib.Bytes
import Ps5Upload.Lib.Moments
import Mathlib.Data.UInt
import Mathlib.Logic.Function.Basic

/-!
# The network-share copy

`payload/smb/smbd_copy.c`: a file or a folder tree is copied from one file system to another, both
behind `xfs_t`.  A file is written under a part name next to its destination and renamed when it is
complete; a side that drops its connection is reconnected and the copy carries on.  A disk renames over
what is there in one step (`l_rename` of `smbd_localfs.c`), a share moves it to another name first
(`s_rename` of `smbd_smbfs.c`).

Every call of either side is answered by the next `Answer` of the run: it may fail with any error
(and then a change may have taken effect or not), move fewer bytes than asked, and the cancel flag
may have been set meanwhile.  A handle that a reconnect made invalid is not told apart: a call on it
may fail like any other.

* `rename` — a file put in its place;
* `copyFile`, `copyDir`, `copyRun` — the copy;
* `countTree` — the totals, counted in front of it;
* `recover`, `retry` — reconnecting, and the loops that try a call again after it.
-/

namespace Ps5Upload.SmbCopy

open ByteFile Moments

/-! ## Names and paths -/

/-- A C string: its bytes. -/
abbrev Text := List UInt8

def text (s : String) : Text := s.toList.map fun c => UInt8.ofNat c.toNat

/-- `XE_…` of `smbd_path.h`. -/
inductive XErr where
  | notFound | exists' | access | noSpace | io | disconnected | timeout | auth | noShare
  | unreachable | cancelled | notDir | isDir | badName | noMem | badRequest | busy | tooDeep
  | intoItself | notSupported
  deriving DecidableEq, Repr

/-- `SMBP_PATH_MAX`, the NUL included. -/
def pathMax : Nat := 1024

/-- `SMBP_PART_SUFFIX` -/
def partSuffix : Text := text ".ps5u-part"

/-- A folder's path with what separates it from a name in it. -/
def slashed (dir : Text) : Text :=
  if dir = [] then [] else if dir = [0x2f] then [0x2f] else dir ++ [0x2f]

def child (dir name : Text) : Text := slashed dir ++ name

/-- `smbp_join` into a buffer of `SMBP_PATH_MAX` bytes. -/
def join (dir name : Text) : Option Text :=
  if (child dir name).length < pathMax then some (child dir name) else none

/-- `smbp_part_name` into a buffer of `SMBP_PATH_MAX` bytes. -/
def partName (path : Text) : Option Text :=
  if (path ++ partSuffix).length < pathMax then some (path ++ partSuffix) else none

/-- `smbp_base`: what follows the last slash. -/
def base (path : Text) : Text := (path.reverse.takeWhile (· ≠ 0x2f)).reverse

/-- `smbp_skip_download`: names that macOS leaves behind. -/
def skipDownload (name : Text) : Bool := name.take 2 = text "._" || name = text ".DS_Store"

/-! ## The two file systems -/

inductive Kind where
  | file | dir | other
  deriving DecidableEq, Repr

/-- What stands at a path; a link or a device is `other`. -/
inductive Node where
  | file (bytes : Bytes)
  | dir
  | other
  deriving DecidableEq, Repr

def Node.kind : Node → Kind
  | .file _ => .file
  | .dir => .dir
  | .other => .other

def Node.size : Node → UInt64
  | .file b => UInt64.ofNat b.length
  | _ => 0

/-- A file system: what stands at each path. -/
abbrev Fs := Text → Option Node

/-- The source, which does not change: its nodes, and the names each folder lists. -/
structure Source where
  node : Fs
  names : Text → List Text
  nodup : ∀ p, (names p).Nodup
  name_ok : ∀ p, ∀ n ∈ names p, n ≠ [] ∧ 0x2f ∉ n

/-- What a side of the copy offers beyond files: the entries of `xfs_ops_t` that may be NULL, and
whether it is a share, which replaces a file by way of another name. -/
structure Side where
  reconnect : Bool
  freeSpace : Bool
  chunk : Option Nat
  share : Bool

/-- How the world answers one call. -/
structure Answer where
  /-- The error the call returns, when it fails. -/
  fault : Option XErr
  /-- Whether the change of a call that fails has taken effect. -/
  took : Bool
  /-- How many bytes a read or a write moves; the free bytes there are. -/
  amount : Nat
  /-- Whether somebody sets the cancel flag by then. -/
  cancel : Bool

/-- `copy_progress_t` -/
structure Progress where
  bytesDone : UInt64
  bytesTotal : UInt64
  filesDone : UInt32
  filesTotal : UInt32
  scanning : Bool
  cancel : Bool
  reconnects : UInt32
  current : Text

/-- Everything a copy changes, and the answers still to come. -/
structure World where
  dst : Fs
  pr : Progress
  /-- The entry the first failure was on. -/
  failed : Text
  answers : Nat → Answer

/-- What a copy is given: `ctx_t` and `copy_opts_t`. -/
structure Ctx where
  src : Source
  srcSide : Side
  dstSide : Side
  overwrite : Bool
  skipMacMetadata : Bool
  spaceMargin : UInt64
  failedCap : Nat

/-- `COPY_CHUNK_MAX` -/
def chunkMax : Nat := 4 * 1024 * 1024

/-- `c.chunk`: the most that both sides take in one call. -/
def Ctx.chunk (c : Ctx) : Nat :=
  let sc := c.srcSide.chunk.getD 0
  let dc := c.dstSide.chunk.getD 0
  let k := if sc ≠ 0 ∧ sc < chunkMax then sc else chunkMax
  if dc ≠ 0 ∧ dc < k then dc else k

/-! ## Calls -/

abbrev Prog (α : Type) := Moments.Prog World α

/-- One call of either side: the next answer decides what it returns and does. -/
def call {α : Type} (f : Answer → Fs → α × Fs) : Prog α :=
  .act fun w =>
    let a := w.answers 0
    ((f a w.dst).1,
      { w with
        dst := (f a w.dst).2
        pr := { w.pr with cancel := w.pr.cancel || a.cancel }
        answers := fun n => w.answers (n + 1) })

/-- A call that only asks: it fails, or returns `r`. -/
def ask {α : Type} (r : Answer → Fs → Except XErr α) : Prog (Except XErr α) :=
  call fun a fs => (match a.fault with | some e => .error e | none => r a fs, fs)

/-- A call that changes the destination to `r`, if it can. -/
def change (r : Fs → Except XErr Fs) : Prog (Except XErr Unit) :=
  call fun a fs =>
    match a.fault, r fs with
    | none, .ok fs' => (.ok (), fs')
    | none, .error e => (.error e, fs)
    | some e, .ok fs' => (.error e, if a.took then fs' else fs)
    | some e, .error _ => (.error e, fs)

def cancelled : Prog Bool := .look fun w => w.pr.cancel

def setProgress (f : Progress → Progress) : Prog Unit := .act fun w => ((), { w with pr := f w.pr })

/-- `malloc`, `realloc`, `strdup` -/
def alloc : Prog Bool := call fun a fs => (a.fault.isNone, fs)

def nap : Prog Unit := call fun _ fs => ((), fs)

/-- A call whose only answer is whether it went well: `opendir`, `open_read`, `close`, `reconnect`. -/
def plain : Prog (Except XErr Unit) := ask fun _ _ => .ok ()

/-- `stat` of what stands at a path. -/
def statNode (n : Option Node) : Except XErr Node := match n with | some n => .ok n | none => .error .notFound

def statDst (p : Text) : Prog (Except XErr Node) := ask fun _ fs => statNode (fs p)

/-- `open_read` and `opendir`: something of that kind has to be there. -/
def openSrc (c : Ctx) (kind : Kind) (p : Text) : Prog (Except XErr Unit) :=
  ask fun _ _ => match c.src.node p with
    | none => .error .notFound
    | some n => if n.kind = kind then .ok () else .error (if kind = .dir then .notDir else .isDir)

/-- The bytes of the file at a path. -/
def Source.bytes (s : Source) (p : Text) : Bytes :=
  match s.node p with | some (.file b) => b | _ => []

/-- `pread` of at most a chunk: some bytes, and none only at the end. -/
def pread (c : Ctx) (sp : Text) (off : Nat) :
    Prog (Except XErr {got : Bytes // got <+: (c.src.bytes sp).drop off}) :=
  ask fun a _ => .ok ⟨((c.src.bytes sp).drop off).take (min (max a.amount 1) c.chunk), List.take_prefix _ _⟩

/-- `pwrite` to the open file at a path: it moves `amount` bytes at most, and where it fails it may
have written as many all the same. -/
def pwrite (part : Text) (data : Bytes) (off : Nat) : Prog (Except XErr Nat) :=
  call fun a fs =>
    match fs part with
    | some (.file b) =>
      let w := min a.amount data.length
      let fs' := Function.update fs part (some (.file (writeAt b off (data.take w))))
      match a.fault with
      | none => (.ok w, fs')
      | some e => (.error e, if a.took then fs' else fs)
    | _ => (.error (a.fault.getD .io), fs)

def mkdir (p : Text) : Prog (Except XErr Unit) :=
  change fun fs => match fs p with
    | none => .ok (Function.update fs p (some .dir))
    | some _ => .error .exists'

/-- `resume = 0`: create or truncate; `1`: keep what is there.  Both sides open with `O_CREAT`. -/
def openWrite (p : Text) (resume : Bool) : Prog (Except XErr Unit) :=
  change fun fs => match fs p with
    | none => .ok (Function.update fs p (some (.file [])))
    | some (.file _) => .ok (if resume then fs else Function.update fs p (some (.file [])))
    | some .dir => .error .isDir
    | some .other => .error .io

/-- `l_rename`, and without `replace` also `s_rename_raw`: `src` takes the place of `dst`, of nothing,
or with `replace` of anything that is no folder. -/
def renameRaw (src dst : Text) (replace : Bool) : Prog (Except XErr Unit) :=
  change fun fs => match fs src, fs dst with
    | none, _ => .error .notFound
    | some n, none => .ok (Function.update (Function.update fs dst (some n)) src none)
    | some _, some .dir => .error (if replace then .isDir else .exists')
    | some n, some _ =>
      if replace then .ok (Function.update (Function.update fs dst (some n)) src none)
      else .error .exists'

def unlink (p : Text) : Prog (Except XErr Unit) :=
  change fun fs => match fs p with
    | none => .error .notFound
    | some .dir => .error .isDir
    | some _ => .ok (Function.update fs p none)

/-! ## Replacing a file of a share -/

/-- The suffix of the aside name of number `n`. -/
def oldSuffix (n : Nat) : Text := text (".ps5u-old" ++ if n = 0 then "" else toString n)

/-- How many aside names are tried. -/
def asideTries : Nat := 16

/-- The loop of `s_rename` for an aside name that is free, from number `n` on. -/
def freeAside (dst : Text) (n : Nat) : Prog (Except XErr Text) :=
  if _h : n < asideTries then
    if (dst ++ oldSuffix n).length < pathMax then do
      match ← statDst (dst ++ oldSuffix n) with
      | .error .notFound => return .ok (dst ++ oldSuffix n)
      | .error e => return .error e
      | .ok _ => freeAside dst (n + 1)
    else return .error .badName
  else return .error .exists'
termination_by asideTries - n

/-- The second half of `s_rename`: `src` takes the place of `dst`, whose old file is `kept` under
another name; it is put back where that fails, and dropped where it goes well. -/
def settle (src dst : Text) (kept : Option Text) : Prog (Except XErr Unit) := do
  match ← renameRaw src dst false with
  | .error e =>
    if let some aside := kept then
      let _ ← renameRaw aside dst false
    return .error e
  | .ok _ =>
    if let some aside := kept then
      let _ ← unlink aside
    return .ok ()

/-- `s_rename` with `replace` -/
def replace (src dst : Text) : Prog (Except XErr Unit) := do
  match ← freeAside dst 0 with
  | .error e => return .error e
  | .ok aside =>
    match ← renameRaw dst aside false with
    | .ok _ => settle src dst (some aside)
    | .error .notFound => settle src dst none
    | .error e => return .error e

/-- `rename` of the destination's side. -/
def rename (c : Ctx) (src dst : Text) (existed : Bool) : Prog (Except XErr Unit) :=
  if existed && c.dstSide.share then replace src dst else renameRaw src dst existed

/-! ## Notes for the page -/

def setCurrent (path : Text) : Prog Unit :=
  setProgress fun pr => { pr with current := (base path).take 255 }

/-! ## Reconnecting -/

/-- `COPY_RETRIES` -/
def copyRetries : Nat := 3

/-- A failure worth a reconnect: the connection, not the request. -/
def transient (e : XErr) : Bool := e = .disconnected || e = .timeout || e = .io

/-- The tries after a reconnect: more than before, and not too many. -/
abbrev More (tries : Nat) := {t : Nat // tries < t ∧ t ≤ copyRetries}

/-- The loop of `recover`. -/
def recoverLoop (err : XErr) (tries : Nat) : Prog (Except XErr (More tries)) :=
  if h : tries < copyRetries then do
    nap
    if ← cancelled then return .error .cancelled
    else
      match ← plain with
      | .ok _ =>
        setProgress fun pr => { pr with reconnects := pr.reconnects + 1 }
        return .ok ⟨tries + 1, by omega, by omega⟩
      | .error rc =>
        if !transient rc && rc ≠ .unreachable then return .error rc
        else
          match ← recoverLoop err (tries + 1) with
          | .ok t => return .ok ⟨t.1, by have := t.2; omega, t.2.2⟩
          | .error e => return .error e
  else return .error err
termination_by copyRetries - tries

/-- `recover`: connected again, or the error to give up with. -/
def recover (side : Side) (err : XErr) (tries : Nat) : Prog (Except XErr (More tries)) :=
  if !transient err || !side.reconnect then return .error err
  else recoverLoop err tries

/-- The loops that try a call until it goes well or `recover` gives up: the tries made, or the
error of the call and the one to give up with. -/
def retry (side : Side) (op : Prog (Except XErr Unit)) (tries : Nat) :
    Prog (Except (XErr × XErr) Nat) := do
  match ← op with
  | .ok _ => return .ok tries
  | .error e =>
    match ← recover side e tries with
    | .error r => return .error (e, r)
    | .ok t => retry side op t.1
termination_by copyRetries - tries
decreasing_by have := t.2; omega

/-! ## Counting -/

/-- Whether a listed name is copied: links and specials are left out, and macOS metadata if asked. -/
def Ctx.takes (c : Ctx) (path name : Text) : Bool :=
  match c.src.node (child path name) with
  | none | some .other => false
  | some _ => !(c.skipMacMetadata && skipDownload name)

/-- `COPY_MAX_DEPTH` -/
def maxDepth : Nat := 48

def dropPart (c : Ctx) (part : Text) : Prog Unit := do
  match ← unlink part with
  | .ok _ => return ()
  | .error e =>
    if transient e && c.dstSide.reconnect then
      match ← plain with
      | .ok _ =>
        let _ ← unlink part
        return ()
      | .error _ => return ()
    else return ()

/-- Why a file is given up, and which of the two handles are still open. -/
structure Broken where
  err : XErr
  inOpen : Bool
  outOpen : Bool

/-- The loop that writes what has been read: `data` is what is left of it, `off` where it goes. -/
def writeAll (c : Ctx) (part : Text) (data : Bytes) (off dtries : Nat) : Prog (Except Broken Nat) :=
  if _h : 0 < data.length then do
    if ← cancelled then return .error ⟨.cancelled, true, true⟩
    else
      match ← pwrite part data off with
      | .error e =>
        let _ ← plain
        match ← recover c.dstSide e dtries with
        | .error r => return .error ⟨r, true, false⟩
        | .ok t =>
          match ← openWrite part true with
          | .error e => return .error ⟨e, true, false⟩
          | .ok _ => writeAll c part data off t.1
      | .ok w =>
        if _hw : w = 0 then return .error ⟨.io, true, true⟩
        else writeAll c part (data.drop w) (off + w) dtries
  else return .ok dtries
termination_by data.length + (copyRetries - dtries)
decreasing_by
  · have := t.2
    omega
  · rw [List.length_drop]
    omega

/-- The loop of `copy_file` that reads a chunk and writes it. -/
def copyBytes (c : Ctx) (sp part : Text) (off stries dtries : Nat) : Prog (Except Broken Unit) := do
  if ← cancelled then return .error ⟨.cancelled, true, true⟩
  else
    match ← pread c sp off with
    | .error e =>
      let _ ← plain
      match ← recover c.srcSide e stries with
      | .error r => return .error ⟨r, false, true⟩
      | .ok t =>
        match ← openSrc c .file sp with
        | .error e => return .error ⟨e, false, true⟩
        | .ok _ => copyBytes c sp part off t.1 dtries
    | .ok got =>
      if _hg : got.1 = [] then return .ok ()
      else
        match ← writeAll c part got.1 off dtries with
        | .error b => return .error b
        | .ok dtries =>
          setProgress fun pr => { pr with bytesDone := pr.bytesDone + UInt64.ofNat got.1.length }
          copyBytes c sp part (off + got.1.length) stries dtries
termination_by ((c.src.bytes sp).length - off) + (copyRetries - stries)
decreasing_by
  · have := t.2
    omega
  · have h := got.2.length_le
    have hpos := List.length_pos_iff.2 _hg
    rw [List.length_drop] at h
    omega

/-- What `copy_file` does at `fail`. -/
def giveUp (c : Ctx) (part : Text) (b : Broken) : Prog (Except XErr Unit) := do
  if b.inOpen then let _ ← plain
  if b.outOpen then let _ ← plain
  dropPart c part
  return .error b.err

/-- `copy_file` once the destination has been looked at; `existed` is whether it is replaced. -/
def writeFile (c : Ctx) (sp dp part : Text) (existed : Bool) : Prog (Except XErr Unit) := do
  match ← retry c.srcSide (openSrc c .file sp) 0 with
  | .error (_, r) => return .error r
  | .ok stries =>
    match ← retry c.dstSide (openWrite part false) 0 with
    | .error (_, r) =>
      let _ ← plain
      return .error r
    | .ok dtries =>
      match ← copyBytes c sp part 0 stries dtries with
      | .error b => giveUp c part b
      | .ok _ =>
        let _ ← plain
        match ← plain with
        | .error e => giveUp c part ⟨e, false, false⟩
        | .ok _ =>
          match ← rename c part dp existed with
          | .error e => giveUp c part ⟨e, false, false⟩
          | .ok _ =>
            setProgress fun pr => { pr with filesDone := pr.filesDone + 1 }
            return .ok ()

def copyFile (c : Ctx) (sp dp : Text) : Prog (Except XErr Unit) := do
  setCurrent sp
  match ← statDst dp with
  | .ok .dir => return .error .isDir
  | .ok _ =>
    if !c.overwrite then return .error .exists'
    else
      match partName dp with
      | none => return .error .badName
      | some part => writeFile c sp dp part true
  | .error .notFound =>
    match partName dp with
    | none => return .error .badName
    | some part => writeFile c sp dp part false
  | .error e => return .error e

/-! ## A folder -/

/-- `COPY_DIR_ENTRIES_MAX` -/
def dirEntriesMax : Nat := 100000

/-- Room for `nc` entries, where there is none left. -/
def grow (full : Bool) (nc : Nat) : Prog Bool :=
  if !full then return true else if nc > dirEntriesMax then return false else alloc

/-- The world in which a job starts its copy: nothing has been counted or copied yet. -/
def World.start (fs : Fs) (failed : Text) (answers : Nat → Answer) : World where
  dst := fs
  pr :=
    { bytesDone := 0
      bytesTotal := 0
      filesDone := 0
      filesTotal := 0
      scanning := false
      cancel := false
      reconnects := 0
      current := [] }
  failed := failed
  answers := answers

end Ps5Upload.SmbCopy
