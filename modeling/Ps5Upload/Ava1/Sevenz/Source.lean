import Mathlib.Data.String.Basic
import Mathlib.Tactic.Common
import Ps5Upload.Lib.BTreeMap
import Ps5Upload.Lib.Bytes
import Ps5Upload.Ava1.ZipStored.Layout

/-!
# A 7z archive as a forward-only source: the model

The model of `engine/crates/ps5upload-ava1/src/seq.rs`: the manifest and the folders that `open`
reads off an archive's header, the walk of `pass` over those folders with a decoder, and
`bytes_to_skip`, which forecasts from the headers what that walk reads only to discard.

The header's reader, the decoder and the sink are the archive crate's and the protocol crate's: a
header comes read already, a decoder is what it yields for each folder, and a sink says for each
call whether it takes it.
-/

namespace Ps5Upload.Sevenz

open ByteFile

/-! ## Faults -/

/-- Why an archive cannot be uploaded. -/
inductive SevenzFault where
  | corrupt (why : String)
  | encrypted (why : String)
  | unsafePath (why : String)
  | unsupportedLayout
  | conflict (why : String)
  deriving DecidableEq, Repr

inductive IoError where
  /-- `InvalidData`, around a fault. -/
  | fault (f : SevenzFault)
  | invalidInput (why : String)
  /-- "stopped" -/
  | interrupted
  /-- An error of the archive's file or of the decoder, as `pass` maps it. -/
  | read (why : String)
  /-- What the sink answered. -/
  | sink
  /-- An index past the folders. -/
  | panic
  deriving DecidableEq, Repr

/-! ## Open -/

/-- A file of an archive's header.  A file outside every folder is empty. -/
structure ArchiveFile where
  name : String
  isDirectory : Bool
  hasStream : Bool
  size : Nat
  /-- Its Unix time, or 0 where the header has none. -/
  mtime : Nat
  block : Option Nat
  size_of_no_block : block = none → size = 0

structure Archive where
  /-- How many folders there are. -/
  nblocks : Nat
  /-- A folder's coder is AES. -/
  encrypted : Bool
  files : List ArchiveFile

/-- One entry of a folder, in decode order. -/
structure Member where
  /-- The archive's own name, checked against the decoder's entry. -/
  raw : String
  /-- `none` for an excluded file. -/
  path : Option String
  size : Nat
  deriving DecidableEq, Repr

inductive EntryKind where
  | dir
  | file
  deriving DecidableEq, Repr

structure Entry where
  kind : EntryKind
  mode : Nat
  size : Nat
  mtime : Nat
  path : String
  deriving DecidableEq, Repr

structure SevenzSource where
  /-- Per folder: its files in decode order. -/
  folders : List (List Member)
  /-- Files without a stream: never decoded. -/
  empties : List String
  /-- Restart point per manifest entry. -/
  restarts : List Nat

def u64Max : Nat := 2 ^ 64 - 1

/-- A path's components, in the order manifests are sorted by. -/
def components (path : String) : List (List Char) := path.toList.splitOn '/'

/-- The folders of a path: what stands before each `/`. -/
def parents (path : String) : List String :=
  let parts := components path
  (List.range (parts.length - 1)).map fun n =>
    String.ofList (['/'].intercalate (parts.take (n + 1)))

/-- What the loop over the header's files has put together. -/
structure Listed where
  folders : List (List Member)
  empties : List String := []
  files : BTreeMap String (Option Nat × Nat × Nat) := ∅
  dirs : BTreeMap String Unit := ∅

section Open

-- `sanitize_7z_entry` and `is_excluded_strings`; the text of `manifest::check_path`'s refusal.
variable (sanitizeEntry : String → Option String) (isExcluded : String → Bool)
  (checkPath : String → Option String)

/-- The destination-relative path for an entry name. -/
def sanitize (name : String) : Except IoError String :=
  match sanitizeEntry name with
  | some rel => .ok rel
  | none => .error (.fault (.unsafePath (ZipStored.debug name)))

/-- The file among its folder's members, or among the empty files if it is kept. -/
def fileEntry (l : Listed) (e : ArchiveFile) (path : Option String) : Except IoError Listed :=
  match e.block with
  | some b =>
    if b < l.folders.length then
      .ok { l with folders := l.folders.modify b (· ++ [{ raw := e.name, path, size := e.size }]) }
    else .error .panic
  | none => .ok { l with empties := l.empties ++ path.toList }

/-- One turn of the loop over the header's files. -/
def listFile (l : Listed) (e : ArchiveFile) : Except IoError Listed := do
  if e.block.isSome ∧ !e.hasStream then .error (.fault .unsupportedLayout)
  else if e.isDirectory then
    -- An unsafe directory name is ignored: its files are refused by name.
    match sanitizeEntry e.name with
    | some rel => if isExcluded rel then .ok l else .ok { l with dirs := l.dirs.insert rel () }
    | none => .ok l
  else do
    let rel ← sanitize sanitizeEntry e.name
    let excluded := isExcluded rel
    let l ← fileEntry l e (if excluded then none else some rel)
    if excluded then .ok l
    else if (l.files.get rel).isSome then .error (.fault (.conflict (rel ++ " appears twice")))
    else .ok { l with files := l.files.insert rel (e.block, e.size, e.mtime) }

def listFiles : List ArchiveFile → Listed → Except IoError Listed
  | [], l => .ok l
  | e :: es, l => do
    let l ← listFile sanitizeEntry isExcluded l e
    listFiles es l

/-- The restart point of an entry: its folder, or the largest number where nothing is decoded. -/
def restartOf (files : BTreeMap String (Option Nat × Nat × Nat)) (e : Entry) : Nat :=
  match files.get e.path, e.kind with
  | some (some b, _, _), .file => b
  | _, _ => u64Max

/-- The manifest of what was listed, in the order of the paths' components. -/
def entriesOf (l : Listed) (dirs : BTreeMap String Unit) : List Entry :=
  let ofDir (d : String) : Entry := { kind := .dir, mode := 0o755, size := 0, mtime := 0, path := d }
  let ofFile (p : String × (Option Nat × Nat × Nat)) : Entry :=
    { kind := .file, mode := 0o644, size := p.2.2.1, mtime := p.2.2.2, path := p.1 }
  (dirs.keys.map ofDir ++ l.files.entries.map ofFile).mergeSort fun a b =>
    decide (components a.path ≤ components b.path)

/-- The refusal of the first path that the manifest does not take. -/
def checkEntries : List Entry → Except IoError Unit
  | [] => .ok ()
  | e :: es =>
    match checkPath e.path with
    | some why => .error (.fault (.unsafePath (e.path ++ ": " ++ why)))
    | none => checkEntries es

/-- `SevenzSource::open`, from the header on. -/
def openArchive (path : String) (a : Archive) : Except IoError (List Entry × SevenzSource) := do
  if a.encrypted then .error (.fault (.encrypted "the archive's data is AES-encrypted"))
  else do
    let l ← listFiles sanitizeEntry isExcluded a.files
      { folders := List.replicate a.nblocks [] }
    if l.files.entries = [] then
      .error (.invalidInput ("7z has no extractable files (after exclusions): " ++ path))
    else do
      let dirs := (l.files.keys.flatMap parents).foldl (fun dirs d => dirs.insert d ()) l.dirs
      if l.files.keys.any fun p => (dirs.get p).isSome then
        .error (.fault (.conflict "a path is both a file and a directory"))
      else do
        let entries := entriesOf l dirs
        checkEntries checkPath entries
        .ok (entries,
          { folders := l.folders
            empties := l.empties
            restarts := entries.map (restartOf l.files) })

end Open

/-! ## The pass -/

/-- What the sink is handed. -/
inductive Event where
  | begin (path : String)
  | data (chunk : Bytes)
  | end_
  deriving DecidableEq, Repr

/-- What a decoder yields for one entry: what its reads give, and how they fail if they do. -/
structure Yielded where
  name : String
  hasStream : Bool
  chunks : List Bytes
  failure : Option String := none

/-- What a decoder yields for one folder, and its own error at the end if it has one. -/
structure Decoded where
  entries : List Yielded
  failure : Option String := none

/-- What may stop a pass from outside: a stop seen at one of its polls, and the sink. -/
structure Env where
  cancel : Nat → Bool
  takes : List Event → Event → Bool

structure PassState where
  /-- What the sink was handed. -/
  trace : List Event := []
  /-- The folders opened, in order; the source counts them. -/
  opened : List Nat := []
  polls : Nat := 0
  /-- Bytes the decoder produced. -/
  decoded : UInt64 := 0
  /-- Bytes decoded only to be discarded. -/
  skipped : UInt64 := 0

variable (env : Env)

def poll (s : PassState) : Except IoError PassState :=
  if env.cancel s.polls then .error .interrupted else .ok { s with polls := s.polls + 1 }

def emit (e : Event) (s : PassState) : Except IoError PassState :=
  if env.takes s.trace e then .ok { s with trace := s.trace ++ [e] } else .error .sink

/-- The size of the buffer an entry is read through. -/
def bufLen : Nat := 2 ^ 18

/-- The loop of `feed`: every read is discarded or handed on, up to an empty one. -/
def pump (skipping : Bool) (failure : Option String) :
    List Bytes → Nat → PassState → Except IoError (Nat × PassState)
  | [], total, s => do
    let s ← poll env s
    match failure with
    | some why => .error (.read why)
    | none => .ok (total, s)
  | c :: cs, total, s => do
    let s ← poll env s
    if c = [] then .ok (total, s)
    else do
      let s := { s with decoded := s.decoded + UInt64.ofNat c.length }
      let s ← if skipping then .ok { s with skipped := s.skipped + UInt64.ofNat c.length }
        else emit env (.data c) s
      pump skipping failure cs (total + c.length) s

def feed (m : Member) (skipping : Bool) (y : Yielded) (s : PassState) : Except IoError PassState := do
  let s ← if skipping then .ok s
    else match m.path with
      | some p => emit env (.begin p) s
      | none => .ok s
  let (total, s) ← pump env skipping y.failure y.chunks 0 s
  if total ≠ m.size then
    .error (.fault (.corrupt s!"an entry ended after {total} of {m.size} bytes"))
  else if !skipping ∧ m.path.isSome then emit env .end_ s
  else .ok s

-- Whether the receiver wants a file: anything but `Keep::Skip`.
variable (want : String → Nat → Bool)

/-- An excluded file is never wanted. -/
def wanted (m : Member) : Bool :=
  match m.path with
  | some p => want p m.size
  | none => false

/-- `iter().rposition(..)` -/
def rposition : List Bool → Option Nat
  | [] => none
  | k :: ks =>
    match rposition ks with
    | some i => some (i + 1)
    | none => if k then some 0 else none

/-- The decoder's walk over a folder: how many entries it got to, and whether that was the last
wanted one. -/
def walk (members : List Member) (keeps : List Bool) (last : Nat) :
    List Yielded → Nat → PassState → Except IoError (Nat × Bool × PassState)
  | [], j, s => .ok (j, false, s)
  | y :: ys, j, s =>
    if !y.hasStream then walk members keeps last ys j s
    else match members[j]?, keeps[j]? with
      | some m, some keep =>
        if y.name ≠ m.raw then
          .error (.fault (.corrupt ("the decoder yielded " ++ ZipStored.debug y.name ++
            " where the header lists " ++ ZipStored.debug m.raw)))
        else do
          let s ← feed env m (!keep) y s
          -- Nothing wanted after `last`: the rest of the folder is not decoded.
          if j < last then walk members keeps last ys (j + 1) s else .ok (j + 1, true, s)
      | _, _ => .error (.fault (.corrupt "a folder holds more entries than its header lists"))

/-- One folder of the pass. -/
def passFolder (decoder : Nat → Decoded) (b : Nat) (members : List Member) (s : PassState) :
    Except IoError PassState := do
  let s ← poll env s
  let keeps := members.map (wanted want)
  match rposition keeps with
  | none => .ok s
  | some last => do
    let s := { s with opened := s.opened ++ [b] }
    let (j, reachedLast, s) ← walk env members keeps last (decoder b).entries 0 s
    match reachedLast, (decoder b).failure with
    | true, _ => .ok s
    | false, some why => .error (.read why)
    | false, none => .error (.fault (.corrupt
        ("the folder yielded " ++ toString j ++ " of " ++ toString members.length ++ " entries")))

/-- The folders from `b` on. -/
def passFolders (decoder : Nat → Decoded) :
    Nat → List (List Member) → PassState → Except IoError PassState
  | _, [], s => .ok s
  | b, members :: rest, s => do
    let s ← passFolder env want decoder b members s
    passFolders decoder (b + 1) rest s

def passEmpties : List String → PassState → Except IoError PassState
  | [], s => .ok s
  | p :: ps, s => do
    let s ← poll env s
    let s ← if want p 0 then do
        let s ← emit env (.begin p) s
        emit env .end_ s
      else .ok s
    passEmpties ps s

/-- `SevenzSource::pass` -/
def SevenzSource.pass (src : SevenzSource) (decoder : Nat → Decoded) (restart : Nat) (s : PassState) :
    Except IoError PassState := do
  let s ← passFolders env want decoder restart (src.folders.drop restart) s
  passEmpties env want src.empties s

def SevenzSource.restartFor (src : SevenzSource) (fileId : Nat) : Nat :=
  (src.restarts[fileId]?).getD 0

/-- `u64::saturating_add` -/
def saturatingAdd (a b : Nat) : Nat := min (a + b) u64Max

/-- What the entries of an opened folder add to the forecast, up to the last wanted one. -/
def folderToSkip (members : List Member) (n : Nat) : Nat :=
  let skips := members.map fun m => !wanted want m
  match rposition (skips.map (!·)) with
  | none => n
  | some last =>
    (((members.take (last + 1)).zip skips).filter (·.2)).foldl
      (fun n p => saturatingAdd n p.1.size) n

/-- The same walk as `pass`, from the headers. -/
def SevenzSource.bytesToSkip (src : SevenzSource) (restart : Nat) : Nat :=
  (src.folders.drop restart).foldl (fun n members => folderToSkip want members n) 0

end Ps5Upload.Sevenz
