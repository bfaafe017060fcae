import Ps5Upload.Core.SaveArchive.Backup

/-!
# Save restores: a zip into a folder

`unzip_strict`, `sanitize_entry` and `restore_prepare` of `ps5upload-core/src/save_archive.rs`.  What is
unzipped is a store of paths; the order of a folder's listing is a parameter.
-/

namespace Ps5Upload.SaveArchive

open ByteFile

abbrev Path := List Text

/-- What is under the scratch folder. -/
structure Store where
  files : List (Path × Bytes)
  dirs : List Path
  deriving DecidableEq

namespace Store

def isFile (s : Store) (p : Path) : Bool := p ∈ s.files.map Prod.fst

def has (s : Store) (p : Path) : Bool := s.isFile p || p ∈ s.dirs

/-- A folder and those it is in, made where they are not there. -/
def createDirAll (s : Store) (p : Path) : Res Store :=
  if p.inits.any s.isFile then .error (.cannotCreate p) else .ok { s with dirs := s.dirs ++ p.inits }

/-- A file of some bytes, in place of one that is there. -/
def writeFile (s : Store) (p : Path) (data : Bytes) : Res Store :=
  if p ∈ s.dirs then .error (.cannotCreate p)
  else .ok { s with files := s.files.filter (fun q => q.1 ≠ p) ++ [(p, data)] }

def rename (s : Store) (old new : Path) : Store :=
  { s with files := s.files.map fun q => if q.1 = old then (new, q.2) else q }

/-- What is listed in a folder: names, and whether each is a file. -/
def list (s : Store) (title : Text) : List (Text × Bool) :=
  (s.files.filterMap fun q =>
    match q.1 with
    | [t, name] => if t = title then some (name, true) else none
    | _ => none) ++
  (s.dirs.filterMap fun p =>
    match p with
    | [t, name] => if t = title then some (name, false) else none
    | _ => none).dedup

end Store

/-! ## Unzipping -/

/-- What the Finder of a Mac adds to a zip. -/
def isFinderNoise (name : Text) : Bool :=
  "__MACOSX/".toList.isPrefixOf name || name = ".DS_Store".toList ||
    "/.DS_Store".toList.isSuffixOf name

/-- Pass 1: the folders at the top, before anything is written. -/
def rootDirs : List ZipEntry → List Text → Res (List Text)
  | [], roots => .ok roots
  | e :: es, roots =>
    if isFinderNoise e.name then rootDirs es roots
    else
      let first := e.name.takeWhile (· ≠ '/')
      if first = [] then rootDirs es roots
      else if '/' ∉ e.name then .error (.rootFile e.name)
      else rootDirs es (if roots.contains first then roots else roots ++ [first])

/-- A segment a path may have; none for one that is left out. -/
def sanitizeSegments : List Text → Path → Option Path
  | [], out => some out
  | seg :: segs, out =>
    if seg = [] ∨ seg = ['.'] then sanitizeSegments segs out
    else if seg = ['.', '.'] then none
    else if '\\' ∈ seg ∨ Char.ofNat 0 ∈ seg then none
    else sanitizeSegments segs (out ++ [seg])

/-- An entry's name as a path that stays under the folder. -/
def sanitizeEntry (name : Text) : Option Path :=
  match sanitizeSegments (name.splitOn '/') [] with
  | none => none
  | some [] => none
  | some out => some out

/-- Pass 2: the entries written, and how many files. -/
def extract : List ZipEntry → Store → Nat → Res (Store × Nat)
  | [], s, count => .ok (s, count)
  | e :: es, s, count =>
    if isFinderNoise e.name then extract es s count
    else match sanitizeEntry e.name with
      | none => .error (.unsafePath e.name)
      | some path =>
        match e.data with
        | none => do
          let s ← s.createDirAll path
          extract es s count
        | some data => do
          let s ← s.createDirAll path.dropLast
          let s ← s.writeFile path data
          extract es s (count + 1)

def unzipStrict (entries : List ZipEntry) (expectedInner : Text) : Res Store := do
  let roots ← rootDirs entries []
  match roots with
  | [root] =>
    if root ≠ expectedInner then .error (.wrongFolder root)
    else do
      let (s, count) ← extract entries ⟨[], []⟩ 0
      if count = 0 then .error .noFiles else return s
  | _ => .error (.notOneFolder roots)

/-! ## The restore -/

/-- Whether a name is one the console has: an image with its prefix, or no image. -/
def keepsName (name : Text) : Bool :=
  imagePrefix.isPrefixOf name || ".bin".toList.isSuffixOf name || decide ('.' ∈ name)

def restoreEntries (title : Text) : List (Text × Bool) → Store → Res Store
  | [], s => .ok s
  | (name, isFile) :: rest, s =>
    if isFile = false then restoreEntries title rest s
    else if keepsName name then restoreEntries title rest s
    else if s.has [title, imagePrefix ++ name] then .error (.bothPresent name)
    else restoreEntries title rest (s.rename [title, name] [title, imagePrefix ++ name])

/-- Bare files of the title's folder get their prefix; `order` is the order of the folder's listing. -/
def restorePrepare (order : List (Text × Bool) → List (Text × Bool)) (title : Text) (s : Store) : Res Store :=
  if [title] ∉ s.dirs then .error (.noFolder title) else restoreEntries title (order (s.list title)) s

end Ps5Upload.SaveArchive
