import Ps5Upload.Fpkg.Exfat.Streams
import Ps5Upload.Lib.Utf16
import Mathlib.Data.Char
import Mathlib.Data.List.Lex

/-!
# exFAT: walking the directories

`parse_dir`, `chain_stream`, `walk_dir` and `walk_tree` of `ps5upload-fpkg/src/exfat.rs`.  The walk
is written for any way to look up a slot and to read a directory (`Access`): with the reader's own it
is the code, with the plain reader's it is what the code is measured against.
-/

namespace Ps5Upload.Exfat

open ByteFile Checked Caching Blocks Utf16

/-! ## The records of a directory -/

/-- A parsed directory entry, before it is turned into a file or a directory. -/
structure Parsed where
  name : Text
  size : Nat
  valid : Nat
  firstCluster : Nat
  noFatChain : Bool
  isDir : Bool
  deriving DecidableEq, Repr

/-- An entry whose records are still being read; the name is in units of UTF-16. -/
structure Pending where
  isDir : Bool
  nameLen : Nat
  name : List Nat
  firstCluster : Nat
  noFatChain : Bool
  size : Nat
  valid : Nat
  deriving DecidableEq, Repr

/-- Junk no package wants, skipped by name at any depth. -/
def isJunk (name : Text) : Bool :=
  let lower := name.map Char.toLower
  [".ds_store".toList, "thumbs.db".toList, "desktop.ini".toList,
    "system volume information".toList, ".fseventsd".toList, ".spotlight-v100".toList,
    ".trashes".toList].contains lower || "._".toList.isPrefixOf name

/-- How errors name the directory a walk is in, from its path and a `/`, or nothing at the root. -/
def dirLabel (under : Text) : String :=
  if under.getLast? = some '/' then s!"directory {text under.dropLast}" else "the root directory"

def units4 (u : Nat) : String :=
  let digits := Nat.toDigits 16 u
  String.ofList (List.replicate (4 - digits.length) '0' ++ digits)

def badName (dir : Text) (why : String) (units : List Nat) : String :=
  dirLabel dir ++ " holds a name that " ++ why ++ " (UTF-16 units " ++
    String.intercalate " " (units.map units4) ++ ")"

/-- The entry a complete set of records makes, if it is one to list. -/
def finish (dir : Text) (p : Pending) : Res (List Parsed) :=
  if 0 ∈ p.name then fail (badName dir "contains a NUL" p.name)
  else if '/'.toNat ∈ p.name then fail (badName dir "contains a '/'" p.name)
  else match fromUtf16 p.name with
    | none => fail (badName dir "is not UTF-16 (an unpaired surrogate)" p.name)
    | some name =>
      if name = [] ∨ name = ['.'] ∨ name = ['.', '.'] ∨ isJunk name = true then return []
      else return [⟨name, p.size, p.valid, p.firstCluster, p.noFatChain, p.isDir⟩]

/-- The 32-byte records of a directory stream, primary, stream and name groups assembled. -/
def parseRecords (dir : Text) : List Bytes → Option Pending → List Parsed → Res (List Parsed)
  | [], _, out => .ok out
  | chunk :: rest, pending, out => do
    let ty ← field chunk 0 1
    if ty = 0x00 then .ok out
    -- unused, or deleted (the InUse bit is cleared)
    else if ty = 0xFF ∨ ty / 0x80 % 2 = 0 then parseRecords dir rest pending out
    else if ty = 0x85 then do
      let attr ← field chunk 4 2
      parseRecords dir rest (some ⟨attr / 0x10 % 2 ≠ 0, 0, [], 0, false, 0, 0⟩) out
    else match pending with
      | none => parseRecords dir rest none out
      | some p =>
        if ty = 0xC0 then do
          let valid ← field chunk 8 8
          let data ← field chunk 24 8
          let nameLen ← field chunk 3 1
          let flags ← field chunk 1 1
          let first ← field chunk 20 4
          -- a zero valid length is taken as "not set"
          parseRecords dir rest (some { p with
            nameLen := nameLen
            noFatChain := flags / 0x02 % 2 ≠ 0
            firstCluster := first
            size := data
            valid := if valid = 0 then data else min valid data }) out
        else if ty = 0xC1 then do
          let body ← slice chunk 2 32
          let name := p.name ++ ((chunks 2 body).map fromLe).take (p.nameLen - p.name.length)
          if p.nameLen ≤ name.length then do
            let done ← finish dir { p with name := name }
            parseRecords dir rest none (out ++ done)
          else parseRecords dir rest (some { p with name := name }) out
        else parseRecords dir rest (some p) out

def parseDir (bytes : Bytes) (dir : Text) : Res (List Parsed) :=
  parseRecords dir (chunks 32 bytes) none []

/-! ## The walk -/

def maxDirBytes : Nat := 64 * 1024 * 1024

def maxEntries : Nat := 1000000

def maxDepth : Nat := 32

/-- The most path bytes a walk keeps. -/
def maxPathBytes : Nat := 256 * 2 ^ 20

/-- The bytes of a text in UTF-8. -/
def utf8Len (t : Text) : Nat := (t.map Char.utf8Size).sum

/-- What a walk collects, and what it has spent of its budgets. -/
structure Walked where
  files : List ExFatFile
  empty : List Text
  dirs : List Nat
  pathBytes : Nat
  listed : Nat

/-- One more kept path, counted against the walk's budgets. -/
def Walked.keep (w : Walked) (path : Text) : Res Walked := do
  let bytes ← add 64 w.pathBytes (utf8Len path)
  if maxPathBytes < bytes then fail "the volume's paths are over 256 MiB"
  else return { w with pathBytes := bytes }

/-- How a walk reaches the image: checks of its own, slots of the table, directory streams. -/
structure Access (m : Type → Type) where
  lift : ∀ {α : Type}, Res α → m α
  link : Nat → m FatLink
  dir : Parsed → Text → m Bytes

section Walk

variable {m : Type → Type} [Monad m] (v : Volume) (r : Access m)

/-- A record that ends the directory: end of entries, or unused. -/
def hasTerminator (cluster : Bytes) : Bool :=
  (chunks 32 cluster).any fun e => e.head? = some 0x00 || e.head? = some 0xFF

def nextContiguous (cluster : Nat) : Res Nat := do
  let next ← add 32 cluster 1
  checkCluster v next
  return next

def readCluster (cluster : Nat) : Res Bytes := do
  let at_ ← clusterOffset v cluster
  readAt v.file at_ v.geom.clusterSize

/-- The root directory's stream: clusters until the entries end or the table ends it. -/
def chainStream : Nat → Nat → Bytes → m Bytes
  | 0, _, _ => r.lift panic
  | turns + 1, cluster, out => do
    let bytes ← r.lift (readCluster v cluster)
    if maxDirBytes ≤ (out ++ bytes).length then
      r.lift (fail "the directory stream is over 64 MiB")
    else do
      match ← r.link cluster with
      | .next next => chainStream turns next (out ++ bytes)
      | .endOfChain => pure (out ++ bytes)
      | .unmaintained =>
        -- a table not maintained says nothing, so the terminator decides
        if hasTerminator bytes then pure (out ++ bytes)
        else do
          let next ← r.lift (nextContiguous v cluster)
          chainStream turns next (out ++ bytes)

/-- The entries of one directory, `inner` walking the directories among them; returns whether
anything was kept. -/
def walkEntries (inner : Bytes → Text → Walked → m (Bool × Walked)) (under : Text) :
    List Parsed → Bool → Walked → m (Bool × Walked)
  | [], kept, w => pure (kept, w)
  | e :: es, _, w =>
    let path := under ++ e.name
    if e.isDir then
      if e.firstCluster ∈ w.dirs then
        r.lift (fail s!"directory {text path} starts at cluster {e.firstCluster}, as another one does")
      else do
        let bytes ← r.dir e path
        let (kept, w) ← inner bytes (path ++ ['/']) { w with dirs := e.firstCluster :: w.dirs }
        if kept then walkEntries inner under es true w
        else do
          let w ← r.lift (w.keep path)
          walkEntries inner under es true { w with empty := w.empty ++ [path] }
    else do
      let heap ← r.lift (mul 64 v.geom.clusterCount v.geom.clusterSize)
      if heap < e.size then
        r.lift (fail s!"{text path} claims {e.size} bytes, more than the volume's {heap}")
      else do
        let w ← r.lift (w.keep path)
        walkEntries inner under es true { w with
          files := w.files ++ [⟨path, e.size, e.valid, e.firstCluster, e.noFatChain⟩] }

/-- Walks one directory, at most `levels` deep. -/
def walkDir : Nat → Bytes → Text → Walked → m (Bool × Walked)
  | 0, _, under, _ => r.lift (fail s!"{text under} nests deeper than {maxDepth} levels")
  | levels + 1, bytes, under, w => do
    let entries ← r.lift (parseDir bytes under)
    let listed ← r.lift (add 64 w.listed entries.length)
    if maxEntries < listed then
      r.lift (fail "the volume holds more than a million files and directories")
    else walkEntries v r (walkDir levels) under entries false { w with listed := listed }

/-- Every file of the volume and the directories left with nothing in them, sorted by path. -/
def walkWith : m (List ExFatFile × List Text) := do
  let bytes ← chainStream v r (maxDirBytes / v.geom.clusterSize + 1) v.rootCluster []
  let (_, w) ← walkDir v r (maxDepth + 1) bytes [] ⟨[], [], [v.rootCluster], 0, 0⟩
  return (w.files.mergeSort fun a b => decide (a.path ≤ b.path),
    w.empty.mergeSort fun a b => decide (a ≤ b))

end Walk

/-- A directory's bytes: its own stream length and its own chain flag, but at least one cluster. -/
def readDirStream (v : Volume) (e : Parsed) (path : Text) : Reading Bytes :=
  if maxDirBytes < max e.size v.geom.clusterSize then
    lift (fail s!"directory {text path} is {max e.size v.geom.clusterSize} bytes")
  else readStream v e.firstCluster e.noFatChain path 0 (max e.size v.geom.clusterSize)

/-- How the reader reaches the image. -/
def readerAccess (v : Volume) : Access Reading := ⟨lift, fatLink v, readDirStream v⟩

def walkTree (v : Volume) : Reading (List ExFatFile × List Text) := walkWith v (readerAccess v)

end Ps5Upload.Exfat
