import Ps5Upload.Fpkg.Exfat.Streams
import Ps5Upload.Lib.BTreeMap
import Ps5Upload.Lib.Utf16
import Mathlib.Data.List.Lex
import Mathlib.Data.List.DropRight
import Mathlib.GroupTheory.GroupAction.Ring

/-!
# exFAT: planning an image

`Tree`, `layout` and `plan_exfat` of `ps5upload-fpkg/src/exfat_write.rs`: a source's files and empty
folders become a tree of nodes, kept in one list and linked by their places in it, and every node gets
its clusters.  The up-case table and the test for composed names are parameters; nothing here depends
on what they hold.
-/

namespace Ps5Upload.Exfat

open ByteFile Checked Caching Blocks Utf16

/-- One file of a source tree. -/
structure SourceFile where
  path : Text
  size : Nat
  deriving DecidableEq, Repr

/-! ## Names -/

def sectorBytes : Nat := 512

/-- Where the table starts, in sectors. -/
def fatOffsetSectors : Nat := 128

def firstHeapCluster : Nat := 2

def fatEnd : Nat := 0xFFFFFFFF

/-- The largest cluster count a volume may declare. -/
def maxClusters : Nat := 0xFFFFFFF5

def entryBytes : Nat := 32

def nameUnitsPerEntry : Nat := 15

def maxNameUnits : Nat := 255

/-- How messages show a character. -/
def debugChar (c : Char) : String :=
  if c = '\t' then "'\\t'" else if c = '\n' then "'\\n'" else if c = '\r' then "'\\r'"
  else if c.toNat = 0 then "'\\0'" else if c = '\\' then "'\\\\'"
  else if c.toNat < 0x20 then "'\\u\x7b" ++ String.ofList (Nat.toDigits 16 c.toNat) ++ "\x7d'"
  else "'" ++ String.ofList [c] ++ "'"

def cannotStore (name : Text) (why : String) : String := s!"\"{text name}\" cannot be stored: {why}"

/-- A character exFAT does not allow in a name. -/
def isForbidden (c : Char) : Bool :=
  c.toNat < 0x20 || c ∈ ['"', '*', '/', ':', '<', '>', '?', '\\', '|']

/-- A name exFAT can hold, as UTF-16. -/
def nameUnits (isNfc : Text → Bool) (name : Text) : Res (List Nat) :=
  let units := encodeUtf16 name
  if units = [] ∨ maxNameUnits < units.length then
    fail (cannotStore name "an exFAT name is 1 to 255 characters")
  else match name.find? isForbidden with
    | some bad => fail (cannotStore name s!"exFAT does not allow {debugChar bad} in a name")
    | none =>
      if isNfc name then .ok units
      else fail (cannotStore name ("the name is decomposed (NFD, usually from a Mac), so " ++
        "the game could not find the file. Rename it, or copy the game from another computer"))

/-- The up-case table expanded, as far as it goes: a run of units that map to themselves is
`0xFFFF` and its length. -/
def expandUpcase : List Nat → List Nat → List Nat
  | [], out => out
  | [u], out => if 0x10000 ≤ out.length then out else out ++ [u]
  | u :: n :: rest, out =>
    if 0x10000 ≤ out.length then out
    else if u = 0xFFFF then
      expandUpcase rest (out ++ List.range' out.length (min n (0x10000 - out.length)))
    else expandUpcase (n :: rest) (out ++ [u])

/-- Upper case of one unit; units past the table's end map to themselves. -/
def upcaseUnit (upcase : Bytes) (u : Nat) : Nat :=
  (expandUpcase ((chunks 2 upcase).map fromLe) [])[u]?.getD u

/-! ## The tree -/

/-- A file or a folder. -/
structure Node where
  name : Text
  units : List Nat
  isDir : Bool
  /-- Path in the source, for a file. -/
  src : Text
  size : Nat
  /-- Children by up-cased name. -/
  children : BTreeMap (List Nat) Nat
  firstCluster : Nat
  clusters : Nat
  deriving DecidableEq

instance : Inhabited Node := ⟨⟨[], [], false, [], 0, ∅, 0, 0⟩⟩

abbrev Tree := List Node

abbrev Building (α : Type) := Act Tree String α

def nodeAt (t : Tree) (i : Nat) : Node := t[i]?.getD default

/-- The places of a folder's children, in the order of their names. -/
def kids (t : Tree) (i : Nat) : List Nat := (nodeAt t i).children.entries.map Prod.snd

section Plan

variable (upcase : Bytes) (isNfc : Text → Bool)

/-- The child of a folder, made if it is not there. -/
def child (parent : Nat) (name : Text) (isDir : Bool) : Building Nat := do
  let units ← lift (nameUnits isNfc name)
  look fun t =>
    match (nodeAt t parent).children.get (units.map (upcaseUnit upcase)) with
    | some at_ =>
      if (nodeAt t at_).isDir ≠ isDir ∨ (nodeAt t at_).name ≠ name then
        lift (fail (s!"\"{text (nodeAt t at_).name}\" and \"{text name}\" differ only by letter case " ++
          "(or one is a folder): exFAT holds one of them"))
      else if isDir = false then lift (fail s!"\"{text name}\" is listed twice")
      else pure at_
    | none => do
      change fun t =>
        (t.modify parent fun n =>
          { n with children := n.children.insert (units.map (upcaseUnit upcase)) t.length }) ++
        [{ (default : Node) with name := name, units := units, isDir := isDir }]
      pure t.length

def dirParts : List Text → Nat → Building Nat
  | [], at_ => pure at_
  | part :: parts, at_ => do
    let next ← child upcase isNfc at_ part true
    dirParts parts next

/-- The components of a path. -/
def components (path : Text) : List Text := (path.splitOn '/').filter (· ≠ [])

def dirFor (path : Text) : Building Nat := dirParts upcase isNfc (components path) 0

def trimSlashes (path : Text) : Text := (path.dropWhile (· = '/')).rdropWhile (· = '/')

/-- A path cut at its last slash. -/
def rsplitOnce (path : Text) : Option (Text × Text) :=
  if '/' ∈ path then
    some (((path.reverse.dropWhile (· ≠ '/')).drop 1).reverse, (path.reverse.takeWhile (· ≠ '/')).reverse)
  else none

/-- A file put into the tree. -/
def placeFile (f : SourceFile) : Building Unit := do
  let path := trimSlashes f.path
  let cut := (rsplitOnce path).getD ([], path)
  let parent ← dirFor upcase isNfc cut.1
  let at_ ← child upcase isNfc parent cut.2 false
  change fun t => t.modify at_ fun n => { n with src := path, size := f.size }

/-- Steps on the tree, with the errors they end in; a step that fails keeps what it did. -/
def placeAll {β : Type} (step : β → Building Unit) (label : β → Text) :
    List β → Tree → List String → Res (Tree × List String)
  | [], t, bad => .ok (t, bad)
  | b :: bs, t, bad =>
    match exec (step b) t with
    | (.ok _, t') => placeAll step label bs t' bad
    | (.error (.error e), t') => placeAll step label bs t' (bad ++ [s!"{text (label b)}: {e}"])
    | (.error .panic, _) => panic

def placeDir (dir : Text) : Building Unit := do
  let _ ← dirFor upcase isNfc (trimSlashes dir)
  pure ()

/-- Bytes of directory entries `dir` needs; the root also carries those of the bitmap and the
up-case table. -/
def dirBytes (t : Tree) (dir : Nat) : Nat :=
  ((kids t dir).map fun c => (2 + (nodeAt t c).units.length ⌈/⌉ nameUnitsPerEntry) * entryBytes).sum +
    if dir = 0 then 2 * entryBytes else 0

/-! ## The layout -/

structure Layout where
  cluster : Nat
  clusterCount : Nat
  fatSectors : Nat
  heapSectors : Nat
  bitmapClusters : Nat
  bitmapBytes : Nat
  upcase : Bytes
  upcaseCluster : Nat
  /-- Directories in the order their clusters are laid down (root first), then files. -/
  dirs : List Nat
  files : List Nat
  deriving DecidableEq

/-- The cluster size of images. -/
def ps5Cluster : Nat := 64 * 1024

/-- The cluster size raised until the data fits the format. -/
def raiseCluster (dataBytes : Nat) : Nat → Nat → Nat
  | 0, size => size
  | turns + 1, size =>
    if maxClusters / 2 < dataBytes / size then raiseCluster dataBytes turns (size * 2) else size

def clusterSizeFor (dataBytes : Nat) : Nat := raiseCluster dataBytes 64 ps5Cluster % 2 ^ 32

/-- Directories in pre-order (a folder before what is inside it), files in the same order. -/
def traverse (t : Tree) : Nat → List Nat → List Nat → List Nat → Res (List Nat × List Nat)
  | _, [], dirs, files => .ok (dirs, files)
  | 0, _ :: _, _, _ => panic
  | turns + 1, at_ :: stack, dirs, files =>
    traverse t turns ((kids t at_).filter (fun k => (nodeAt t k).isDir) ++ stack) (dirs ++ [at_])
      (files ++ (kids t at_).filter fun k => !(nodeAt t k).isDir)

/-- Clusters of the bitmap, which covers every cluster, its own included. -/
def settleBitmap (cluster others : Nat) : Nat → Nat → Res Nat
  | 0, _ => panic
  | turns + 1, bitmap =>
    let need := max (((others + bitmap) ⌈/⌉ 8) ⌈/⌉ cluster) 1
    if need = bitmap then .ok bitmap else settleBitmap cluster others turns need

def fatSectorsFor (count : Nat) : Nat := ((count + 2) * 4) ⌈/⌉ sectorBytes

/-- Where the heap starts, in sectors. -/
def heapFor (cluster count : Nat) : Nat :=
  ((fatOffsetSectors + fatSectorsFor count) ⌈/⌉ (cluster / sectorBytes)) * (cluster / sectorBytes)

/-- Clusters added up to the smallest volume the format allows. -/
def padCount (cluster : Nat) : Nat → Nat → Res Nat
  | 0, _ => panic
  | turns + 1, count =>
    if heapFor cluster count * sectorBytes + count * cluster < 1 * 2 ^ 20 then
      padCount cluster turns (count + 1)
    else .ok count

/-- Cluster numbers handed out in the order things are written. -/
def handOut : List Nat → Nat → Tree → Tree
  | [], _, t => t
  | at_ :: order, next, t =>
    handOut order (next + (nodeAt t at_).clusters)
      (t.modify at_ fun n => { n with firstCluster := if n.clusters = 0 then 0 else next })

/-- Every folder's clusters, its size made whole. -/
def sizeDirs (cluster : Nat) : List Nat → Tree → Tree
  | [], t => t
  | d :: dirs, t =>
    let c := max (dirBytes t d ⌈/⌉ cluster) 1
    sizeDirs cluster dirs (t.modify d fun n => { n with clusters := c, size := c * cluster })

def sizeFiles (cluster : Nat) : List Nat → Tree → Tree
  | [], t => t
  | f :: files, t =>
    sizeFiles cluster files (t.modify f fun n => { n with clusters := n.size ⌈/⌉ cluster })

/-- Clusters of the nodes at some places. -/
def clustersOf (t : Tree) (order : List Nat) : Nat := (order.map fun i => (nodeAt t i).clusters).sum

def sum64 (ns : List Nat) : Res Nat := fold (add 64) 0 ns

def usableCluster (cluster : Nat) : Bool :=
  cluster.isPowerOfTwo && decide (sectorBytes ≤ cluster) && decide (cluster ≤ 32 * 2 ^ 20)

def layout (t : Tree) (clusterOverride : Option Nat) (spare : Nat) : Res (Tree × Layout) := do
  let dataBytes ← sum64 (t.map Node.size)
  let cluster := clusterOverride.getD (clusterSizeFor dataBytes)
  if usableCluster cluster = false then fail s!"{cluster} is not a usable exFAT cluster size"
  else do
    let (dirs, files) ← traverse t (t.length + 1) [0] [] []
    let t := sizeFiles cluster files (sizeDirs cluster dirs t)
    let upcaseClusters := upcase.length ⌈/⌉ cluster
    let used := upcaseClusters + clustersOf t (dirs ++ files)
    let free := spare ⌈/⌉ cluster
    let bitmapClusters ← settleBitmap cluster (used + free) (used + free + 2) 1
    let clusterCount ← padCount cluster (2 ^ 11 + 1) (used + free + bitmapClusters)
    if maxClusters < clusterCount then
      fail s!"{clusterCount} clusters of {cluster} bytes is more than exFAT can address"
    else if bitmapClusters < (clusterCount ⌈/⌉ 8) ⌈/⌉ cluster then
      fail "exFAT bitmap sizing did not settle"
    else
      let upcaseCluster := firstHeapCluster + bitmapClusters
      return (handOut (dirs ++ files) (upcaseCluster + upcaseClusters) t,
        ⟨cluster, clusterCount, fatSectorsFor clusterCount, heapFor cluster clusterCount,
          bitmapClusters, clusterCount ⌈/⌉ 8, upcase, upcaseCluster, dirs, files⟩)

/-! ## The plan -/

/-- An image laid out and checked, before any file data is read. -/
structure ExfatPlan where
  tree : Tree
  l : Layout
  used : Nat
  imageBytes : Nat
  dataBytes : Nat
  freeBytes : Nat
  files : Nat
  directories : Nat
  clusterSize : Nat
  deriving DecidableEq

/-- The most names one error lists; the rest are counted. -/
def nameErrorsShown : Nat := 50

/-- Free space a volume keeps for a read-write mount: 0.5% of the data, 64 to 512 MiB. -/
def spareBytes (dataBytes extra : Nat) : Nat :=
  min (min (max (dataBytes / 200) (64 * 2 ^ 20)) (512 * 2 ^ 20) + extra) (2 ^ 64 - 1)

def badNames (bad : List String) : String :=
  toString bad.length ++ " name" ++ (if bad.length = 1 then "" else "s") ++
    " cannot go into an exFAT image:\n" ++
    String.intercalate "\n" (bad.take nameErrorsShown) ++
    if nameErrorsShown < bad.length then s!"\n… and {bad.length - nameErrorsShown} more" else ""

/-- The tree of a source: its files, then its empty folders, in a root of its own. -/
def buildTree (files : List SourceFile) (emptyDirs : List Text) : Res (Tree × List String) := do
  let (t, bad) ← placeAll (placeFile upcase isNfc) (fun f => trimSlashes f.path) files
    [{ (default : Node) with isDir := true }] []
  placeAll (placeDir upcase isNfc) id emptyDirs t bad

/-- Lays a source out as an image and checks every name, without reading file data. -/
def planExfat (files : List SourceFile) (emptyDirs : List Text) (clusterSize : Option Nat)
    (extraFree : Nat) : Res ExfatPlan := do
  let (t, bad) ← buildTree upcase isNfc files emptyDirs
  if bad ≠ [] then fail (badNames bad)
  else do
    let dataBytes ← sum64 ((t.filter fun n => !n.isDir).map Node.size)
    let (t, l) ← layout upcase t clusterSize (spareBytes dataBytes extraFree)
    let used := l.bitmapClusters + l.upcase.length ⌈/⌉ l.cluster + clustersOf t (l.dirs ++ l.files)
    return ⟨t, l, used, l.heapSectors * sectorBytes + l.clusterCount * l.cluster,
      (l.files.map fun f => (nodeAt t f).size).sum, (l.clusterCount - used) * l.cluster,
      l.files.length, l.dirs.length - 1, l.cluster⟩

end Plan

end Ps5Upload.Exfat
