import Ps5Upload.Fpkg.Inner.Flt
import Ps5Upload.Lib.Blocks
import Ps5Upload.Lib.Checked
import Ps5Upload.Lib.Forest
import Mathlib.Data.List.Lex
import Mathlib.Data.Char

/-!
# The plan of an inner image

`build_tree` of `plan.rs`: the source's files and empty folders become a tree of directories, every node
gets an inode and every file a place, packed in the mount and on a boundary of its own in the image, and
every structure of the metadata region gets its span.  Nothing is read for it.

* `ensureDir`, `buildDirs` — the tree, kept in one list and linked by places in it;
* `preOrder`, `postOrder`, `afidOrder` — the orders everything is numbered in;
* `layFiles` — where the files go;
* `buildTree` — the plan.
-/

namespace Ps5Upload.Inner

open Blocks ByteFile Checked Utf8

/-! ## Constants -/

/-- `BLOCK` -/
def block : Nat := 0x10000

/-- `KEYSTONE` -/
def keystonePath : Text := "sce_sys/keystone".toList

def keystoneLen : Nat := 96

/-- `FILE_ALIGN` -/
def fileAlign : Nat := 0x10000

def metaAlign : Nat := 0x40000

def compressedMetaGap : Nat := 0x400000

def ublock : Nat := 0x40000

def maxStartsPerUblock : Nat := 16

def inodeFltInode : Nat := 1
def aprFltInode : Nat := 2
def afidTableInode : Nat := 3
def firstDirInode : Nat := 4

/-- A `u64` sum or product, which wraps in a release build. -/
def wrap (n : Nat) : Nat := n % 2 ^ 64

/-- The kinds of directory entries. -/
inductive Dirent where
  | file | dir | dot | dotdot
  deriving DecidableEq, Repr

/-- `DIRENT_FILE` and the others. -/
def Dirent.code : Dirent → Nat
  | .file => 2
  | .dir => 3
  | .dot => 4
  | .dotdot => 5

/-! ## Paths -/

/-- `rsplit_once('/')` -/
def rsplitOnce (t : Text) : Option (Text × Text) :=
  if '/' ∈ t then
    some ((t.reverse.dropWhile (· ≠ '/')).tail.reverse, (t.reverse.takeWhile (· ≠ '/')).reverse)
  else none

/-- The folder of a path; a path without a slash is at the top. -/
def parentPath (path : Text) : Text := ((rsplitOnce path).map Prod.fst).getD []

/-- `file_name` -/
def fileName (path : Text) : Text := ((rsplitOnce path).map Prod.snd).getD path

/-- `trim_matches('/')` -/
def trimSlashes (t : Text) : Text :=
  ((t.dropWhile (· = '/')).reverse.dropWhile (· = '/')).reverse

/-- A path and what stands before each of its slashes, longest first. -/
def slashPrefixes (path : Text) : List Text :=
  path :: ((List.range path.length).reverse.filter fun i => path[i]? = some '/').map path.take

/-! ## The pieces of a plan -/

/-- One file of the source. -/
structure SourceFile where
  path : Text
  size : Nat
  deriving DecidableEq, Repr

structure PlannedFile where
  path : Text
  size : Nat
  inode : Nat
  afid : Nat
  logicalOffset : Nat
  /-- Where the file sits in the image. -/
  onDiskOffset : Nat
  parentInode : Nat
  direntOffset : Int
  sceSys : Bool
  /-- The keystone this build generated. -/
  generated : Bool
  module : Bool
  deriving DecidableEq, Repr

structure PlannedDir where
  path : Text
  inode : Nat
  parentInode : Int
  direntOffset : Int
  nlink : Nat
  dirents : List (Text × Nat × Dirent)
  deriving DecidableEq, Repr

/-- Where each structure of the metadata region lands, with its length. -/
structure MetadataLayout where
  inodeTable : Nat × Nat
  superRoot : Nat × Nat
  flt : Nat × Nat
  fltApr : Nat × Nat
  afid : Nat × Nat
  dirs : List (Nat × Nat)
  blocks : Nat
  deriving DecidableEq, Repr

structure Plan where
  dirs : List PlannedDir
  files : List PlannedFile
  /-- Places in `files`, in afid order. -/
  afidOrder : List Nat
  fltInode : List (Word × Word)
  fltApr : List (Word × Word)
  afidToIno : List Int
  firstFileInode : Nat
  dataEnd : Nat
  metaBase : Nat
  ndblock : Nat
  metadataBlocks : Nat
  metadata : MetadataLayout
  contentInodes : Nat
  appFileCount : Nat

structure DirNode where
  path : Text
  name : Text
  parent : Option Nat
  subdirs : List Nat
  files : List Nat
  inode : Nat
  direntOffset : Int
  nlink : Nat
  deriving DecidableEq, Repr

instance : Inhabited DirNode := ⟨⟨[], [], none, [], [], 0, -1, 1⟩⟩

instance : Inhabited PlannedFile := ⟨⟨[], 0, 0, 0, 0, 0, 0, -1, false, false, false⟩⟩

/-! ## The files -/

/-- `path.starts_with("sce_sys/")` -/
def underSceSys (path : Text) : Bool := "sce_sys/".toList <+: path

/-- A file before anything is decided about it. -/
def newFile (path : Text) (size : Nat) (generated : Bool) : PlannedFile :=
  { path, size, inode := 0, afid := 0, logicalOffset := 0, onDiskOffset := 0, parentInode := 0,
    direntOffset := -1, sceSys := underSceSys path, generated, module := false }

/-- The source's files, with a keystone if there is none, by their paths. -/
def collectFiles (input : List SourceFile) : List PlannedFile :=
  let files := input.map fun f => newFile f.path f.size false
  let files := if files.any (·.path = keystonePath) then files
    else files ++ [newFile keystonePath keystoneLen true]
  files.insertionSort fun a b => a.path ≤ b.path

/-- The loop over the prefixes of the paths; `seen` maps an upper-case prefix to the one it stands for. -/
def checkCase : List Text → List (Text × Text) → Except String Unit
  | [], _ => .ok ()
  | p :: ps, seen =>
    match seen.lookup (upper p) with
    | some other =>
      if other ≠ p then
        .error (String.ofList other ++ " and " ++ String.ofList p ++
          " differ only by letter case, which the image cannot tell apart")
      else checkCase ps seen
    | none => checkCase ps ((upper p, p) :: seen)

/-! ## The tree -/

def nodeAt (dirs : List DirNode) (d : Nat) : DirNode := dirs[d]?.getD default

/-- A new directory in `parent`. -/
def pushDir (dirs : List DirNode) (path : Text) (parent : Nat) : List DirNode :=
  dirs.modify parent (fun d => { d with subdirs := d.subdirs ++ [dirs.length] }) ++
    [{ path, name := fileName path, parent := some parent, subdirs := [], files := [], inode := 0,
       direntOffset := -1, nlink := 1 }]

/-- `ensure_dir` of the first path; the others are the folders above it. -/
def ensureDirs : List Text → List DirNode → List DirNode × Nat
  | [], dirs => (dirs, 0)
  | path :: up, dirs =>
    match dirs.findIdx? (·.path = path) with
    | some i => (dirs, i)
    | none =>
      let (dirs, parent) := ensureDirs up dirs
      (pushDir dirs path parent, dirs.length)

/-- `ensure_dir` -/
def ensureDir (path : Text) (dirs : List DirNode) : List DirNode × Nat :=
  ensureDirs (slashPrefixes path) dirs

def uroot : DirNode :=
  { path := [], name := "uroot".toList, parent := none, subdirs := [], files := [], inode := 0,
    direntOffset := -1, nlink := 1 }

/-- The loop over the files, numbered from `fi`. -/
def placeFiles : List Text → Nat → List DirNode → List DirNode
  | [], _, dirs => dirs
  | path :: paths, fi, dirs =>
    let (dirs, di) := if parentPath path = [] then (dirs, 0) else ensureDir (parentPath path) dirs
    placeFiles paths (fi + 1) (dirs.modify di fun d => { d with files := d.files ++ [fi] })

/-- The loop over the empty folders. -/
def placeEmpty : List Text → List DirNode → List DirNode
  | [], dirs => dirs
  | path :: paths, dirs =>
    if trimSlashes path = [] then placeEmpty paths dirs
    else placeEmpty paths (ensureDir (trimSlashes path) dirs).1

/-- Subdirectories by name and files by path, in every directory. -/
def sortDirs (dirs : List DirNode) (paths : List Text) : List DirNode :=
  dirs.map fun d =>
    { d with
      subdirs := d.subdirs.insertionSort fun a b => (nodeAt dirs a).name ≤ (nodeAt dirs b).name
      files := d.files.insertionSort fun a b => paths[a]?.getD [] ≤ paths[b]?.getD [] }

/-- The whole tree. -/
def buildDirs (paths : List Text) (emptyDirs : List Text) : List DirNode :=
  sortDirs (placeEmpty emptyDirs (placeFiles paths 0 [uroot])) paths

/-- The directories below one, and the one above it. -/
def subdirsOf (dirs : List DirNode) (d : Nat) : List Nat := (nodeAt dirs d).subdirs

def parentOf (dirs : List DirNode) (d : Nat) : Option Nat := (nodeAt dirs d).parent

/-- `pre_order`; the first number bounds the depth. -/
def preOrder (dirs : List DirNode) : Nat → Nat → List Nat := Forest.preOrder (subdirsOf dirs)

/-- `post_order` -/
def postOrder (dirs : List DirNode) : Nat → Nat → List Nat := Forest.postOrder (subdirsOf dirs)

/-- `is_under`; the number bounds the way up. -/
def isUnder (dirs : List DirNode) : Nat → Nat → Nat → Bool := Forest.isUnder (parentOf dirs)

/-! ## The orders -/

def filesOf (dirs : List DirNode) (d : Nat) : List Nat := (nodeAt dirs d).files

/-- Files in afid order: those of `sce_sys` and below first. -/
def sceSysFirst (dirs : List DirNode) (dirsPre : List Nat) : List Nat :=
  match dirsPre.find? fun d => (nodeAt dirs d).path = "sce_sys".toList with
  | some sd =>
    (preOrder dirs dirs.length sd).flatMap (filesOf dirs) ++
      (dirsPre.filter fun d => !(d = sd || isUnder dirs sd dirs.length d)).flatMap (filesOf dirs)
  | none => dirsPre.flatMap (filesOf dirs)

/-- The keystone opens the layout. -/
def afidOrder (dirs : List DirNode) (dirsPre : List Nat) (paths : List Text) : List Nat :=
  let order := sceSysFirst dirs dirsPre
  match order.findIdx? fun fi => paths[fi]?.getD [] = keystonePath with
  | some pos => order[pos]?.toList ++ order.eraseIdx pos
  | none => order

/-- The loops that number directories and files. -/
def numberDirs : List Nat → Nat → List DirNode → List DirNode
  | [], _, dirs => dirs
  | d :: ds, next, dirs => numberDirs ds (next + 1) (dirs.modify d ({ · with inode := next }))

def numberFiles (field : Nat → PlannedFile → PlannedFile) :
    List Nat → Nat → List PlannedFile → List PlannedFile
  | [], _, files => files
  | fi :: fis, next, files => numberFiles field fis (next + 1) (files.modify fi (field next))

/-! ## Places -/

/-- What the layout loop carries: the two cursors, the ublock with the files started in it, and where
the last file started. -/
structure Laying where
  files : List PlannedFile
  cursor : Nat
  onDisk : Nat
  starts : Nat × Nat
  lastStart : Option Nat

/-- One turn of the layout loop. -/
def layFile (dirs : List DirNode) (spread : Bool) (s : Laying) (fi : Nat) : Except String Laying :=
  let f := s.files[fi]?.getD default
  let cursor := match s.lastStart with
    | some prev => if spread ∧ s.cursor / 16 = prev / 16 then wrap ((prev / 16 + 1) * 16) else s.cursor
    | none => s.cursor
  let starts := if s.starts.1 ≠ cursor / ublock then (cursor / ublock, 0) else s.starts
  let starts := if 0 < f.size then (starts.1, starts.2 + 1) else starts
  match dirs.findIdx? (·.path = parentPath f.path) with
  | none => .error ("no directory for " ++ String.ofList f.path)
  | some p =>
    let next := wrap (cursor + f.size)
    let onDisk := wrap (alignUp (wrap (s.onDisk + f.size)) fileAlign)
    let spaced := if spread ∧ 0 < f.size ∧ maxStartsPerUblock ≤ starts.2 ∧ next / ublock = starts.1 ∧
      wrap (alignUp next ublock) ≤ onDisk then wrap (alignUp next ublock) else next
    .ok
      { files := s.files.modify fi fun f =>
          { f with
            logicalOffset := cursor
            onDiskOffset := s.onDisk
            parentInode := (nodeAt dirs p).inode }
        cursor := spaced
        onDisk
        starts
        lastStart := some cursor }

/-- The layout loop. -/
def layFiles (dirs : List DirNode) (spread : Bool) : List Nat → Laying → Except String Laying
  | [], s => .ok s
  | fi :: fis, s =>
    match layFile dirs spread s fi with
    | .error e => .error e
    | .ok s => layFiles dirs spread fis s

/-! ## Directory entries -/

/-- `dirent_size` -/
def direntSize (name : Text) : Int := ((size name : Int) + 17 + 7) / 8 * 8

/-- `dirent_extents`: `(offset, stored size)` of each entry, none of which crosses into a next block. -/
def direntExtents : List Text → Int → List (Int × Int) → List (Int × Int)
  | [], _, out => out
  | name :: names, offset, out =>
    let room := block - offset % block
    let (offset, out) := if offset % block ≠ 0 ∧ room < direntSize name then
        (offset + room, out.dropLast ++ (out.getLast?.map fun e => (e.1, e.2 + room)).toList)
      else (offset, out)
    direntExtents names (offset + direntSize name) (out ++ [(offset, direntSize name)])

/-- A directory's entries in on-disk order. -/
def direntsOf (dirs : List DirNode) (files : List PlannedFile) (d : Nat) :
    List (Text × Nat × Dirent) :=
  let node := nodeAt dirs d
  let up := match node.parent with
    | some p => (nodeAt dirs p).inode
    | none => node.inode
  [(['.'], node.inode, .dot), (['.', '.'], up, .dotdot)] ++
    node.subdirs.map (fun sd => ((nodeAt dirs sd).name, (nodeAt dirs sd).inode, .dir)) ++
    node.files.map fun fi =>
      (fileName (files[fi]?.getD default).path, (files[fi]?.getD default).inode, .file)

/-- The children's offsets go back into their records. -/
def setDirOffsets : List Nat → List (Int × Int) → List DirNode → List DirNode
  | d :: ds, (at', _) :: es, dirs => setDirOffsets ds es (dirs.modify d ({ · with direntOffset := at' }))
  | _, _, dirs => dirs

def setFileOffsets : List Nat → List (Int × Int) → List PlannedFile → List PlannedFile
  | fi :: fis, (at', _) :: es, files =>
    setFileOffsets fis es (files.modify fi ({ · with direntOffset := at' }))
  | _, _, files => files

/-- The loop over the directories, in pre-order. -/
def planDirs : List Nat → List DirNode → List PlannedFile → List PlannedDir →
    List DirNode × List PlannedFile × List PlannedDir
  | [], dirs, files, out => (dirs, files, out)
  | d :: ds, dirs, files, out =>
    let node := nodeAt dirs d
    let dirents := direntsOf dirs files d
    let extents := direntExtents (dirents.map Prod.fst) 0 []
    let nlink := 2 + node.subdirs.length + (if node.parent.isNone then 1 else 0)
    let planned : PlannedDir :=
      { path := node.path
        inode := node.inode
        parentInode := (node.parent.map fun p => ((nodeAt dirs p).inode : Int)).getD (-1)
        direntOffset := node.direntOffset
        nlink
        dirents }
    let files := setFileOffsets node.files (extents.drop (2 + node.subdirs.length)) files
    let dirs := setDirOffsets node.subdirs (extents.drop 2) dirs
    planDirs ds (dirs.modify d ({ · with nlink })) files (out ++ [planned])

/-! ## Tables and geometry -/

/-- `PlannedDir::sce_sys` -/
def PlannedDir.sceSys (d : PlannedDir) : Bool := d.path = "sce_sys".toList || underSceSys d.path

/-- The inode flat-path table's entries. -/
def fltInodeEntries (dirs : List PlannedDir) (files : List PlannedFile) : List (Word × Word) :=
  (dirs.drop 1).map (fun d => (hashPath d.path, packInodeEntry d.inode true d.sceSys 0)) ++
    files.map fun f => (hashPath f.path,
      packInodeEntry f.inode false f.sceSys f.afid ||| (if f.size = 0 then flagEmpty else 0))

/-- The apr flat-path table's entries. -/
def fltAprEntries (files : List PlannedFile) : List (Word × Word) :=
  (files.filter fun f => !f.sceSys).map fun f => (hashPath f.path, packAprEntry f.size f.afid)

/-- The afid table: the number of the words after the first one, the inodes, and two marks. -/
def afidTable (files : List PlannedFile) (order : List Nat) : List Int :=
  (order.length + 2 : Int) :: order.map (fun fi => ((files[fi]?.getD default).inode : Int)) ++ [-1, -1]

/-- `super_root_dirents` -/
def superRootDirents : List (Text × Nat × Dirent) :=
  [("inode_flat_path_table".toList, inodeFltInode, .file),
    ("apr_flat_path_table".toList, aprFltInode, .file),
    ("afid_to_ino_table".toList, afidTableInode, .file), ("uroot".toList, firstDirInode, .dir)]

/-- The lower `8 * width` bits of an integer. -/
def leInt (width : Nat) (n : Int) : Bytes := le width (n % 256 ^ width).toNat

/-- `dirents_bytes` -/
def direntsBytes (dirents : List (Text × Nat × Dirent)) : Bytes :=
  (dirents.zip (direntExtents (dirents.map Prod.fst) 0 [])).flatMap fun (d, e) =>
    le 4 d.2.1 ++ le 4 d.2.2.code ++ le 4 (size d.1) ++ leInt 4 e.2 ++ bytes d.1 ++
      List.replicate (e.2.toNat - 16 - size d.1) 0

/-- `INODES_PER_BLOCK` -/
def inodesPerBlock : Nat := 390

/-- `inode_table_len` -/
def inodeTableLen (count : Nat) : Nat := max ((count + (inodesPerBlock - 1)) / inodesPerBlock) 1 * block

/-- Structures one after the other, each on a block of its own: their spans and where they end. -/
def placeSpans : List Nat → Nat → List (Nat × Nat) × Nat
  | [], at' => ([], at')
  | bytes :: rest, at' =>
    let (spans, stop) := placeSpans rest (wrap (at' + alignUp bytes block))
    ((at', bytes) :: spans, stop)

/-- `PFS_VERSION_DAT` -/
def pfsVersionDat : Text := "pfs-version.dat".toList

/-- `position`: where each file stands in inode order. -/
def positions : List Nat → Nat → List Nat → List Nat
  | [], _, position => position
  | old :: rest, new, position => positions rest (new + 1) (position.set old new)

/-- The base of the metadata region. -/
def metaBaseOf (files : List PlannedFile) (dataEnd : Nat) (spread : Bool) : Nat :=
  if spread then
    wrap ((files.map fun f => wrap (f.logicalOffset + f.size)).max?.getD 0 + compressedMetaGap) / metaAlign *
      metaAlign
  else wrap (alignUp (wrap (dataEnd + block)) metaAlign)

/-- Everything after the layout: directory entries, tables and geometry. -/
def finishPlan (dirs : List DirNode) (dirsPre fileOrder order : List Nat) (s : Laying) (spread : Bool) :
    Plan :=
  let (_, files, planned) := planDirs dirsPre dirs s.files []
  let position := positions fileOrder 0 (List.replicate files.length 0)
  let files := fileOrder.map fun old => files[old]?.getD default
  let order := order.map fun old => position[old]?.getD 0
  let fltInode := fltInodeEntries planned files
  let fltApr := fltAprEntries files
  let afidToIno := afidTable files order
  let metaBase := metaBaseOf files s.onDisk spread
  let tableBytes := inodeTableLen (4 + planned.length + files.length)
  let (spans, at') := placeSpans (tableBytes :: (direntsBytes superRootDirents).length ::
    (fltBytes fltInode).length :: (fltBytes fltApr).length :: (afidToIno.length * 4) ::
    planned.map fun d => (direntsBytes d.dirents).length) (wrap (metaBase + block))
  let span (i : Nat) := spans[i]?.getD (0, 0)
  let metadataBlocks := wrap (at' + (2 ^ 64 - metaBase)) / block + 1
  { dirs := planned
    files
    afidOrder := order
    fltInode
    fltApr
    afidToIno
    firstFileInode := firstDirInode + dirs.length
    dataEnd := s.onDisk
    metaBase
    ndblock := metaBase / block + metadataBlocks
    metadataBlocks
    metadata := ⟨span 0, span 1, span 2, span 3, span 4, spans.drop 5, metadataBlocks⟩
    contentInodes := files.length + dirs.length - 1
    appFileCount := (files.filter fun f => !f.sceSys && fileName f.path ≠ pfsVersionDat).length }

/-- `build_tree` -/
def buildTree (input : List SourceFile) (emptyDirs : List Text) (spread : Bool) : Except String Plan := do
  let files := collectFiles input
  if files = [] then throw "the source tree has no files"
  let paths := files.map (·.path)
  checkCase ((paths ++ emptyDirs.map trimSlashes).flatMap slashPrefixes) []
  let dirs := buildDirs paths emptyDirs
  let dirsPre := preOrder dirs dirs.length 0
  let fileOrder := (postOrder dirs dirs.length 0).flatMap (filesOf dirs)
  let order := afidOrder dirs dirsPre paths
  let dirs := numberDirs dirsPre firstDirInode dirs
  let files := numberFiles (fun n f => { f with inode := n }) fileOrder (firstDirInode + dirs.length) files
  let files := numberFiles (fun n f => { f with afid := n }) order 0 files
  let s ← layFiles dirs spread order ⟨files, 0, 0, (0, 0), none⟩
  return finishPlan dirs dirsPre fileOrder order s spread

end Ps5Upload.Inner
