import Ps5Upload.Lib.Bytes
import Mathlib.Data.List.Perm.Basic

/-!
# Save backups: a folder into a zip

`flatten_wrapper_subdirs`, `backup_finalize` and `zip_folder` of
`ps5upload-core/src/save_archive.rs`.  A folder is a tree whose order is that of its listing; a zip is
the list of its entries.  Calls of the file system succeed; what they are asked to do is checked.
-/

namespace Ps5Upload.SaveArchive

open ByteFile

abbrev Text := List Char

inductive Node where
  | file (data : Bytes)
  | dir (kids : List (Text × Node))

/-- A folder: what is in it, in the order of its listing. -/
abbrev Folder := List (Text × Node)

def Node.isFile : Node → Bool
  | .file _ => true
  | .dir _ => false

def Node.isDir (n : Node) : Bool := !n.isFile

/-- Why a backup or a restore is refused. -/
inductive Refusal where
  | stagingExists
  | flattenCollision (name : Text)
  | cannotStrip (name : Text)
  | rootFile (name : Text)
  | notOneFolder (roots : List Text)
  | wrongFolder (root : Text)
  | unsafePath (name : Text)
  | noFiles
  | noFolder (name : Text)
  | cannotCreate (path : List Text)
  | bothPresent (name : Text)
  deriving DecidableEq, Repr

abbrev Res (α : Type) := Except Refusal α

def sceSys : Text := "sce_sys".toList

def stagingName : Text := ".ps5upload_extract_tmp".toList

def imagePrefix : Text := "sdimg_".toList

def stripPrefix (start t : Text) : Option Text :=
  if start.isPrefixOf t then some (t.drop start.length) else none

def names (kids : Folder) : List Text := kids.map Prod.fst

/-! ## Wrappers -/

def maxDescend : Nat := 8

/-- The folders of a layer that are not `sce_sys`, with what is in them. -/
def subdirs (kids : Folder) : List (Text × Folder) :=
  kids.filterMap fun q =>
    match q.2 with
    | .file _ => none
    | .dir inner => if q.1 = sceSys then none else some (q.1, inner)

/-- The layer that has files, or the last one that is not alone in its layer. -/
def dataLayer : Nat → Folder → Folder
  | 0, kids => kids
  | turns + 1, kids =>
    if kids.any fun q => q.2.isFile then kids
    else match subdirs kids with
      | [(_, inner)] => dataLayer turns inner
      | _ => kids

/-- The entries of a layer moved up, one after another. -/
def moveUp : Folder → Folder → Res Folder
  | [], kids => .ok kids
  | q :: rest, kids =>
    if q.1 ∈ names kids then .error (.flattenCollision q.1) else moveUp rest (kids ++ [q])

/-- Wrapper folders peeled off, where a folder has no files and one folder but `sce_sys`. -/
def flattenWrapperSubdirs (kids : Folder) : Res Folder :=
  if kids.any fun q => q.2.isFile then .ok kids
  else match (subdirs kids).filter (fun q => q.1 ≠ stagingName) with
    | [(wrapper, inner)] => do
      if stagingName ∈ names kids then .error .stagingExists
      else do
        -- the wrapper stands aside under the staging name until it is dropped
        let staged := kids.map fun q => if q.1 = wrapper then (stagingName, q.2) else q
        let moved ← moveUp (dataLayer maxDescend inner) staged
        return moved.filter fun q => q.1 ≠ stagingName
    | _ => .ok kids

/-! ## The backup -/

mutual
def Node.countFiles : Node → Nat
  | .file _ => 1
  | .dir kids => countFilesIn kids
def countFilesIn : Folder → Nat
  | [] => 0
  | (_, n) :: kids => n.countFiles + countFilesIn kids
end

structure Finalized where
  kids : Folder
  keptFiles : Nat
  strippedCount : Nat
  droppedDirs : Nat

/-- Whether a path under the folder is there: an entry, or the folder itself or the one it is in. -/
def pathExists (kids : Folder) (name : Text) : Bool :=
  name ∈ names kids || name ∈ [[], ['.'], ['.', '.']]

def rename (old new : Text) (kids : Folder) : Folder :=
  kids.map fun q => if q.1 = old then (new, q.2) else q

/-- What becomes of a file: an image whose first byte says PS4 loses its prefix. -/
def finalizeFile (name : Text) (data : Bytes) (f : Finalized) : Res Finalized :=
  match stripPrefix imagePrefix name with
  | some rest =>
    if data.head? = some 1 then
      if pathExists f.kids rest then .error (.cannotStrip rest)
      else .ok { f with
        kids := rename name rest f.kids
        strippedCount := f.strippedCount + 1
        keptFiles := f.keptFiles + 1 }
    else .ok { f with keptFiles := f.keptFiles + 1 }
  | none => .ok { f with keptFiles := f.keptFiles + 1 }

def finalizeEntries : Folder → Finalized → Res Finalized
  | [], f => .ok f
  | (name, .dir inner) :: rest, f =>
    if name = sceSys then
      finalizeEntries rest { f with keptFiles := f.keptFiles + countFilesIn inner }
    else finalizeEntries rest { f with
      kids := f.kids.filter fun q => q.1 ≠ name
      droppedDirs := f.droppedDirs + 1 }
  | (name, .file data) :: rest, f => do
    let f ← finalizeFile name data f
    finalizeEntries rest f

def backupFinalize (kids : Folder) : Res Finalized := do
  let kids ← flattenWrapperSubdirs kids
  finalizeEntries kids ⟨kids, 0, 0, 0⟩

/-! ## The zip -/

/-- An entry of a zip; a folder's has no data. -/
structure ZipEntry where
  name : Text
  data : Option Bytes
  deriving DecidableEq, Repr

mutual
def Node.addRecursive (rel : Text) : Node → List ZipEntry
  | .file data => [⟨rel, some data⟩]
  | .dir kids => ⟨rel ++ ['/'], none⟩ :: addAll rel kids
/-- The entries of a folder's kids, each under the folder's path. -/
def addAll (rel : Text) : Folder → List ZipEntry
  | [] => []
  | (name, n) :: kids => n.addRecursive (rel ++ '/' :: name) ++ addAll rel kids
end

/-- The zip of a folder under one name. -/
def zipFolder (innerRoot : Text) (kids : Folder) : List ZipEntry := (Node.dir kids).addRecursive innerRoot

/-! ## What the backup keeps -/

/-- Whether a file loses its prefix. -/
def stripped (name : Text) (data : Bytes) : Bool :=
  imagePrefix.isPrefixOf name && data.head? = some 1

/-- A file's name in the backup. -/
def backupName (name : Text) : Node → Text
  | .file data => if stripped name data then name.drop imagePrefix.length else name
  | .dir _ => name

/-- **What becomes of one file.** -/
theorem finalizeFile_spec {name : Text} {data : Bytes} {f g : Finalized}
    (h : finalizeFile name data f = .ok g) :
    (stripped name data = false ∧ g.kids = f.kids) ∨
    (stripped name data = true ∧ pathExists f.kids (name.drop imagePrefix.length) = false ∧
      g.kids = rename name (name.drop imagePrefix.length) f.kids) := by
  unfold finalizeFile stripPrefix at h
  by_cases hpre : imagePrefix.isPrefixOf name = true
  · rw [if_pos hpre] at h
    dsimp only at h
    split at h
    · rename_i hbyte
      split at h
      · cases h
      · rename_i hfree
        cases h
        exact .inr ⟨by rw [stripped, hpre, hbyte]; rfl, Bool.eq_false_iff.2 hfree, rfl⟩
    · rename_i hbyte
      cases h
      exact .inl ⟨by rw [stripped, hpre, decide_eq_false hbyte]; rfl, rfl⟩
  · rw [if_neg hpre] at h
    cases h
    exact .inl ⟨by rw [stripped, Bool.eq_false_iff.2 hpre]; rfl, rfl⟩

/-- A downloaded folder: files, and at most a folder `sce_sys`. -/
def Downloaded (kids : Folder) : Prop := ∀ q ∈ kids, q.2.isDir = true → q.1 = sceSys

theorem flatten_downloaded {kids : Folder} (h : Downloaded kids) : flattenWrapperSubdirs kids = .ok kids := by
  have hnone : subdirs kids = [] := List.filterMap_eq_nil_iff.2 fun q hq => by
    obtain ⟨name, n⟩ := q
    cases n with
    | file data => rfl
    | dir inner => exact if_pos (h _ hq rfl)
  unfold flattenWrapperSubdirs
  split
  · rfl
  · rw [hnone]
    rfl

/-- A folder under the names of its backup. -/
def backedUp (kids : Folder) : Folder := kids.map fun q => (backupName q.1 q.2, q.2)

theorem rename_middle {a b : Folder} {name new : Text} {n : Node}
    (hn : (names (a ++ (name, n) :: b)).Nodup) :
    rename name new (a ++ (name, n) :: b) = a ++ (new, n) :: b := by
  rw [names, List.map_append, List.map_cons] at hn
  obtain ⟨-, hb, hab⟩ := List.nodup_append.1 hn
  have hother : ∀ l : Folder, (∀ q ∈ l, q.1 ≠ name) → rename name new l = l := fun l hl =>
    (List.map_congr_left fun q hq => if_neg (hl q hq)).trans (List.map_id l)
  have ha : rename name new a = a := hother a fun q hq heq =>
    hab q.1 (List.mem_map_of_mem hq) name List.mem_cons_self heq
  have hb' : rename name new b = b := hother b fun q hq heq =>
    (List.nodup_cons.1 hb).1 (List.mem_map.2 ⟨q, hq, heq⟩)
  have happend : rename name new (a ++ (name, n) :: b) =
      rename name new a ++ (new, n) :: rename name new b := by
    rw [rename, List.map_append, List.map_cons, if_pos rfl]
    rfl
  rw [happend, ha, hb']

theorem nodup_replace {a b : List Text} {old new : Text} (hn : (a ++ old :: b).Nodup)
    (hnew : new ∉ a ++ old :: b) : (a ++ new :: b).Nodup := by
  have hperm : ∀ x, (a ++ x :: b).Perm (x :: (a ++ b)) := fun x => List.perm_middle
  rw [(hperm old).nodup_iff] at hn
  rw [(hperm new).nodup_iff]
  rw [(hperm old).mem_iff] at hnew
  exact List.nodup_cons.2 ⟨fun h => hnew (List.mem_cons_of_mem old h), (List.nodup_cons.1 hn).2⟩

theorem finalizeEntries_ok {todo : Folder} (hd : Downloaded todo) {done : Folder} {f r : Finalized}
    (hf : f.kids = backedUp done ++ todo) (hn : (names f.kids).Nodup)
    (h : finalizeEntries todo f = .ok r) :
    r.kids = backedUp (done ++ todo) ∧ (names r.kids).Nodup ∧
      ∀ q ∈ todo, backupName q.1 q.2 = q.1 ∨ backupName q.1 q.2 ∉ [[], ['.'], ['.', '.']] := by
  induction todo generalizing done f with
  | nil =>
    cases h
    rw [List.append_nil] at hf ⊢
    exact ⟨hf, hn, nofun⟩
  | cons q todo ih =>
    have hd' : Downloaded todo := fun q hq => hd q (List.mem_cons_of_mem _ hq)
    have hsplit : done ++ q :: todo = (done ++ [q]) ++ todo := List.append_cons ..
    -- the entry is looked at, and keeps its name or gets another
    have next : ∀ {g : Finalized}, g.kids = backedUp done ++ (backupName q.1 q.2, q.2) :: todo →
        (names g.kids).Nodup →
        (backupName q.1 q.2 = q.1 ∨ backupName q.1 q.2 ∉ [[], ['.'], ['.', '.']]) →
        finalizeEntries todo g = .ok r → r.kids = backedUp (done ++ q :: todo) ∧ (names r.kids).Nodup ∧
          ∀ p ∈ q :: todo, backupName p.1 p.2 = p.1 ∨ backupName p.1 p.2 ∉ [[], ['.'], ['.', '.']] := by
      intro g hg hgn hq hr
      rw [hsplit]
      obtain ⟨hkids, hnodup, hall⟩ := @ih hd' (done ++ [q]) g (by
        rw [hg, backedUp, backedUp, List.map_append, List.append_assoc]
        rfl) hgn hr
      refine ⟨hkids, hnodup, fun p hp => ?_⟩
      rcases List.mem_cons.1 hp with rfl | hp
      · exact hq
      · exact hall p hp
    obtain ⟨name, n⟩ := q
    cases n with
    | dir inner =>
      rw [finalizeEntries, if_pos (hd _ List.mem_cons_self rfl)] at h
      exact @next { f with keptFiles := f.keptFiles + countFilesIn inner } hf hn (.inl rfl) h
    | file data =>
      rw [finalizeEntries] at h
      cases hfile : finalizeFile name data f with
      | error e =>
        rw [hfile] at h
        cases h
      | ok g =>
        rw [hfile] at h
        rcases finalizeFile_spec hfile with ⟨hkeep, hg⟩ | ⟨hstrip, hfree, hg⟩
        · have hname : backupName name (.file data) = name := by
            rw [backupName, hkeep]
            rfl
          refine next ?_ (by rw [hg]; exact hn) (.inl hname) h
          rw [hg, hf, hname]
        · have hname : backupName name (.file data) = name.drop imagePrefix.length := by
            rw [backupName, hstrip]
            rfl
          rw [pathExists, Bool.or_eq_false_iff, decide_eq_false_iff_not, decide_eq_false_iff_not] at hfree
          rw [hf] at hn hfree hg
          rw [rename_middle hn] at hg
          refine next (hname ▸ hg) ?_ (.inr (hname ▸ hfree.2)) h
          rw [hg, names, List.map_append, List.map_cons]
          rw [names, List.map_append, List.map_cons] at hn hfree
          exact nodup_replace hn hfree.1

/-- **What a backup keeps of a downloaded folder**: everything, under names that still differ and that
are names. -/
theorem backupFinalize_ok {kids : Folder} (hd : Downloaded kids) (hn : (names kids).Nodup) {r : Finalized}
    (h : backupFinalize kids = .ok r) :
    r.kids = backedUp kids ∧ (names r.kids).Nodup ∧
      ∀ q ∈ kids, backupName q.1 q.2 = q.1 ∨ backupName q.1 q.2 ∉ [[], ['.'], ['.', '.']] := by
  rw [backupFinalize, flatten_downloaded hd] at h
  exact @finalizeEntries_ok kids hd [] _ r rfl hn h

end Ps5Upload.SaveArchive
