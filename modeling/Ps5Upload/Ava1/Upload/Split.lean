import Ps5Upload.Lib.BTreeMap
import Ps5Upload.Lib.Bytes
import Ps5Upload.Lib.ListAt
import Mathlib.Data.List.DropRight
import Mathlib.Data.List.Infix
import Mathlib.Data.Char
import Mathlib.Data.List.Lex
import Mathlib.Data.List.TakeWhile

/-!
# File lists in several directories

`place_list_path`, `split_list` and `group_job_id` of `ps5upload-ava1/src/upload.rs`.  A list whose files
go to several directories is cut into one group for its root and one for each other directory.  Paths are
texts, read as `std::path` reads them: by components, without empty ones and without `.`.

* `placeListPath_joins` — a file's root and the path below it are its destination;
* `splitList_covers` — the groups hold each file once, under roots that are all different;
* `jobIds_nodup` — no two groups have one job id.
-/

namespace Ps5Upload.Upload

open ByteFile

abbrev Text := List Char

/-! ## Paths -/

/-- A component that says nothing. -/
def isBlank (seg : Text) : Bool := seg = [] || seg = ['.']

/-- The components of a path, and whether it starts at the root. -/
def components (p : Text) : Bool × List Text :=
  (p.head? = some '/', (p.splitOn '/').filter fun seg => !isBlank seg)

/-- What is left of the segments of a path behind some of its components. -/
def dropComponents : Nat → List Text → List Text
  | 0, segs => segs.dropWhile isBlank
  | n + 1, segs => dropComponents n (segs.dropWhile isBlank).tail

def trimRight (segs : List Text) : List Text := (segs.reverse.dropWhile isBlank).reverse

def joinSegs (segs : List Text) : Text := ['/'].intercalate segs

/-- `Path::strip_prefix`, of a path that starts at the root. -/
def stripPrefix (root dest : Text) : Option Text :=
  if root = [] then some (joinSegs (trimRight (dest.splitOn '/')))
  else
    let base := components root
    if base.1 && decide (base.2 <+: (components dest).2) then
      some (joinSegs (trimRight (dropComponents base.2.length (dest.splitOn '/'))))
    else none

/-- `Path::parent` and `Path::file_name`, of a path that starts at the root. -/
def parentAndName (dest : Text) : Option (Text × Text) :=
  match (trimRight (dest.splitOn '/')).reverse with
  | [] => none
  | name :: front =>
    if name = ['.', '.'] then none
    else
      let dir := trimRight front.reverse
      some (if dir = [] then ['/'] else joinSegs dir, name)

/-- `trim_end_matches('/')` -/
def trimEnd (p : Text) : Text := (p.reverse.dropWhile (· = '/')).reverse

def trimStart (p : Text) : Text := p.dropWhile (· = '/')

def rootOf (destRoot : Text) : Text := if destRoot = ['/'] then ['/'] else trimEnd destRoot

/-! ## Splitting -/

inductive Placed where
  | in' (rel : Text)
  | out (dir name : Text)
  deriving DecidableEq

variable (checkPath : Text → Bool)

def relativeListPath (root dest : Text) : Option Text :=
  match (if dest.head? = some '/' then stripPrefix root dest else some dest) with
  | none => none
  | some rel => if checkPath rel then some rel else none

def placeListPath (destRoot dest : Text) : Option Placed :=
  let root := rootOf destRoot
  if dest.head? ≠ some '/' ∨ (stripPrefix root dest).isSome then
    (relativeListPath checkPath root dest).map Placed.in'
  else
    match parentAndName dest with
    | none => none
    | some (dir, name) =>
      if !checkPath name then none
      else if dir ≠ ['/'] ∧ !checkPath (trimStart dir) then none
      else some (.out dir name)

/-- `FileListEntry`, with its source as it is named. -/
structure FileListEntry (α : Type) where
  src : α
  dest : Text

variable {α : Type}

/-- A job's root, and its files by their paths below it. -/
abbrev ListGroup (α : Type) := Text × List (Text × α)

/-- The loop of `split_list`, with what is inside and outside so far. -/
def splitLoop (root : Text) : List (FileListEntry α) → List (Text × α) → BTreeMap Text (List (Text × α)) →
    Option (List (Text × α) × BTreeMap Text (List (Text × α)))
  | [], inside, outside => some (inside, outside)
  | e :: es, inside, outside =>
    match placeListPath checkPath root e.dest with
    | none => none
    | some (.in' rel) => splitLoop root es (inside ++ [(rel, e.src)]) outside
    | some (.out dir name) =>
      splitLoop root es inside (outside.insert dir ((outside.get dir).getD [] ++ [(name, e.src)]))

def splitList (destRoot : Text) (entries : List (FileListEntry α)) : Option (List (ListGroup α)) :=
  let root := rootOf destRoot
  match splitLoop checkPath root entries ([] : List (Text × α)) ∅ with
  | none => none
  | some (inside, outside) =>
    some ((if inside ≠ [] ∨ outside.entries = [] then [(root, inside)] else []) ++ outside.entries)

/-- The id of group `k`: its number is laid over the last eight bytes. -/
def groupJobId (base : Bytes) (k : Nat) : Bytes := base.take 8 ++ List.zipWith (· ^^^ ·) (base.drop 8) (le 8 k)

/-! ## Components -/

theorem filter_dropWhile (segs : List Text) :
    (segs.dropWhile isBlank).filter (fun seg => !isBlank seg) = segs.filter fun seg => !isBlank seg := by
  induction segs with
  | nil => rfl
  | cons seg segs ih =>
    cases h : isBlank seg with
    | true => rw [List.dropWhile_cons_of_pos h, ih, List.filter_cons_of_neg (by rw [h]; decide)]
    | false => rw [List.dropWhile_cons_of_neg (by rw [h]; decide)]

theorem filter_trimRight (segs : List Text) :
    (trimRight segs).filter (fun seg => !isBlank seg) = segs.filter fun seg => !isBlank seg := by
  rw [trimRight, List.filter_reverse, filter_dropWhile, List.filter_reverse, List.reverse_reverse]

/-- What is left behind some components has the other ones. -/
theorem filter_dropComponents (n : Nat) (segs : List Text) :
    (dropComponents n segs).filter (fun seg => !isBlank seg) = (segs.filter fun seg => !isBlank seg).drop n := by
  induction n generalizing segs with
  | zero => exact filter_dropWhile segs
  | succ n ih =>
    rw [dropComponents, ih, ← filter_dropWhile segs]
    cases h : segs.dropWhile isBlank with
    | nil => rw [List.tail_nil, List.filter_nil, List.drop_nil, List.drop_nil]
    | cons seg rest =>
      have hseg : isBlank seg = false := by
        have hhead := List.head?_dropWhile_not isBlank segs
        rw [h] at hhead
        simpa using hhead
      rw [List.tail_cons, List.filter_cons_of_pos (by rw [hseg]; rfl), List.drop_succ_cons]

variable {segs : List Text} {root dest name destRoot : Text}

/-- Segments joined and split again. -/
theorem split_joinSegs (h : ∀ seg ∈ segs, '/' ∉ seg) :
    ((joinSegs segs).splitOn '/').filter (fun seg => !isBlank seg) = segs.filter fun seg => !isBlank seg := by
  cases segs with
  | nil => rfl
  | cons seg segs => rw [joinSegs, List.splitOn_intercalate '/' h (List.cons_ne_nil _ _)]

theorem split_join (p q : Text) : (p ++ '/' :: q).splitOn '/' = p.splitOn '/' ++ q.splitOn '/' :=
  List.splitOn_append_cons_self ..

/-- A file's root and the path below it, as one path. -/
def joined (root rel : Text) : Text := root ++ '/' :: rel

theorem components_joined (root rel : Text) :
    (components (joined root rel)).2 = (components root).2 ++ (components rel).2 := by
  rw [components, joined, split_join, List.filter_append]
  rfl

theorem joined_abs {rel : Text} (h : root = [] ∨ root.head? = some '/') :
    (joined root rel).head? = some '/' := by
  rcases h with rfl | h
  · rfl
  · cases root with
    | nil => cases h
    | cons c root => exact h

/-! ## Places -/

theorem no_slash {p seg : Text} (h : seg ∈ p.splitOn '/') : '/' ∉ seg := ListAt.not_mem_of_mem_splitOn h

theorem trimRight_front (segs : List Text) : trimRight segs <+: segs :=
  List.reverse_suffix.1 (by rw [trimRight, List.reverse_reverse]; exact List.dropWhile_suffix _)

theorem dropComponents_suffix (n : Nat) (segs : List Text) : dropComponents n segs <:+ segs := by
  induction n generalizing segs with
  | zero => exact List.dropWhile_suffix _
  | succ n ih => exact (ih _).trans ((List.tail_suffix _).trans (List.dropWhile_suffix _))

/-- Where a file of the list is to go. -/
def destination (root dest : Text) : Text := if dest.head? = some '/' then dest else joined root dest

theorem components_eq (p : Text) :
    components p = (decide (p.head? = some '/'), (p.splitOn '/').filter fun seg => !isBlank seg) := rfl

theorem components_joinSegs (h : ∀ seg ∈ segs, '/' ∉ seg) :
    (components (joinSegs segs)).2 = segs.filter fun seg => !isBlank seg := split_joinSegs h

/-- A path that starts at the root is known by its components. -/
theorem components_of_abs {p q : Text} (hp : p.head? = some '/') (hq : q.head? = some '/')
    (h : (components p).2 = (components q).2) : components p = components q := by
  have h' : (p.splitOn '/').filter (fun seg => !isBlank seg) = (q.splitOn '/').filter fun seg => !isBlank seg := h
  rw [components_eq, components_eq, hp, hq, h']

theorem stripPrefix_joins {rel : Text} (habs : dest.head? = some '/')
    (h : stripPrefix root dest = some rel) : components (joined root rel) = components dest := by
  unfold stripPrefix at h
  split at h
  · rename_i hroot
    cases h
    refine components_of_abs (joined_abs (.inl hroot)) habs ?_
    have hseg : ∀ seg ∈ trimRight (dest.splitOn '/'), '/' ∉ seg :=
      fun seg hmem => no_slash ((trimRight_front _).subset hmem)
    rw [components_joined, components_joinSegs hseg, filter_trimRight, hroot]
    rfl
  · dsimp only at h
    split at h
    · rename_i hbase
      cases h
      rw [Bool.and_eq_true, decide_eq_true_eq] at hbase
      obtain ⟨hroot, hpre⟩ := hbase
      refine components_of_abs (joined_abs (.inr (of_decide_eq_true hroot))) habs ?_
      have hseg : ∀ seg ∈ trimRight (dropComponents (components root).2.length (dest.splitOn '/')), '/' ∉ seg :=
        fun seg hmem => no_slash ((dropComponents_suffix _ _).subset ((trimRight_front _).subset hmem))
      rw [components_joined, components_joinSegs hseg, filter_trimRight, filter_dropComponents]
      exact List.prefix_iff_eq_append.1 hpre
    · cases h

theorem getLast_trimRight {front : List Text} (h : trimRight segs = front ++ [name]) :
    isBlank name = false := by
  have hhead := List.head?_dropWhile_not isBlank segs.reverse
  have hrev : segs.reverse.dropWhile isBlank = name :: front.reverse := by
    rw [← List.reverse_reverse (segs.reverse.dropWhile isBlank)]
    show (trimRight segs).reverse = _
    rw [h, List.reverse_append]
    rfl
  rw [hrev] at hhead
  simpa using hhead

theorem components_name (hslash : '/' ∉ name) (hblank : isBlank name = false) :
    (components name).2 = [name] := by
  show (name.splitOn '/').filter _ = _
  rw [List.splitOn_eq_singleton hslash, List.filter_cons_of_pos (by rw [hblank]; rfl), List.filter_nil]

/-- What comes first in the segments of a path that starts at the root. -/
theorem splitOn_abs (habs : dest.head? = some '/') : ∃ segs, dest.splitOn '/' = [] :: segs := by
  cases dest with
  | nil => cases habs
  | cons c dest =>
    obtain rfl : c = '/' := Option.some.inj habs
    exact ⟨dest.splitOn '/', split_join [] dest⟩

/-- A folder that is not the root, of a path that starts there, starts there. -/
theorem head?_joinSegs (hne : segs ≠ []) (hlast : trimRight segs = segs) {all : List Text}
    (hpre : segs <+: [] :: all) : (joinSegs segs).head? = some '/' := by
  cases segs with
  | nil => exact absurd rfl hne
  | cons seg segs =>
    obtain rfl : seg = [] := (List.cons_prefix_cons.1 hpre).1
    cases segs with
    | nil => cases hlast
    | cons seg segs => rfl

theorem parent_joins {dir : Text} (habs : dest.head? = some '/')
    (h : parentAndName dest = some (dir, name)) :
    dir.head? = some '/' ∧ components (joined dir name) = components dest := by
  unfold parentAndName at h
  split at h
  · cases h
  · rename_i last front hrev
    have htrim : trimRight (dest.splitOn '/') = front.reverse ++ [last] := by
      rw [← List.reverse_reverse (trimRight _), hrev, List.reverse_cons]
    split at h
    · cases h
    · dsimp only at h
      cases h
      have hslash : '/' ∉ name := by
        refine no_slash (p := dest) ((trimRight_front _).subset ?_)
        rw [htrim]
        exact List.mem_append_right _ List.mem_cons_self
      have hname := components_name hslash (getLast_trimRight htrim)
      have hall : (components dest).2 = (front.reverse.filter fun seg => !isBlank seg) ++ [name] := by
        show (dest.splitOn '/').filter _ = _
        rw [← filter_trimRight, htrim, List.filter_append,
          List.filter_cons_of_pos (by rw [getLast_trimRight htrim]; rfl), List.filter_nil]
      have hfront : front.reverse <+: dest.splitOn '/' :=
        ((List.prefix_append _ [name]).trans (htrim ▸ List.prefix_rfl)).trans (trimRight_front _)
      have hdir : (trimRight front.reverse).filter (fun seg => !isBlank seg) =
          front.reverse.filter fun seg => !isBlank seg := filter_trimRight _
      obtain ⟨segs, hsegs⟩ := splitOn_abs habs
      split
      · rename_i hnil
        refine ⟨rfl, components_of_abs rfl habs ?_⟩
        rw [components_joined, hname, hall, ← hdir, hnil]
        rfl
      · rename_i hne
        have hseg : ∀ seg ∈ trimRight front.reverse, '/' ∉ seg :=
          fun seg hmem => no_slash (p := dest) (hfront.subset ((trimRight_front _).subset hmem))
        have hhead : (joinSegs (trimRight front.reverse)).head? = some '/' :=
          head?_joinSegs hne (by rw [trimRight, trimRight, List.reverse_reverse, List.dropWhile_idempotent isBlank])
            (hsegs ▸ (trimRight_front _).trans hfront)
        refine ⟨hhead, components_of_abs (joined_abs (.inr hhead)) habs ?_⟩
        rw [components_joined, hname, hall, ← hdir, components_joinSegs hseg]

/-! ## What the groups hold -/

/-- Where a place puts a file, under the root of the list. -/
def Placed.in (root : Text) : Placed → Text × Text
  | .in' rel => (root, rel)
  | .out dir name => (dir, name)

variable {checkPath}

theorem placeListPath_joins {placed : Placed}
    (h : placeListPath checkPath destRoot dest = some placed) :
    components (joined (placed.in (rootOf destRoot)).1 (placed.in (rootOf destRoot)).2) =
      components (destination (rootOf destRoot) dest) := by
  simp only [placeListPath] at h
  split at h
  · obtain ⟨rel, hrel, rfl⟩ := Option.map_eq_some_iff.1 h
    unfold relativeListPath at hrel
    split at hrel
    · cases hrel
    · rename_i r hr
      split at hrel
      · cases hrel
        unfold destination
        split at hr
        · rename_i habs
          rw [if_pos habs]
          exact stripPrefix_joins habs hr
        · rename_i habs
          cases hr
          rw [if_neg habs]
          rfl
      · cases hrel
  · rename_i hout
    rw [not_or, not_not] at hout
    split at h
    · cases h
    · rename_i dir name hparent
      split at h
      · cases h
      · split at h
        · cases h
        · cases h
          rw [destination, if_pos hout.1]
          exact (parent_joins hout.1 hparent).2

/-- A file outside the list's root is not in that root's own directory. -/
theorem out_ne_root {dir : Text}
    (h : placeListPath checkPath destRoot dest = some (.out dir name)) : dir ≠ rootOf destRoot := by
  simp only [placeListPath] at h
  split at h
  · obtain ⟨rel, -, hrel⟩ := Option.map_eq_some_iff.1 h
    cases hrel
  · rename_i hout
    rw [not_or, not_not] at hout
    split at h
    · cases h
    · rename_i d n hparent
      obtain ⟨hdir, hjoin⟩ := parent_joins hout.1 hparent
      have hdn : d = dir := by
        split at h
        · cases h
        · split at h
          · cases h
          · cases h
            rfl
      subst hdn
      rintro hroot
      refine hout.2 ?_
      rw [← hroot]
      have hne : d ≠ [] := fun hnil => by rw [hnil] at hdir; cases hdir
      have hpre : (components d).2 <+: (components dest).2 := by
        rw [← hjoin, components_joined]
        exact List.prefix_append _ _
      have hbase : ((components d).1 && decide ((components d).2 <+: (components dest).2)) = true := by
        rw [decide_eq_true hpre, Bool.and_true, components_eq, hdir]
        rfl
      unfold stripPrefix
      rw [if_neg hne]
      dsimp only
      rw [if_pos hbase]
      rfl

theorem rootOf_rootOf (destRoot : Text) : rootOf (rootOf destRoot) = rootOf destRoot := by
  unfold rootOf
  by_cases h : destRoot = ['/']
  · rw [if_pos h, if_pos rfl]
  · rw [if_neg h]
    split
    · rename_i htrim
      exact htrim.symm
    · rw [trimEnd, trimEnd, List.reverse_reverse, List.dropWhile_idempotent]

/-- Every file of the groups, with its group's root and its path below it. -/
def placements (groups : List (ListGroup α)) : List ((Text × Text) × α) :=
  groups.flatMap fun g => g.2.map fun f => ((g.1, f.1), f.2)

theorem placements_cons (g : ListGroup α) (groups : List (ListGroup α)) :
    placements (g :: groups) = g.2.map (fun f => ((g.1, f.1), f.2)) ++ placements groups := rfl

theorem placements_eq_pairs (outside : BTreeMap Text (List (Text × α))) :
    placements outside.entries = outside.pairs.map fun p => ((p.1, p.2.1), p.2.2) := by
  rw [placements, BTreeMap.pairs, List.map_flatMap]
  refine List.flatMap_congr fun g _ => ?_
  rw [List.map_map]
  rfl

/-- One more file in a directory of its own. -/
theorem placements_insert (outside : BTreeMap Text (List (Text × α))) (dir name : Text) (src : α) :
    (placements (outside.insert dir ((outside.get dir).getD [] ++ [(name, src)])).entries).Perm
      (((dir, name), src) :: placements outside.entries) := by
  rw [placements_eq_pairs, placements_eq_pairs]
  exact (outside.pairs_push dir (name, src)).map _

/-- A place for each entry of a list, with the entry's source. -/
def placed (root : Text) (entries : List (FileListEntry α)) (places : List Placed) : List ((Text × Text) × α) :=
  List.zipWith (fun e p => (p.in root, e.src)) entries places

/-- The loop adds each entry's place. -/
theorem splitLoop_places {es : List (FileListEntry α)} {inside inside' : List (Text × α)}
    {outside outside' : BTreeMap Text (List (Text × α))}
    (h : splitLoop checkPath root es inside outside = some (inside', outside')) :
    ∃ places, List.Forall₂ (fun e p => placeListPath checkPath root e.dest = some p) es places ∧
      (placements ((root, inside') :: outside'.entries)).Perm
        (placements ((root, inside) :: outside.entries) ++ placed root es places) := by
  induction es generalizing inside outside with
  | nil =>
    cases h
    refine ⟨[], List.Forall₂.nil, ?_⟩
    rw [placed, List.zipWith_nil_left, List.append_nil]
  | cons e es ih =>
    rw [splitLoop] at h
    cases hp : placeListPath checkPath root e.dest with
    | none =>
      rw [hp] at h
      cases h
    | some p =>
      rw [hp] at h
      cases p with
      | in' rel =>
        obtain ⟨places, hplaces, hperm⟩ := ih h
        refine ⟨.in' rel :: places, .cons hp hplaces, hperm.trans ?_⟩
        rw [placements_cons, placements_cons, List.map_append, placed, placed, List.zipWith_cons_cons,
          List.append_assoc, List.append_assoc, List.append_assoc]
        refine List.Perm.append_left _ ?_
        rw [List.map_singleton, List.singleton_append]
        exact List.perm_middle.symm
      | out dir name =>
        obtain ⟨places, hplaces, hperm⟩ := ih h
        refine ⟨.out dir name :: places, .cons hp hplaces, hperm.trans ?_⟩
        rw [placements_cons, placements_cons, placed, placed, List.zipWith_cons_cons, List.append_assoc,
          List.append_assoc]
        refine List.Perm.append_left _ (((placements_insert _ _ _ _).append_right _).trans ?_)
        exact List.perm_middle.symm

/-- No directory outside is the list's root. -/
theorem splitLoop_keys (hroot : rootOf root = root) {es : List (FileListEntry α)}
    {inside inside' : List (Text × α)} {outside outside' : BTreeMap Text (List (Text × α))}
    (hkeys : outside.get root = none)
    (h : splitLoop checkPath root es inside outside = some (inside', outside')) : outside'.get root = none := by
  induction es generalizing inside outside with
  | nil =>
    cases h
    exact hkeys
  | cons e es ih =>
    rw [splitLoop] at h
    cases hp : placeListPath checkPath root e.dest with
    | none =>
      rw [hp] at h
      cases h
    | some p =>
      rw [hp] at h
      cases p with
      | in' rel => exact ih hkeys h
      | out dir name =>
        have hne : root ≠ dir := fun heq => out_ne_root hp (by rw [hroot, heq])
        exact ih (by rw [BTreeMap.get_insert_of_ne _ _ hne, hkeys]) h

/-- What the groups of a list have to be: each entry in one place, at its destination, and no two groups with
one root. -/
structure Covers (root : Text) (entries : List (FileListEntry α)) (groups : List (ListGroup α)) : Prop where
  each : ∃ places : List (Text × Text),
    (placements groups).Perm (List.zipWith (fun e p => (p, e.src)) entries places) ∧
    List.Forall₂ (fun e p => components (joined p.1 p.2) = components (destination root e.dest)) entries places
  roots : (groups.map Prod.fst).Nodup

theorem splitList_covers {entries : List (FileListEntry α)} {groups : List (ListGroup α)}
    (h : splitList checkPath destRoot entries = some groups) : Covers (rootOf destRoot) entries groups := by
  simp only [splitList] at h
  split at h
  · cases h
  · rename_i inside outside hloop
    cases h
    obtain ⟨places, hplaces, hperm⟩ := splitLoop_places hloop
    have hall : placements ((if inside ≠ [] ∨ outside.entries = [] then [(rootOf destRoot, inside)] else []) ++
        outside.entries) = placements ((rootOf destRoot, inside) :: outside.entries) := by
      split
      · rfl
      · rename_i hnone
        rw [not_or, not_not] at hnone
        rw [hnone.1]
        rfl
    have hkeys := splitLoop_keys (rootOf_rootOf destRoot) (BTreeMap.get_empty _) hloop
    constructor
    · refine ⟨places.map (Placed.in (rootOf destRoot)), ?_, ?_⟩
      · rw [hall, List.zipWith_map_right]
        exact hperm
      · rw [List.forall₂_map_right_iff]
        refine hplaces.imp fun e p hp => ?_
        have hjoin := placeListPath_joins hp
        rwa [rootOf_rootOf] at hjoin
    · rw [List.map_append, List.nodup_append']
      refine ⟨?_, outside.keys_nodup, ?_⟩
      · split
        · exact List.nodup_singleton _
        · exact List.nodup_nil
      · intro root hroot hmem
        obtain rfl : root = rootOf destRoot := by
          split at hroot
          · exact List.mem_singleton.1 hroot
          · cases hroot
        have := BTreeMap.mem_keys.1 hmem
        rw [hkeys] at this
        cases this

/-! ## Ids -/

theorem zipWith_xor_inj {bs xs ys : Bytes} (hx : xs.length = bs.length) (hy : ys.length = bs.length)
    (h : List.zipWith (· ^^^ ·) bs xs = List.zipWith (· ^^^ ·) bs ys) : xs = ys := by
  refine List.ext_getElem (hx.trans hy.symm) fun i hix hiy => ?_
  have hib : i < bs.length := hx ▸ hix
  have hi : (List.zipWith (· ^^^ ·) bs xs)[i]? = (List.zipWith (· ^^^ ·) bs ys)[i]? := by rw [h]
  rw [List.getElem?_zipWith, List.getElem?_zipWith, List.getElem?_eq_getElem hib, List.getElem?_eq_getElem hix,
    List.getElem?_eq_getElem hiy] at hi
  have hxor : bs[i] ^^^ xs[i] = bs[i] ^^^ ys[i] := Option.some.inj hi
  have := congrArg (bs[i] ^^^ ·) hxor
  simpa [← UInt8.xor_assoc] using this

/-- No two groups have one id. -/
theorem groupJobId_inj {base : Bytes} (hbase : base.length = 16) {j k : Nat} (hj : j < 2 ^ 64) (hk : k < 2 ^ 64)
    (h : groupJobId base j = groupJobId base k) : j = k := by
  have hdrop : (base.drop 8).length = 8 := by rw [List.length_drop, hbase]
  have hle : le 8 j = le 8 k :=
    zipWith_xor_inj (by rw [length_le, hdrop]) (by rw [length_le, hdrop]) (List.append_cancel_left h)
  have hnum := congrArg fromLe hle
  rw [fromLe_le, fromLe_le] at hnum
  rwa [Nat.mod_eq_of_lt (by simpa using hj), Nat.mod_eq_of_lt (by simpa using hk)] at hnum

/-- The ids of a list's jobs. -/
def jobIds (base : Bytes) (groups : List (ListGroup α)) : List Bytes :=
  (List.range groups.length).map (groupJobId base)

theorem jobIds_nodup {base : Bytes} (hbase : base.length = 16) {groups : List (ListGroup α)}
    (hlen : groups.length ≤ 2 ^ 64) : (jobIds base groups).Nodup := by
  refine List.Nodup.map_on (fun j hj k hk h => ?_) List.nodup_range
  rw [List.mem_range] at hj hk
  exact groupJobId_inj hbase (by omega) (by omega) h

end Ps5Upload.Upload
