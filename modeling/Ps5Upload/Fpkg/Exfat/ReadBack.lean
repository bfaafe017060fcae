import Ps5Upload.Fpkg.Exfat.Allocations
import Ps5Upload.Fpkg.Exfat.Listing

/-!
# exFAT: what goes in comes back out

A source is planned, written, opened, walked and read.

* `written_reads_back` — the walk returns the source's files and the folders that hold nothing, every
  read returns the source's bytes, and table, bitmap and clusters agree.
-/

namespace Ps5Upload.Exfat

open ByteFile Checked Caching Blocks Utf16

/-! ## Sources that serve their files -/

/-- Every read of a file returns its bytes, as far as they go. -/
def Serves (source : Source) (src : Text) (data : Bytes) : Prop :=
  ∀ off len, source src off len = .ok ((data.drop off).take len)

theorem copyFile_serves {source : Source} {src : Text} {data : Bytes} (hserve : Serves source src data)
    (file : Nat) {turns at_ : Nat} (hle : at_ ≤ data.length)
    (hturns : data.length ≤ at_ + turns * copyChunk) :
    (copyFile source file src data.length turns at_).failed = none ∧
      (copyFile source file src data.length turns at_).out = data.drop at_ := by
  induction turns generalizing at_ with
  | zero =>
    rw [List.drop_of_length_le (by omega)]
    exact ⟨rfl, rfl⟩
  | succ turns ih =>
    rw [copyFile]
    split
    · rw [List.drop_of_length_le (by assumption)]
      exact ⟨rfl, rfl⟩
    · rename_i hlt
      dsimp only
      rw [Nat.succ_mul] at hturns
      have hchunk : 0 < copyChunk := by decide
      rw [hserve]
      dsimp only
      rw [if_neg (by
        rw [not_not, List.length_take, List.length_drop]
        omega), Run.andThen_ok rfl]
      obtain ⟨hf, hout⟩ := @ih (at_ + min (data.length - at_) copyChunk) (by omega) (by omega)
      refine ⟨hf, ?_⟩
      dsimp only
      rw [hout, ← List.drop_drop, List.take_append_drop]

/-- A file whose source serves it is copied and filled up. -/
theorem writeFile_serves {p : ExfatPlan} {source : Source} {f : Nat} {data : Bytes}
    (hserve : Serves source (nodeAt p.tree f).src data) (hsize : data.length = (nodeAt p.tree f).size) :
    (writeFile p source 0 f).failed = none ∧ (writeFile p source 0 f).out =
      data ++ zeros ((nodeAt p.tree f).clusters * p.l.cluster - (nodeAt p.tree f).size) := by
  obtain ⟨hf, hout⟩ := @copyFile_serves _ _ _ hserve f (data.length ⌈/⌉ copyChunk) 0 (Nat.zero_le _) (by
    rw [Nat.zero_add]
    exact le_blocks (by decide) _)
  rw [hsize] at hf hout
  rw [writeFile_whole, Run.andThen_ok hf]
  refine ⟨rfl, ?_⟩
  dsimp only
  rw [hout, List.drop_zero]
  rfl

theorem writeFiles_serves {p : ExfatPlan} {source : Source} {fs : List Nat}
    (h : ∀ f ∈ fs, ∃ data, Serves source (nodeAt p.tree f).src data ∧
      data.length = (nodeAt p.tree f).size) : (writeFiles p source 0 fs).failed = none := by
  induction fs with
  | nil => rfl
  | cons f fs ih =>
    obtain ⟨data, hserve, hsize⟩ := h f List.mem_cons_self
    rw [writeFiles, Run.andThen_ok (writeFile_serves hserve hsize).1]
    exact ih fun g hg => h g (List.mem_cons_of_mem f hg)

/-- **A source that serves its files is written to the end.** -/
theorem writeExfat_served {p : ExfatPlan} {source : Source}
    (h : ∀ f ∈ p.l.files, ∃ data, Serves source (nodeAt p.tree f).src data ∧
      data.length = (nodeAt p.tree f).size) : (writeExfat p source).failed = none := by
  have hstart : (Run.wrote (imageHead p)).failed = none := rfl
  have hfiles := writeFiles_serves h
  unfold writeExfat writeExfatAfter
  rw [Run.andThen_ok hstart, Run.andThen_ok (by exact hfiles)]
  rfl

/-! ## Reads -/

namespace Written

variable {upcase : Bytes} {t : Tree} {p : ExfatPlan} {source : Source} {file : Image}
  (h : Written upcase t p source file)
include h

/-- The plain reader has the source's bytes. -/
theorem plainFile_written {f : Nat} (hf : f ∈ p.l.files) {data : Bytes}
    (hserve : Serves source (nodeAt p.tree f).src data) (hsize : data.length = (nodeAt p.tree f).size)
    (cs : List Text) (offset len : Nat) :
    (volumeOf p file).plainFile (fileAt p.tree (f, cs)) offset len =
      some ((data.drop offset).take len) := by
  have hfits := h.laid.file_fits hf
  unfold Volume.plainFile fileAt
  dsimp only
  split
  · rw [List.drop_of_length_le (by omega), List.take_nil]
  · rename_i hlt
    have hpos : 0 < (nodeAt p.tree f).clusters := Nat.pos_of_ne_zero fun h0 => by
      rw [h0, Nat.zero_mul] at hfits
      omega
    have hn := chained_node h.laid (List.mem_append_right p.l.dirs hf) hpos
    obtain ⟨hholds, -⟩ := h.holds_file hf hpos
    rw [(writeFile_serves hserve hsize).2] at hholds
    have hmin : min (min len ((nodeAt p.tree f).size - offset)) ((nodeAt p.tree f).size - offset) =
        min len ((nodeAt p.tree f).size - offset) := by omega
    have hslice := hholds.slice (i := offset) (n := min len ((nodeAt p.tree f).size - offset)) (by
      rw [List.length_append]
      omega)
    have hdata : ((data ++ zeros ((nodeAt p.tree f).clusters * p.l.cluster -
        (nodeAt p.tree f).size)).drop offset).take (min len ((nodeAt p.tree f).size - offset)) =
        (data.drop offset).take len := by
      rw [List.drop_append_of_le_length (by omega), List.take_append_of_le_length (by
        rw [List.length_drop]
        omega), ← hsize, ← List.length_drop, ← List.take_eq_take_min]
    rw [hdata] at hslice
    have hlen : ((data.drop offset).take len).length = min len ((nodeAt p.tree f).size - offset) := by
      rw [List.length_take, List.length_drop, hsize]
    rw [hmin, h.plainStream_chain hn (by omega) (by omega), hslice, Option.map_some, ← hlen,
      setLen_of_le (Nat.le_refl _), List.take_length]

/-- **A file of the image** reads back as the source's bytes, and the state stays sound. -/
theorem readFile_written {f : Nat} (hf : f ∈ p.l.files) {data : Bytes}
    (hserve : Serves source (nodeAt p.tree f).src data) (hsize : data.length = (nodeAt p.tree f).size)
    (cs : List Text) (offset len : Nat) {s : Held} (hs : (volumeOf p file).Keeps s) :
    (exec (readFile (volumeOf p file) (fileAt p.tree (f, cs)) offset len) s).1 =
        .ok ((data.drop offset).take len) ∧
      (volumeOf p file).Keeps
        (exec (readFile (volumeOf p file) (fileAt p.tree (f, cs)) offset len) s).2 := by
  have hmem : f ∈ p.l.order := List.mem_append_right _ hf
  have hfirst := h.first_lt hmem
  have hfit : (fileAt p.tree (f, cs)).Fits (volumeOf p file) :=
    ⟨by show (nodeAt p.tree f).firstCluster < 2 ^ 32; omega, Nat.le_refl _, h.size_le hmem⟩
  obtain ⟨hr, hkeeps⟩ := readFile_returns h.sound hfit offset len s hs
  refine ⟨?_, hkeeps⟩
  have hstop : ¬(volumeOf p file).StopsShort (fileAt p.tree (f, cs)) offset len := by
    intro hstop
    have hlen := hstop.1
    have hwritten : (fileAt p.tree (f, cs)).written offset len =
        min (min len ((nodeAt p.tree f).size - offset)) ((nodeAt p.tree f).size - offset) := rfl
    have hfits := h.laid.file_fits hf
    have hpos : 0 < (nodeAt p.tree f).clusters := Nat.pos_of_ne_zero fun h0 => by
      rw [h0, Nat.zero_mul] at hfits
      omega
    exact h.not_stops (chained_node h.laid hmem hpos) (by rw [hwritten]; omega) hstop
  rcases hr with ⟨-, hlone⟩ | ⟨-, hr⟩
  · have : (nodeAt p.tree f).firstCluster = 2 ^ 32 - 1 := hlone.2.1
    omega
  · rw [if_neg hstop, h.plainFile_written hf hserve hsize cs offset len] at hr
    exact hr.eq_ok

end Written

/-! ## The plan's tree, laid out -/

theorem nodeAt_eq_getElem {t : Tree} {k : Nat} (hk : k < t.length) : nodeAt t k = t[k] := by
  rw [nodeAt, List.getElem?_eq_getElem hk]
  rfl

theorem filesOf_eq (t : Tree) : filesOf t =
    ((List.range t.length).filter fun k => !(nodeAt t k).isDir).map fun k =>
      ((nodeAt t k).src, (nodeAt t k).size) := by
  have hnodes : t = (List.range t.length).map (nodeAt t) :=
    List.ext_getElem (by simp) fun k hk _ => by
      rw [List.getElem_map, List.getElem_range, nodeAt_eq_getElem hk]
  have hfilter : ∀ l : List Nat, l.filterMap (fun k =>
      if (nodeAt t k).isDir then none else some ((nodeAt t k).src, (nodeAt t k).size)) =
      (l.filter fun k => !(nodeAt t k).isDir).map fun k => ((nodeAt t k).src, (nodeAt t k).size) := by
    intro l
    induction l with
    | nil => rfl
    | cons k l ih => cases hd : (nodeAt t k).isDir <;> simp [hd, ih]
  rw [filesOf]
  conv_lhs => rw [hnodes]
  rw [List.filterMap_map]
  exact hfilter _

section Laid

variable {upcase : Bytes} {isNfc : Text → Bool} {t u : Tree} {l : Layout} (h : Laid upcase t u l)
include h

theorem Laid.forest (ht : Forest t) : Forest u := by
  have hkids : kids u = kids t := funext h.shape.kids_eq
  refine ⟨(h.shape.isDir_eq 0).trans ht.root, ?_, ?_, fun i hi => ?_⟩
  · rw [hkids, h.shape.length_eq]
    exact ht.places
  · rw [hkids]
    exact ht.later
  · rw [hkids]
    exact ht.leaf i ((h.shape.isDir_eq i).symm.trans hi)

theorem Laid.named (ht : Named upcase isNfc t) : Named upcase isNfc u := by
  refine ⟨fun i key k hk => ?_, fun i k hk => ?_, fun i k hk => ?_⟩
  · rw [h.shape.name_eq]
    have hchildren : (nodeAt u i).children = (nodeAt t i).children :=
      (Node.mk.inj (h.shape.face_eq i)).2.2.2.2.2.1
    rw [hchildren] at hk
    exact ht.key_eq i key k hk
  · rw [h.shape.kids_eq] at hk
    rw [h.shape.units_eq, h.shape.name_eq, ht.units_eq i k hk]
  · rw [h.shape.kids_eq] at hk
    rw [h.shape.name_eq]
    exact ht.name_ok i k hk

theorem Laid.mem_order {k : Nat} (hk : k < u.length) : k ∈ l.order :=
  h.perm.symm.subset (List.mem_range.2 hk)

theorem Laid.mem_files {k : Nat} (hk : k < u.length) (hd : (nodeAt u k).isDir = false) :
    k ∈ l.files := by
  refine (List.mem_append.1 (h.mem_order hk)).resolve_left fun hmem => ?_
  rw [h.dirs_dir k hmem] at hd
  cases hd

theorem Laid.mem_dirs {k : Nat} (hk : k < u.length) (hd : (nodeAt u k).isDir = true) :
    k ∈ l.dirs := by
  refine (List.mem_append.1 (h.mem_order hk)).resolve_right fun hmem => ?_
  rw [h.files_file k hmem] at hd
  cases hd

/-- The layout moves no file and no folder. -/
theorem Holding.laid {dirs : List Text → Prop} {files : List (Text × Nat)}
    (ht : Holding upcase isNfc dirs files t) : Holding upcase isNfc dirs files u := by
  have hat : ∀ {k cs}, At t k cs → At u k cs := fun hk =>
    at_congr h.shape.kids_eq h.shape.name_eq hk
  have hat' : ∀ {k cs}, At u k cs → At t k cs := fun hk =>
    at_congr (fun i => (h.shape.kids_eq i).symm) (fun i => (h.shape.name_eq i).symm) hk
  refine ⟨h.forest ht.forest, h.named ht.named, ?_, fun k hk hd => ?_, fun k cs hk hd => ?_⟩
  · rw [← ht.files_eq, filesOf_eq, filesOf_eq, h.shape.length_eq]
    have hsame : (fun k => !(nodeAt u k).isDir) = fun k => !(nodeAt t k).isDir :=
      funext fun k => by rw [h.shape.isDir_eq]
    rw [hsame]
    refine List.map_congr_left fun k hk => ?_
    obtain ⟨hmem, hd⟩ := List.mem_filter.1 hk
    rw [← h.shape.isDir_eq] at hd
    rw [h.shape.src_eq, h.file_size k (h.mem_files
      (by rw [h.shape.length_eq]; exact List.mem_range.1 hmem) (by simpa using hd))]
  · rw [h.shape.length_eq] at hk
    rw [h.shape.isDir_eq] at hd
    rw [h.shape.src_eq]
    exact hat (ht.file_at k hk hd)
  · rw [h.shape.isDir_eq] at hd
    exact ht.dir_at k cs (hat' hk) hd

end Laid

theorem planExfat_counts {upcase : Bytes} {isNfc : Text → Bool} {files : List SourceFile}
    {emptyDirs : List Text} {override : Option Nat} {extraFree : Nat} {p : ExfatPlan}
    (h : planExfat upcase isNfc files emptyDirs override extraFree = .ok p) :
    p.files = p.l.files.length ∧ p.directories = p.l.dirs.length - 1 := by
  unfold planExfat at h
  obtain ⟨⟨t, bad⟩, -, h⟩ := bind_eq_ok.1 h
  dsimp only at h
  split at h
  · cases h
  obtain ⟨dataBytes, -, h⟩ := bind_eq_ok.1 h
  obtain ⟨⟨u, l⟩, -, h⟩ := bind_eq_ok.1 h
  cases h
  exact ⟨rfl, rfl⟩

/-! ## What the walk visits -/

/-- A file's path with single slashes. -/
def sourcePath (f : SourceFile) : Text := joined (components f.path)

/-- The folders of a source that hold nothing, by their names. -/
def emptyFolders (files : List SourceFile) (emptyDirs : List Text) : List (List Text) :=
  ((emptyDirs.map components).filter fun cs =>
    decide (cs ≠ [] ∧ (∀ f ∈ files, ¬cs <+: components f.path) ∧
      ∀ d ∈ emptyDirs, cs <+: components d → components d = cs)).dedup

theorem mem_emptyFolders {files : List SourceFile} {emptyDirs : List Text} {cs : List Text} :
    cs ∈ emptyFolders files emptyDirs ↔ HoldsNothing files emptyDirs cs := by
  rw [emptyFolders, List.mem_dedup, List.mem_filter, List.mem_map, decide_eq_true_eq]
  exact ⟨fun ⟨h1, h2, h3, h4⟩ => ⟨h2, h1, h3, h4⟩, fun h => ⟨h.listed, h.ne_root, h.no_file, h.no_dir⟩⟩

theorem nodup_emptyFolders (files : List SourceFile) (emptyDirs : List Text) :
    (emptyFolders files emptyDirs).Nodup := List.nodup_dedup _

/-- The bytes of the paths a walk of a source's image keeps. -/
def keptPathBytes (files : List SourceFile) (emptyDirs : List Text) : Nat :=
  (files.map fun f => utf8Len (sourcePath f)).sum +
    ((emptyFolders files emptyDirs).map fun cs => utf8Len (joined cs)).sum

section Visits

variable {upcase : Bytes} {isNfc : Text → Bool} {files : List SourceFile} {emptyDirs : List Text}
  {t : Tree}
  (h : Holding upcase isNfc (Above files emptyDirs)
    (files.map fun f => (trimSlashes f.path, f.size)) t)
  {visited : List (Nat × List Text)} {levels : Nat} (hv : visited = below t levels 0 [])
  (hdeep : ∀ k cs, At t k cs → cs.length ≤ levels)
include h hv

omit h in
theorem at_visited {q : Nat × List Text} (hq : q ∈ visited) : At t q.1 q.2 ∧ q.2 ≠ [] := by
  subst hv
  obtain ⟨hat, -, hlen⟩ := at_of_below .root hq
  exact ⟨hat, fun hnil => by rw [hnil] at hlen; exact absurd hlen (Nat.lt_irrefl 0)⟩

theorem nodup_visited : (visited.map Prod.fst).Nodup := by
  subst hv
  exact nodup_below h.forest h.named .root

theorem length_visited : visited.length + 1 ≤ t.length := by
  have hnodup : (0 :: visited.map Prod.fst).Nodup := by
    refine List.nodup_cons.2 ⟨fun hmem => ?_, nodup_visited h hv⟩
    obtain ⟨q, hq, h0⟩ := List.mem_map.1 hmem
    obtain ⟨hat, hne⟩ := at_visited hv hq
    rw [h0] at hat
    exact hne (hat.unique h.forest .root)
  have hsub : (0 :: visited.map Prod.fst) ⊆ List.range t.length := fun k hk => by
    rw [List.mem_range]
    rcases List.mem_cons.1 hk with rfl | hk
    · exact h.forest.pos
    · obtain ⟨q, hq, rfl⟩ := List.mem_map.1 hk
      exact At.lt h.forest (at_visited hv hq).1
  have hle := (hnodup.subperm hsub).length_le
  rw [List.length_cons, List.length_map, List.length_range] at hle
  exact hle

include hdeep

theorem visited_perm (p : Nat → Bool) (hp : p 0 = false) :
    ((visited.map Prod.fst).filter p).Perm ((List.range t.length).filter p) := by
  subst hv
  exact below_perm h.forest h.named hdeep p hp

/-- **The files a walk visits** are the source's. -/
theorem files_visited : ((visited.filter (isFileAt t)).map fun q =>
    (joined q.2, (nodeAt t q.1).size)).Perm (files.map fun f => (sourcePath f, f.size)) := by
  have hpath : (visited.filter (isFileAt t)).map (fun q => (joined q.2, (nodeAt t q.1).size)) =
      ((visited.map Prod.fst).filter fun k => !(nodeAt t k).isDir).map fun k =>
        (joined (components (nodeAt t k).src), (nodeAt t k).size) := by
    rw [List.filter_map, List.map_map]
    refine List.map_congr_left fun q hq => ?_
    obtain ⟨hmem, hfile⟩ := List.mem_filter.1 hq
    obtain ⟨hat, -⟩ := at_visited hv hmem
    have hd : (nodeAt t q.1).isDir = false := by simpa [isFileAt] using hfile
    rw [hat.unique h.forest (h.file_at q.1 (At.lt h.forest hat) hd)]
    rfl
  have hsource : (files.map fun f => (sourcePath f, f.size)) =
      (filesOf t).map fun q => (joined (components q.1), q.2) := by
    rw [h.files_eq, List.map_map]
    refine List.map_congr_left fun f _ => ?_
    show _ = (joined (components (trimSlashes f.path)), f.size)
    rw [components_trimSlashes]
    rfl
  rw [hpath, hsource, filesOf_eq, List.map_map]
  refine (visited_perm h hv hdeep _ ?_).map _
  rw [h.forest.root]
  rfl

/-- **The folders a walk keeps** are those of the source that hold nothing. -/
theorem folders_visited
    (hdirs : ∀ d ∈ emptyDirs, ∃ k, At t k (components d) ∧ (nodeAt t k).isDir = true) :
    ((visited.filter (isBare t)).map Prod.snd).Perm (emptyFolders files emptyDirs) := by
  have hnodup : visited.Nodup := (nodup_visited h hv).of_map Prod.fst
  refine (List.perm_ext_iff_of_nodup ?_ (nodup_emptyFolders files emptyDirs)).2 fun cs => ?_
  · refine (hnodup.filter _).map_on fun q hq q' hq' heq => ?_
    have hat := (at_visited hv (List.mem_filter.1 hq).1).1
    have hat' := (at_visited hv (List.mem_filter.1 hq').1).1
    rw [← heq] at hat'
    exact Prod.ext (hat.injective h.named hat') heq
  · rw [mem_emptyFolders, h.holdsNothing_iff hdirs, List.mem_map]
    constructor
    · rintro ⟨q, hq, rfl⟩
      obtain ⟨hmem, hbare⟩ := List.mem_filter.1 hq
      obtain ⟨hat, hne⟩ := at_visited hv hmem
      rw [isBare, Bool.and_eq_true, List.isEmpty_iff] at hbare
      exact ⟨hne, q.1, hat, hbare.1, hbare.2⟩
    · rintro ⟨hne, k, hat, hd, hkids⟩
      refine ⟨(k, cs), List.mem_filter.2 ⟨?_, ?_⟩, rfl⟩
      · subst hv
        exact mem_below h.named .root (show At t k ([] ++ cs) from hat) hne (hdeep k cs hat)
      · rw [isBare, hd, hkids]
        rfl

omit hdeep h hv in
theorem pathCost_split (visited : List (Nat × List Text)) : pathCost t visited =
    ((visited.filter (isFileAt t)).map fun q => utf8Len (joined q.2)).sum +
      ((visited.filter (isBare t)).map fun q => utf8Len (joined q.2)).sum := by
  induction visited with
  | nil => rfl
  | cons q qs ih =>
    have hboth : isFileAt t q = true → isBare t q = false := fun hf => by
      unfold isFileAt at hf
      unfold isBare
      rw [Bool.not_eq_true'] at hf
      rw [hf, Bool.false_and]
    rw [pathCost, List.map_cons, List.sum_cons, ← pathCost, ih]
    cases hf : isFileAt t q with
    | true =>
      rw [List.filter_cons_of_pos hf, List.filter_cons_of_neg (by simp [hboth hf]), List.map_cons,
        List.sum_cons, Bool.true_or, if_pos rfl]
      omega
    | false =>
      rw [List.filter_cons_of_neg (by simp [hf])]
      cases hb : isBare t q with
      | true =>
        rw [List.filter_cons_of_pos hb, List.map_cons, List.sum_cons, Bool.or_true, if_pos rfl]
        omega
      | false =>
        rw [List.filter_cons_of_neg (by simp [hb]), Bool.or_false, if_neg Bool.false_ne_true]
        omega

/-- What the walk's paths cost is known from the source. -/
theorem pathCost_visited
    (hdirs : ∀ d ∈ emptyDirs, ∃ k, At t k (components d) ∧ (nodeAt t k).isDir = true) :
    pathCost t visited = keptPathBytes files emptyDirs := by
  have hfiles := ((files_visited h hv hdeep).map fun q => utf8Len q.1).sum_eq
  have hfolders := ((folders_visited h hv hdeep hdirs).map fun cs => utf8Len (joined cs)).sum_eq
  rw [List.map_map, List.map_map] at hfiles
  rw [List.map_map] at hfolders
  rw [pathCost_split, keptPathBytes]
  exact congrArg₂ (· + ·) hfiles hfolders

end Visits

/-! ## What goes in comes back out -/

/-- A source that serves every file its contents, known by the path with single slashes. -/
def ServesAll (source : Source) (contents : Text → Bytes) (files : List SourceFile) : Prop :=
  ∀ f ∈ files, Serves source (trimSlashes f.path) (contents (sourcePath f)) ∧
    (contents (sourcePath f)).length = f.size

/-- A source of names the reader lists, at most 32 folders deep, with at most a million entries in
folders of less than 64 MiB. -/
structure InReach (p : ExfatPlan) (files : List SourceFile) (emptyDirs : List Text) : Prop where
  file_names : ∀ f ∈ files, ∀ c ∈ components f.path, Listed c
  dir_names : ∀ d ∈ emptyDirs, ∀ c ∈ components d, Listed c
  file_depth : ∀ f ∈ files, (components f.path).length ≤ maxDepth + 1
  dir_depth : ∀ d ∈ emptyDirs, (components d).length ≤ maxDepth
  entries : p.files + p.directories ≤ maxEntries
  folders : ∀ d ∈ p.l.dirs, dirBytes p.tree d < maxDirBytes

/-- A source in reach whose paths fit the walk's budget, with less than 64 MiB of clusters for the
root. -/
structure WithinLimits (p : ExfatPlan) (files : List SourceFile) (emptyDirs : List Text) : Prop
    extends InReach p files emptyDirs where
  root : (nodeAt p.tree 0).size < maxDirBytes
  paths : keptPathBytes files emptyDirs ≤ maxPathBytes

/-- An image that is what was planned: walked and read it gives the source back, and its table, its
bitmap and its clusters agree. -/
structure ReadsBack (p : ExfatPlan) (contents : Text → Bytes) (files : List SourceFile)
    (emptyDirs : List Text) (file : Image) : Prop where
  walk : ∀ label, ∃ v, fromFile file label = .ok v ∧ ∃ walked empty s,
    exec (walkTree v) Held.fresh = (.ok (walked, empty), s) ∧
    (walked.map fun f => (f.path, f.size)).Perm (files.map fun f => (sourcePath f, f.size)) ∧
    empty.Perm ((emptyFolders files emptyDirs).map joined) ∧
    ∀ calls : List Call, (∀ c ∈ calls, c.file ∈ walked) → readCalls v calls s =
      calls.map fun c => .ok (((contents c.file.path).drop c.offset).take c.len)
  chains : ∀ a ∈ allocations p, ∀ c, a.1 ≤ c → c < a.1 + a.2 →
    leAt file.bytes (fatOffsetSectors * sectorBytes + 4 * c) 4 =
      if c + 1 = a.1 + a.2 then fatEnd else c + 1
  disjoint : (allocations p).Pairwise fun a b => a.1 + a.2 ≤ b.1
  bitmap : ∀ c, firstHeapCluster ≤ c → c < p.l.clusterCount + 2 →
    (bitOf (file.bytes.drop (p.l.heapSectors * sectorBytes)) (c - firstHeapCluster) = true ↔
      ∃ a ∈ allocations p, a.1 ≤ c ∧ c < a.1 + a.2)

section Depth

variable {upcase : Bytes} {isNfc : Text → Bool} {files : List SourceFile} {emptyDirs : List Text}
  {t : Tree} {p : ExfatPlan}
  (h : Holding upcase isNfc (Above files emptyDirs)
    (files.map fun f => (trimSlashes f.path, f.size)) t)
  (hr : InReach p files emptyDirs)
include h hr

theorem dir_depth {k : Nat} {cs : List Text} (hk : At t k cs) (hd : (nodeAt t k).isDir = true) :
    cs.length ≤ maxDepth := by
  rcases h.dir_at k cs hk hd with rfl | ⟨f, hf, hps, hne⟩ | ⟨d, hd, hps⟩
  · exact Nat.zero_le _
  · have hlen := hps.length_le
    have hmax := hr.file_depth f hf
    have : cs.length ≠ (components f.path).length := fun heq => hne (hps.eq_of_length heq)
    omega
  · exact Nat.le_trans hps.length_le (hr.dir_depth d hd)

theorem node_depth {k : Nat} {cs : List Text} (hk : At t k cs) : cs.length ≤ maxDepth + 1 := by
  cases hd : (nodeAt t k).isDir with
  | true => exact Nat.le_succ_of_le (dir_depth h hr hk hd)
  | false =>
    obtain ⟨f, hf, rfl⟩ := h.source_of_file hk hd
    exact hr.file_depth f hf

theorem kid_listed {i k : Nat} (hk : k ∈ kids t i) : Listed (nodeAt t k).name := by
  obtain ⟨cs, hi⟩ := at_exists h.forest (lt_of_kid hk)
  have hat := At.kid hi hk
  have hlast : (nodeAt t k).name ∈ cs ++ [(nodeAt t k).name] := by simp
  cases hd : (nodeAt t k).isDir with
  | false =>
    obtain ⟨f, hf, heq⟩ := h.source_of_file hat hd
    exact hr.file_names f hf _ (heq ▸ hlast)
  | true =>
    rcases h.dir_at k _ hat hd with hnil | ⟨f, hf, hps, -⟩ | ⟨d, hd, hps⟩
    · simp at hnil
    · exact hr.file_names f hf _ (hps.subset hlast)
    · exact hr.dir_names d hd _ (hps.subset hlast)

end Depth

/-- No two folders start at one cluster. -/
theorem Laid.first_inj {upcase : Bytes} {t u : Tree} {l : Layout} (h : Laid upcase t u l) {i j : Nat}
    (hi : i ∈ l.dirs) (hj : j ∈ l.dirs)
    (heq : (nodeAt u i).firstCluster = (nodeAt u j).firstCluster) : i = j := by
  have hpos : ∀ d ∈ l.dirs, 0 < (nodeAt u d).clusters := fun d hd => by
    rw [h.dir_clusters d hd, dirClusters]
    omega
  have hbehind : ∀ {a b c i j}, l.order = a ++ i :: (b ++ j :: c) → i ∈ l.dirs → j ∈ l.dirs →
      (nodeAt u i).firstCluster < (nodeAt u j).firstCluster := fun {a b c i j} ho hi hj => by
    have hplaced := h.placed
    rw [ho] at hplaced
    have hfirst := hplaced.first (hpos i hi)
    rw [← List.cons_append, ← List.append_assoc] at hplaced
    have hsecond := hplaced.first (hpos j hj)
    have := hpos i hi
    rw [clustersOf_append, clustersOf_cons] at hsecond
    omega
  by_contra hne
  obtain ⟨a, b, ho⟩ := List.append_of_mem (show i ∈ l.order from List.mem_append_left _ hi)
  have hmem : j ∈ a ++ i :: b := ho ▸ List.mem_append_left _ hj
  rcases List.mem_append.1 hmem with hin | hin
  · obtain ⟨a₁, a₂, rfl⟩ := List.append_of_mem hin
    rw [List.append_assoc, List.cons_append] at ho
    have := hbehind ho hj hi
    omega
  · obtain ⟨b₁, b₂, rfl⟩ := List.append_of_mem ((List.mem_cons.1 hin).resolve_left (Ne.symm hne))
    have := hbehind ho hi hj
    omega

/-- A folder's clusters are at most as many as 64 MiB of entries take. -/
theorem Laid.dir_size_le {upcase : Bytes} {t u : Tree} {l : Layout} (h : Laid upcase t u l) {d : Nat}
    (hd : d ∈ l.dirs) (hbytes : dirBytes u d < maxDirBytes) : (nodeAt u d).size ≤ maxDirBytes := by
  obtain ⟨k, hk, hk9, hk25⟩ := usableCluster_bounds h.usable
  have hwhole : maxDirBytes = 2 ^ (26 - k) * l.cluster := by
    rw [hk, ← pow_add, Nat.sub_add_cancel (by omega)]
    rfl
  have hpos : 0 < l.cluster := by
    rw [hk]
    exact Nat.two_pow_pos k
  have hlt := blocks_lt hpos (dirBytes u d)
  have hblocks : dirBytes u d ⌈/⌉ l.cluster < 2 ^ (26 - k) + 1 := by
    refine Nat.lt_of_mul_lt_mul_right (a := l.cluster) ?_
    rw [Nat.add_mul, Nat.one_mul, ← hwhole]
    omega
  rw [h.dir_size d hd, h.dir_clusters d hd, dirClusters, hwhole]
  refine Nat.mul_le_mul_right _ ?_
  have := Nat.two_pow_pos (26 - k)
  omega

/-- The empty folders of a source are in the tree when it is laid out, too. -/
theorem Laid.dirs_there {upcase : Bytes} {t u : Tree} {l : Layout} (h : Laid upcase t u l)
    {emptyDirs : List Text}
    (hdirs : ∀ d ∈ emptyDirs, ∃ k, At t k (components d) ∧ (nodeAt t k).isDir = true) :
    ∀ d ∈ emptyDirs, ∃ k, At u k (components d) ∧ (nodeAt u k).isDir = true := fun d hd => by
  obtain ⟨k, hk, hkd⟩ := hdirs d hd
  exact ⟨k, at_congr h.shape.kids_eq h.shape.name_eq hk, (h.shape.isDir_eq k).trans hkd⟩

namespace Written

variable {upcase : Bytes} {isNfc : Text → Bool} {files : List SourceFile} {emptyDirs : List Text}
  {t : Tree} {p : ExfatPlan} {source : Source} {file : Image} (h : Written upcase t p source file)
  (hh : Holding upcase isNfc (Above files emptyDirs)
    (files.map fun f => (trimSlashes f.path, f.size)) p.tree)
include h

theorem readable (hh : Holding upcase isNfc (Above files emptyDirs)
    (files.map fun f => (trimSlashes f.path, f.size)) p.tree) (hr : InReach p files emptyDirs) (d : Nat) :
    ∀ k ∈ kids p.tree d, Readable (nodeAt p.tree k) := fun k hk => by
  have hmem := h.laid.mem_order (hh.forest.kid_lt hk)
  have hfirst := h.first_lt hmem
  have hsize := h.size_le hmem
  have hlen := h.len_eq
  have hfits := file.len_lt
  exact ⟨hh.named.units_eq d k hk, storable_of_units (hh.named.name_ok d k hk), kid_listed hh hr hk,
    by omega, by omega⟩

include hh in
/-- A walk has room for the image, if its paths fit the budget. -/
theorem room {visited : List (Nat × List Text)} {levels : Nat} (hv : visited = below p.tree levels 0 [])
    (hcost : pathCost p.tree visited ≤ maxPathBytes) :
    Room p.tree ⟨[], [], [(nodeAt p.tree 0).firstCluster], 0, 0⟩ visited := by
  refine ⟨(Nat.zero_add _).trans_le hcost, ?_⟩
  have hnodup := nodup_visited hh hv
  have hdir : ∀ q ∈ visited.filter (isDirAt p.tree), q.1 ∈ p.l.dirs := fun q hq => by
    obtain ⟨hmem, hd⟩ := List.mem_filter.1 hq
    exact h.laid.mem_dirs (At.lt hh.forest (at_visited hv hmem).1) hd
  obtain ⟨rest, hdirs⟩ := h.laid.dirs_eq
  have hroot : 0 ∈ p.l.dirs := hdirs ▸ List.mem_cons_self
  refine List.nodup_append'.2 ⟨List.nodup_reverse.2 ?_, List.nodup_singleton _, fun c hc hc' => ?_⟩
  · refine ((hnodup.of_map Prod.fst).filter _).map_on fun q hq q' hq' heq => ?_
    exact List.inj_on_of_nodup_map hnodup (List.mem_filter.1 hq).1 (List.mem_filter.1 hq').1
      (h.laid.first_inj (hdir q hq) (hdir q' hq') heq)
  · rw [List.mem_singleton] at hc'
    obtain ⟨q, hq, hfirst⟩ := List.mem_map.1 (List.mem_reverse.1 hc)
    have h0 := h.laid.first_inj (hdir q hq) hroot (hfirst.trans hc')
    obtain ⟨hat, hne⟩ := at_visited hv (List.mem_filter.1 hq).1
    rw [h0] at hat
    exact hne (hat.unique hh.forest .root)

/-- Any sequence of reads of files that are served. -/
theorem readCalls_written {contents : Text → Bytes} {calls : List Call}
    (hcalls : ∀ c ∈ calls, ∃ q : Nat × List Text, q.1 ∈ p.l.files ∧ c.file = fileAt p.tree q ∧
      Serves source (nodeAt p.tree q.1).src (contents c.file.path) ∧
      (contents c.file.path).length = (nodeAt p.tree q.1).size) {s : Held}
    (hs : (volumeOf p file).Keeps s) : readCalls (volumeOf p file) calls s =
      calls.map fun c => .ok (((contents c.file.path).drop c.offset).take c.len) := by
  induction calls generalizing s with
  | nil => rfl
  | cons c cs ih =>
    obtain ⟨q, hq, hfile, hserve, hsize⟩ := hcalls c List.mem_cons_self
    obtain ⟨hread, hkeeps⟩ := h.readFile_written hq hserve hsize q.2 c.offset c.len hs
    rw [← hfile] at hread hkeeps
    rw [readCalls, List.map_cons, hread, ih (fun c' hc' => hcalls c' (List.mem_cons_of_mem c hc')) hkeeps]

end Written

section Plan

variable {upcase : Bytes} {isNfc : Text → Bool} {files : List SourceFile} {emptyDirs : List Text}
  {override : Option Nat} {extraFree : Nat} {p : ExfatPlan} {source : Source}
  {contents : Text → Bytes} (hplan : planExfat upcase isNfc files emptyDirs override extraFree = .ok p)
include hplan

theorem imageBytes_lt : p.imageBytes < 2 ^ 63 := by
  obtain ⟨t, -, -, hlaid, -, hbytes⟩ := planExfat_laid hplan
  obtain ⟨k, hk, -, hk25⟩ := usableCluster_bounds hlaid.usable
  have hcount := hlaid.count_lt
  have hheap := hlaid.heap_lt
  have hsector : sectorBytes = 512 := rfl
  have hcluster : p.l.cluster ≤ 2 ^ 25 := by
    rw [hk]
    exact Nat.pow_le_pow_right (by omega) hk25
  have hmul : p.l.clusterCount * p.l.cluster ≤ 2 ^ 32 * 2 ^ 25 := Nat.mul_le_mul (by omega) hcluster
  rw [hbytes, hsector]
  omega

theorem plan_writes (hserve : ServesAll source contents files) :
    (writeExfat p source).failed = none ∧ (writeExfat p source).out.length = p.imageBytes := by
  obtain ⟨t, hbuild, -, hlaid, hused, hbytes⟩ := planExfat_laid hplan
  have hholding := (buildTree_holding hbuild).1.laid hlaid
  have hok : (writeExfat p source).failed = none := writeExfat_served fun k hk => by
    have hlt : k < p.tree.length :=
      List.mem_range.1 (hlaid.perm.subset (List.mem_append_right _ hk))
    have hmem := mem_filesOf.2 ⟨k, hlt, hlaid.files_file k hk, rfl⟩
    rw [hholding.files_eq] at hmem
    obtain ⟨f, hf, hq⟩ := List.mem_map.1 hmem
    obtain ⟨hserves, hsize⟩ := hserve f hf
    exact ⟨_, (Prod.mk.inj hq).1 ▸ hserves, hsize.trans (Prod.mk.inj hq).2⟩
  exact ⟨hok, (length_writeExfat hlaid hused hok).trans hbytes.symm⟩

theorem entries_le (hh : Holding upcase isNfc (Above files emptyDirs)
      (files.map fun f => (trimSlashes f.path, f.size)) p.tree)
    {visited : List (Nat × List Text)} {levels : Nat} (hv : visited = below p.tree levels 0 [])
    (hr : InReach p files emptyDirs) : visited.length ≤ maxEntries := by
  obtain ⟨t, -, -, hlaid, -, -⟩ := planExfat_laid hplan
  obtain ⟨hfiles, hdirectories⟩ := planExfat_counts hplan
  have hlen := hlaid.perm.length_eq
  have hvisited := length_visited hh hv
  have hentries := hr.entries
  rw [Layout.order, List.length_append, List.length_range] at hlen
  omega

/-- The walk of the image, and the reads of what it lists. -/
theorem plan_walks (hserve : ServesAll source contents files) (hlimits : WithinLimits p files emptyDirs)
    {file : Image} (hfile : file.bytes = (writeExfat p source).out) : ∃ walked empty s,
      exec (walkTree (volumeOf p file)) Held.fresh = (.ok (walked, empty), s) ∧
      (walked.map fun f => (f.path, f.size)).Perm (files.map fun f => (sourcePath f, f.size)) ∧
      empty.Perm ((emptyFolders files emptyDirs).map joined) ∧
      ∀ calls : List Call, (∀ c ∈ calls, c.file ∈ walked) → readCalls (volumeOf p file) calls s =
        calls.map fun c => .ok (((contents c.file.path).drop c.offset).take c.len) := by
  obtain ⟨t, hbuild, hforest, hlaid, hused, -⟩ := planExfat_laid hplan
  obtain ⟨hok, -⟩ := plan_writes hplan hserve
  have hw : Written upcase t p source file := ⟨hlaid, hused, hok, hfile⟩
  have hh := (buildTree_holding hbuild).1.laid hlaid
  have hdirs := hlaid.dirs_there (buildTree_holding hbuild).2
  have hreach := hlimits.toInReach
  have hdeep : ∀ k cs, At p.tree k cs → cs.length ≤ maxDepth + 1 := fun k cs hk =>
    node_depth hh hreach hk
  obtain ⟨visited, hv⟩ : ∃ visited, visited = below p.tree (maxDepth + 1) 0 [] := ⟨_, rfl⟩
  have hplain := hw.plainWalk_written hh.forest (hw.readable hh hreach)
    (fun d hd => hlaid.dir_size_le hd (hreach.folders d hd)) hlimits.root
    (fun d hd cs hat => dir_depth hh hreach hat (hlaid.dirs_dir d hd)) hv
    (hw.room hh hv ((pathCost_visited hh hv hdeep hdirs).trans_le hlimits.paths))
    (entries_le hplan hh hv hreach)
  obtain ⟨halike, hkeeps⟩ := walkTree_like hw.sound Held.fresh (keeps_fresh _)
  rw [hplain] at halike
  cases hr : (exec (walkTree (volumeOf p file)) Held.fresh).1 with
  | error e =>
    rw [hr] at halike
    cases e <;> exact halike.elim
  | ok q =>
    rw [hr] at halike
    obtain ⟨rfl, -⟩ := halike
    refine ⟨_, _, _, Prod.ext hr rfl, ?_, ?_, fun calls hcalls => ?_⟩
    · refine ((List.mergeSort_perm _ _).map _).trans ?_
      rw [List.map_map]
      exact files_visited hh hv hdeep
    · refine (List.mergeSort_perm _ _).trans ?_
      have := (folders_visited hh hv hdeep hdirs).map joined
      rwa [List.map_map] at this
    · refine hw.readCalls_written (fun c hc => ?_) hkeeps
      obtain ⟨q, hq, heq⟩ := List.mem_map.1 (List.mem_mergeSort.1 (hcalls c hc))
      obtain ⟨hmem, hfileAt⟩ := List.mem_filter.1 hq
      obtain ⟨hat, -⟩ := at_visited hv hmem
      have hd : (nodeAt p.tree q.1).isDir = false := by simpa [isFileAt] using hfileAt
      have hlt := At.lt hh.forest hat
      have hsource := mem_filesOf.2 ⟨q.1, hlt, hd, rfl⟩
      rw [hh.files_eq] at hsource
      obtain ⟨f, hf, hfq⟩ := List.mem_map.1 hsource
      obtain ⟨hsrc, hsize⟩ := Prod.mk.inj hfq
      obtain ⟨hserves, hlen⟩ := hserve f hf
      have hpath : c.file.path = sourcePath f := by
        rw [← heq, sourcePath, ← components_trimSlashes, hsrc]
        show joined q.2 = _
        rw [hat.unique hh.forest (hh.file_at q.1 hlt hd)]
      exact ⟨q, hlaid.mem_files hlt hd, heq.symm, hpath ▸ hsrc ▸ hserves, hpath ▸ hlen.trans hsize⟩

/-- **What goes in comes back out.**  A planned source is written in as many bytes as planned; the
image opens, its walk lists the source's files with their sizes and the folders that hold nothing, and
every read, in any order, returns the source's bytes.  Every allocation is a chain of the table, no two
share a cluster, and the bitmap marks exactly their clusters. -/
theorem written_reads_back (hserve : ServesAll source contents files)
    (hlimits : WithinLimits p files emptyDirs) :
    (writeExfat p source).failed = none ∧ (writeExfat p source).out.length = p.imageBytes ∧
      ∃ file : Image, file.bytes = (writeExfat p source).out ∧
        ReadsBack p contents files emptyDirs file := by
  obtain ⟨hok, hlen⟩ := plan_writes hplan hserve
  obtain ⟨t, -, -, hlaid, hused, -⟩ := planExfat_laid hplan
  obtain ⟨file, hfile⟩ : ∃ file : Image, file.bytes = (writeExfat p source).out :=
    ⟨⟨_, hlen ▸ imageBytes_lt hplan⟩, rfl⟩
  have hw : Written upcase t p source file := ⟨hlaid, hused, hok, hfile⟩
  refine ⟨hok, hlen, file, hfile, fun label => ⟨_, hw.fromFile_eq label, ?_⟩, fun a ha c hc hlast => ?_,
    (allocations_tile hlaid hused).pairwise, fun c hc hlt => hw.bitmap_marks hc hlt⟩
  · exact plan_walks hplan hserve hlimits hfile
  · exact hw.slot_chain (allocations_chained hlaid ha) hc hlast

end Plan

/-! ## A small source -/

def smallFiles : List SourceFile := [⟨"a/b".toList, 3⟩]

def smallDirs : List Text := ["c".toList]

def smallSource : Source := fun _ off len => .ok (([7, 8, 9].drop off).take len)

/-- The limits of a plan of the small source, checked. -/
def smallFits (p : ExfatPlan) : Bool :=
  decide (p.files + p.directories ≤ maxEntries) &&
    p.l.dirs.all (fun d => decide (dirBytes p.tree d < maxDirBytes)) &&
    decide ((nodeAt p.tree 0).size < maxDirBytes)

theorem smallPlan_ok : ∃ p, planExfat [] (fun _ => true) smallFiles smallDirs (some 65536) 0 = .ok p ∧
    smallFits p = true := by
  have h : (match planExfat [] (fun _ => true) smallFiles smallDirs (some 65536) 0 with
      | .ok p => smallFits p
      | .error _ => false) = true := by decide +kernel
  cases hp : planExfat [] (fun _ => true) smallFiles smallDirs (some 65536) 0 with
  | error e =>
    rw [hp] at h
    cases h
  | ok p =>
    rw [hp] at h
    exact ⟨p, rfl, h⟩

theorem written_reads_back_small : ∃ p,
    planExfat [] (fun _ => true) smallFiles smallDirs (some 65536) 0 = .ok p ∧
    ((writeExfat p smallSource).failed = none ∧
      (writeExfat p smallSource).out.length = p.imageBytes ∧
      ∃ file : Image, file.bytes = (writeExfat p smallSource).out ∧
        ReadsBack p (fun _ => [7, 8, 9]) smallFiles smallDirs file) := by
  obtain ⟨p, hp, hfits⟩ := smallPlan_ok
  unfold smallFits at hfits
  rw [Bool.and_eq_true, Bool.and_eq_true, decide_eq_true_eq, decide_eq_true_eq, List.all_eq_true]
    at hfits
  obtain ⟨⟨hentries, hfolders⟩, hroot⟩ := hfits
  refine ⟨p, hp, written_reads_back hp (fun f hf => ?_)
    ⟨⟨by decide, by decide, by decide, by decide, hentries, fun d hd => of_decide_eq_true (hfolders d hd)⟩,
      hroot, by decide +kernel⟩⟩
  rw [List.mem_singleton.1 hf]
  exact ⟨fun _ _ => rfl, rfl⟩

end Ps5Upload.Exfat
