import Ps5Upload.Fpkg.Exfat.Forest

/-!
# exFAT: where a plan puts things

What `layout` and `plan_exfat` leave of an image they accept (`Laid`): every folder and file has its
clusters, handed out one after another behind the bitmap and the up-case table, and the table, the
heap and the bitmap are large enough for them.

* `SameShape` — trees that differ in sizes and clusters only.
-/

namespace Ps5Upload.Exfat

open ByteFile Checked Caching Blocks Utf16

/-! ## Trees of one shape -/

/-- A node without what the layout changes. -/
def Node.face (n : Node) : Node := { n with size := 0, firstCluster := 0, clusters := 0 }

/-- The trees differ in sizes and clusters only. -/
structure SameShape (t u : Tree) : Prop where
  length_eq : t.length = u.length
  face_eq : ∀ i, (nodeAt t i).face = (nodeAt u i).face

namespace SameShape

variable {t u w : Tree}

theorem refl (t : Tree) : SameShape t t := ⟨rfl, fun _ => rfl⟩

theorem trans (h : SameShape t u) (h' : SameShape u w) : SameShape t w :=
  ⟨h.length_eq.trans h'.length_eq, fun i => (h.face_eq i).trans (h'.face_eq i)⟩

theorem name_eq (h : SameShape t u) (i : Nat) : (nodeAt t i).name = (nodeAt u i).name :=
  (Node.mk.inj (h.face_eq i)).1

theorem units_eq (h : SameShape t u) (i : Nat) : (nodeAt t i).units = (nodeAt u i).units :=
  (Node.mk.inj (h.face_eq i)).2.1

theorem isDir_eq (h : SameShape t u) (i : Nat) : (nodeAt t i).isDir = (nodeAt u i).isDir :=
  (Node.mk.inj (h.face_eq i)).2.2.1

theorem src_eq (h : SameShape t u) (i : Nat) : (nodeAt t i).src = (nodeAt u i).src :=
  (Node.mk.inj (h.face_eq i)).2.2.2.1

theorem kids_eq (h : SameShape t u) (i : Nat) : kids t i = kids u i := by
  have hc : (nodeAt t i).children = (nodeAt u i).children := (Node.mk.inj (h.face_eq i)).2.2.2.2.2.1
  rw [kids, hc]
  rfl

theorem dirBytes_eq (h : SameShape t u) (i : Nat) : dirBytes t i = dirBytes u i := by
  unfold dirBytes
  rw [h.kids_eq]
  congr 2
  exact List.map_congr_left fun k _ => by rw [h.units_eq]

end SameShape

theorem sameShape_modify {f : Node → Node} (hf : ∀ n, (f n).face = n.face) (t : Tree) (i : Nat) :
    SameShape (t.modify i f) t := by
  refine ⟨List.length_modify .., fun j => ?_⟩
  rw [nodeAt_modify]
  split
  · exact hf _
  · rfl

/-! ## Sizes -/

/-- The clusters of a folder. -/
def dirClusters (cluster : Nat) (t : Tree) (i : Nat) : Nat := max (dirBytes t i ⌈/⌉ cluster) 1

theorem sameShape_sizeDirs (cluster : Nat) (dirs : List Nat) (t : Tree) :
    SameShape (sizeDirs cluster dirs t) t := by
  induction dirs generalizing t with
  | nil => exact SameShape.refl t
  | cons d dirs ih =>
    refine (ih _).trans (sameShape_modify ?_ t d)
    exact fun _ => rfl

theorem nodeAt_sizeDirs {cluster : Nat} {dirs : List Nat} (hn : dirs.Nodup) {t : Tree}
    (hlt : ∀ d ∈ dirs, d < t.length) (i : Nat) :
    nodeAt (sizeDirs cluster dirs t) i =
      if i ∈ dirs then { nodeAt t i with
        clusters := dirClusters cluster t i
        size := dirClusters cluster t i * cluster }
      else nodeAt t i := by
  induction dirs generalizing t with
  | nil => rfl
  | cons d dirs ih =>
    obtain ⟨hd, hn⟩ := List.nodup_cons.1 hn
    have hshape : ∀ c : Nat, SameShape (t.modify d fun n => { n with
        clusters := c, size := c * cluster }) t := fun c => by
      refine sameShape_modify ?_ t d
      exact fun _ => rfl
    rw [sizeDirs, ih hn fun e he => by
      rw [(hshape _).length_eq]
      exact hlt e (List.mem_cons_of_mem d he)]
    have hclusters : ∀ c, dirClusters cluster (t.modify d fun n => { n with
        clusters := c, size := c * cluster }) i = dirClusters cluster t i := fun c => by
      rw [dirClusters, (hshape c).dirBytes_eq, dirClusters]
    rw [hclusters, nodeAt_modify]
    by_cases hi : d = i
    · subst hi
      rw [if_neg hd, if_pos ⟨rfl, hlt d List.mem_cons_self⟩, if_pos List.mem_cons_self]
      rfl
    · by_cases hmem : i ∈ dirs
      · rw [if_pos hmem, if_pos (List.mem_cons_of_mem d hmem), if_neg fun h => hi h.1]
      · rw [if_neg hmem, if_neg fun h => hi h.1,
          if_neg fun h => (List.mem_cons.1 h).elim (fun h => hi h.symm) hmem]

theorem sameShape_sizeFiles (cluster : Nat) (files : List Nat) (t : Tree) :
    SameShape (sizeFiles cluster files t) t := by
  induction files generalizing t with
  | nil => exact SameShape.refl t
  | cons f files ih =>
    refine (ih _).trans (sameShape_modify ?_ t f)
    exact fun _ => rfl

theorem nodeAt_sizeFiles {cluster : Nat} {files : List Nat} (hn : files.Nodup) {t : Tree}
    (hlt : ∀ f ∈ files, f < t.length) (i : Nat) :
    nodeAt (sizeFiles cluster files t) i =
      if i ∈ files then { nodeAt t i with clusters := (nodeAt t i).size ⌈/⌉ cluster }
      else nodeAt t i := by
  induction files generalizing t with
  | nil => rfl
  | cons f files ih =>
    obtain ⟨hf, hn⟩ := List.nodup_cons.1 hn
    rw [sizeFiles, ih hn fun e he => by
      rw [List.length_modify]
      exact hlt e (List.mem_cons_of_mem f he)]
    rw [nodeAt_modify]
    by_cases hi : f = i
    · subst hi
      rw [if_neg hf, if_pos ⟨rfl, hlt f List.mem_cons_self⟩, if_pos List.mem_cons_self]
    · by_cases hmem : i ∈ files
      · rw [if_pos hmem, if_pos (List.mem_cons_of_mem f hmem), if_neg fun h => hi h.1]
      · rw [if_neg hmem, if_neg fun h => hi h.1,
          if_neg fun h => (List.mem_cons.1 h).elim (fun h => hi h.symm) hmem]

/-! ## Clusters -/

/-- The nodes at some places hold the clusters from `next` on, one node after another; a node of no
clusters has none to start at. -/
def Placed (t : Tree) : List Nat → Nat → Prop
  | [], _ => True
  | i :: order, next =>
    (nodeAt t i).firstCluster = (if (nodeAt t i).clusters = 0 then 0 else next) ∧
      Placed t order (next + (nodeAt t i).clusters)

theorem nodeAt_handOut (order : List Nat) (next : Nat) (t : Tree) (i : Nat) :
    ∃ c, nodeAt (handOut order next t) i = { nodeAt t i with firstCluster := c } ∧
      (i ∉ order → c = (nodeAt t i).firstCluster) := by
  induction order generalizing next t with
  | nil => exact ⟨_, rfl, fun _ => rfl⟩
  | cons d order ih =>
    rw [handOut]
    obtain ⟨c, hc, hkeep⟩ := ih (next + (nodeAt t d).clusters) (t.modify d fun n =>
      { n with firstCluster := if n.clusters = 0 then 0 else next })
    rw [nodeAt_modify] at hc hkeep
    by_cases hi : d = i ∧ i < t.length
    · rw [if_pos hi] at hc
      exact ⟨c, hc, fun hmem => absurd (hi.1 ▸ List.mem_cons_self) hmem⟩
    · rw [if_neg hi] at hc hkeep
      exact ⟨c, hc, fun hmem => hkeep fun h => hmem (List.mem_cons_of_mem d h)⟩

theorem length_handOut (order : List Nat) (next : Nat) (t : Tree) :
    (handOut order next t).length = t.length := by
  induction order generalizing next t with
  | nil => rfl
  | cons d order ih => rw [handOut, ih, List.length_modify]

theorem sameShape_handOut (order : List Nat) (next : Nat) (t : Tree) :
    SameShape (handOut order next t) t := by
  refine ⟨length_handOut order next t, fun i => ?_⟩
  obtain ⟨c, hc, -⟩ := nodeAt_handOut order next t i
  rw [hc]
  rfl

theorem handOut_clusters (order : List Nat) (next : Nat) (t : Tree) (i : Nat) :
    (nodeAt (handOut order next t) i).clusters = (nodeAt t i).clusters := by
  obtain ⟨c, hc, -⟩ := nodeAt_handOut order next t i
  rw [hc]

theorem handOut_size (order : List Nat) (next : Nat) (t : Tree) (i : Nat) :
    (nodeAt (handOut order next t) i).size = (nodeAt t i).size := by
  obtain ⟨c, hc, -⟩ := nodeAt_handOut order next t i
  rw [hc]

theorem clustersOf_handOut (order' order : List Nat) (next : Nat) (t : Tree) :
    clustersOf (handOut order next t) order' = clustersOf t order' := by
  unfold clustersOf
  rw [List.map_congr_left fun i _ => handOut_clusters order next t i]

theorem placed_handOut {order : List Nat} (hn : order.Nodup) (next : Nat) {t : Tree}
    (hlt : ∀ i ∈ order, i < t.length) : Placed (handOut order next t) order next := by
  induction order generalizing next t with
  | nil => trivial
  | cons d order ih =>
    obtain ⟨hd, hn⟩ := List.nodup_cons.1 hn
    have hnode : nodeAt (t.modify d fun n =>
        { n with firstCluster := if n.clusters = 0 then 0 else next }) d =
        { nodeAt t d with firstCluster := if (nodeAt t d).clusters = 0 then 0 else next } := by
      rw [nodeAt_modify, if_pos ⟨rfl, hlt d List.mem_cons_self⟩]
    rw [handOut]
    obtain ⟨c, hc, hkeep⟩ := nodeAt_handOut order (next + (nodeAt t d).clusters) (t.modify d fun n =>
      { n with firstCluster := if n.clusters = 0 then 0 else next }) d
    rw [hnode] at hc hkeep
    constructor
    · rw [hc]
      exact hkeep hd
    · rw [hc]
      refine ih hn _ fun i hi => ?_
      rw [List.length_modify]
      exact hlt i (List.mem_cons_of_mem d hi)

/-- What stands behind a node is placed behind its clusters. -/
theorem Placed.append {t : Tree} {a b : List Nat} {next : Nat} (h : Placed t (a ++ b) next) :
    Placed t a next ∧ Placed t b (next + clustersOf t a) := by
  induction a generalizing next with
  | nil => exact ⟨trivial, h⟩
  | cons i a ih =>
    obtain ⟨ha, hb⟩ := ih h.2
    refine ⟨⟨h.1, ha⟩, ?_⟩
    rw [clustersOf, List.map_cons, List.sum_cons, ← Nat.add_assoc]
    exact hb

theorem Placed.first {t : Tree} {a b : List Nat} {i next : Nat} (h : Placed t (a ++ i :: b) next)
    (hc : 0 < (nodeAt t i).clusters) : (nodeAt t i).firstCluster = next + clustersOf t a := by
  have hi := h.append.2.1
  rw [if_neg (by omega)] at hi
  exact hi

theorem clustersOf_append (t : Tree) (a b : List Nat) :
    clustersOf t (a ++ b) = clustersOf t a + clustersOf t b := by
  rw [clustersOf, List.map_append, List.sum_append]
  rfl

theorem clustersOf_cons (t : Tree) (i : Nat) (a : List Nat) :
    clustersOf t (i :: a) = (nodeAt t i).clusters + clustersOf t a := rfl

/-! ## The layout -/

/-- A bitmap that settled covers every cluster, its own among them. -/
theorem settleBitmap_ok {cluster others turns b r : Nat} (hb : 0 < b)
    (h : settleBitmap cluster others turns b = .ok r) :
    r = max (((others + r) ⌈/⌉ 8) ⌈/⌉ cluster) 1 := by
  induction turns generalizing b with
  | zero => cases h
  | succ turns ih =>
    rw [settleBitmap] at h
    split at h
    · rename_i heq
      cases h
      exact heq.symm
    · exact ih (by omega) h

theorem padCount_ok {cluster turns count r : Nat} (h : padCount cluster turns count = .ok r) :
    count ≤ r := by
  induction turns generalizing count with
  | zero => cases h
  | succ turns ih =>
    rw [padCount] at h
    split at h
    · exact Nat.le_of_succ_le (ih h)
    · cases h
      exact Nat.le_refl _

/-- Clusters in front of the folders': the bitmap's and the up-case table's. -/
def Layout.tableClusters (l : Layout) : Nat := l.bitmapClusters + l.upcase.length ⌈/⌉ l.cluster

/-- Everything in the order its clusters are laid down. -/
def Layout.order (l : Layout) : List Nat := l.dirs ++ l.files

/-- What holds of a tree `t` laid out as `u` by `l`. -/
structure Laid (upcase : Bytes) (t u : Tree) (l : Layout) : Prop where
  shape : SameShape u t
  upcase_eq : l.upcase = upcase
  usable : usableCluster l.cluster = true
  perm : l.order.Perm (List.range u.length)
  root_first : [0] <+: l.dirs
  dirs_dir : ∀ d ∈ l.dirs, (nodeAt u d).isDir = true
  files_file : ∀ f ∈ l.files, (nodeAt u f).isDir = false
  dir_clusters : ∀ d ∈ l.dirs, (nodeAt u d).clusters = dirClusters l.cluster u d
  dir_size : ∀ d ∈ l.dirs, (nodeAt u d).size = (nodeAt u d).clusters * l.cluster
  file_clusters : ∀ f ∈ l.files, (nodeAt u f).clusters = (nodeAt u f).size ⌈/⌉ l.cluster
  file_size : ∀ f ∈ l.files, (nodeAt u f).size = (nodeAt t f).size
  placed : Placed u l.order (firstHeapCluster + l.tableClusters)
  upcaseCluster_eq : l.upcaseCluster = firstHeapCluster + l.bitmapClusters
  bitmap_pos : 0 < l.bitmapClusters
  used_le : l.tableClusters + clustersOf u l.order ≤ l.clusterCount
  count_le : l.clusterCount ≤ maxClusters
  bitmapBytes_eq : l.bitmapBytes = l.clusterCount ⌈/⌉ 8
  bitmapBytes_le : l.bitmapBytes ≤ l.bitmapClusters * l.cluster
  fat_eq : l.fatSectors = fatSectorsFor l.clusterCount
  heap_eq : l.heapSectors = heapFor l.cluster l.clusterCount

theorem usableCluster_bounds {cluster : Nat} (h : usableCluster cluster = true) :
    ∃ k, cluster = 2 ^ k ∧ 9 ≤ k ∧ k ≤ 25 := by
  unfold usableCluster at h
  simp only [Bool.and_eq_true, decide_eq_true_eq] at h
  obtain ⟨⟨⟨k, hk⟩, hge⟩, hle⟩ := h
  refine ⟨k, hk, ?_, ?_⟩
  · have hlt : 2 ^ 8 < 2 ^ k := by
      rw [sectorBytes] at hge
      omega
    exact (Nat.pow_lt_pow_iff_right (by omega)).1 hlt
  · have hlt : 2 ^ k < 2 ^ 26 := by omega
    have := (Nat.pow_lt_pow_iff_right (by omega)).1 hlt
    omega

theorem layout_laid {upcase : Bytes} {t u : Tree} {override : Option Nat} {spare : Nat} {l : Layout}
    (ht : Forest t) (h : layout upcase t override spare = .ok (u, l)) : Laid upcase t u l := by
  unfold layout at h
  obtain ⟨dataBytes, -, h⟩ := bind_eq_ok.1 h
  dsimp only at h
  generalize override.getD (clusterSizeFor dataBytes) = cluster at h
  split at h
  · cases h
  rename_i husable
  rw [Bool.not_eq_false] at husable
  obtain ⟨dirs, files, htraverse, hperm, hroot, hdirs, hfiles⟩ := traverse_perm ht
  rw [htraverse, ok_bind] at h
  dsimp only at h
  obtain ⟨b, hbitmap, h⟩ := bind_eq_ok.1 h
  obtain ⟨count, hpad, h⟩ := bind_eq_ok.1 h
  split at h
  · cases h
  rename_i hcount
  split at h
  · cases h
  rename_i hcovers
  cases h
  have hnodup : (dirs ++ files).Nodup := hperm.nodup_iff.2 List.nodup_range
  obtain ⟨hdn, hfn, hdisj⟩ := List.nodup_append'.1 hnodup
  have hlt : ∀ i ∈ dirs ++ files, i < t.length := fun i hi => List.mem_range.1 (hperm.subset hi)
  have hdlt : ∀ d ∈ dirs, d < t.length := fun d hd => hlt d (List.mem_append_left _ hd)
  have hd := @nodeAt_sizeDirs cluster _ hdn _ hdlt
  have hlen := (sameShape_sizeDirs cluster dirs t).length_eq
  have hflt : ∀ f ∈ files, f < (sizeDirs cluster dirs t).length := fun f hf => by
    rw [hlen]
    exact hlt f (List.mem_append_right _ hf)
  have hf := @nodeAt_sizeFiles cluster _ hfn _ hflt
  have hshape : SameShape (sizeFiles cluster files (sizeDirs cluster dirs t)) t :=
    (sameShape_sizeFiles cluster files _).trans (sameShape_sizeDirs cluster dirs t)
  generalize hw : sizeFiles cluster files (sizeDirs cluster dirs t) = w at *
  have hdirNode : ∀ d ∈ dirs, (nodeAt w d).clusters = dirClusters cluster t d ∧
      (nodeAt w d).size = dirClusters cluster t d * cluster := fun d hmem => by
    rw [hf d, if_neg (hdisj hmem), hd d, if_pos hmem]
    exact ⟨rfl, rfl⟩
  have hfileNode : ∀ f ∈ files, (nodeAt w f).clusters = (nodeAt w f).size ⌈/⌉ cluster ∧
      (nodeAt w f).size = (nodeAt t f).size := fun f hmem => by
    rw [hf f, if_pos hmem, hd f, if_neg fun hmem' => hdisj hmem' hmem]
    exact ⟨rfl, rfl⟩
  have hsettled := settleBitmap_ok Nat.one_pos hbitmap
  have hpadded := padCount_ok hpad
  have hcluster : 0 < cluster := by
    obtain ⟨k, rfl, -, -⟩ := usableCluster_bounds husable
    exact Nat.pow_pos (by omega)
  refine
    { shape := (sameShape_handOut ..).trans hshape
      upcase_eq := rfl
      usable := husable
      perm := by
        rw [length_handOut, hshape.length_eq]
        exact hperm
      root_first := hroot
      dirs_dir := fun d hmem => ((sameShape_handOut ..).trans hshape).isDir_eq d ▸ hdirs d hmem
      files_file := fun f hmem => ((sameShape_handOut ..).trans hshape).isDir_eq f ▸ hfiles f hmem
      dir_clusters := fun d hmem => ?_
      dir_size := fun d hmem => ?_
      file_clusters := fun f hmem => ?_
      file_size := fun f hmem => ?_
      placed := ?_
      upcaseCluster_eq := rfl
      bitmap_pos := by
        show 0 < b
        omega
      used_le := ?_
      count_le := by
        show count ≤ maxClusters
        omega
      bitmapBytes_eq := rfl
      bitmapBytes_le := ?_
      fat_eq := rfl
      heap_eq := rfl }
  · rw [handOut_clusters, dirClusters, ((sameShape_handOut ..).trans hshape).dirBytes_eq]
    exact (hdirNode d hmem).1
  · rw [handOut_clusters, handOut_size, (hdirNode d hmem).1]
    exact (hdirNode d hmem).2
  · rw [handOut_clusters, handOut_size]
    exact (hfileNode f hmem).1
  · rw [handOut_size]
    exact (hfileNode f hmem).2
  · rw [show firstHeapCluster + Layout.tableClusters _ =
        firstHeapCluster + b + upcase.length ⌈/⌉ cluster from (Nat.add_assoc ..).symm]
    exact placed_handOut hnodup _ fun i hi => hshape.length_eq ▸ hlt i hi
  · rw [clustersOf_handOut]
    show b + upcase.length ⌈/⌉ cluster + clustersOf w (dirs ++ files) ≤ count
    omega
  · show count ⌈/⌉ 8 ≤ b * cluster
    calc count ⌈/⌉ 8 ≤ ((count ⌈/⌉ 8) ⌈/⌉ cluster) * cluster := le_blocks hcluster _
      _ ≤ b * cluster := Nat.mul_le_mul_right cluster (by omega)

/-- **Every plan is laid out so.** -/
theorem planExfat_laid {upcase : Bytes} {isNfc : Text → Bool} {files : List SourceFile}
    {emptyDirs : List Text} {override : Option Nat} {extraFree : Nat} {p : ExfatPlan}
    (h : planExfat upcase isNfc files emptyDirs override extraFree = .ok p) :
    ∃ t, buildTree upcase isNfc files emptyDirs = .ok (t, []) ∧ Forest t ∧
      Laid upcase t p.tree p.l ∧
      p.used = p.l.tableClusters + clustersOf p.tree p.l.order ∧
      p.imageBytes = p.l.heapSectors * sectorBytes + p.l.clusterCount * p.l.cluster := by
  unfold planExfat at h
  obtain ⟨⟨t, bad⟩, hbuild, h⟩ := bind_eq_ok.1 h
  dsimp only at h
  split at h
  · cases h
  rename_i hbad
  rw [not_not] at hbad
  subst hbad
  obtain ⟨dataBytes, -, h⟩ := bind_eq_ok.1 h
  obtain ⟨⟨u, l⟩, hlayout, h⟩ := bind_eq_ok.1 h
  have ht := buildTree_forest hbuild
  have hlaid := layout_laid ht hlayout
  cases h
  exact ⟨t, hbuild, ht, hlaid, rfl, rfl⟩

end Ps5Upload.Exfat
