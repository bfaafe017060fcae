import Ps5Upload.Fpkg.Exfat.ReadBack
import Mathlib.Algebra.BigOperators.Ring.List

/-!
# exFAT: sources that are planned

When the planner accepts a source, not only what it does with one it accepts: the names are good, no
two collide, and the tree is of moderate size.

* `treeBytes_le` — a tree of empty files is as small as its number of names.
-/

namespace Ps5Upload.Exfat

open ByteFile Checked Caching Blocks Utf16

/-! ## Accepted sources -/

section Accepts

variable {upcase : Bytes} {isNfc : Text → Bool}

variable {t : Tree} {files : List SourceFile}

theorem child_accepts {parent : Nat} {name : Text} {isDir : Bool}
    (hn : nameUnits isNfc name = .ok (encodeUtf16 name))
    (hget : ∀ k, (nodeAt t parent).children.get (keyOf upcase name) = some k →
      isDir = true ∧ (nodeAt t k).isDir = true ∧ (nodeAt t k).name = name) :
    ∃ k u, exec (child upcase isNfc parent name isDir) t = (.ok k, u) := by
  unfold child
  rw [exec_bind, exec_lift, hn]
  dsimp only
  rw [exec_look]
  cases hc : (nodeAt t parent).children.get (keyOf upcase name) with
  | none =>
    rw [show (nodeAt t parent).children.get ((encodeUtf16 name).map (upcaseUnit upcase)) = none from hc]
    exact ⟨_, _, rfl⟩
  | some k =>
    obtain ⟨rfl, hd, hname⟩ := hget k hc
    rw [show (nodeAt t parent).children.get ((encodeUtf16 name).map (upcaseUnit upcase)) = some k from hc]
    dsimp only
    rw [if_neg (by rw [hd, hname]; simp), if_neg (by decide)]
    exact ⟨_, _, rfl⟩

/-- Folders are made on a path whose names are good and no file's. -/
theorem dirParts_accepts {dirs : List Text → Prop} {fs : List (Text × Nat)} {parts : List Text}
    (hnames : ∀ c ∈ parts, nameUnits isNfc c = .ok (encodeUtf16 c)) {cs : List Text}
    (hdirs : ∀ ps, ps <+: parts → dirs (cs ++ ps))
    (hclear : ∀ t i cs' part k, Holding upcase isNfc dirs fs t → At t i cs' →
      cs' ++ [part] <+: cs ++ parts →
      (nodeAt t i).children.get (keyOf upcase part) = some k →
      (nodeAt t k).isDir = true ∧ (nodeAt t k).name = part) {at_ : Nat} (h : Holding upcase isNfc dirs fs t) (hat : At t at_ cs)
    (hd : (nodeAt t at_).isDir = true) :
    ∃ k u, exec (dirParts upcase isNfc parts at_) t = (.ok k, u) := by
  induction parts generalizing t at_ cs with
  | nil => exact ⟨_, _, rfl⟩
  | cons part parts ih =>
    have hpre : cs ++ [part] <+: cs ++ part :: parts := by
      rw [List.append_cons cs part parts]
      exact List.prefix_append _ _
    obtain ⟨next, w, hc⟩ : ∃ next w, exec (child upcase isNfc at_ part true) t = (.ok next, w) :=
      child_accepts (hnames part List.mem_cons_self) fun k hk =>
        ⟨rfl, hclear t at_ cs part k h hat hpre hk⟩
    have hone : exec (dirParts upcase isNfc [part] at_) t = (.ok next, w) := by
      rw [dirParts, exec_bind, hc]
      rfl
    obtain ⟨hw, -, hnext, hdnext⟩ := dirParts_holding h hat hd (fun ps hps =>
      hdirs ps (hps.trans (List.cons_prefix_cons.2 ⟨rfl, List.nil_prefix⟩))) hone
    have hsplit : cs ++ [part] ++ parts = cs ++ part :: parts := (List.append_cons ..).symm
    have hrest : ∀ ps, ps <+: parts → dirs (cs ++ [part] ++ ps) := fun ps hps => by
      rw [← List.append_cons]
      exact hdirs _ (List.cons_prefix_cons.2 ⟨rfl, hps⟩)
    obtain ⟨k, u, he⟩ := ih (fun c hc => hnames c (List.mem_cons_of_mem part hc)) hrest
      (by rwa [hsplit]) hw hnext hdnext
    refine ⟨k, u, ?_⟩
    rw [dirParts, exec_bind, hc]
    exact he

/-- A source of good names in which no two differ by their key only, and no file is under another. -/
structure Clear (upcase : Bytes) (isNfc : Text → Bool) (files : List SourceFile) : Prop where
  name_ok : ∀ f ∈ files, ∀ c ∈ components f.path, nameUnits isNfc c = .ok (encodeUtf16 c)
  key_inj : ∀ f ∈ files, ∀ c ∈ components f.path, ∀ g ∈ files, ∀ d ∈ components g.path,
    keyOf upcase c = keyOf upcase d → c = d
  nonempty : ∀ f ∈ files, components f.path ≠ []
  apart : files.Pairwise fun f g =>
    ¬components f.path <+: components g.path ∧ ¬components g.path <+: components f.path

theorem Clear.unique (h : Clear upcase isNfc files) {f g : SourceFile}
    (hf : f ∈ files) (hg : g ∈ files) (hps : components f.path <+: components g.path) : f = g := by
  by_contra hne
  have hsymm : Std.Symm fun f g : SourceFile =>
    ¬components f.path <+: components g.path ∧ ¬components g.path <+: components f.path :=
    ⟨fun _ _ h => ⟨h.2, h.1⟩⟩
  exact (h.apart.forall hf hg hne).1 hps

/-- Every node is on the way to a file of the source: a file at its end, a folder in front of it. -/
theorem source_of_node {done : List SourceFile} (hdone : done ⊆ files)
    (h : Holding upcase isNfc (Above files []) (done.map fun f => (trimSlashes f.path, f.size)) t)
    {k : Nat} {cs : List Text} (hk : At t k cs) (hne : cs ≠ []) :
    ∃ g ∈ files, cs <+: components g.path ∧
      ((nodeAt t k).isDir = false → g ∈ done ∧ components g.path = cs) ∧
      ((nodeAt t k).isDir = true → cs ≠ components g.path) := by
  cases hd : (nodeAt t k).isDir with
  | false =>
    have hlt := At.lt h.forest hk
    have hmem := mem_filesOf.2 ⟨k, hlt, hd, rfl⟩
    rw [h.files_eq] at hmem
    obtain ⟨g, hg, hq⟩ := List.mem_map.1 hmem
    have hpath : components g.path = cs := by
      rw [At.unique h.forest hk (h.file_at k hlt hd), ← (Prod.mk.inj hq).1, components_trimSlashes]
    exact ⟨g, hdone hg, hpath ▸ List.prefix_refl _, fun _ => ⟨hg, hpath⟩, nofun⟩
  | true =>
    rcases h.dir_at k cs hk hd with hnil | ⟨g, hg, hps, hneg⟩ | ⟨d, hd, -⟩
    · exact absurd hnil hne
    · exact ⟨g, hg, hps, nofun, fun _ => hneg⟩
    · cases hd

/-- A path without slashes at its end is cut in front of a name. -/
theorem name_ne_nil {path : Text} (hne : components path ≠ []) :
    ((rsplitOnce (trimSlashes path)).getD ([], trimSlashes path)).2 ≠ [] := by
  rw [← components_trimSlashes] at hne
  have htrim : trimSlashes path ≠ [] := fun hnil => hne (by rw [hnil]; rfl)
  cases hcut : rsplitOnce (trimSlashes path) with
  | none => exact htrim
  | some cut =>
    intro hnil
    obtain ⟨hpath, -⟩ := rsplitOnce_some hcut
    rw [show cut.2 = [] from hnil] at hpath
    have hlast := List.rdropWhile_last_not (fun c => decide (c = '/')) _ htrim
    have hend : (trimSlashes path).getLast? = some '/' := by rw [hpath, List.getLast?_concat]
    rw [List.getLast?_eq_some_getLast htrim] at hend
    exact hlast (decide_eq_true (Option.some.inj hend))

theorem placeFile_accepts {done : List SourceFile} (hclear : Clear upcase isNfc files)
    (hdone : done ⊆ files) {f : SourceFile} (hf : f ∈ files) (hnew : f ∉ done)
    (h : Holding upcase isNfc (Above files []) (done.map fun f => (trimSlashes f.path, f.size)) t) :
    ∃ u, exec (placeFile upcase isNfc f) t = (.ok (), u) := by
  obtain ⟨hcut, hslash⟩ := components_rsplitOnce (trimSlashes f.path)
  have hname := name_ne_nil (hclear.nonempty f hf)
  rw [components_trimSlashes] at hcut
  unfold placeFile
  dsimp only
  generalize (rsplitOnce (trimSlashes f.path)).getD ([], trimSlashes f.path) = cut at hcut hslash hname ⊢
  have hnames := hclear.name_ok f hf
  have hmem : ∀ {ps part}, ps ++ [part] <+: components f.path → part ∈ components f.path :=
    fun hps => hps.subset (by simp)
  -- a kid kept under a name of the path has that very name
  have hkid : ∀ {t i cs part k},
      Holding upcase isNfc (Above files []) (done.map fun f => (trimSlashes f.path, f.size)) t →
      At t i cs → cs ++ [part] <+: components f.path →
      (nodeAt t i).children.get (keyOf upcase part) = some k →
      (nodeAt t k).name = part ∧ At t k (cs ++ [part]) := fun {t i cs part k} ht hi hps hk => by
    have hat := At.kid hi (mem_kids.2 ⟨_, hk⟩)
    obtain ⟨g, hg, hpg, -, -⟩ := source_of_node hdone ht hat (by simp)
    have hname : (nodeAt t k).name = part := hclear.key_inj g hg _ (hpg.subset (by simp)) f hf part
      (hmem hps) (ht.named.key_eq i _ k hk).symm
    exact ⟨hname, hname ▸ hat⟩
  rw [components_of_no_slash hslash hname] at hcut
  have hfolder : components cut.1 <+: components f.path := hcut ▸ List.prefix_append _ _
  have hshort : ∀ ps, ps <+: components cut.1 → ps ≠ components f.path := fun ps hps heq => by
    have hlen := hps.length_le
    rw [heq, ← hcut, List.length_append, List.length_singleton] at hlen
    omega
  obtain ⟨parent, w, hdir⟩ : ∃ parent w, exec (dirFor upcase isNfc cut.1) t = (.ok parent, w) := by
    refine dirParts_accepts (fun c hc => hnames c (hfolder.subset hc))
      (fun ps hps => .inr (.inl ⟨f, hf, hps.trans hfolder, hshort ps hps⟩))
      (fun t i cs part k ht hi hps hk => ?_) h .root h.forest.root
    obtain ⟨hpart, hat⟩ := hkid ht hi (hps.trans hfolder) hk
    refine ⟨?_, hpart⟩
    by_contra hd
    obtain ⟨g, hg, -, hgfile, -⟩ := source_of_node hdone ht hat (by simp)
    obtain ⟨hin, hpath⟩ := hgfile (Bool.eq_false_iff.2 hd)
    rw [hclear.unique hg hf (hpath ▸ hps.trans hfolder)] at hin
    exact hnew hin
  obtain ⟨hw, -, hat, -⟩ := dirFor_holding h (fun ps hps =>
    .inr (.inl ⟨f, hf, hps.trans hfolder, hshort ps hps⟩)) hdir
  obtain ⟨k, u, hfile⟩ : ∃ k u, exec (child upcase isNfc parent cut.2 false) w = (.ok k, u) := by
    refine child_accepts (hnames cut.2 (hcut ▸ by simp)) fun k hk => ?_
    have hend : components cut.1 ++ [cut.2] <+: components f.path := hcut ▸ List.prefix_refl _
    obtain ⟨-, hatk⟩ := hkid hw hat hend hk
    rw [hcut] at hatk
    obtain ⟨g, hg, hps, hgfile, hgdir⟩ := source_of_node hdone hw hatk (hclear.nonempty f hf)
    cases hclear.unique hf hg hps
    cases hd : (nodeAt w k).isDir with
    | false => exact absurd (hgfile hd).1 hnew
    | true => exact absurd rfl (hgdir hd)
  refine ⟨u.modify k fun n => { n with src := trimSlashes f.path, size := f.size }, ?_⟩
  rw [exec_bind, hdir]
  dsimp only
  rw [exec_bind, hfile]
  rfl

/-- **A clear source is put into a tree.** -/
theorem buildTree_accepts (hclear : Clear upcase isNfc files) :
    ∃ t, buildTree upcase isNfc files [] = .ok (t, []) := by
  have hplace : ∀ done rest t, done ++ rest = files →
      Holding upcase isNfc (Above files []) (done.map fun f => (trimSlashes f.path, f.size)) t →
      ∃ u, placeAll (placeFile upcase isNfc) (fun f => trimSlashes f.path) rest t [] = .ok (u, []) := by
    intro done rest
    induction rest generalizing done with
    | nil => exact fun t _ _ => ⟨t, rfl⟩
    | cons f rest ih =>
      intro t hsplit ht
      have hf : f ∈ files := hsplit ▸ by simp
      have hdone : done ⊆ files := hsplit ▸ List.subset_append_left _ _
      have hnew : f ∉ done := fun hin => by
        have hapart := hclear.apart
        rw [← hsplit] at hapart
        exact ((List.pairwise_append.1 hapart).2.2 f hin f List.mem_cons_self).1 (List.prefix_refl _)
      obtain ⟨u, hu⟩ := placeFile_accepts hclear hdone hf hnew ht
      have hnext := (placeFile_holding ht (fun ps hps hne => .inr (.inl ⟨f, hf, hps, hne⟩)) hu).1
      obtain ⟨w, hw⟩ := ih (done ++ [f]) u (by rw [List.append_assoc]; exact hsplit) (by
        rw [List.map_append]
        exact hnext)
      refine ⟨w, ?_⟩
      rw [placeAll, hu]
      exact hw
  obtain ⟨t, ht⟩ := hplace [] files _ rfl (holding_root _ (.inl rfl))
  refine ⟨t, ?_⟩
  rw [buildTree, ht]
  rfl

end Accepts

/-! ## Accepted plans -/

theorem blocks_mono {size m n : Nat} (h : m ≤ n) : m ⌈/⌉ size ≤ n ⌈/⌉ size := by
  rw [Nat.ceilDiv_eq_add_pred_div, Nat.ceilDiv_eq_add_pred_div]
  exact Nat.div_le_div_right (by omega)

theorem blocks_le_self {size : Nat} (hs : 0 < size) (n : Nat) : n ⌈/⌉ size ≤ n := by
  by_contra h
  have hlt := blocks_lt hs n
  have hmul : (n + 1) * size ≤ (n ⌈/⌉ size) * size := Nat.mul_le_mul_right size (by omega)
  rw [Nat.succ_mul] at hmul
  have := Nat.le_mul_of_pos_right n hs
  omega

/-- The bitmap settles: its clusters only grow, and are never more than the others. -/
theorem settleBitmap_accepts {cluster others turns b : Nat} (hc : 0 < cluster)
    (hb : b ≤ max (((others + b) ⌈/⌉ 8) ⌈/⌉ cluster) 1) (hle : b ≤ others + 1)
    (hturns : others + 2 ≤ turns + b) :
    ∃ r, settleBitmap cluster others turns b = .ok r ∧ r ≤ others + 1 := by
  induction turns generalizing b with
  | zero => omega
  | succ turns ih =>
    rw [settleBitmap]
    have hself := blocks_le_self hc ((others + b) ⌈/⌉ 8)
    have hlt := blocks_lt (show 0 < 8 by decide) (others + b)
    generalize hneed : max (((others + b) ⌈/⌉ 8) ⌈/⌉ cluster) 1 = need at hb
    split
    · exact ⟨b, rfl, hle⟩
    · refine ih ?_ (by omega) (by omega)
      rw [← hneed]
      have hmono : ((others + b) ⌈/⌉ 8) ⌈/⌉ cluster ≤ ((others + need) ⌈/⌉ 8) ⌈/⌉ cluster :=
        blocks_mono (blocks_mono (by omega))
      rw [hneed]
      omega

theorem sum64_accepts {ns : List Nat} (h : ns.sum < 2 ^ 64) : sum64 ns = .ok ns.sum := by
  have hfold : ∀ (ns : List Nat) (b : Nat), b + ns.sum < 2 ^ 64 →
      (fold (add 64) b ns : Res Nat) = .ok (b + ns.sum) := by
    intro ns
    induction ns with
    | nil => exact fun b _ => rfl
    | cons n ns ih =>
      intro b hb
      rw [List.sum_cons] at hb ⊢
      rw [fold, add_eq (by omega), ok_bind, ih _ (by omega), Nat.add_assoc]
  rw [sum64, hfold ns 0 (by omega), Nat.zero_add]

/-- What the nodes of a tree take at most, in bytes or in clusters. -/
def treeBytes (t : Tree) : Nat :=
  ((List.range t.length).map fun i => dirBytes t i + (nodeAt t i).size + 1).sum

theorem sizes_le (t : Tree) (p : Node → Bool) : ((t.filter p).map Node.size).sum ≤ treeBytes t := by
  have hnodes : t = (List.range t.length).map (nodeAt t) :=
    List.ext_getElem (by simp) fun k hk _ => by
      rw [List.getElem_map, List.getElem_range, nodeAt_eq_getElem hk]
  have hall : ((t.filter p).map Node.size).sum ≤ (t.map Node.size).sum :=
    (List.filter_sublist.map Node.size).sum_le_sum fun _ _ => Nat.zero_le _
  refine hall.trans ?_
  conv_lhs => rw [hnodes]
  rw [List.map_map, treeBytes]
  exact List.sum_le_sum fun i _ => by
    show (nodeAt t i).size ≤ _
    omega

/-- Folders and files have no more clusters than `treeBytes` says. -/
theorem clusters_le_treeBytes {t : Tree} {cluster : Nat} (hc : 0 < cluster) {dirs files : List Nat}
    (hperm : (dirs ++ files).Perm (List.range t.length)) :
    clustersOf (sizeFiles cluster files (sizeDirs cluster dirs t)) (dirs ++ files) ≤ treeBytes t := by
  have hn : (dirs ++ files).Nodup := hperm.nodup_iff.2 List.nodup_range
  have hlt : ∀ i ∈ dirs ++ files, i < t.length := fun i hi => List.mem_range.1 (hperm.subset hi)
  obtain ⟨hdirs, hfiles, hdisj⟩ := List.nodup_append.1 hn
  have hnode : ∀ i ∈ dirs ++ files,
      (nodeAt (sizeFiles cluster files (sizeDirs cluster dirs t)) i).clusters ≤
        dirBytes t i + (nodeAt t i).size + 1 := by
    intro i hi
    rw [nodeAt_sizeFiles hfiles (fun f hf => by
        rw [(sameShape_sizeDirs cluster dirs t).length_eq]
        exact hlt f (List.mem_append_right dirs hf)),
      nodeAt_sizeDirs hdirs fun d hd => hlt d (List.mem_append_left files hd)]
    have hblocks := blocks_le_self hc (dirBytes t i)
    have hsize := blocks_le_self hc (nodeAt t i).size
    rcases List.mem_append.1 hi with hd | hf
    · rw [if_neg fun hf => hdisj i hd i hf rfl, if_pos hd]
      dsimp only
      rw [dirClusters]
      omega
    · rw [if_pos hf, if_neg fun hd => hdisj i hd i hf rfl]
      dsimp only
      omega
  calc clustersOf (sizeFiles cluster files (sizeDirs cluster dirs t)) (dirs ++ files)
      ≤ ((dirs ++ files).map fun i => dirBytes t i + (nodeAt t i).size + 1).sum :=
        List.sum_le_sum hnode
    _ = treeBytes t := (hperm.map _).sum_eq

theorem layout_accepts {upcase : Bytes} {t : Tree} (ht : Forest t) {cluster spare : Nat}
    (hu : usableCluster cluster = true) (hbytes : treeBytes t ≤ 2 ^ 28) (hup : upcase.length ≤ 2 ^ 20)
    (hspare : 2 ^ 20 ≤ spare) (hmost : spare ≤ 2 ^ 28) :
    ∃ u l, layout upcase t (some cluster) spare = .ok (u, l) := by
  obtain ⟨dirs, files, htraverse, hperm, -, -, -⟩ := traverse_perm ht
  obtain ⟨k, hk, -, -⟩ := usableCluster_bounds hu
  have hc : 0 < cluster := hk ▸ Nat.two_pow_pos k
  have hsizes := sizes_le t fun _ => true
  rw [List.filter_true] at hsizes
  unfold layout
  rw [sum64_accepts (by omega), ok_bind]
  dsimp only [Option.getD_some]
  rw [if_neg (by rw [hu]; decide), htraverse, ok_bind]
  dsimp only
  have hclusters : clustersOf (sizeFiles cluster files (sizeDirs cluster dirs t)) (dirs ++ files) ≤
      treeBytes t := clusters_le_treeBytes hc hperm
  have hupcase := blocks_le_self hc upcase.length
  have hfree := blocks_le_self hc spare
  generalize clustersOf (sizeFiles cluster files (sizeDirs cluster dirs t)) (dirs ++ files) = used
    at hclusters
  obtain ⟨r, hr, hle⟩ : ∃ r, settleBitmap cluster (upcase.length ⌈/⌉ cluster + used +
      spare ⌈/⌉ cluster) (upcase.length ⌈/⌉ cluster + used + spare ⌈/⌉ cluster + 2) 1 = .ok r ∧
      r ≤ upcase.length ⌈/⌉ cluster + used + spare ⌈/⌉ cluster + 1 :=
    settleBitmap_accepts hc (Nat.le_max_right _ _) (by omega) (Nat.le_succ _)
  have hsettled := settleBitmap_ok Nat.one_pos hr
  rw [hr, ok_bind]
  have hpad : padCount cluster (2 ^ 11 + 1) (upcase.length ⌈/⌉ cluster + used + spare ⌈/⌉ cluster + r) =
      .ok (upcase.length ⌈/⌉ cluster + used + spare ⌈/⌉ cluster + r) := by
    have hspares := le_blocks hc spare
    rw [padCount, if_neg]
    have hmul : (spare ⌈/⌉ cluster) * cluster ≤
        (upcase.length ⌈/⌉ cluster + used + spare ⌈/⌉ cluster + r) * cluster :=
      Nat.mul_le_mul_right cluster (by omega)
    omega
  rw [hpad, ok_bind, if_neg (by
    rw [show maxClusters = 0xFFFFFFF5 from rfl]
    omega), if_neg (by omega)]
  exact ⟨_, _, rfl⟩

/-- **A tree of moderate size is planned.** -/
theorem planExfat_accepts {upcase : Bytes} {isNfc : Text → Bool} {files : List SourceFile} {t : Tree}
    (ht : buildTree upcase isNfc files [] = .ok (t, [])) {cluster : Nat}
    (hu : usableCluster cluster = true) (hbytes : treeBytes t ≤ 2 ^ 28) (hup : upcase.length ≤ 2 ^ 20) :
    ∃ p, planExfat upcase isNfc files [] (some cluster) 0 = .ok p := by
  have hsizes := sizes_le t fun n => !n.isDir
  unfold planExfat
  rw [ht, ok_bind]
  dsimp only
  rw [if_neg (by decide), sum64_accepts (by omega), ok_bind]
  have hspare : spareBytes ((t.filter fun n => !n.isDir).map Node.size).sum 0 = 64 * 2 ^ 20 := by
    rw [spareBytes]
    omega
  obtain ⟨u, l, hl⟩ : ∃ u l, layout upcase t (some cluster) (64 * 2 ^ 20) = .ok (u, l) :=
    layout_accepts (buildTree_forest ht) hu hbytes hup (by decide) (by decide)
  rw [hspare, hl]
  exact ⟨_, rfl⟩

/-! ## Trees of empty files -/

section Hollow

variable {upcase : Bytes} {isNfc : Text → Bool}

/-- A tree of at most `n` nodes that hold nothing. -/
structure Hollow (t : Tree) (n : Nat) : Prop where
  size_eq : ∀ i, (nodeAt t i).size = 0
  length_le : t.length ≤ n

variable {t u : Tree} {n : Nat}

theorem hollow_child (h : Hollow t n) {parent : Nat} {name : Text} {isDir : Bool}
    {r : Res Nat} (he : exec (child upcase isNfc parent name isDir) t = (r, u)) : Hollow u (n + 1) := by
  rcases child_cases upcase isNfc parent name isDir t with ⟨e, hc⟩ | ⟨-, at_, hc, -⟩ | ⟨-, -, hc⟩
  · cases hc.symm.trans he
    exact ⟨h.size_eq, Nat.le_succ_of_le h.length_le⟩
  · cases hc.symm.trans he
    exact ⟨h.size_eq, Nat.le_succ_of_le h.length_le⟩
  · cases hc.symm.trans he
    refine ⟨fun i => ?_, (length_grow ..).trans_le (Nat.succ_le_succ h.length_le)⟩
    rw [nodeAt_grow]
    split
    · rfl
    · split
      · exact h.size_eq i
      · exact h.size_eq i

theorem hollow_dirParts {parts : List Text} {at_ k : Nat} (h : Hollow t n)
    (he : exec (dirParts upcase isNfc parts at_) t = (.ok k, u)) : Hollow u (n + parts.length) := by
  induction parts generalizing t n at_ with
  | nil =>
    cases he
    exact h
  | cons part parts ih =>
    rw [dirParts, exec_bind] at he
    cases hc : exec (child upcase isNfc at_ part true) t with
    | mk r w =>
      rw [hc] at he
      cases r with
      | error e => cases he
      | ok next =>
        rw [List.length_cons, Nat.add_comm parts.length, ← Nat.add_assoc]
        exact ih (hollow_child h hc) he

theorem hollow_placeFile {f : SourceFile} (hf : f.size = 0) (h : Hollow t n)
    (he : exec (placeFile upcase isNfc f) t = (.ok (), u)) :
    Hollow u (n + (components f.path).length + 1) := by
  obtain ⟨hcut, -⟩ := components_rsplitOnce (trimSlashes f.path)
  rw [components_trimSlashes] at hcut
  unfold placeFile at he
  dsimp only at he
  generalize (rsplitOnce (trimSlashes f.path)).getD ([], trimSlashes f.path) = cut at hcut he
  have hlen : (components cut.1).length ≤ (components f.path).length := by
    rw [← hcut, List.length_append]
    exact Nat.le_add_right _ _
  rw [exec_bind] at he
  cases hd : exec (dirFor upcase isNfc cut.1) t with
  | mk r w =>
    rw [hd] at he
    cases r with
    | error e => cases he
    | ok parent =>
      dsimp only at he
      rw [exec_bind] at he
      cases hc : exec (child upcase isNfc parent cut.2 false) w with
      | mk r v =>
        rw [hc] at he
        cases r with
        | error e => cases he
        | ok at_ =>
          cases he
          have hv := hollow_child (hollow_dirParts h hd) hc
          refine ⟨fun i => ?_, ?_⟩
          · rw [nodeAt_modify]
            split
            · exact hf
            · exact hv.size_eq i
          · have := hv.length_le
            rw [List.length_modify]
            omega

/-- A source of empty files is a tree of no more nodes than names, and the root. -/
theorem hollow_buildTree {files : List SourceFile} (hfiles : ∀ f ∈ files, f.size = 0)
    (h : buildTree upcase isNfc files [] = .ok (t, [])) :
    Hollow t (1 + (files.map fun f => (components f.path).length + 1).sum) := by
  unfold buildTree at h
  obtain ⟨⟨u, bad⟩, hplace, hrest⟩ := bind_eq_ok.1 h
  cases hrest
  have hroot : Hollow [{ (default : Node) with isDir := true }] 1 := by
    refine ⟨fun i => ?_, Nat.le_refl 1⟩
    cases i with
    | zero => rfl
    | succ i => exact congrArg Node.size (nodeAt_of_le (Nat.succ_le_succ (Nat.zero_le i)))
  refine placeAll_done (fun done t =>
      Hollow t (1 + (done.map fun f => (components f.path).length + 1).sum))
    (fun done f hf t u ht he => ?_) hroot hplace
  have hu := hollow_placeFile (hfiles f hf) ht he
  rw [List.map_append, List.sum_append, List.map_singleton, List.sum_singleton, ← Nat.add_assoc,
    ← Nat.add_assoc]
  exact hu

theorem Named.units_le (h : Named upcase isNfc t) {i k : Nat} (hk : k ∈ kids t i) :
    (nodeAt t k).units.length ≤ maxNameUnits := by
  rw [h.units_eq i k hk]
  exact (storable_of_units (h.name_ok i k hk)).le

/-- A folder has at most 608 bytes for a kid. -/
theorem dirBytes_le (h : Named upcase isNfc t) (i : Nat) :
    dirBytes t i ≤ 608 * (kids t i).length + 64 := by
  have hkid : ∀ k ∈ kids t i,
      (2 + (nodeAt t k).units.length ⌈/⌉ nameUnitsPerEntry) * entryBytes ≤ 608 := fun k hk => by
    have hunits : (nodeAt t k).units.length ⌈/⌉ nameUnitsPerEntry ≤ 17 :=
      blocks_mono (h.units_le hk)
    rw [show entryBytes = 32 from rfl]
    omega
  have hsum := List.sum_le_card_nsmul _ 608 fun n hn => by
    obtain ⟨k, hk, rfl⟩ := List.mem_map.1 hn
    exact hkid k hk
  rw [List.length_map, smul_eq_mul, Nat.mul_comm] at hsum
  rw [dirBytes]
  split
  · rw [show entryBytes = 32 from rfl] at hsum ⊢
    omega
  · omega

/-- All nodes but the root are kids. -/
theorem Forest.sum_kids (h : Forest t) :
    ((List.range t.length).map fun i => (kids t i).length).sum + 1 = t.length := by
  have hlen := h.places.length_eq
  rw [List.length_cons, List.length_flatMap, List.length_range] at hlen
  exact hlen

theorem treeBytes_le (hf : Forest t) (hn : Named upcase isNfc t)
    (h : Hollow t n) : treeBytes t ≤ 673 * n := by
  have hkids := hf.sum_kids
  have hlen := h.length_le
  have hsum : treeBytes t ≤
      ((List.range t.length).map fun i => 608 * (kids t i).length + 65).sum :=
    List.sum_le_sum fun i _ => by
      have := dirBytes_le hn i
      rw [h.size_eq]
      omega
  rw [List.sum_map_add, List.sum_map_mul_left, List.map_const', List.sum_replicate, List.length_range,
    smul_eq_mul] at hsum
  omega

end Hollow

end Ps5Upload.Exfat
