import Ps5Upload.Fpkg.Inner.Plan
import Ps5Upload.Lib.ListAt

/-!
# The tree and its orders

The directories that `buildTree` collects are a forest with one root, and every file is in one of them.
So each order that the plan numbers its files in has every file once.

* `Grown` — what holds while the tree grows;
* `grown_buildDirs` — of the whole tree;
* `perm_fileOrder`, `perm_afidOrder` — the orders of the files.
-/

namespace Ps5Upload.Inner

open Utf8

/-- The directories are a forest with the first one at its root, and the first `count` files are in it. -/
structure Grown (dirs : List DirNode) (count : Nat) : Prop where
  forest : Forest.IsForest (subdirsOf dirs) (parentOf dirs) dirs.length
  rooted : ∀ d, 0 < d → d < dirs.length → (parentOf dirs d).isSome
  pos : 0 < dirs.length
  files : (dirs.flatMap (·.files)).Perm (List.range count)

variable {dirs : List DirNode} {count d i : Nat}

/-! ## Nodes of changed lists -/

theorem nodeAt_modify (f : DirNode → DirNode) (hi : i < dirs.length) (d : Nat) :
    nodeAt (dirs.modify i f) d = if d = i then f (nodeAt dirs d) else nodeAt dirs d := by
  unfold nodeAt
  rw [List.getElem?_modify]
  by_cases hd : d = i
  · subst hd
    rw [if_pos rfl, List.getElem?_eq_getElem hi]
    simp
  · rw [if_neg hd]
    cases dirs[d]? <;> simp [Ne.symm hd]

theorem nodeAt_append_one (node : DirNode) (hd : d ≠ dirs.length) :
    nodeAt (dirs ++ [node]) d = nodeAt dirs d := by
  unfold nodeAt
  rcases Nat.lt_or_ge d dirs.length with hlt | hge
  · rw [List.getElem?_append_left hlt]
  · rw [List.getElem?_eq_none (by simp; omega), List.getElem?_eq_none hge]

theorem nodeAt_append_length (node : DirNode) : nodeAt (dirs ++ [node]) dirs.length = node := by
  simp [nodeAt]

theorem nodeAt_of_le (hd : dirs.length ≤ d) : nodeAt dirs d = default := by
  rw [nodeAt, List.getElem?_eq_none hd]
  rfl

/-- A list is its nodes in turn. -/
theorem map_nodeAt (dirs : List DirNode) : (List.range dirs.length).map (nodeAt dirs) = dirs := by
  refine List.ext_getElem (by simp) fun d h₁ h₂ => ?_
  simp [nodeAt, List.getElem?_eq_getElem h₂]

theorem flatMap_filesOf (dirs : List DirNode) :
    (List.range dirs.length).flatMap (filesOf dirs) = dirs.flatMap (·.files) := by
  conv_rhs => rw [← map_nodeAt dirs]
  rw [List.flatMap_map]
  rfl

/-! ## Growing -/

theorem subdirsOf_pushDir (path : Text) {parent : Nat} (hp : parent < dirs.length) :
    subdirsOf (pushDir dirs path parent) =
      fun d => if d = parent then subdirsOf dirs d ++ [dirs.length] else subdirsOf dirs d := by
  funext d
  unfold subdirsOf pushDir
  by_cases hd : d = dirs.length
  · have hlen : (dirs.modify parent fun d => { d with subdirs := d.subdirs ++ [dirs.length] }).length =
        d := by rw [List.length_modify, hd]
    rw [if_neg (by omega), ← hlen, nodeAt_append_length, hlen, nodeAt_of_le (Nat.le_of_eq hd.symm)]
    rfl
  · rw [nodeAt_append_one _ (by rwa [List.length_modify]), nodeAt_modify _ hp]
    split <;> rfl

theorem parentOf_pushDir (path : Text) {parent : Nat} (hp : parent < dirs.length) :
    parentOf (pushDir dirs path parent) =
      fun d => if d = dirs.length then some parent else parentOf dirs d := by
  funext d
  unfold parentOf pushDir
  by_cases hd : d = dirs.length
  · have hlen : (dirs.modify parent fun d => { d with subdirs := d.subdirs ++ [dirs.length] }).length =
        d := by rw [List.length_modify, hd]
    rw [if_pos hd, ← hlen, nodeAt_append_length]
  · rw [if_neg hd, nodeAt_append_one _ (by rwa [List.length_modify]), nodeAt_modify _ hp]
    split <;> rfl

@[simp] theorem length_pushDir (path : Text) (parent : Nat) :
    (pushDir dirs path parent).length = dirs.length + 1 := by
  simp [pushDir]

/-- Changing a node in another field than its files leaves the files. -/
theorem flatMap_files_modify {f : DirNode → DirNode} (hf : ∀ d, (f d).files = d.files) :
    (dirs.modify i f).flatMap (·.files) = dirs.flatMap (·.files) := by
  induction dirs generalizing i with
  | nil => cases i <;> rfl
  | cons d dirs ih =>
    cases i with
    | zero => simp [hf]
    | succ i => simp [ih]

theorem flatMap_files_add (fi : Nat) (hi : i < dirs.length) :
    ((dirs.modify i fun d => { d with files := d.files ++ [fi] }).flatMap (·.files)).Perm
      (dirs.flatMap (·.files) ++ [fi]) := by
  obtain ⟨node, hnode⟩ : ∃ node, dirs[i]? = some node := ⟨_, List.getElem?_eq_getElem hi⟩
  obtain ⟨pre, post, rfl, rfl⟩ := ListAt.getElem?_split hnode
  rw [ListAt.modify_split]
  simp only [List.flatMap_append, List.flatMap_cons, List.append_assoc]
  exact List.Perm.append_left _ (List.Perm.append_left _ List.perm_append_comm)

theorem Grown.pushDir (h : Grown dirs count) (path : Text) {parent : Nat}
    (hp : parent < dirs.length) : Grown (pushDir dirs path parent) count where
  forest := by
    rw [subdirsOf_pushDir path hp, parentOf_pushDir path hp, length_pushDir]
    exact h.forest.addLeaf hp
  rooted d h0 hd := by
    rw [length_pushDir] at hd
    simp only [parentOf_pushDir path hp]
    by_cases hn : d = dirs.length
    · rw [if_pos hn]
      rfl
    · rw [if_neg hn]
      exact h.rooted d h0 (by omega)
  pos := by simp
  files := by
    unfold Inner.pushDir
    rw [List.flatMap_append,
      flatMap_files_modify (f := fun d => { d with subdirs := d.subdirs ++ [dirs.length] }) fun _ => rfl]
    simpa using h.files

theorem Grown.ensureDirs (h : Grown dirs count) (paths : List Text) :
    Grown (ensureDirs paths dirs).1 count ∧
      (Inner.ensureDirs paths dirs).2 < (Inner.ensureDirs paths dirs).1.length := by
  induction paths with
  | nil => exact ⟨h, h.pos⟩
  | cons path up ih =>
    rw [Inner.ensureDirs]
    cases hfind : dirs.findIdx? (·.path = path) with
    | some i => exact ⟨h, (List.findIdx?_eq_some_iff_getElem.1 hfind).1⟩
    | none => exact ⟨ih.1.pushDir path ih.2, by simp⟩

theorem Grown.ensureDir (h : Grown dirs count) (path : Text) :
    Grown (ensureDir path dirs).1 count ∧
      (Inner.ensureDir path dirs).2 < (Inner.ensureDir path dirs).1.length :=
  h.ensureDirs _

/-- The next file goes into a directory. -/
theorem Grown.addFile (h : Grown dirs count) (hi : i < dirs.length) :
    Grown (dirs.modify i fun d => { d with files := d.files ++ [count] }) (count + 1) := by
  have hnode : ∀ d, nodeAt (dirs.modify i fun d => { d with files := d.files ++ [count] }) d =
      if d = i then { nodeAt dirs d with files := (nodeAt dirs d).files ++ [count] } else nodeAt dirs d :=
    nodeAt_modify _ hi
  have hsub : subdirsOf (dirs.modify i fun d => { d with files := d.files ++ [count] }) =
      subdirsOf dirs := by
    funext d
    unfold subdirsOf
    rw [hnode]
    split <;> rfl
  have hpar : parentOf (dirs.modify i fun d => { d with files := d.files ++ [count] }) =
      parentOf dirs := by
    funext d
    unfold parentOf
    rw [hnode]
    split <;> rfl
  constructor
  · rw [hsub, hpar, List.length_modify]
    exact h.forest
  · rw [hpar, List.length_modify]
    exact h.rooted
  · rw [List.length_modify]
    exact h.pos
  · rw [List.range_succ]
    exact (flatMap_files_add count hi).trans (h.files.append_right [count])

theorem Grown.placeFiles (h : Grown dirs count) (paths : List Text) :
    Grown (placeFiles paths count dirs) (count + paths.length) := by
  induction paths generalizing dirs count with
  | nil => exact h
  | cons path paths ih =>
    rw [Inner.placeFiles, List.length_cons, Nat.add_comm paths.length, ← Nat.add_assoc]
    by_cases hpath : parentPath path = []
    · rw [if_pos hpath]
      exact ih (h.addFile h.pos)
    · rw [if_neg hpath]
      have hdir := h.ensureDir (parentPath path)
      exact ih (hdir.1.addFile hdir.2)

theorem Grown.placeEmpty (h : Grown dirs count) (paths : List Text) :
    Grown (placeEmpty paths dirs) count := by
  induction paths generalizing dirs with
  | nil => exact h
  | cons path paths ih =>
    rw [Inner.placeEmpty]
    split
    · exact ih h
    · exact ih (h.ensureDir _).1

theorem Grown.sortDirs (h : Grown dirs count) (paths : List Text) : Grown (sortDirs dirs paths) count := by
  have hlen : (Inner.sortDirs dirs paths).length = dirs.length := List.length_map _
  have hpar : parentOf (Inner.sortDirs dirs paths) = parentOf dirs := by
    funext d
    unfold parentOf nodeAt Inner.sortDirs
    rw [List.getElem?_map]
    cases dirs[d]? <;> rfl
  constructor
  · rw [hlen, hpar]
    refine h.forest.perm fun p => ?_
    unfold subdirsOf
    rcases Nat.lt_or_ge p dirs.length with hp | hp
    · have hnode : (nodeAt (Inner.sortDirs dirs paths) p).subdirs = (nodeAt dirs p).subdirs.insertionSort
          fun a b => (nodeAt dirs a).name ≤ (nodeAt dirs b).name := by
        conv_lhs => rw [nodeAt, Inner.sortDirs, List.getElem?_map, List.getElem?_eq_getElem hp]
        conv_rhs => rw [nodeAt, List.getElem?_eq_getElem hp]
        rfl
      rw [hnode]
      exact List.perm_insertionSort _ _
    · rw [nodeAt_of_le hp, nodeAt_of_le (hlen ▸ hp)]
  · rw [hlen, hpar]
    exact h.rooted
  · rw [hlen]
    exact h.pos
  · refine List.Perm.trans ?_ h.files
    rw [Inner.sortDirs, List.flatMap_map]
    exact List.Perm.flatMap_left _ fun d _ => List.perm_insertionSort _ _

theorem grown_uroot : Grown [uroot] 0 where
  forest :=
    { parent_lt := fun {d p} hp => by
        unfold parentOf nodeAt at hp
        cases d <;> cases hp
      parent_of_kid := fun {d p} hd => by
        unfold subdirsOf nodeAt at hd
        cases p <;> cases hd
      kid_of_parent := fun {d p} _ hp => by
        unfold parentOf nodeAt at hp
        cases d <;> cases hp
      kid_lt := fun {d p} hd => by
        unfold subdirsOf nodeAt at hd
        cases p <;> cases hd
      nodup_kids := fun p => by
        unfold subdirsOf nodeAt
        cases p <;> exact List.nodup_nil }
  rooted d h0 hd := by
    rw [List.length_singleton] at hd
    omega
  pos := Nat.one_pos
  files := .refl _

theorem grown_buildDirs (paths emptyDirs : List Text) : Grown (buildDirs paths emptyDirs) paths.length := by
  have h := ((grown_uroot.placeFiles paths).placeEmpty emptyDirs).sortDirs paths
  rwa [Nat.zero_add] at h

/-! ## The orders -/

theorem Grown.perm_preOrder (h : Grown dirs count) :
    (preOrder dirs dirs.length 0).Perm (List.range dirs.length) :=
  Forest.perm_preOrder h.forest h.rooted h.pos

/-- Any order of the directories gives an order of the files. -/
theorem Grown.perm_files (h : Grown dirs count) {order : List Nat}
    (ho : order.Perm (List.range dirs.length)) :
    (order.flatMap (filesOf dirs)).Perm (List.range count) := by
  refine (ho.flatMap_right _).trans ?_
  rw [flatMap_filesOf]
  exact h.files

theorem Grown.perm_fileOrder (h : Grown dirs count) :
    ((postOrder dirs dirs.length 0).flatMap (filesOf dirs)).Perm (List.range count) :=
  h.perm_files ((Forest.perm_postOrder _ _).trans h.perm_preOrder)

theorem Grown.perm_sceSysFirst (h : Grown dirs count) :
    (sceSysFirst dirs (preOrder dirs dirs.length 0)).Perm (List.range count) := by
  unfold sceSysFirst
  cases hfind : (preOrder dirs dirs.length 0).find? fun d =>
      (nodeAt dirs d).path = "sce_sys".toList with
  | none => exact h.perm_files h.perm_preOrder
  | some sd =>
    dsimp only
    rw [← List.flatMap_append]
    refine h.perm_files (List.Perm.trans ?_ h.perm_preOrder)
    have hlt : ∀ {d}, d ∈ preOrder dirs dirs.length 0 → d < dirs.length := fun hd =>
      List.mem_range.1 (h.perm_preOrder.mem_iff.1 hd)
    have hsd := hlt (List.mem_of_find?_eq_some hfind)
    -- What is below `sce_sys`, and what is not.
    have hunder : (preOrder dirs dirs.length sd).Perm ((preOrder dirs dirs.length 0).filter
        fun d => d = sd || isUnder dirs sd dirs.length d) := by
      refine (List.perm_ext_iff_of_nodup (Forest.nodup_preOrder h.forest _ _)
        ((Forest.nodup_preOrder h.forest _ _).filter _)).2 fun d => ?_
      rw [List.mem_filter, Bool.or_eq_true, decide_eq_true_eq]
      constructor
      · intro hd
        have hdn := Forest.lt_of_mem_preOrder h.forest _ sd hsd d hd
        refine ⟨h.perm_preOrder.mem_iff.2 (List.mem_range.2 hdn), .inr ?_⟩
        exact (Forest.isUnder_iff h.forest hdn).2 (Forest.above_of_mem_preOrder h.forest _ sd d hd)
      · rintro ⟨hd, hup⟩
        have hdn := hlt hd
        refine (Forest.mem_preOrder h.forest hdn (by omega)).2 ?_
        rcases hup with rfl | hup
        · exact .refl _
        · exact (Forest.isUnder_iff h.forest hdn).1 hup
    exact (hunder.append_right _).trans (List.filter_append_perm _ _)

theorem Grown.perm_afidOrder (h : Grown dirs count) (paths : List Text) :
    (afidOrder dirs (preOrder dirs dirs.length 0) paths).Perm (List.range count) := by
  unfold afidOrder
  refine List.Perm.trans ?_ h.perm_sceSysFirst
  dsimp only
  cases hfind : (sceSysFirst dirs (preOrder dirs dirs.length 0)).findIdx? fun fi =>
      paths[fi]?.getD [] = keystonePath with
  | none => exact .refl _
  | some pos =>
    obtain ⟨pre, fi, post, horder, rfl, -⟩ := ListAt.findIdx?_split hfind
    rw [horder]
    simp only [List.getElem?_append_right (Nat.le_refl _), Nat.sub_self, List.getElem?_cons_zero,
      Option.toList_some, ListAt.eraseIdx_split]
    show (fi :: (pre ++ post)).Perm _
    exact List.perm_middle.symm

end Ps5Upload.Inner
