import Ps5Upload.Fpkg.Exfat.Plan
import Mathlib.Data.List.Pairwise

/-!
# exFAT: the tree of a plan

The nodes of a tree are linked by their places in one list, so that nothing in its type keeps it from
being a tangle.  `Forest` says that it is a tree: every node but the root is a kid of one folder that
came before it, and files have no kids.
-/

namespace Ps5Upload.Exfat

open ByteFile Checked Caching Blocks Utf16

theorem nodeAt_of_le {t : Tree} {i : Nat} (h : t.length ≤ i) : nodeAt t i = default := by
  rw [nodeAt, List.getElem?_eq_none h]
  rfl

theorem nodeAt_append (t : Tree) (n : Node) (i : Nat) :
    nodeAt (t ++ [n]) i = if i = t.length then n else nodeAt t i := by
  unfold nodeAt
  split
  · rename_i h
    rw [h, List.getElem?_concat_length]
    rfl
  · rename_i h
    by_cases hlt : i < t.length
    · rw [List.getElem?_append_left hlt]
    · rw [List.getElem?_eq_none (by rw [List.length_append, List.length_singleton]; omega),
        List.getElem?_eq_none (by omega)]

theorem nodeAt_modify (t : Tree) (p : Nat) (f : Node → Node) (i : Nat) :
    nodeAt (t.modify p f) i = if p = i ∧ i < t.length then f (nodeAt t i) else nodeAt t i := by
  unfold nodeAt
  rw [List.getElem?_modify]
  by_cases hp : p = i
  · by_cases hlt : i < t.length
    · rw [if_pos ⟨hp, hlt⟩, List.getElem?_eq_getElem hlt]
      simp only [hp, if_true, Option.map_eq_map, Option.map_some, Option.getD_some]
    · rw [if_neg fun h => hlt h.2, List.getElem?_eq_none (by omega)]
      rfl
  · rw [if_neg fun h => hp h.1]
    simp only [hp, if_false, Option.map_eq_map, Option.map_id']

/-! ## Steps -/

/-- A tree with one more node, a child of `parent`. -/
def grow (t : Tree) (parent : Nat) (key : List Nat) (n : Node) : Tree :=
  (t.modify parent fun p => { p with children := p.children.insert key t.length }) ++ [n]

theorem length_grow (t : Tree) (parent : Nat) (key : List Nat) (n : Node) :
    (grow t parent key n).length = t.length + 1 := by
  rw [grow, List.length_append, List.length_modify, List.length_singleton]

theorem nodeAt_grow (t : Tree) (parent : Nat) (key : List Nat) (n : Node) (i : Nat) :
    nodeAt (grow t parent key n) i =
      if i = t.length then n
      else if parent = i ∧ i < t.length then
        { nodeAt t i with children := (nodeAt t i).children.insert key t.length }
      else nodeAt t i := by
  rw [grow, nodeAt_append, List.length_modify, nodeAt_modify]

/-- A node of no kids and no clusters. -/
def freshNode (name : Text) (units : List Nat) (isDir : Bool) : Node :=
  { (default : Node) with name := name, units := units, isDir := isDir }

theorem nameUnits_cases (isNfc : Text → Bool) (name : Text) :
    nameUnits isNfc name = .ok (encodeUtf16 name) ∨ ∃ e, nameUnits isNfc name = fail e := by
  unfold nameUnits
  dsimp only
  split
  · exact .inr ⟨_, rfl⟩
  · split
    · exact .inr ⟨_, rfl⟩
    · split
      · exact .inl rfl
      · exact .inr ⟨_, rfl⟩

section Build

variable {upcase : Bytes} {isNfc : Text → Bool}

/-- The key a folder keeps a name under. -/
def keyOf (upcase : Bytes) (name : Text) : List Nat := (encodeUtf16 name).map (upcaseUnit upcase)

/-- **What `child` does**: it fails and leaves the tree alone, finds a folder of that very name, or
makes a node for a name no child has. -/
theorem child_cases (upcase : Bytes) (isNfc : Text → Bool) (parent : Nat) (name : Text)
    (isDir : Bool) (t : Tree) :
    (∃ e, exec (child upcase isNfc parent name isDir) t = (fail e, t)) ∨
    (isDir = true ∧ ∃ at_, exec (child upcase isNfc parent name isDir) t = (.ok at_, t) ∧
      (nodeAt t parent).children.get (keyOf upcase name) = some at_ ∧
      (nodeAt t at_).isDir = true ∧ (nodeAt t at_).name = name) ∨
    (nameUnits isNfc name = .ok (encodeUtf16 name) ∧
      (nodeAt t parent).children.get (keyOf upcase name) = none ∧
      exec (child upcase isNfc parent name isDir) t =
        (.ok t.length, grow t parent (keyOf upcase name) (freshNode name (encodeUtf16 name) isDir))) := by
  unfold child
  rw [exec_bind, exec_lift]
  rcases nameUnits_cases isNfc name with hn | ⟨e, he⟩
  · rw [hn]
    dsimp only
    rw [exec_look]
    cases hget : (nodeAt t parent).children.get (keyOf upcase name) with
    | some at_ =>
      have hget' : (nodeAt t parent).children.get
          ((encodeUtf16 name).map (upcaseUnit upcase)) = some at_ := hget
      rw [hget']
      dsimp only
      split
      · exact .inl ⟨_, rfl⟩
      · rename_i hsame
        rw [not_or, not_not, not_not] at hsame
        split
        · exact .inl ⟨_, rfl⟩
        · rename_i hdir
          have hd : isDir = true := by
            cases isDir
            · exact absurd rfl hdir
            · rfl
          exact .inr (.inl ⟨hd, at_, rfl, rfl, by rw [hsame.1, hd], hsame.2⟩)
    | none =>
      have hget' : (nodeAt t parent).children.get
          ((encodeUtf16 name).map (upcaseUnit upcase)) = none := hget
      rw [hget']
      exact .inr (.inr ⟨rfl, rfl, rfl⟩)
  · rw [he]
    exact .inl ⟨e, rfl⟩

end Build

/-! ## Trees -/

/-- The list of nodes is a tree: every node is a kid of one folder before it, the root of none, and
files have no kids. -/
structure Forest (t : Tree) : Prop where
  root : (nodeAt t 0).isDir = true
  places : (0 :: (List.range t.length).flatMap (kids t)).Perm (List.range t.length)
  later : ∀ i, ∀ k ∈ kids t i, i < k
  leaf : ∀ i, (nodeAt t i).isDir = false → kids t i = []

theorem kids_of_le {t : Tree} {i : Nat} (h : t.length ≤ i) : kids t i = [] := by
  rw [kids, nodeAt_of_le h]
  rfl

theorem lt_of_kid {t : Tree} {i k : Nat} (hk : k ∈ kids t i) : i < t.length := by
  by_contra hle
  rw [kids_of_le (by omega)] at hk
  cases hk

namespace Forest

variable {t : Tree} (h : Forest t)
include h

theorem pos : 0 < t.length := List.mem_range.1 (h.places.subset List.mem_cons_self)

theorem kid_lt {i k : Nat} (hk : k ∈ kids t i) : k < t.length :=
  List.mem_range.1 (h.places.subset (List.mem_cons_of_mem 0
    (List.mem_flatMap.2 ⟨i, List.mem_range.2 (lt_of_kid hk), hk⟩)))

theorem dir_of_kid {i k : Nat} (hk : k ∈ kids t i) : (nodeAt t i).isDir = true := by
  by_contra hd
  rw [h.leaf i (Bool.eq_false_iff.2 hd)] at hk
  cases hk

theorem kids_nodup' : ((List.range t.length).flatMap (kids t)).Nodup :=
  (List.nodup_cons.1 (h.places.nodup_iff.2 List.nodup_range)).2

theorem kids_nodup (i : Nat) : (kids t i).Nodup := by
  by_cases hi : i < t.length
  · exact (List.nodup_flatMap.1 h.kids_nodup').1 i (List.mem_range.2 hi)
  · rw [kids_of_le (by omega)]
    exact List.nodup_nil

theorem parent_unique {i j k : Nat} (hi : k ∈ kids t i) (hj : k ∈ kids t j) : i = j := by
  by_contra hne
  have hpair := (List.nodup_flatMap.1 h.kids_nodup').2
  have hsymm : Std.Symm (Function.onFun List.Disjoint (kids t)) := ⟨fun _ _ hd => hd.symm⟩
  have hdisj := hpair.forall (List.mem_range.2 (lt_of_kid hi))
    (List.mem_range.2 (lt_of_kid hj)) hne
  exact hdisj hi hj

theorem exists_parent {k : Nat} (hk : k < t.length) (h0 : k ≠ 0) : ∃ i, k ∈ kids t i := by
  rcases List.mem_cons.1 (h.places.mem_iff.2 (List.mem_range.2 hk)) with hk | hk
  · exact absurd hk h0
  · obtain ⟨i, -, hi⟩ := List.mem_flatMap.1 hk
    exact ⟨i, hi⟩

/-- Among the kids of some folders a node is as often as its parent is among the folders. -/
theorem count_kids {q k : Nat} (hk : k ∈ kids t q) (dirs : List Nat) :
    (dirs.flatMap (kids t)).count k = dirs.count q := by
  induction dirs with
  | nil => rfl
  | cons d dirs ih =>
    rw [List.flatMap_cons, List.count_append, ih, List.count_cons]
    by_cases hd : d = q
    · rw [hd, List.count_eq_one_of_mem (h.kids_nodup q) hk, if_pos (beq_self_eq_true q)]
      omega
    · rw [List.count_eq_zero_of_not_mem fun hmem => hd (h.parent_unique hmem hk),
        if_neg (by simpa using hd)]
      omega

end Forest

/-- A folder whose kids grow by one, among folders whose kids stay. -/
theorem flatMap_perm_cons {l : List Nat} {f g : Nat → List Nat} {a x : Nat} (hn : l.Nodup)
    (ha : a ∈ l) (hga : (g a).Perm (x :: f a)) (hrest : ∀ b ∈ l, b ≠ a → g b = f b) :
    (l.flatMap g).Perm (x :: l.flatMap f) := by
  induction l with
  | nil => cases ha
  | cons b l ih =>
    rw [List.flatMap_cons, List.flatMap_cons]
    obtain ⟨hb, hn⟩ := List.nodup_cons.1 hn
    by_cases hba : b = a
    · have hsame : l.flatMap g = l.flatMap f := List.flatMap_congr fun c hc =>
        hrest c (List.mem_cons_of_mem b hc) fun hca => hb (hba ▸ hca ▸ hc)
      rw [hba, hsame]
      exact hga.append_right _
    · have hmem : a ∈ l := (List.mem_cons.1 ha).resolve_left fun hab => hba hab.symm
      rw [hrest b List.mem_cons_self hba]
      exact ((ih hn hmem fun c hc => hrest c (List.mem_cons_of_mem b hc)).append_left _).trans
        List.perm_middle

theorem kids_grow {t : Tree} {parent : Nat} {key : List Nat} {n : Node} (hp : parent < t.length)
    (hget : (nodeAt t parent).children.get key = none) (hn : n.children = ∅) :
    (kids (grow t parent key n) parent).Perm (t.length :: kids t parent) ∧
    ∀ i, i ≠ parent → kids (grow t parent key n) i = kids t i := by
  constructor
  · rw [kids, nodeAt_grow, if_neg (by omega), if_pos ⟨rfl, hp⟩]
    exact (BTreeMap.insert_perm t.length hget).map Prod.snd
  · intro i hi
    rw [kids, nodeAt_grow]
    split
    · rename_i hlen
      rw [hn, kids_of_le (by omega)]
      rfl
    · rw [if_neg fun h => hi h.1.symm]
      rfl

theorem forest_grow {t : Tree} (h : Forest t) {parent : Nat} {key : List Nat} {n : Node}
    (hp : parent < t.length) (hd : (nodeAt t parent).isDir = true)
    (hget : (nodeAt t parent).children.get key = none) (hn : n.children = ∅) :
    Forest (grow t parent key n) := by
  obtain ⟨hkids, hothers⟩ := kids_grow (n := n) hp hget hn
  have hpos := h.pos
  refine ⟨?_, ?_, ?_, ?_⟩
  · rw [nodeAt_grow, if_neg (by omega)]
    split
    · exact h.root
    · exact h.root
  · have hold : ((List.range t.length).flatMap (kids (grow t parent key n))).Perm
        (t.length :: (List.range t.length).flatMap (kids t)) :=
      flatMap_perm_cons List.nodup_range (List.mem_range.2 hp) hkids fun i _ hi => hothers i hi
    have hlast : kids (grow t parent key n) t.length = [] := by
      rw [hothers _ (by omega), kids_of_le (Nat.le_refl _)]
    rw [length_grow, List.range_succ, List.flatMap_append, List.flatMap_singleton, hlast,
      List.append_nil]
    refine ((hold.cons 0).trans (List.Perm.swap _ _ _)).trans ?_
    exact (h.places.cons t.length).trans (List.perm_append_singleton t.length _).symm
  · intro i k hk
    by_cases hi : i = parent
    · subst hi
      rcases List.mem_cons.1 (hkids.subset hk) with rfl | hk
      · exact hp
      · exact h.later i k hk
    · rw [hothers i hi] at hk
      exact h.later i k hk
  · intro i hi
    have hne : i ≠ parent := by
      rintro rfl
      rw [nodeAt_grow, if_neg (by omega), if_pos ⟨rfl, hp⟩] at hi
      rw [show (nodeAt t i).isDir = false from hi] at hd
      cases hd
    rw [hothers i hne]
    by_cases hlen : i < t.length
    · rw [nodeAt_grow, if_neg (by omega), if_neg fun hc => hne hc.1.symm] at hi
      exact h.leaf i hi
    · exact kids_of_le (by omega)

/-! ## What a plan builds -/

section Build

variable {upcase : Bytes} {isNfc : Text → Bool}

theorem forest_child {t : Tree} (h : Forest t) {parent : Nat} (hp : parent < t.length)
    (hd : (nodeAt t parent).isDir = true) (name : Text) (isDir : Bool) :
    Forest (exec (child upcase isNfc parent name isDir) t).2 ∧
    ∀ at_, (exec (child upcase isNfc parent name isDir) t).1 = .ok at_ →
      at_ < (exec (child upcase isNfc parent name isDir) t).2.length ∧
      (nodeAt (exec (child upcase isNfc parent name isDir) t).2 at_).isDir = isDir := by
  rcases child_cases upcase isNfc parent name isDir t with ⟨e, he⟩ | ⟨hdir, at_, he, hget, hat, -⟩ |
    ⟨-, hget, he⟩
  · rw [he]
    exact ⟨h, nofun⟩
  · rw [he]
    refine ⟨h, fun k hk => ?_⟩
    cases hk
    refine ⟨?_, hat.trans hdir.symm⟩
    show at_ < t.length
    by_contra hle
    rw [nodeAt_of_le (by omega)] at hat
    cases hat
  · rw [he]
    refine ⟨forest_grow h hp hd hget rfl, fun k hk => ?_⟩
    cases hk
    rw [length_grow, nodeAt_grow, if_pos rfl]
    exact ⟨Nat.lt_succ_self _, rfl⟩

theorem forest_dirParts (parts : List Text) {t : Tree} (h : Forest t) {at_ : Nat}
    (hat : at_ < t.length) (hd : (nodeAt t at_).isDir = true) :
    Forest (exec (dirParts upcase isNfc parts at_) t).2 ∧
    ∀ k, (exec (dirParts upcase isNfc parts at_) t).1 = .ok k →
      k < (exec (dirParts upcase isNfc parts at_) t).2.length ∧
      (nodeAt (exec (dirParts upcase isNfc parts at_) t).2 k).isDir = true := by
  induction parts generalizing t at_ with
  | nil =>
    refine ⟨h, fun k hk => ?_⟩
    cases hk
    exact ⟨hat, hd⟩
  | cons part parts ih =>
    rw [dirParts, exec_bind]
    obtain ⟨hforest, hplace⟩ := @forest_child upcase isNfc _ h _ hat hd part true
    cases hc : exec (child upcase isNfc at_ part true) t with
    | mk r u =>
      rw [hc] at hforest hplace
      cases r with
      | error e => exact ⟨hforest, nofun⟩
      | ok next => exact ih hforest (hplace next rfl).1 (hplace next rfl).2

theorem forest_dirFor (path : Text) {t : Tree} (h : Forest t) :
    Forest (exec (dirFor upcase isNfc path) t).2 ∧
    ∀ k, (exec (dirFor upcase isNfc path) t).1 = .ok k →
      k < (exec (dirFor upcase isNfc path) t).2.length ∧
      (nodeAt (exec (dirFor upcase isNfc path) t).2 k).isDir = true :=
  forest_dirParts (components path) h h.pos h.root

/-- What a node links to and is called stays. -/
theorem forest_modify {t : Tree} (h : Forest t) (i : Nat) {f : Node → Node}
    (hkids : ∀ n, (f n).children = n.children) (hdir : ∀ n, (f n).isDir = n.isDir) :
    Forest (t.modify i f) := by
  have hk : kids (t.modify i f) = kids t := by
    funext j
    rw [kids, nodeAt_modify]
    split
    · rw [hkids]
      rfl
    · rfl
  have hd : ∀ j, (nodeAt (t.modify i f) j).isDir = (nodeAt t j).isDir := fun j => by
    rw [nodeAt_modify]
    split
    · exact hdir _
    · rfl
  refine ⟨(hd 0).trans h.root, ?_, ?_, ?_⟩
  · rw [hk, List.length_modify]
    exact h.places
  · rw [hk]
    exact h.later
  · intro j hj
    rw [hk]
    exact h.leaf j ((hd j).symm.trans hj)

theorem forest_placeFile (f : SourceFile) {t : Tree} (h : Forest t) :
    Forest (exec (placeFile upcase isNfc f) t).2 := by
  unfold placeFile
  dsimp only
  rw [exec_bind]
  obtain ⟨hforest, hplace⟩ := @forest_dirFor upcase isNfc
    ((rsplitOnce (trimSlashes f.path)).getD ([], trimSlashes f.path)).1 _ h
  cases hc : exec (dirFor upcase isNfc
      ((rsplitOnce (trimSlashes f.path)).getD ([], trimSlashes f.path)).1) t with
  | mk r u =>
    rw [hc] at hforest hplace
    cases r with
    | error e => exact hforest
    | ok parent =>
      dsimp only
      rw [exec_bind]
      obtain ⟨hforest, -⟩ := @forest_child upcase isNfc _ hforest _
        (hplace parent rfl).1 (hplace parent rfl).2
        ((rsplitOnce (trimSlashes f.path)).getD ([], trimSlashes f.path)).2 false
      cases hf : exec (child upcase isNfc parent
          ((rsplitOnce (trimSlashes f.path)).getD ([], trimSlashes f.path)).2 false) u with
      | mk r u' =>
        rw [hf] at hforest
        cases r with
        | error e => exact hforest
        | ok at_ =>
          dsimp only
          rw [exec_change]
          exact forest_modify hforest at_ (fun _ => rfl) fun _ => rfl

theorem forest_placeDir (dir : Text) {t : Tree} (h : Forest t) :
    Forest (exec (placeDir upcase isNfc dir) t).2 := by
  unfold placeDir
  rw [exec_bind]
  have hforest := (@forest_dirFor upcase isNfc (trimSlashes dir) _ h).1
  cases hc : exec (dirFor upcase isNfc (trimSlashes dir)) t with
  | mk r u =>
    rw [hc] at hforest
    cases r with
    | error e => exact hforest
    | ok k => exact hforest

/-- What every step keeps, all of them keep, those that fail among them. -/
theorem placeAll_keeps {β : Type} {inv : Tree → Prop} {step : β → Building Unit} {label : β → Text}
    (hstep : ∀ b t, inv t → inv (exec (step b) t).2) (bs : List β) {t u : Tree}
    {bad bad' : List String} (ht : inv t) (h : placeAll step label bs t bad = .ok (u, bad')) :
    inv u := by
  induction bs generalizing t bad with
  | nil =>
    cases h
    exact ht
  | cons b bs ih =>
    have hs := hstep b t ht
    rw [placeAll] at h
    cases hb : exec (step b) t with
    | mk r t' =>
      rw [hb] at h hs
      cases r with
      | ok a => exact ih hs h
      | error e =>
        cases e with
        | error e => exact ih hs h
        | panic => cases h

theorem forest_root : Forest [{ (default : Node) with isDir := true }] := by
  refine ⟨rfl, ?_, ?_, ?_⟩
  · decide
  · intro i k hk
    have hi := lt_of_kid hk
    have h0 : i = 0 := by
      rw [List.length_singleton] at hi
      omega
    subst h0
    cases hk
  · intro i hi
    have : i ≠ 0 := by
      rintro rfl
      cases hi
    exact kids_of_le (by rw [List.length_singleton]; omega)

/-- **What a plan builds is a tree.** -/
theorem buildTree_forest {files : List SourceFile} {emptyDirs : List Text} {t : Tree}
    {bad : List String} (h : buildTree upcase isNfc files emptyDirs = .ok (t, bad)) : Forest t := by
  unfold buildTree at h
  obtain ⟨⟨u, bad'⟩, hfiles, hdirs⟩ := bind_eq_ok.1 h
  have hu : Forest u := placeAll_keeps (fun f t ht => forest_placeFile f ht) files forest_root hfiles
  exact placeAll_keeps (fun d t ht => forest_placeDir d ht) emptyDirs hu hdirs

end Build

/-! ## The traversal -/

section Traverse

variable {t : Tree} (h : Forest t)
include h

variable {dirs files stack : List Nat}

/-- Places a walk has come to are all different: each is there once for its parent. -/
theorem nodup_of_reached {rest : List Nat}
    (hp : (dirs ++ rest).Perm (0 :: dirs.flatMap (kids t))) : (dirs ++ rest).Nodup := by
  rw [List.nodup_iff_count_le_one]
  intro k
  induction k using Nat.strong_induction_on with
  | h k ih =>
    rw [hp.count_eq, List.count_cons]
    by_cases hq : ∃ q, k ∈ kids t q
    · obtain ⟨q, hq⟩ := hq
      have hlater := h.later q k hq
      have hdirs : dirs.count q ≤ 1 := by
        have := ih q hlater
        rw [List.count_append] at this
        omega
      rw [h.count_kids hq, if_neg (by simpa using (by omega : ¬0 = k))]
      exact hdirs
    · rw [List.count_eq_zero_of_not_mem fun hmem => by
        obtain ⟨d, -, hd⟩ := List.mem_flatMap.1 hmem
        exact hq ⟨d, hd⟩]
      split <;> omega

theorem lt_of_reached {rest : List Nat}
    (hp : (dirs ++ rest).Perm (0 :: dirs.flatMap (kids t))) {k : Nat} (hk : k ∈ dirs ++ rest) :
    k < t.length := by
  rcases List.mem_cons.1 (hp.subset hk) with rfl | hk
  · exact h.pos
  · obtain ⟨d, -, hd⟩ := List.mem_flatMap.1 hk
    exact h.kid_lt hd

/-- When only files are left every node was come to. -/
theorem mem_of_reached (hfiles : ∀ f ∈ files, (nodeAt t f).isDir = false)
    (hp : (dirs ++ files).Perm (0 :: dirs.flatMap (kids t))) {k : Nat} (hk : k < t.length) :
    k ∈ dirs ++ files := by
  induction k using Nat.strong_induction_on with
  | h k ih =>
    refine hp.symm.subset ?_
    by_cases h0 : k = 0
    · exact h0 ▸ List.mem_cons_self
    · obtain ⟨q, hq⟩ := h.exists_parent hk h0
      refine List.mem_cons_of_mem 0 (List.mem_flatMap.2 ⟨q, ?_, hq⟩)
      rcases List.mem_append.1 (ih q (h.later q k hq) (lt_of_kid hq)) with hmem | hmem
      · exact hmem
      · have := h.dir_of_kid hq
        rw [hfiles q hmem] at this
        cases this

/-- What holds at every turn of the traversal. -/
structure Reached (t : Tree) (stack dirs files : List Nat) : Prop where
  perm : (dirs ++ (stack ++ files)).Perm (0 :: dirs.flatMap (kids t))
  stack_dir : ∀ d ∈ stack, (nodeAt t d).isDir = true
  dirs_dir : ∀ d ∈ dirs, (nodeAt t d).isDir = true
  files_file : ∀ f ∈ files, (nodeAt t f).isDir = false

omit h in
theorem reached_step {at_ : Nat} (hr : Reached t (at_ :: stack) dirs files) :
    Reached t ((kids t at_).filter (fun k => (nodeAt t k).isDir) ++ stack) (dirs ++ [at_])
      (files ++ (kids t at_).filter fun k => !(nodeAt t k).isDir) := by
  refine ⟨?_, ?_, ?_, ?_⟩
  · have hkids := List.filter_append_perm (fun k => (nodeAt t k).isDir) (kids t at_)
    have hold : (dirs ++ [at_] ++ (stack ++ files)).Perm (0 :: dirs.flatMap (kids t)) := by
      rw [List.append_assoc, List.singleton_append]
      exact hr.perm
    rw [List.flatMap_append, List.flatMap_singleton, ← List.cons_append]
    refine List.Perm.trans ?_ (hold.append hkids)
    rw [List.append_assoc (dirs ++ [at_])]
    refine List.Perm.append_left _ ?_
    rw [List.append_assoc, List.append_assoc]
    refine (@List.perm_append_comm _ ((kids t at_).filter fun k => (nodeAt t k).isDir) _).trans ?_
    rw [List.append_assoc, List.append_assoc]
    refine List.Perm.append_left _ (List.Perm.append_left _ ?_)
    exact List.perm_append_comm
  · intro d hd
    rcases List.mem_append.1 hd with hd | hd
    · exact (List.mem_filter.1 hd).2
    · exact hr.stack_dir d (List.mem_cons_of_mem at_ hd)
  · intro d hd
    rcases List.mem_append.1 hd with hd | hd
    · exact hr.dirs_dir d hd
    · rw [List.mem_singleton.1 hd]
      exact hr.stack_dir at_ List.mem_cons_self
  · intro f hf
    rcases List.mem_append.1 hf with hf | hf
    · exact hr.files_file f hf
    · simpa using (List.mem_filter.1 hf).2

omit h in
/-- Folders come to stay in front. -/
theorem traverse_extends {turns : Nat} {dirs' files' : List Nat}
    (he : traverse t turns stack dirs files = .ok (dirs', files')) : dirs <+: dirs' := by
  induction turns generalizing stack dirs files with
  | zero =>
    cases stack with
    | nil =>
      cases he
      exact List.prefix_refl _
    | cons at_ stack => cases he
  | succ turns ih =>
    cases stack with
    | nil =>
      cases he
      exact List.prefix_refl _
    | cons at_ stack => exact (List.prefix_append dirs [at_]).trans (ih he)

/-- The traversal ends within its turns, with every node come to. -/
theorem traverse_reached {turns : Nat}
    (hr : Reached t stack dirs files) (hturns : t.length < turns + dirs.length) :
    ∃ dirs' files', traverse t turns stack dirs files = .ok (dirs', files') ∧
      Reached t [] dirs' files' := by
  induction turns generalizing stack dirs files with
  | zero =>
    have hle : (dirs ++ (stack ++ files)).length ≤ (List.range t.length).length :=
      ((nodup_of_reached h hr.perm).subperm fun k hk =>
        List.mem_range.2 (lt_of_reached h hr.perm hk)).length_le
    rw [List.length_append, List.length_range] at hle
    omega
  | succ turns ih =>
    cases stack with
    | nil => exact ⟨dirs, files, rfl, hr⟩
    | cons at_ stack =>
      rw [traverse]
      refine ih (reached_step hr) ?_
      rw [List.length_append, List.length_singleton]
      omega

/-- **The traversal comes past every node once**, folders and files apart, the root first. -/
theorem traverse_perm : ∃ dirs files, traverse t (t.length + 1) [0] [] [] = .ok (dirs, files) ∧
    (dirs ++ files).Perm (List.range t.length) ∧ [0] <+: dirs ∧
    (∀ d ∈ dirs, (nodeAt t d).isDir = true) ∧ ∀ f ∈ files, (nodeAt t f).isDir = false := by
  have hstart : Reached t [0] [] [] :=
    ⟨List.Perm.refl _, fun d hd => by rw [List.mem_singleton.1 hd]; exact h.root, nofun, nofun⟩
  obtain ⟨dirs, files, he, hr⟩ := traverse_reached h hstart (Nat.lt_succ_self t.length)
  refine ⟨dirs, files, he, ?_, traverse_extends (by rwa [traverse] at he), hr.dirs_dir,
    hr.files_file⟩
  have hp : (dirs ++ files).Perm (0 :: dirs.flatMap (kids t)) := hr.perm
  refine (List.perm_ext_iff_of_nodup (nodup_of_reached h hp) List.nodup_range).2 fun k => ?_
  rw [List.mem_range]
  exact ⟨fun hk => lt_of_reached h hp hk, fun hk => mem_of_reached h hr.files_file hp hk⟩

end Traverse

end Ps5Upload.Exfat
