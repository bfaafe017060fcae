import Ps5Upload.Fpkg.Exfat.Entries

/-!
# exFAT: the paths of a plan's tree

Where a plan's tree keeps the files and folders of its source: `At t k cs` says that the names `cs`
lead from the root to place `k`.

* `at_exists`, `At.unique`, `At.injective` — every node has one path, and no two have the same.
-/

namespace Ps5Upload.Exfat

open ByteFile Checked Caching Blocks Utf16

/-! ## Components -/

/-- A path written with single slashes. -/
def joined (cs : List Text) : Text := ['/'].intercalate cs

theorem components_append_slash (a b : Text) :
    components (a ++ '/' :: b) = components a ++ components b := by
  rw [components, List.splitOn_append_cons_self, List.filter_append]
  rfl

theorem components_nil : components [] = [] := rfl

theorem components_of_no_slash {a : Text} (h : '/' ∉ a) (ha : a ≠ []) : components a = [a] := by
  rw [components, List.splitOn_eq_singleton h]
  simp [ha]

theorem components_dropWhile (p : Text) : components (p.dropWhile (· = '/')) = components p := by
  induction p with
  | nil => rfl
  | cons c p ih =>
    rw [List.dropWhile_cons]
    split
    · rename_i hc
      rw [decide_eq_true_eq] at hc
      subst hc
      rw [ih]
      exact (components_append_slash [] p).symm
    · rfl

theorem components_rdropWhile (p : Text) : components (p.rdropWhile (· = '/')) = components p := by
  induction p using List.reverseRecOn with
  | nil => rfl
  | append_singleton p c ih =>
    rw [List.rdropWhile_concat]
    split
    · rename_i hc
      rw [decide_eq_true_eq] at hc
      subst hc
      rw [ih, components_append_slash, components_nil, List.append_nil]
    · rfl

theorem components_trimSlashes (p : Text) : components (trimSlashes p) = components p := by
  rw [trimSlashes, components_rdropWhile, components_dropWhile]

theorem rsplitOnce_some {p : Text} {cut : Text × Text} (h : rsplitOnce p = some cut) :
    p = cut.1 ++ '/' :: cut.2 ∧ '/' ∉ cut.2 := by
  unfold rsplitOnce at h
  split at h
  · rename_i hmem
    cases h
    have hspan := List.takeWhile_append_dropWhile (p := fun c => decide (c ≠ '/')) (l := p.reverse)
    have hrest : ∃ rest, p.reverse.dropWhile (· ≠ '/') = '/' :: rest := by
      cases hd : p.reverse.dropWhile (fun c => decide (c ≠ '/')) with
      | nil =>
        have hall := List.dropWhile_eq_nil_iff.1 hd '/' (List.mem_reverse.2 hmem)
        exact absurd rfl (of_decide_eq_true hall)
      | cons c rest =>
        have hc := List.head?_dropWhile_not (fun c => decide (c ≠ '/')) p.reverse
        rw [hd] at hc
        simp only [List.head?_cons, ne_eq, decide_not, Bool.not_eq_eq_eq_not, Bool.not_false,
          decide_eq_true_eq] at hc
        exact ⟨rest, by rw [hc]⟩
    obtain ⟨rest, hrest⟩ := hrest
    rw [hrest] at hspan
    constructor
    · dsimp only
      rw [hrest, List.drop_succ_cons, List.drop_zero]
      have := congrArg List.reverse hspan
      rw [List.reverse_append, List.reverse_cons, List.reverse_reverse, List.append_assoc] at this
      exact this.symm
    · dsimp only
      rw [List.mem_reverse]
      intro hin
      have := List.mem_takeWhile_imp hin
      simp at this
  · cases h

/-- **A path cut at its last slash** into a folder's path and a name. -/
theorem components_rsplitOnce (p : Text) :
    components ((rsplitOnce p).getD ([], p)).1 ++ components ((rsplitOnce p).getD ([], p)).2 =
      components p ∧ '/' ∉ ((rsplitOnce p).getD ([], p)).2 := by
  cases h : rsplitOnce p with
  | none =>
    refine ⟨rfl, fun hmem => ?_⟩
    rw [rsplitOnce, if_pos (show '/' ∈ p from hmem)] at h
    cases h
  | some cut =>
    obtain ⟨hp, hslash⟩ := rsplitOnce_some h
    rw [Option.getD_some]
    refine ⟨?_, hslash⟩
    conv_rhs => rw [hp]
    exact (components_append_slash cut.1 cut.2).symm

/-! ## Paths -/

/-- The names on the way from the root to a place. -/
inductive At (t : Tree) : Nat → List Text → Prop
  | root : At t 0 []
  | kid {i k : Nat} {cs : List Text} (parent : At t i cs) (mem : k ∈ kids t i) :
      At t k (cs ++ [(nodeAt t k).name])

theorem mem_kids {t : Tree} {i k : Nat} :
    k ∈ kids t i ↔ ∃ key, (nodeAt t i).children.get key = some k := by
  rw [kids, List.mem_map]
  constructor
  · rintro ⟨⟨key, k⟩, hmem, rfl⟩
    exact ⟨key, BTreeMap.get_eq_some.2 hmem⟩
  · rintro ⟨key, hkey⟩
    exact ⟨(key, k), BTreeMap.get_eq_some.1 hkey, rfl⟩

/-- Every kid is kept under its name's key, and its name is one exFAT can hold. -/
structure Named (upcase : Bytes) (isNfc : Text → Bool) (t : Tree) : Prop where
  key_eq : ∀ i key k, (nodeAt t i).children.get key = some k → key = keyOf upcase (nodeAt t k).name
  units_eq : ∀ i, ∀ k ∈ kids t i, (nodeAt t k).units = encodeUtf16 (nodeAt t k).name
  name_ok : ∀ i, ∀ k ∈ kids t i,
    nameUnits isNfc (nodeAt t k).name = .ok (encodeUtf16 (nodeAt t k).name)

/-- Siblings have different names. -/
theorem Named.sibling {upcase : Bytes} {isNfc : Text → Bool} {t : Tree} (h : Named upcase isNfc t)
    {i j k : Nat} (hj : j ∈ kids t i) (hk : k ∈ kids t i)
    (hname : (nodeAt t j).name = (nodeAt t k).name) : j = k := by
  obtain ⟨a, ha⟩ := mem_kids.1 hj
  obtain ⟨b, hb⟩ := mem_kids.1 hk
  rw [h.key_eq i a j ha, hname] at ha
  rw [h.key_eq i b k hb, ha] at hb
  exact Option.some.inj hb

theorem at_congr {t u : Tree} (hkids : ∀ i, kids u i = kids t i)
    (hname : ∀ i, (nodeAt u i).name = (nodeAt t i).name) {k : Nat} {cs : List Text}
    (h : At t k cs) : At u k cs := by
  induction h with
  | root => exact .root
  | kid parent mem ih =>
    rw [← hname]
    exact .kid ih (by rwa [hkids])

section Forest

variable {t : Tree} (h : Forest t)
include h

omit h in
theorem At.of_root {i : Nat} {cs : List Text} (hi : At t i cs) (hc : cs = []) : i = 0 := by
  cases hi with
  | root => rfl
  | kid parent mem => simp at hc

theorem At.lt {k : Nat} {cs : List Text} (hk : At t k cs) : k < t.length := by
  cases hk with
  | root => exact h.pos
  | kid parent mem => exact h.kid_lt mem

theorem at_exists {k : Nat} (hk : k < t.length) : ∃ cs, At t k cs := by
  induction k using Nat.strong_induction_on with
  | h k ih =>
    by_cases h0 : k = 0
    · exact ⟨[], h0 ▸ .root⟩
    · obtain ⟨i, hi⟩ := h.exists_parent hk h0
      obtain ⟨cs, hcs⟩ := ih i (h.later i k hi) (lt_of_kid hi)
      exact ⟨_, .kid hcs hi⟩

/-- **A node has one path.** -/
theorem At.unique {k : Nat} {cs cs' : List Text} (hk : At t k cs) (hk' : At t k cs') : cs = cs' := by
  induction hk generalizing cs' with
  | root =>
    cases hk' with
    | root => rfl
    | kid parent mem => exact absurd (h.later _ _ mem) (Nat.not_lt_zero _)
  | kid parent mem ih =>
    cases hk' with
    | root => exact absurd (h.later _ _ mem) (Nat.not_lt_zero _)
    | kid parent' mem' =>
      cases h.parent_unique mem mem'
      rw [ih parent']

omit h in
/-- **No two nodes have the same path.** -/
theorem At.injective {upcase : Bytes} {isNfc : Text → Bool} (hn : Named upcase isNfc t) {i j : Nat}
    {cs : List Text} (hi : At t i cs) (hj : At t j cs) : i = j := by
  induction hi generalizing j with
  | root => exact (hj.of_root rfl).symm
  | kid parent mem ih =>
    generalize hcs : _ ++ [_] = cs' at hj
    cases hj with
    | root => simp at hcs
    | kid parent' mem' =>
      obtain ⟨hinit, hlast⟩ := List.append_inj' hcs rfl
      subst hinit
      cases ih parent'
      exact hn.sibling mem mem' (List.cons.inj hlast).1

omit h in
/-- The folders on the way to a node. -/
theorem At.above {k : Nat} {cs cs' : List Text} (hk : At t k (cs ++ cs')) :
    ∃ i, At t i cs ∧ (cs' ≠ [] → kids t i ≠ []) := by
  induction cs' using List.reverseRecOn generalizing k with
  | nil => exact ⟨k, by rwa [List.append_nil] at hk, fun hne => absurd rfl hne⟩
  | append_singleton cs' c ih =>
    generalize hcs : cs ++ (cs' ++ [c]) = all at hk
    cases hk with
    | root => simp at hcs
    | kid parent mem =>
      rw [← List.append_assoc] at hcs
      obtain ⟨rfl, -⟩ := List.append_inj' hcs rfl
      by_cases hnil : cs' = []
      · subst hnil
        rw [List.append_nil] at parent
        exact ⟨_, parent, fun _ => List.ne_nil_of_mem mem⟩
      · obtain ⟨i, hi, hkids⟩ := ih parent
        exact ⟨i, hi, fun _ => hkids hnil⟩

end Forest

/-! ## Growing -/

/-- Nodes keep their paths and stay files or folders. -/
def Kept (t u : Tree) : Prop :=
  ∀ i cs, At t i cs → At u i cs ∧ (nodeAt u i).isDir = (nodeAt t i).isDir

theorem Kept.refl (t : Tree) : Kept t t := fun _ _ hi => ⟨hi, rfl⟩

theorem Kept.trans {t u w : Tree} (h : Kept t u) (h' : Kept u w) : Kept t w := fun i cs hi =>
  ⟨(h' i cs (h i cs hi).1).1, (h' i cs (h i cs hi).1).2.trans (h i cs hi).2⟩

section Grow

variable {t : Tree} (h : Forest t) {parent : Nat} {key : List Nat} {n : Node}
  (hp : parent < t.length) (hget : (nodeAt t parent).children.get key = none)
  (hn : n.children = ∅)

theorem name_grow {i : Nat} (hi : i < t.length) :
    (nodeAt (grow t parent key n) i).name = (nodeAt t i).name := by
  rw [nodeAt_grow, if_neg (by omega)]
  split <;> rfl

theorem isDir_grow {i : Nat} (hi : i < t.length) :
    (nodeAt (grow t parent key n) i).isDir = (nodeAt t i).isDir := by
  rw [nodeAt_grow, if_neg (by omega)]
  split <;> rfl

theorem nodeAt_grow_last : nodeAt (grow t parent key n) t.length = n := by
  rw [nodeAt_grow, if_pos rfl]

include hp hget hn

theorem mem_kids_grow {i k : Nat} : k ∈ kids (grow t parent key n) i ↔
    k ∈ kids t i ∨ (i = parent ∧ k = t.length) := by
  obtain ⟨hkids, hothers⟩ := kids_grow hp hget hn
  by_cases hi : i = parent
  · subst hi
    rw [hkids.mem_iff, List.mem_cons]
    constructor
    · rintro (h | h)
      · exact .inr ⟨rfl, h⟩
      · exact .inl h
    · rintro (h | ⟨-, h⟩)
      · exact .inr h
      · exact .inl h
  · rw [hothers i hi]
    exact ⟨.inl, fun h => h.elim id fun h => absurd h.1 hi⟩

include h

theorem kept_grow : Kept t (grow t parent key n) := by
  intro i cs hi
  refine ⟨?_, isDir_grow (At.lt h hi)⟩
  induction hi with
  | root => exact .root
  | kid parent mem ih =>
    rw [← name_grow (h.kid_lt mem)]
    exact .kid ih ((mem_kids_grow hp hget hn).2 (.inl mem))

theorem at_grow_last {cs : List Text} (hcs : At t parent cs) :
    At (grow t parent key n) t.length (cs ++ [n.name]) := by
  have hlast := At.kid (kept_grow h hp hget hn parent cs hcs).1
    ((mem_kids_grow hp hget hn).2 (.inr ⟨rfl, rfl⟩))
  rwa [nodeAt_grow_last] at hlast

/-- A path in the grown tree is an old one or that of the new node. -/
theorem at_grow {k : Nat} {cs : List Text} (hk : At (grow t parent key n) k cs) :
    (k < t.length ∧ At t k cs) ∨
      (k = t.length ∧ ∃ cs', At t parent cs' ∧ cs = cs' ++ [n.name]) := by
  induction hk with
  | root => exact .inl ⟨h.pos, .root⟩
  | @kid i k cs parent' mem ih =>
    rcases (mem_kids_grow hp hget hn).1 mem with hold | ⟨rfl, rfl⟩
    · have hlt := lt_of_kid hold
      obtain ⟨-, hat⟩ := ih.resolve_right fun hlast => by omega
      rw [name_grow (h.kid_lt hold)]
      exact .inl ⟨h.kid_lt hold, .kid hat hold⟩
    · obtain ⟨-, hat⟩ := ih.resolve_right fun hlast => by omega
      rw [nodeAt_grow_last]
      exact .inr ⟨rfl, cs, hat, rfl⟩

theorem named_grow {upcase : Bytes} {isNfc : Text → Bool} (hnamed : Named upcase isNfc t)
    (hkey : key = keyOf upcase n.name) (hunits : n.units = encodeUtf16 n.name)
    (hname : nameUnits isNfc n.name = .ok (encodeUtf16 n.name)) :
    Named upcase isNfc (grow t parent key n) := by
  have hsame : ∀ i, ∀ k ∈ kids t i, (nodeAt (grow t parent key n) k).name = (nodeAt t k).name ∧
      (nodeAt (grow t parent key n) k).units = (nodeAt t k).units := fun i k hk => by
    have hlt := h.kid_lt hk
    rw [nodeAt_grow, if_neg (by omega)]
    split <;> exact ⟨rfl, rfl⟩
  refine ⟨fun i key' k hk => ?_, fun i k hk => ?_, fun i k hk => ?_⟩
  · by_cases hnew : i = parent ∧ k = t.length
    · obtain ⟨rfl, rfl⟩ := hnew
      rw [nodeAt_grow_last, ← hkey]
      rw [nodeAt_grow, if_neg (by omega), if_pos ⟨rfl, hp⟩, BTreeMap.get_insert] at hk
      by_contra hne
      rw [if_neg hne] at hk
      exact absurd (h.kid_lt (mem_kids.2 ⟨key', hk⟩)) (Nat.lt_irrefl _)
    · have hmem := (mem_kids_grow hp hget hn).1 (mem_kids.2 ⟨key', hk⟩)
      have hmem := hmem.resolve_right hnew
      rw [(hsame i k hmem).1]
      rw [nodeAt_grow, if_neg (Nat.ne_of_lt (lt_of_kid hmem))] at hk
      split at hk
      · rename_i hi
        rw [BTreeMap.get_insert] at hk
        split at hk
        · exact absurd (Option.some.inj hk).symm (Nat.ne_of_lt (h.kid_lt hmem))
        · exact hnamed.key_eq i key' k hk
      · exact hnamed.key_eq i key' k hk
  · rcases (mem_kids_grow hp hget hn).1 hk with hk | ⟨-, rfl⟩
    · rw [(hsame i k hk).1, (hsame i k hk).2, hnamed.units_eq i k hk]
    · rw [nodeAt_grow_last, hunits]
  · rcases (mem_kids_grow hp hget hn).1 hk with hk | ⟨-, rfl⟩
    · rw [(hsame i k hk).1]
      exact hnamed.name_ok i k hk
    · rw [nodeAt_grow_last]
      exact hname

end Grow

/-! ## What a tree holds -/

/-- The source paths and sizes of a tree's files, in the order they were put in. -/
def filesOf (t : Tree) : List (Text × Nat) :=
  t.filterMap fun n => if n.isDir then none else some (n.src, n.size)

theorem filterMap_modify {α β : Type} {g : α → Option β} {f : α → α} (hf : ∀ a, g (f a) = g a)
    (l : List α) (i : Nat) : (l.modify i f).filterMap g = l.filterMap g := by
  induction l generalizing i with
  | nil => rw [List.modify_nil]
  | cons a l ih =>
    cases i with
    | zero => rw [List.modify_zero_cons, List.filterMap_cons, List.filterMap_cons, hf]
    | succ i => rw [List.modify_succ_cons, List.filterMap_cons, List.filterMap_cons, ih]

theorem filesOf_grow (t : Tree) (parent : Nat) (key : List Nat) (n : Node) :
    filesOf (grow t parent key n) =
      filesOf t ++ if n.isDir then [] else [(n.src, n.size)] := by
  have hkeep := filterMap_modify (g := fun n : Node => if n.isDir then none else some (n.src, n.size))
    (f := fun p => { p with children := p.children.insert key t.length }) (fun _ => rfl) t parent
  rw [filesOf, grow, List.filterMap_append, hkeep, ← filesOf]
  cases hd : n.isDir <;> simp [hd]

/-- A tree that holds some files, each at its path, and folders of some paths only. -/
structure Holding (upcase : Bytes) (isNfc : Text → Bool) (dirs : List Text → Prop)
    (files : List (Text × Nat)) (t : Tree) : Prop where
  forest : Forest t
  named : Named upcase isNfc t
  files_eq : filesOf t = files
  file_at : ∀ k < t.length, (nodeAt t k).isDir = false → At t k (components (nodeAt t k).src)
  dir_at : ∀ k cs, At t k cs → (nodeAt t k).isDir = true → dirs cs

section Holding

variable {upcase : Bytes} {isNfc : Text → Bool} {dirs : List Text → Prop} {files : List (Text × Nat)}

theorem Holding.grow {t : Tree} (h : Holding upcase isNfc dirs files t) {parent : Nat} {cs : List Text}
    (hat : At t parent cs) (hd : (nodeAt t parent).isDir = true) {n : Node}
    (hget : (nodeAt t parent).children.get (keyOf upcase n.name) = none) (hn : n.children = ∅)
    (hunits : n.units = encodeUtf16 n.name)
    (hname : nameUnits isNfc n.name = .ok (encodeUtf16 n.name))
    (hfile : n.isDir = false → components n.src = cs ++ [n.name])
    (hdir : n.isDir = true → dirs (cs ++ [n.name])) :
    Holding upcase isNfc dirs (files ++ if n.isDir then [] else [(n.src, n.size)])
      (grow t parent (keyOf upcase n.name) n) := by
  have hp := At.lt h.forest hat
  have hkept := kept_grow h.forest hp hget hn
  refine ⟨forest_grow h.forest hp hd hget hn, named_grow h.forest hp hget hn h.named rfl hunits hname,
    by rw [filesOf_grow, h.files_eq], fun k hk hf => ?_, fun k cs' hk hdk => ?_⟩
  · by_cases hlast : k = t.length
    · subst hlast
      rw [nodeAt_grow_last] at hf ⊢
      rw [hfile hf]
      exact at_grow_last h.forest hp hget hn hat
    · have hlt : k < t.length := by
        rw [length_grow] at hk
        omega
      rw [isDir_grow hlt] at hf
      have hsrc : (nodeAt (Exfat.grow t parent (keyOf upcase n.name) n) k).src = (nodeAt t k).src := by
        rw [nodeAt_grow, if_neg hlast]
        split <;> rfl
      rw [hsrc]
      exact (hkept k _ (h.file_at k hlt hf)).1
  · rcases at_grow h.forest hp hget hn hk with ⟨hlt, hold⟩ | ⟨rfl, cs'', hold, rfl⟩
    · rw [isDir_grow hlt] at hdk
      exact h.dir_at k cs' hold hdk
    · rw [nodeAt_grow_last] at hdk
      rw [At.unique h.forest hold hat]
      exact hdir hdk

theorem at_of_get {t : Tree} {parent k : Nat} {name : Text} {cs : List Text}
    (hat : At t parent cs) (hname : (nodeAt t k).name = name)
    (hget : (nodeAt t parent).children.get (keyOf upcase name) = some k) : At t k (cs ++ [name]) := by
  rw [← hname]
  exact .kid hat (mem_kids.2 ⟨_, hget⟩)

/-- Folders made on a path. -/
theorem dirParts_holding {parts : List Text} {t u : Tree} {at_ k : Nat} {cs : List Text}
    (h : Holding upcase isNfc dirs files t) (hat : At t at_ cs) (hd : (nodeAt t at_).isDir = true)
    (hdirs : ∀ ps, ps <+: parts → dirs (cs ++ ps))
    (he : exec (dirParts upcase isNfc parts at_) t = (.ok k, u)) :
    Holding upcase isNfc dirs files u ∧ Kept t u ∧ At u k (cs ++ parts) ∧
      (nodeAt u k).isDir = true := by
  induction parts generalizing t at_ cs with
  | nil =>
    cases he
    rw [List.append_nil]
    exact ⟨h, Kept.refl _, hat, hd⟩
  | cons part parts ih =>
    rw [dirParts, exec_bind] at he
    have hrest : ∀ ps, ps <+: parts → dirs (cs ++ [part] ++ ps) := fun ps hps => by
      rw [List.append_assoc]
      exact hdirs _ (List.cons_prefix_cons.2 ⟨rfl, hps⟩)
    rcases child_cases upcase isNfc at_ part true t with ⟨e, hc⟩ | ⟨-, next, hc, hget, hdir, hname⟩ |
      ⟨hunits, hget, hc⟩
    · rw [hc] at he
      cases he
    · rw [hc] at he
      have := ih h (at_of_get hat hname hget) hdir hrest he
      rwa [List.append_assoc] at this
    · rw [hc] at he
      have hgrown := h.grow hat hd (n := freshNode part (encodeUtf16 part) true) hget rfl rfl hunits
        (fun hfile => by cases hfile) (fun _ => hdirs [part] (List.cons_prefix_cons.2 ⟨rfl, List.nil_prefix⟩))
      have hp := At.lt h.forest hat
      have hlast := at_grow_last h.forest hp hget
        (rfl : (freshNode part (encodeUtf16 part) true).children = ∅) hat
      rw [show (if (freshNode part (encodeUtf16 part) true).isDir then ([] : List (Text × Nat))
        else _) = [] from rfl, List.append_nil] at hgrown
      obtain ⟨hu, hkept, hk, hdk⟩ := ih hgrown hlast (by rw [nodeAt_grow_last]; rfl) hrest he
      rw [List.append_assoc] at hk
      exact ⟨hu, (kept_grow h.forest hp hget rfl).trans hkept, hk, hdk⟩

theorem dirFor_holding {path : Text} {t u : Tree} {k : Nat} (h : Holding upcase isNfc dirs files t)
    (hdirs : ∀ ps, ps <+: components path → dirs ps)
    (he : exec (dirFor upcase isNfc path) t = (.ok k, u)) :
    Holding upcase isNfc dirs files u ∧ Kept t u ∧ At u k (components path) ∧
      (nodeAt u k).isDir = true :=
  dirParts_holding h .root h.forest.root hdirs he

/-- A folder put into the tree. -/
theorem placeDir_holding {dir : Text} {t u : Tree} (h : Holding upcase isNfc dirs files t)
    (hdirs : ∀ ps, ps <+: components dir → dirs ps)
    (he : exec (placeDir upcase isNfc dir) t = (.ok (), u)) :
    Holding upcase isNfc dirs files u ∧ Kept t u ∧
      ∃ k, At u k (components dir) ∧ (nodeAt u k).isDir = true := by
  unfold placeDir at he
  rw [exec_bind] at he
  cases hc : exec (dirFor upcase isNfc (trimSlashes dir)) t with
  | mk r w =>
    rw [hc] at he
    cases r with
    | error e => cases he
    | ok k =>
      cases he
      have := dirFor_holding h (by rwa [components_trimSlashes]) hc
      rw [components_trimSlashes] at this
      exact ⟨this.1, this.2.1, k, this.2.2⟩

theorem modify_concat {α : Type} (l : List α) (a : α) (f : α → α) {i : Nat} (hi : l.length = i) :
    (l ++ [a]).modify i f = l ++ [f a] := by
  induction l generalizing i with
  | nil =>
    subst hi
    rfl
  | cons b l ih =>
    subst hi
    rw [List.length_cons, List.cons_append, List.modify_succ_cons, ih rfl]
    rfl

theorem modify_grow (t : Tree) (parent : Nat) (key : List Nat) (n : Node) (f : Node → Node) :
    (Exfat.grow t parent key n).modify t.length f = Exfat.grow t parent key (f n) := by
  rw [Exfat.grow, Exfat.grow]
  exact modify_concat _ n f (List.length_modify ..)

/-- A file put into the tree. -/
theorem placeFile_holding {f : SourceFile} {t u : Tree} (h : Holding upcase isNfc dirs files t)
    (hdirs : ∀ ps, ps <+: components f.path → ps ≠ components f.path → dirs ps)
    (he : exec (placeFile upcase isNfc f) t = (.ok (), u)) :
    Holding upcase isNfc dirs (files ++ [(trimSlashes f.path, f.size)]) u ∧ Kept t u := by
  obtain ⟨hcut, hslash⟩ := components_rsplitOnce (trimSlashes f.path)
  rw [components_trimSlashes] at hcut
  unfold placeFile at he
  dsimp only at he
  generalize (rsplitOnce (trimSlashes f.path)).getD ([], trimSlashes f.path) = cut at he hcut hslash
  rw [exec_bind] at he
  cases hc : exec (dirFor upcase isNfc cut.1) t with
  | mk r w =>
    rw [hc] at he
    cases r with
    | error e => cases he
    | ok parent =>
      dsimp only at he
      rw [exec_bind] at he
      rcases child_cases upcase isNfc parent cut.2 false w with ⟨e, hf⟩ | ⟨hfalse, -⟩ |
        ⟨hunits, hget, hf⟩
      · rw [hf] at he
        cases he
      · cases hfalse
      · rw [hf] at he
        dsimp only at he
        rw [exec_change] at he
        cases he
        have hne : cut.2 ≠ [] := by
          rintro hnil
          have hpos := (storable_of_units hunits).pos
          rw [hnil] at hpos
          exact absurd hpos (Nat.lt_irrefl 0)
        rw [components_of_no_slash hslash hne] at hcut
        obtain ⟨hw, hkept, hat, hd⟩ := dirFor_holding h (fun ps hps => hdirs ps
          (hcut ▸ hps.trans (List.prefix_append _ _)) fun heq => by
            have hlen := hps.length_le
            rw [heq, ← hcut, List.length_append, List.length_singleton] at hlen
            omega) hc
        rw [modify_grow]
        refine ⟨hw.grow hat hd (n := { freshNode cut.2 (encodeUtf16 cut.2) false with
          src := trimSlashes f.path, size := f.size }) hget rfl rfl hunits (fun _ => ?_) nofun,
          hkept.trans (kept_grow hw.forest (At.lt hw.forest hat) hget rfl)⟩
        rw [components_trimSlashes]
        exact hcut.symm

end Holding

/-! ## What a plan's tree holds -/

/-- A path that a source has a file or a folder at or under, if it is no file's own. -/
def Above (files : List SourceFile) (emptyDirs : List Text) (cs : List Text) : Prop :=
  cs = [] ∨ (∃ f ∈ files, cs <+: components f.path ∧ cs ≠ components f.path) ∨
    ∃ d ∈ emptyDirs, cs <+: components d

/-- A folder of a source that holds nothing. -/
structure HoldsNothing (files : List SourceFile) (emptyDirs : List Text) (cs : List Text) : Prop where
  ne_root : cs ≠ []
  listed : ∃ d ∈ emptyDirs, components d = cs
  no_file : ∀ f ∈ files, ¬cs <+: components f.path
  no_dir : ∀ d ∈ emptyDirs, cs <+: components d → components d = cs

section PlaceAll

variable {β : Type} {step : β → Building Unit} {label : β → Text}

/-- Errors stay listed. -/
theorem placeAll_bad {bs : List β} {t u : Tree} {bad bad' : List String}
    (h : placeAll step label bs t bad = .ok (u, bad')) : bad <+: bad' := by
  induction bs generalizing t bad with
  | nil =>
    cases h
    exact List.prefix_refl _
  | cons b bs ih =>
    rw [placeAll] at h
    cases hb : exec (step b) t with
    | mk r t' =>
      rw [hb] at h
      cases r with
      | ok a => exact ih h
      | error e =>
        cases e with
        | error e => exact (List.prefix_append _ _).trans (ih h)
        | panic => cases h

/-- Steps that all succeed, one after another. -/
theorem placeAll_from (inv : List β → Tree → Prop) {bs : List β}
    (hstep : ∀ done, ∀ b ∈ bs, ∀ t u, inv done t → exec (step b) t = (.ok (), u) → inv (done ++ [b]) u)
    {done : List β} {t u : Tree} (ht : inv done t)
    (h : placeAll step label bs t [] = .ok (u, [])) : inv (done ++ bs) u := by
  induction bs generalizing done t with
  | nil =>
    cases h
    rwa [List.append_nil]
  | cons b bs ih =>
    rw [placeAll] at h
    cases hb : exec (step b) t with
    | mk r t' =>
      rw [hb] at h
      cases r with
      | ok a =>
        have := ih (fun done b' hb' => hstep done b' (List.mem_cons_of_mem b hb'))
          (hstep done b List.mem_cons_self t t' ht hb) h
        rwa [List.append_assoc] at this
      | error e =>
        cases e with
        | error e => exact absurd (List.prefix_nil.1 (placeAll_bad h)) (by simp)
        | panic => cases h

theorem placeAll_done (inv : List β → Tree → Prop) {bs : List β}
    (hstep : ∀ done, ∀ b ∈ bs, ∀ t u, inv done t → exec (step b) t = (.ok (), u) → inv (done ++ [b]) u)
    {t u : Tree} (ht : inv [] t) (h : placeAll step label bs t [] = .ok (u, [])) : inv bs u :=
  placeAll_from inv hstep ht h

end PlaceAll

section Source

variable {upcase : Bytes} {isNfc : Text → Bool} {files : List SourceFile} {emptyDirs : List Text}
  {t : Tree}

theorem holding_root (dirs : List Text → Prop) (hroot : dirs []) :
    Holding upcase isNfc dirs [] [{ (default : Node) with isDir := true }] := by
  have hkids : ∀ i, kids [{ (default : Node) with isDir := true }] i = [] := fun i => by
    cases i with
    | zero => rfl
    | succ i => exact kids_of_le (by rw [List.length_singleton]; omega)
  refine ⟨forest_root, ⟨fun i key k hk => ?_, fun i k hk => ?_, fun i k hk => ?_⟩, rfl,
    fun k hk hf => ?_, fun k cs hk _ => ?_⟩
  · have := mem_kids.2 ⟨key, hk⟩
    rw [hkids] at this
    cases this
  · rw [hkids] at hk
    cases hk
  · rw [hkids] at hk
    cases hk
  · rw [List.length_singleton, Nat.lt_one_iff] at hk
    subst hk
    cases hf
  · cases hk with
    | root => exact hroot
    | kid parent mem =>
      rw [hkids] at mem
      cases mem

/-- **A plan's tree holds the source's files**, each at its path, folders of the source's paths
only, and all its empty folders. -/
theorem buildTree_holding (h : buildTree upcase isNfc files emptyDirs = .ok (t, [])) :
    Holding upcase isNfc (Above files emptyDirs)
      (files.map fun f => (trimSlashes f.path, f.size)) t ∧
    ∀ d ∈ emptyDirs, ∃ k, At t k (components d) ∧ (nodeAt t k).isDir = true := by
  unfold buildTree at h
  obtain ⟨⟨u, bad⟩, hfiles, hdirs⟩ := bind_eq_ok.1 h
  cases List.prefix_nil.1 (placeAll_bad hdirs)
  have hu := placeAll_done (fun done t => Holding upcase isNfc (Above files emptyDirs)
      (done.map fun f => (trimSlashes f.path, f.size)) t)
    (fun done f hf t u ht he => by
      rw [List.map_append]
      exact (placeFile_holding ht (fun ps hps hne => .inr (.inl ⟨f, hf, hps, hne⟩)) he).1)
    (holding_root _ (.inl rfl)) hfiles
  refine placeAll_done (fun done t => Holding upcase isNfc (Above files emptyDirs)
        (files.map fun f => (trimSlashes f.path, f.size)) t ∧
      ∀ d ∈ done, ∃ k, At t k (components d) ∧ (nodeAt t k).isDir = true)
    (fun done d hd t u ht he => ?_) ⟨hu, nofun⟩ hdirs
  obtain ⟨hu, hkept, hplaced⟩ := placeDir_holding ht.1 (fun ps hps => .inr (.inr ⟨d, hd, hps⟩)) he
  refine ⟨hu, fun d' hd' => ?_⟩
  rcases List.mem_append.1 hd' with hd' | hd'
  · obtain ⟨k, hk, hdir⟩ := ht.2 d' hd'
    exact ⟨k, (hkept k _ hk).1, (hkept k _ hk).2.trans hdir⟩
  · rw [List.mem_singleton.1 hd']
    exact hplaced

theorem mem_filesOf {q : Text × Nat} : q ∈ filesOf t ↔
    ∃ k < t.length, (nodeAt t k).isDir = false ∧ ((nodeAt t k).src, (nodeAt t k).size) = q := by
  rw [filesOf, List.mem_filterMap]
  constructor
  · rintro ⟨n, hn, hq⟩
    obtain ⟨k, hk, rfl⟩ := List.mem_iff_getElem.1 hn
    have hnode : nodeAt t k = t[k] := by
      rw [nodeAt, List.getElem?_eq_getElem hk]
      rfl
    split at hq
    · cases hq
    · rename_i hd
      exact ⟨k, hk, by rw [hnode]; exact Bool.eq_false_iff.2 hd, by
        rw [hnode]
        exact Option.some.inj hq⟩
  · rintro ⟨k, hk, hd, rfl⟩
    have hnode : nodeAt t k = t[k] := by
      rw [nodeAt, List.getElem?_eq_getElem hk]
      rfl
    refine ⟨t[k], List.getElem_mem hk, ?_⟩
    rw [← hnode, hd]
    rfl

variable (h : Holding upcase isNfc (Above files emptyDirs)
    (files.map fun f => (trimSlashes f.path, f.size)) t)
include h

/-- Every file of the source is at its path. -/
theorem Holding.file_of_source {f : SourceFile} (hf : f ∈ files) :
    ∃ k, At t k (components f.path) ∧ (nodeAt t k).isDir = false := by
  have hmem : (trimSlashes f.path, f.size) ∈ filesOf t := by
    rw [h.files_eq]
    exact List.mem_map_of_mem hf
  obtain ⟨k, hk, hd, hq⟩ := mem_filesOf.1 hmem
  have hat := h.file_at k hk hd
  rw [(Prod.mk.inj hq).1, components_trimSlashes] at hat
  exact ⟨k, hat, hd⟩

/-- Every file of the tree is one of the source. -/
theorem Holding.source_of_file {k : Nat} {cs : List Text} (hk : At t k cs)
    (hd : (nodeAt t k).isDir = false) : ∃ f ∈ files, components f.path = cs := by
  have hlt := At.lt h.forest hk
  have hmem := mem_filesOf.2 ⟨k, hlt, hd, rfl⟩
  rw [h.files_eq] at hmem
  obtain ⟨f, hf, hq⟩ := List.mem_map.1 hmem
  refine ⟨f, hf, ?_⟩
  rw [At.unique h.forest hk (h.file_at k hlt hd), ← (Prod.mk.inj hq).1, components_trimSlashes]

/-- **The folders without kids** are those of the source that hold nothing. -/
theorem Holding.holdsNothing_iff
    (hdirs : ∀ d ∈ emptyDirs, ∃ k, At t k (components d) ∧ (nodeAt t k).isDir = true)
    {cs : List Text} : HoldsNothing files emptyDirs cs ↔
      cs ≠ [] ∧ ∃ k, At t k cs ∧ (nodeAt t k).isDir = true ∧ kids t k = [] := by
  constructor
  · rintro ⟨hroot, ⟨d, hd, rfl⟩, hfile, hdir⟩
    obtain ⟨k, hk, hkd⟩ := hdirs d hd
    refine ⟨hroot, k, hk, hkd, ?_⟩
    by_contra hne
    obtain ⟨j, hj⟩ := List.exists_mem_of_ne_nil _ hne
    have hat := At.kid hk hj
    have hpre : components d <+: components d ++ [(nodeAt t j).name] := List.prefix_append _ _
    cases hjd : (nodeAt t j).isDir with
    | false =>
      obtain ⟨f, hf, heq⟩ := h.source_of_file hat hjd
      exact hfile f hf (heq ▸ hpre)
    | true =>
      rcases h.dir_at j _ hat hjd with hnil | ⟨f, hf, hps, -⟩ | ⟨d', hd', hps⟩
      · simp at hnil
      · exact hfile f hf (hpre.trans hps)
      · have hlen := hps.length_le
        rw [hdir d' hd' (hpre.trans hps), List.length_append, List.length_singleton] at hlen
        omega
  · rintro ⟨hroot, k, hk, hkd, hkids⟩
    -- a node strictly under the folder would be under one of its kids
    have hunder : ∀ j cs', At t j cs' → cs <+: cs' → cs' = cs := fun j cs' hj hps => by
      obtain ⟨rest, rfl⟩ := hps
      by_contra hne
      obtain ⟨i, hi, hin⟩ := hj.above
      cases hi.injective h.named hk
      exact hin (fun hnil => hne (by rw [hnil, List.append_nil])) hkids
    have hfile : ∀ f ∈ files, ¬cs <+: components f.path := fun f hf hps => by
      obtain ⟨j, hj, hjd⟩ := h.file_of_source hf
      rw [hunder j _ hj hps] at hj
      cases hj.injective h.named hk
      rw [hkd] at hjd
      cases hjd
    have hdir : ∀ d ∈ emptyDirs, cs <+: components d → components d = cs := fun d hd hps => by
      obtain ⟨j, hj, -⟩ := hdirs d hd
      exact hunder j _ hj hps
    refine ⟨hroot, ?_, hfile, hdir⟩
    rcases h.dir_at k cs hk hkd with hnil | ⟨f, hf, hps, -⟩ | ⟨d, hd, hps⟩
    · exact absurd hnil hroot
    · exact absurd hps (hfile f hf)
    · exact ⟨d, hd, hdir d hd hps⟩

end Source

end Ps5Upload.Exfat
