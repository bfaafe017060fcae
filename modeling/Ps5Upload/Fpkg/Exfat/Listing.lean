import Ps5Upload.Fpkg.Exfat.Paths
import Ps5Upload.Fpkg.Exfat.Written

/-!
# exFAT: a written image walked

The walk of an image the writer wrote comes to the nodes of the plan's tree, each folder before what
is in it.

* `below` — the nodes under a folder with their paths, in the order a walk comes to them.
-/

namespace Ps5Upload.Exfat

open ByteFile Checked Caching Blocks Utf16

/-! ## The nodes under a folder -/

/-- The nodes below a folder at the end of `cs`, with their paths. -/
def below (t : Tree) : Nat → Nat → List Text → List (Nat × List Text)
  | 0, _, _ => []
  | levels + 1, d, cs => (kids t d).flatMap fun k =>
      (k, cs ++ [(nodeAt t k).name]) :: below t levels k (cs ++ [(nodeAt t k).name])

theorem mem_below_succ {t : Tree} {levels d : Nat} {cs : List Text} {q : Nat × List Text} :
    q ∈ below t (levels + 1) d cs ↔ ∃ k ∈ kids t d, q = (k, cs ++ [(nodeAt t k).name]) ∨
      q ∈ below t levels k (cs ++ [(nodeAt t k).name]) := by
  rw [below, List.mem_flatMap]
  simp only [List.mem_cons]

section Below

variable {t : Tree} (h : Forest t)

variable {levels d : Nat} {cs : List Text} {isNfc : Text → Bool}

/-- What is below a folder is at the path it is listed with. -/
theorem at_of_below (hd : At t d cs) {q : Nat × List Text}
    (hq : q ∈ below t levels d cs) : At t q.1 q.2 ∧ cs <+: q.2 ∧ cs.length < q.2.length := by
  induction levels generalizing d cs with
  | zero => cases hq
  | succ levels ih =>
    obtain ⟨k, hk, rfl | hq⟩ := mem_below_succ.1 hq
    · refine ⟨.kid hd hk, List.prefix_append _ _, ?_⟩
      simp
    · obtain ⟨hat, hpre, hlen⟩ := ih (.kid hd hk) hq
      refine ⟨hat, (List.prefix_append _ _).trans hpre, ?_⟩
      rw [List.length_append] at hlen
      omega

include h in
theorem nodup_below {upcase : Bytes} (hn : Named upcase isNfc t) (hd : At t d cs) :
    ((below t levels d cs).map Prod.fst).Nodup := by
  induction levels generalizing d cs with
  | zero => exact List.nodup_nil
  | succ levels ih =>
    rw [below, List.map_flatMap, List.nodup_flatMap]
    constructor
    · intro k hk
      rw [List.map_cons, List.nodup_cons]
      refine ⟨fun hmem => ?_, ih (.kid hd hk)⟩
      obtain ⟨q, hq, hqk⟩ := List.mem_map.1 hmem
      obtain ⟨hat, -, hlen⟩ := at_of_below (.kid hd hk) hq
      rw [hqk] at hat
      rw [At.unique h hat (.kid hd hk)] at hlen
      exact absurd hlen (Nat.lt_irrefl _)
    · refine (h.kids_nodup d).imp_of_mem fun {j k} hj hk hne => ?_
      intro i hi hi'
      -- both kids' paths are in front of the node's own
      have hpath : ∀ {k}, k ∈ kids t d → i ∈ ((k, cs ++ [(nodeAt t k).name]) ::
          below t levels k (cs ++ [(nodeAt t k).name])).map Prod.fst →
          ∃ cs', At t i cs' ∧ cs ++ [(nodeAt t k).name] <+: cs' := fun {k} hk hi => by
        obtain ⟨q, hq, rfl⟩ := List.mem_map.1 hi
        rcases List.mem_cons.1 hq with rfl | hq
        · exact ⟨_, .kid hd hk, List.prefix_refl _⟩
        · exact ⟨_, (at_of_below (.kid hd hk) hq).1, (at_of_below (.kid hd hk) hq).2.1⟩
      obtain ⟨cs₁, h₁, hpre₁⟩ := hpath hj hi
      obtain ⟨cs₂, h₂, hpre₂⟩ := hpath hk hi'
      cases At.unique h h₁ h₂
      have hnames := (List.prefix_of_prefix_length_le hpre₁ hpre₂ (by simp)).eq_of_length (by simp)
      exact hne (hn.sibling hj hk (List.cons.inj (List.append_cancel_left hnames)).1)

/-- Everything under a folder is below it, if the levels reach. -/
theorem mem_below {upcase : Bytes} (hn : Named upcase isNfc t)
    {k : Nat} {rest : List Text} (hd : At t d cs) (hk : At t k (cs ++ rest))
    (hne : rest ≠ []) (hlen : rest.length ≤ levels) : (k, cs ++ rest) ∈ below t levels d cs := by
  induction levels generalizing d cs rest with
  | zero => exact absurd (List.length_eq_zero_iff.1 (Nat.le_zero.1 hlen)) hne
  | succ levels ih =>
    cases rest with
    | nil => exact absurd rfl hne
    | cons c rest =>
      have hsplit : cs ++ c :: rest = cs ++ [c] ++ rest := by simp
      rw [hsplit] at hk ⊢
      obtain ⟨i, hi, -⟩ := hk.above
      -- the node at the first name is a kid of the folder
      have hkid : i ∈ kids t d ∧ (nodeAt t i).name = c := by
        generalize hcs : cs ++ [c] = cs' at hi
        cases hi with
        | root => simp at hcs
        | kid parent mem =>
          obtain ⟨rfl, hc⟩ := List.append_inj' hcs rfl
          cases parent.injective hn hd
          exact ⟨mem, (List.cons.inj hc).1.symm⟩
      obtain ⟨hmem, rfl⟩ := hkid
      refine mem_below_succ.2 ⟨i, hmem, ?_⟩
      by_cases hrest : rest = []
      · subst hrest
        rw [List.append_nil] at hk ⊢
        cases hk.injective hn hi
        exact .inl rfl
      · exact .inr (ih hi hk hrest (Nat.le_of_succ_le_succ hlen))

include h in
/-- **A walk deep enough comes to every node but the root**, once. -/
theorem below_perm {upcase : Bytes} (hn : Named upcase isNfc t) (hdeep : ∀ k cs, At t k cs → cs.length ≤ levels) (p : Nat → Bool)
    (hp : p 0 = false) : ((below t levels 0 []).map Prod.fst |>.filter p).Perm
      ((List.range t.length).filter p) := by
  refine (List.perm_ext_iff_of_nodup ((nodup_below h hn .root).filter p)
    (List.nodup_range.filter p)).2 fun k => ?_
  rw [List.mem_filter, List.mem_filter, List.mem_range]
  refine and_congr_left fun hpk => ⟨fun hk => ?_, fun hk => ?_⟩
  · obtain ⟨q, hq, rfl⟩ := List.mem_map.1 hk
    exact At.lt h (at_of_below .root hq).1
  · obtain ⟨cs, hcs⟩ := at_exists h hk
    have hne : cs ≠ [] := fun hnil => by
      rw [hcs.of_root hnil, hp] at hpk
      cases hpk
    have hmem := mem_below hn .root (show At t k ([] ++ cs) from hcs) hne (hdeep k cs hcs)
    exact List.mem_map.2 ⟨_, hmem, rfl⟩

end Below

/-! ## What a walk adds -/

/-- What a walk has in front of the names in a folder. -/
def underOf (cs : List Text) : Text := cs.flatMap fun c => c ++ ['/']

theorem joined_concat (cs : List Text) (c : Text) : joined (cs ++ [c]) = underOf cs ++ c := by
  induction cs with
  | nil => simp [joined, underOf]
  | cons d cs ih =>
    have hcons : joined (d :: (cs ++ [c])) = d ++ '/' :: joined (cs ++ [c]) := by
      cases cs <;> rfl
    rw [List.cons_append, hcons, ih, underOf, underOf, List.flatMap_cons]
    simp

theorem underOf_concat (cs : List Text) (c : Text) :
    underOf (cs ++ [c]) = underOf cs ++ c ++ ['/'] := by
  rw [underOf, List.flatMap_append, List.flatMap_singleton, ← underOf, List.append_assoc]

section Added

variable (t : Tree)

def isFileAt (q : Nat × List Text) : Bool := !(nodeAt t q.1).isDir

def isDirAt (q : Nat × List Text) : Bool := (nodeAt t q.1).isDir

/-- A folder with nothing in it. -/
def isBare (q : Nat × List Text) : Bool := (nodeAt t q.1).isDir && (kids t q.1).isEmpty

/-- A node as a file of the walk. -/
def fileAt (q : Nat × List Text) : ExFatFile :=
  ⟨joined q.2, (nodeAt t q.1).size, (nodeAt t q.1).size, (nodeAt t q.1).firstCluster, false⟩

/-- The path bytes a walk spends on some nodes. -/
def pathCost (visited : List (Nat × List Text)) : Nat :=
  (visited.map fun q => if isFileAt t q || isBare t q then utf8Len (joined q.2) else 0).sum

/-- What a walk has after it came to some nodes. -/
def Walked.after (w : Walked) (visited : List (Nat × List Text)) (listed : Nat) : Walked where
  files := w.files ++ (visited.filter (isFileAt t)).map (fileAt t)
  empty := w.empty ++ (visited.filter (isBare t)).map fun q => joined q.2
  dirs := ((visited.filter (isDirAt t)).map fun q => (nodeAt t q.1).firstCluster).reverse ++ w.dirs
  pathBytes := w.pathBytes + pathCost t visited
  listed := w.listed + listed

theorem after_nil (w : Walked) : w.after t [] 0 = w := by
  unfold Walked.after
  simp [pathCost]

theorem after_append (w : Walked) (a b : List (Nat × List Text)) (m n : Nat) :
    (w.after t a m).after t b n = w.after t (a ++ b) (m + n) := by
  unfold Walked.after pathCost
  simp [Nat.add_assoc]

theorem pathCost_append (a b : List (Nat × List Text)) :
    pathCost t (a ++ b) = pathCost t a + pathCost t b := by
  rw [pathCost, List.map_append, List.sum_append]
  rfl

/-- A walk has room for some nodes: their paths fit its budget, and no folder among them starts where
another one does. -/
structure Room (w : Walked) (visited : List (Nat × List Text)) : Prop where
  bytes : w.pathBytes + pathCost t visited ≤ maxPathBytes
  distinct : (((visited.filter (isDirAt t)).map fun q => (nodeAt t q.1).firstCluster).reverse ++
    w.dirs).Nodup

variable {t}

theorem Room.left {w : Walked} {a b : List (Nat × List Text)} (h : Room t w (a ++ b)) : Room t w a := by
  have hbytes := h.bytes
  have hdistinct := h.distinct
  rw [pathCost_append] at hbytes
  rw [List.filter_append, List.map_append, List.reverse_append, List.append_assoc] at hdistinct
  exact ⟨by omega, (List.nodup_append'.1 hdistinct).2.1⟩

theorem Room.right {w : Walked} {a b : List (Nat × List Text)} (h : Room t w (a ++ b)) (m : Nat) :
    Room t (w.after t a m) b := by
  have hbytes := h.bytes
  have hdistinct := h.distinct
  rw [pathCost_append] at hbytes
  rw [List.filter_append, List.map_append, List.reverse_append, List.append_assoc] at hdistinct
  refine ⟨?_, hdistinct⟩
  show w.pathBytes + pathCost t a + pathCost t b ≤ maxPathBytes
  omega

theorem keep_ok {w : Walked} {path : Text} (h : w.pathBytes + utf8Len path ≤ maxPathBytes) :
    w.keep path = .ok { w with pathBytes := w.pathBytes + utf8Len path } := by
  have hmax : maxPathBytes < 2 ^ 63 := by decide
  unfold Walked.keep
  rw [add_eq (by omega), ok_bind, if_neg (by omega)]
  rfl

end Added

/-! ## The walk of a written image -/

namespace Written

variable {upcase : Bytes} {t : Tree} {p : ExfatPlan} {source : Source} {file : Image}
  (h : Written upcase t p source file)
include h

variable {i k : Nat} {cs : List Text} {w : Walked}

theorem first_lt (hi : i ∈ p.l.order) : (nodeAt p.tree i).firstCluster < 2 ^ 32 - 1 := by
  have hcount := h.laid.count_le
  have hmax : maxClusters = 0xFFFFFFF5 := rfl
  by_cases hc : 0 < (nodeAt p.tree i).clusters
  · have := (h.laid.first_add_le hi hc).2
    omega
  · obtain ⟨a, b, ho⟩ := List.append_of_mem hi
    have hplaced := h.laid.placed
    rw [ho] at hplaced
    rw [hplaced.append.2.1, if_pos (by omega)]
    decide

theorem clusters_le (hi : i ∈ p.l.order) : (nodeAt p.tree i).clusters ≤ p.l.clusterCount := by
  obtain ⟨a, b, ho⟩ := List.append_of_mem hi
  have hused := h.laid.used_le
  rw [ho, clustersOf_append, clustersOf_cons] at hused
  omega

theorem size_le (hi : i ∈ p.l.order) : (nodeAt p.tree i).size ≤ p.l.clusterCount * p.l.cluster := by
  refine Nat.le_trans ?_ (Nat.mul_le_mul_right p.l.cluster (h.clusters_le hi))
  rcases List.mem_append.1 hi with hd | hf
  · exact (h.laid.dir_size i hd).le
  · rw [h.laid.file_clusters i hf]
    exact le_blocks h.laid.cluster_pos _

/-- A folder's stream is its entries. -/
theorem plainDir_written {d : Nat} (hd : d ∈ p.l.dirs) (hsize : (nodeAt p.tree d).size ≤ maxDirBytes) :
    (volumeOf p file).plainDir (parsedOf (nodeAt p.tree d)) = .ok (directoryBytes p.tree d p.l) := by
  have hmem : d ∈ p.l.order := List.mem_append_left _ hd
  have hpos := h.laid.dir_pos hd
  have hcluster := h.laid.cluster_pos
  have hfirst := h.first_lt hmem
  have hn := chained_node h.laid hmem hpos
  have hsizeEq := h.laid.dir_size d hd
  have hge : (volumeOf p file).geom.clusterSize ≤ (nodeAt p.tree d).size := by
    rw [hsizeEq]
    exact Nat.le_mul_of_pos_left _ hpos
  have hread := @Written.plainStream_chain _ _ _ _ _ h _ _ 0 (nodeAt p.tree d).size hn
    (Nat.mul_pos hpos hcluster) (by omega)
  have hholds := (h.holds_directory hd).take_drop
  rw [length_directoryBytes] at hholds
  rw [Nat.add_zero, hholds] at hread
  unfold Volume.plainDir parsedOf
  dsimp only
  rw [Nat.max_eq_left hge, if_neg (by omega), if_neg, if_neg (h.not_stops hn (by omega)), hread]
  rintro ⟨-, hlast, -⟩
  omega

omit h in
theorem readCluster_eq {v : Volume} (hv : v.Sound) {c : Nat} (hc : v.Inside c) :
    readCluster v c = .ok ((v.file.bytes.drop (v.place c)).take v.geom.clusterSize) := by
  have hplace := place_le hv Nat.one_pos hc hc
  rw [Nat.one_mul] at hplace
  unfold readCluster
  rcases clusterOffset_eq hv c with ⟨-, hok⟩ | ⟨hout, -⟩
  · rw [hok, ok_bind, readAt_eq hplace]
  · exact absurd hc hout

/-- A turn of the root's stream reads one cluster of the allocation. -/
theorem chainStream_turn {first n : Nat} (hn : Chained p first n)
    (hsize : n * p.l.cluster < maxDirBytes) (hi : i < n) (turns : Nat) {out : Bytes}
    (hout : out.length = i * p.l.cluster) :
    ∃ bytes, bytes = (file.bytes.drop ((volumeOf p file).place first + i * p.l.cluster)).take
        p.l.cluster ∧ bytes.length = p.l.cluster ∧
      chainStream (volumeOf p file) (plainAccess (volumeOf p file)) (turns + 1) (first + i) out =
        if first + i + 1 = first + n then .ok (out ++ bytes)
        else chainStream (volumeOf p file) (plainAccess (volumeOf p file)) turns (first + (i + 1))
          (out ++ bytes) := by
  have hsv := h.sound
  have hge := hn.ge
  have hle := hn.le
  have hin : (volumeOf p file).Inside (first + i) := by
    refine ⟨by omega, ?_⟩
    show first + i < p.l.clusterCount + 2
    omega
  have hplace : (volumeOf p file).place (first + i) =
      (volumeOf p file).place first + i * p.l.cluster := by
    rw [Volume.place, Volume.place, show (volumeOf p file).geom.clusterSize = p.l.cluster from rfl,
      show first + i - 2 = first - 2 + i by omega, Nat.add_mul, Nat.add_assoc]
  have hread := readCluster_eq hsv hin
  have hplaced := place_le hsv Nat.one_pos hin hin
  rw [Nat.one_mul, show (volumeOf p file).geom.clusterSize = p.l.cluster from rfl, hplace] at hplaced
  rw [show (volumeOf p file).geom.clusterSize = p.l.cluster from rfl, hplace] at hread
  have hbytes : ((file.bytes.drop ((volumeOf p file).place first + i * p.l.cluster)).take
      p.l.cluster).length = p.l.cluster := by
    have : (volumeOf p file).place first + i * p.l.cluster + p.l.cluster ≤ file.bytes.length := hplaced
    rw [List.length_take, List.length_drop]
    omega
  have hlen : (i + 1) * p.l.cluster ≤ n * p.l.cluster := Nat.mul_le_mul_right _ hi
  rw [Nat.succ_mul] at hlen
  refine ⟨_, rfl, hbytes, ?_⟩
  rw [chainStream]
  dsimp only [plainAccess]
  rw [hread]
  show (if maxDirBytes ≤ (out ++ _).length then _ else _) = _
  rw [if_neg (by
      show ¬maxDirBytes ≤ (out ++ (file.bytes.drop _).take p.l.cluster).length
      rw [List.length_append, hbytes, hout]
      omega), h.link_chain hn (by omega) (by omega)]
  split <;> rfl

/-- The clusters of an allocation still to be read follow what was read. -/
theorem chainStream_chain {first n : Nat} (hn : Chained p first n)
    (hsize : n * p.l.cluster < maxDirBytes) (left : Nat) {i turns : Nat} {out : Bytes}
    (hi : i + (left + 1) = n) (hturns : left < turns) (hout : out.length = i * p.l.cluster) :
    chainStream (volumeOf p file) (plainAccess (volumeOf p file)) turns (first + i) out =
      .ok (out ++ (file.bytes.drop ((volumeOf p file).place first + i * p.l.cluster)).take
        ((left + 1) * p.l.cluster)) := by
  induction left generalizing i turns out with
  | zero =>
    obtain ⟨turns, rfl⟩ : ∃ m, turns = m + 1 := ⟨turns - 1, by omega⟩
    obtain ⟨bytes, hb, -, hturn⟩ := h.chainStream_turn hn hsize (by omega) turns hout
    rw [hturn, if_pos (by omega), hb, Nat.zero_add, Nat.one_mul]
  | succ left ih =>
    obtain ⟨turns, rfl⟩ : ∃ m, turns = m + 1 := ⟨turns - 1, by omega⟩
    obtain ⟨bytes, hb, hlen, hturn⟩ := h.chainStream_turn hn hsize (i := i) (by omega) turns hout
    rw [hturn, if_neg (by omega), ih (by omega) (by omega) (by
      rw [List.length_append, hout, hlen, Nat.succ_mul])]
    rw [hb, List.append_assoc, Nat.succ_mul (left + 1), Nat.add_comm _ p.l.cluster, List.take_add,
      List.drop_drop, Nat.succ_mul i, ← Nat.add_assoc]

/-- The root's stream is its entries. -/
theorem chainStream_written (hsize : (nodeAt p.tree 0).size < maxDirBytes) :
    chainStream (volumeOf p file) (plainAccess (volumeOf p file)) (maxDirBytes / p.l.cluster + 1)
      (nodeAt p.tree 0).firstCluster [] = .ok (directoryBytes p.tree 0 p.l) := by
  obtain ⟨rest, hdirs⟩ := h.laid.dirs_eq
  have hd : 0 ∈ p.l.dirs := hdirs ▸ List.mem_cons_self
  have hn := chained_node h.laid (List.mem_append_left p.l.files hd) (h.laid.dir_pos hd)
  have hpos := h.laid.dir_pos hd
  have hsizeEq := h.laid.dir_size 0 hd
  have hholds := (h.holds_directory hd).take_drop
  rw [length_directoryBytes, hsizeEq] at hholds
  rw [hsizeEq] at hsize
  have hturns : (nodeAt p.tree 0).clusters ≤ maxDirBytes / p.l.cluster :=
    (Nat.le_div_iff_mul_le h.laid.cluster_pos).2 hsize.le
  have hstream := @Written.chainStream_chain _ _ _ _ _ h _ _ hn hsize ((nodeAt p.tree 0).clusters - 1) 0
    (maxDirBytes / p.l.cluster + 1) [] (by omega) (by omega) (by simp)
  simp only [Nat.add_zero, Nat.zero_mul, List.nil_append, Nat.sub_add_cancel hpos, hholds] at hstream
  exact hstream

/-! ### Folders -/

/-- The nodes at some places of a folder, each with what is below it. -/
def visitedOf (t : Tree) (levels : Nat) (cs : List Text) (ks : List Nat) : List (Nat × List Text) :=
  ks.flatMap fun k => (k, cs ++ [(nodeAt t k).name]) :: below t levels k (cs ++ [(nodeAt t k).name])

omit h in
theorem length_le_visitedOf (t : Tree) (levels : Nat) (cs : List Text) (ks : List Nat) :
    ks.length ≤ (visitedOf t levels cs ks).length := by
  induction ks with
  | nil => exact Nat.le_refl 0
  | cons k ks ih =>
    rw [visitedOf, List.flatMap_cons, ← visitedOf, List.length_append, List.length_cons,
      List.length_cons]
    omega

omit h in
theorem below_nil {t : Tree} (hk : kids t k = []) (levels : Nat) (cs : List Text) :
    below t levels k cs = [] := by
  cases levels with
  | zero => rfl
  | succ levels => rw [below, hk, List.flatMap_nil]

/-- What a walk of a folder returns. -/
def WalksTo (v : Volume) (t : Tree) (l : Layout) (levels d : Nat) (cs : List Text) : Prop :=
  ∀ w, Room t w (below t levels d cs) → w.listed + (below t levels d cs).length ≤ maxEntries →
    walkDir v (plainAccess v) levels (directoryBytes t d l) (underOf cs) w =
      .ok (!(kids t d).isEmpty, w.after t (below t levels d cs) (below t levels d cs).length)

omit h in
theorem after_dir {t : Tree} (hd : (nodeAt t k).isDir = true) (hkids : kids t k ≠ []) (w : Walked) :
    w.after t [(k, cs)] 0 = { w with dirs := (nodeAt t k).firstCluster :: w.dirs } := by
  unfold Walked.after pathCost isFileAt isDirAt isBare
  simp [hd, hkids]

omit h in
theorem after_bare {t : Tree} (hd : (nodeAt t k).isDir = true)
    (hkids : kids t k = []) (w : Walked) :
    w.after t [(k, cs)] 0 = { w with
      empty := w.empty ++ [joined cs]
      dirs := (nodeAt t k).firstCluster :: w.dirs
      pathBytes := w.pathBytes + utf8Len (joined cs) } := by
  unfold Walked.after pathCost isFileAt isDirAt isBare
  simp [hd, hkids]

omit h in
theorem after_file {t : Tree} (hd : (nodeAt t k).isDir = false) (w : Walked) :
    w.after t [(k, cs)] 0 = { w with
      files := w.files ++ [fileAt t (k, cs)]
      pathBytes := w.pathBytes + utf8Len (joined cs) } := by
  unfold Walked.after pathCost isFileAt isDirAt isBare
  simp [hd]

/-- The entry of a file adds the file. -/
theorem walkEntries_file {inner : Bytes → Text → Walked → Except Stop (Bool × Walked)} (hk : k ∈ p.l.order) (hd : (nodeAt p.tree k).isDir = false)
    (es : List Parsed) (kept : Bool)
    (hroom : Room p.tree w [(k, cs ++ [(nodeAt p.tree k).name])]) :
    walkEntries (volumeOf p file) (plainAccess (volumeOf p file)) inner (underOf cs)
        (parsedOf (nodeAt p.tree k) :: es) kept w =
      walkEntries (volumeOf p file) (plainAccess (volumeOf p file)) inner (underOf cs) es true
        (w.after p.tree [(k, cs ++ [(nodeAt p.tree k).name])] 0) := by
  have hheap := h.sound.heap_le
  have hlen := file.len_lt
  have hsize := h.size_le hk
  have hbytes := hroom.bytes
  unfold pathCost at hbytes
  simp only [isFileAt, hd, Bool.not_false, Bool.true_or, if_true, List.map_cons, List.map_nil,
    List.sum_cons, List.sum_nil, Nat.add_zero, joined_concat] at hbytes
  have hmul : (mul 64 (volumeOf p file).geom.clusterCount (volumeOf p file).geom.clusterSize : Res Nat) =
      .ok (p.l.clusterCount * p.l.cluster) := mul_eq (by
    show p.l.clusterCount * p.l.cluster < 2 ^ 64
    have : (volumeOf p file).heapOffset + p.l.clusterCount * p.l.cluster ≤ file.len := hheap
    omega)
  have hnot : ¬(parsedOf (nodeAt p.tree k)).isDir = true := by
    rw [show (parsedOf (nodeAt p.tree k)).isDir = (nodeAt p.tree k).isDir from rfl, hd]
    exact Bool.false_ne_true
  rw [walkEntries]
  dsimp only [plainAccess]
  rw [if_neg hnot, hmul, after_file hd]
  show (if p.l.clusterCount * p.l.cluster < (nodeAt p.tree k).size then _ else _) = _
  rw [if_neg (by omega)]
  show (plainLift (w.keep (underOf cs ++ (nodeAt p.tree k).name)) >>= _) = _
  rw [keep_ok hbytes, fileAt, joined_concat]
  rfl

/-- The entry of a folder adds the folder and what is below it. -/
theorem walkEntries_dir {levels : Nat} (hk : k ∈ p.l.dirs)
    (hd : (nodeAt p.tree k).isDir = true) (hsize : (nodeAt p.tree k).size ≤ maxDirBytes)
    (hwalk : WalksTo (volumeOf p file) p.tree p.l levels k (cs ++ [(nodeAt p.tree k).name]))
    (es : List Parsed) (kept : Bool)
    (hroom : Room p.tree w (visitedOf p.tree levels cs [k]))
    (hlisted : w.listed + (below p.tree levels k (cs ++ [(nodeAt p.tree k).name])).length ≤ maxEntries) :
    walkEntries (volumeOf p file) (plainAccess (volumeOf p file))
        (walkDir (volumeOf p file) (plainAccess (volumeOf p file)) levels) (underOf cs)
        (parsedOf (nodeAt p.tree k) :: es) kept w =
      walkEntries (volumeOf p file) (plainAccess (volumeOf p file))
        (walkDir (volumeOf p file) (plainAccess (volumeOf p file)) levels) (underOf cs) es true
        (w.after p.tree (visitedOf p.tree levels cs [k])
          (below p.tree levels k (cs ++ [(nodeAt p.tree k).name])).length) := by
  have hvisited : visitedOf p.tree levels cs [k] = [(k, cs ++ [(nodeAt p.tree k).name])] ++
      below p.tree levels k (cs ++ [(nodeAt p.tree k).name]) := List.flatMap_singleton ..
  rw [hvisited] at hroom ⊢
  have hfresh : (nodeAt p.tree k).firstCluster ∉ w.dirs := by
    have hdistinct := hroom.left.distinct
    rw [List.filter_cons_of_pos (by exact hd)] at hdistinct
    exact (List.nodup_cons.1 hdistinct).1
  have hunder : underOf cs ++ (nodeAt p.tree k).name ++ ['/'] =
      underOf (cs ++ [(nodeAt p.tree k).name]) := (underOf_concat ..).symm
  rw [walkEntries]
  dsimp only [plainAccess]
  rw [if_pos (show (parsedOf (nodeAt p.tree k)).isDir = true from hd),
    if_neg (show (parsedOf (nodeAt p.tree k)).firstCluster ∉ w.dirs from hfresh),
    h.plainDir_written hk hsize]
  show (walkDir (volumeOf p file) (plainAccess (volumeOf p file)) levels _
    (underOf cs ++ (nodeAt p.tree k).name ++ ['/'])
    { w with dirs := (nodeAt p.tree k).firstCluster :: w.dirs } >>= _) = _
  rw [hunder]
  by_cases hkids : kids p.tree k = []
  · have hbelow := below_nil hkids levels (cs ++ [(nodeAt p.tree k).name])
    have hbytes := hroom.left.bytes
    have hdistinct := hroom.left.distinct
    rw [WalksTo, hbelow] at hwalk
    have hcost : pathCost p.tree [(k, cs ++ [(nodeAt p.tree k).name])] =
        utf8Len (underOf cs ++ (nodeAt p.tree k).name) := by
      rw [← joined_concat]
      simp [pathCost, isFileAt, isBare, hd, hkids]
    have hroom' : Room p.tree { w with dirs := (nodeAt p.tree k).firstCluster :: w.dirs } [] := by
      refine ⟨Nat.le_trans (Nat.add_le_add_left (Nat.zero_le _) _) hbytes, ?_⟩
      rw [List.filter_cons_of_pos (by exact hd)] at hdistinct
      exact hdistinct
    have hinner := hwalk _ hroom' (Nat.le_trans (Nat.add_le_add_left (Nat.zero_le _) _) hlisted)
    rw [hkids, List.length_nil, after_nil] at hinner
    rw [hinner, hbelow, List.append_nil, List.length_nil, after_bare hd hkids, joined_concat]
    rw [hcost] at hbytes
    have hkeep : Walked.keep { w with dirs := (nodeAt p.tree k).firstCluster :: w.dirs }
        (underOf cs ++ (nodeAt p.tree k).name) = _ := keep_ok hbytes
    show (plainLift (Walked.keep _ (underOf cs ++ (nodeAt p.tree k).name)) >>= _) = _
    rw [hkeep]
    rfl
  · have hinner := hwalk (w.after p.tree [(k, cs ++ [(nodeAt p.tree k).name])] 0) (hroom.right 0)
      (by exact hlisted)
    rw [after_dir hd hkids] at hinner
    rw [hinner, List.isEmpty_eq_false_iff.2 hkids, ← after_dir hd hkids, after_append, Nat.zero_add]
    rfl

/-- A folder's entries add its kids and what is below them. -/
theorem walkEntries_written (hforest : Forest p.tree)
    (hsizes : ∀ d ∈ p.l.dirs, (nodeAt p.tree d).size ≤ maxDirBytes) {levels : Nat}
    (ks : List Nat) (hks : ∀ k ∈ ks, k ∈ p.l.order)
    (hwalk : ∀ k ∈ ks, k ∈ p.l.dirs →
      WalksTo (volumeOf p file) p.tree p.l levels k (cs ++ [(nodeAt p.tree k).name]))
    (kept : Bool) (hroom : Room p.tree w (visitedOf p.tree levels cs ks))
    (hlisted : w.listed + (visitedOf p.tree levels cs ks).length ≤ maxEntries + ks.length) :
    walkEntries (volumeOf p file) (plainAccess (volumeOf p file))
        (walkDir (volumeOf p file) (plainAccess (volumeOf p file)) levels) (underOf cs)
        (ks.map fun k => parsedOf (nodeAt p.tree k)) kept w =
      .ok (kept || !ks.isEmpty, w.after p.tree (visitedOf p.tree levels cs ks)
        ((visitedOf p.tree levels cs ks).length - ks.length)) := by
  induction ks generalizing kept w with
  | nil =>
    show Except.ok (kept, w) = Except.ok (kept || false, w.after p.tree [] 0)
    rw [Bool.or_false, after_nil]
  | cons k ks ih =>
    have hsplit : visitedOf p.tree levels cs (k :: ks) =
        visitedOf p.tree levels cs [k] ++ visitedOf p.tree levels cs ks := by
      rw [visitedOf, List.flatMap_cons, ← visitedOf]
      exact congrArg (· ++ _) (List.flatMap_singleton ..).symm
    have hone : (visitedOf p.tree levels cs [k]).length =
        (below p.tree levels k (cs ++ [(nodeAt p.tree k).name])).length + 1 := by
      rw [visitedOf, List.flatMap_singleton, List.length_cons]
    have hrest := length_le_visitedOf p.tree levels cs ks
    rw [hsplit, List.length_append, hone, List.length_cons] at hlisted
    rw [hsplit] at hroom ⊢
    have hrestRoom := hroom.right (below p.tree levels k (cs ++ [(nodeAt p.tree k).name])).length
    have hstep : walkEntries (volumeOf p file) (plainAccess (volumeOf p file))
        (walkDir (volumeOf p file) (plainAccess (volumeOf p file)) levels) (underOf cs)
        ((k :: ks).map fun k => parsedOf (nodeAt p.tree k)) kept w =
      walkEntries (volumeOf p file) (plainAccess (volumeOf p file))
        (walkDir (volumeOf p file) (plainAccess (volumeOf p file)) levels) (underOf cs)
        (ks.map fun k => parsedOf (nodeAt p.tree k)) true
        (w.after p.tree (visitedOf p.tree levels cs [k])
          (below p.tree levels k (cs ++ [(nodeAt p.tree k).name])).length) := by
      rcases List.mem_append.1 (hks k List.mem_cons_self) with hd | hf
      · exact h.walkEntries_dir hd (h.laid.dirs_dir k hd) (hsizes k hd)
          (hwalk k List.mem_cons_self hd) _ kept hroom.left (by omega)
      · have hdir := h.laid.files_file k hf
        have hbelow := below_nil (hforest.leaf k hdir) levels (cs ++ [(nodeAt p.tree k).name])
        have hvisited : visitedOf p.tree levels cs [k] = [(k, cs ++ [(nodeAt p.tree k).name])] := by
          rw [visitedOf, List.flatMap_singleton, hbelow]
        have hleft := hroom.left
        rw [hvisited] at hleft ⊢
        rw [hbelow]
        exact h.walkEntries_file (hks k List.mem_cons_self) hdir _ kept hleft
    rw [hstep, ih (fun k' hk' => hks k' (List.mem_cons_of_mem k hk'))
      (fun k' hk' => hwalk k' (List.mem_cons_of_mem k hk')) true hrestRoom (by
        show w.listed + _ + _ ≤ _
        omega), after_append]
    rw [Bool.true_or, List.isEmpty_cons, Bool.not_false, Bool.or_true]
    congr 3
    rw [List.length_append, hone, List.length_cons]
    omega

/-- **Walking a folder's clusters** lists what is below it. -/
theorem walkDir_written (hforest : Forest p.tree)
    (hread : ∀ d, ∀ k ∈ kids p.tree d, Readable (nodeAt p.tree k))
    (hsizes : ∀ d ∈ p.l.dirs, (nodeAt p.tree d).size ≤ maxDirBytes)
    (hdeep : ∀ d ∈ p.l.dirs, ∀ cs, At p.tree d cs → cs.length ≤ maxDepth) (levels : Nat) {d : Nat}
    (hd : d ∈ p.l.dirs) (hat : At p.tree d cs)
    (hlevels : cs.length + levels = maxDepth + 1) :
    WalksTo (volumeOf p file) p.tree p.l levels d cs := by
  induction levels generalizing d cs with
  | zero =>
    have := hdeep d hd cs hat
    omega
  | succ levels ih =>
    intro w hroom hlisted
    have hmax : maxEntries < 2 ^ 62 := by decide
    have hvisited : below p.tree (levels + 1) d cs = visitedOf p.tree levels cs (kids p.tree d) := rfl
    have hcount := length_le_visitedOf p.tree levels cs (kids p.tree d)
    rw [hvisited] at hroom hlisted ⊢
    have hbytes : dirBytes p.tree d ≤ (nodeAt p.tree d).size := by
      rw [h.laid.dir_size d hd, h.laid.dir_clusters d hd, dirClusters]
      exact Nat.le_trans (le_blocks h.laid.cluster_pos _)
        (Nat.mul_le_mul_right _ (Nat.le_max_left _ _))
    have hparse := parseDir_directoryBytes (underOf cs) p.l hbytes (hread d)
    rw [walkDir]
    dsimp only [plainAccess]
    rw [hparse]
    show (plainLift (add 64 w.listed ((kids p.tree d).map _).length) >>= _) = _
    rw [List.length_map, add_eq (by omega)]
    show (if maxEntries < w.listed + (kids p.tree d).length then _ else walkEntries _ _ _ _ _ _ _) = _
    rw [if_neg (by omega)]
    have hmem : ∀ k ∈ kids p.tree d, k ∈ p.l.order := fun k hk =>
      h.laid.perm.symm.subset (List.mem_range.2 (hforest.kid_lt hk))
    have hentries := h.walkEntries_written hforest hsizes (kids p.tree d) hmem
      (fun k hk hkd => ih hkd (.kid hat hk) (by
        rw [List.length_append, List.length_singleton]
        omega)) false (w := { w with listed := w.listed + (kids p.tree d).length })
      ⟨hroom.bytes, hroom.distinct⟩ (by
        show w.listed + (kids p.tree d).length + _ ≤ _
        omega)
    refine hentries.trans ?_
    rw [Bool.false_or]
    congr 2
    unfold Walked.after
    congr 1
    show w.listed + _ + _ = _
    omega

/-- **The walk of the whole image** lists what is below the root. -/
theorem plainWalk_written (hforest : Forest p.tree)
    (hread : ∀ d, ∀ k ∈ kids p.tree d, Readable (nodeAt p.tree k))
    (hsizes : ∀ d ∈ p.l.dirs, (nodeAt p.tree d).size ≤ maxDirBytes)
    (hroot : (nodeAt p.tree 0).size < maxDirBytes)
    (hdeep : ∀ d ∈ p.l.dirs, ∀ cs, At p.tree d cs → cs.length ≤ maxDepth)
    {visited : List (Nat × List Text)} (hvisited : visited = below p.tree (maxDepth + 1) 0 [])
    (hroom : Room p.tree ⟨[], [], [(nodeAt p.tree 0).firstCluster], 0, 0⟩ visited)
    (hlisted : visited.length ≤ maxEntries) :
    (volumeOf p file).plainWalk =
      .ok (((visited.filter (isFileAt p.tree)).map (fileAt p.tree)).mergeSort
          fun a b => decide (a.path ≤ b.path),
        ((visited.filter (isBare p.tree)).map fun q => joined q.2).mergeSort
          fun a b => decide (a ≤ b)) := by
  subst hvisited
  obtain ⟨rest, hdirs⟩ := h.laid.dirs_eq
  have hstream := h.chainStream_written hroot
  have hwalk := h.walkDir_written hforest hread hsizes hdeep (maxDepth + 1)
    (hdirs ▸ List.mem_cons_self) .root (Nat.zero_add _) _ hroom (by
      show 0 + _ ≤ _
      omega)
  unfold Volume.plainWalk walkWith
  rw [show (volumeOf p file).geom.clusterSize = p.l.cluster from rfl,
    show (volumeOf p file).rootCluster = (nodeAt p.tree 0).firstCluster from rfl, hstream]
  show (walkDir (volumeOf p file) (plainAccess (volumeOf p file)) (maxDepth + 1)
    (directoryBytes p.tree 0 p.l) (underOf []) ⟨[], [], [(nodeAt p.tree 0).firstCluster], 0, 0⟩ >>= _) = _
  rw [hwalk]
  rfl

end Written

end Ps5Upload.Exfat
