import Ps5Upload.Fpkg.Exfat.Accepts

/-!
# exFAT: sources whose paths are too long for a walk

The planner has no limit on the bytes of all paths together, and the reader has one.
-/

namespace Ps5Upload.Exfat

open ByteFile Checked Caching Blocks Utf16

/-! ## What a walk spends -/

/-- The bytes of the paths a walk has listed. -/
def Walked.listedBytes (w : Walked) : Nat :=
  (w.files.map fun f => utf8Len f.path).sum + (w.empty.map utf8Len).sum

/-- All paths listed are counted, and the count is within its budget. -/
structure Walked.Spent (w : Walked) : Prop where
  counted : w.listedBytes ≤ w.pathBytes
  within_budget : w.pathBytes ≤ maxPathBytes

theorem keep_spent {w w' : Walked} {path : Text} (h : w.keep path = .ok w') :
    w' = { w with pathBytes := w.pathBytes + utf8Len path } ∧
      w.pathBytes + utf8Len path ≤ maxPathBytes := by
  unfold Walked.keep at h
  obtain ⟨bytes, hadd, h⟩ := bind_eq_ok.1 h
  rw [(add_ok hadd).1] at h
  split at h
  · cases h
  · cases h
    exact ⟨rfl, by omega⟩

section Spent

variable {v : Volume} {inner : Bytes → Text → Walked → Except Stop (Bool × Walked)}

theorem plain_bind_ok {α β : Type} {x : Except Stop α} {f : α → Except Stop β} {b : β} :
    x >>= f = .ok b ↔ ∃ a, x = .ok a ∧ f a = .ok b := by
  cases x with
  | error e => exact ⟨nofun, nofun⟩
  | ok a => exact ⟨fun h => ⟨a, rfl, h⟩, fun ⟨_, ha, h⟩ => by cases ha; exact h⟩

theorem plainLift_ok {α : Type} {r : Res α} {a : α} (h : plainLift r = .ok a) : r = .ok a := by
  cases r with
  | error e => cases h
  | ok b =>
    cases h
    rfl

theorem walkEntries_spent
    (hinner : ∀ bytes path w k w', w.Spent → inner bytes path w = .ok (k, w') → w'.Spent)
    {under : Text} {es : List Parsed} {kept k : Bool} {w w' : Walked} (hw : w.Spent)
    (h : walkEntries v (plainAccess v) inner under es kept w = .ok (k, w')) : w'.Spent := by
  induction es generalizing kept w with
  | nil =>
    cases h
    exact hw
  | cons e es ih =>
    rw [walkEntries] at h
    dsimp only at h
    split at h
    · split at h
      · cases h
      · obtain ⟨bytes, -, h⟩ := plain_bind_ok.1 h
        obtain ⟨⟨kept', u⟩, hu, h⟩ := plain_bind_ok.1 h
        have hnext : Walked.Spent { w with dirs := e.firstCluster :: w.dirs } :=
          ⟨hw.counted, hw.within_budget⟩
        have hspent : u.Spent := hinner _ _ _ _ _ hnext hu
        dsimp only at h
        split at h
        · exact ih hspent h
        · obtain ⟨x, hx, h⟩ := plain_bind_ok.1 h
          obtain ⟨rfl, hle⟩ := keep_spent (plainLift_ok hx)
          refine ih ⟨?_, hle⟩ h
          have := hspent.counted
          rw [Walked.listedBytes] at this ⊢
          rw [List.map_append, List.sum_append, List.map_singleton, List.sum_singleton]
          dsimp only
          omega
    · obtain ⟨heap, -, h⟩ := plain_bind_ok.1 h
      split at h
      · cases h
      · obtain ⟨x, hx, h⟩ := plain_bind_ok.1 h
        obtain ⟨rfl, hle⟩ := keep_spent (plainLift_ok hx)
        refine ih ⟨?_, hle⟩ h
        have := hw.counted
        rw [Walked.listedBytes] at this ⊢
        rw [List.map_append, List.sum_append, List.map_singleton, List.sum_singleton]
        dsimp only
        omega

theorem walkDir_spent {levels : Nat} {bytes : Bytes} {under : Text} {k : Bool} {w w' : Walked}
    (hw : w.Spent) (h : walkDir v (plainAccess v) levels bytes under w = .ok (k, w')) : w'.Spent := by
  induction levels generalizing bytes under k w w' with
  | zero => cases h
  | succ levels ih =>
    rw [walkDir] at h
    obtain ⟨entries, -, h⟩ := plain_bind_ok.1 h
    obtain ⟨listed, -, h⟩ := plain_bind_ok.1 h
    split at h
    · cases h
    · have hnext : Walked.Spent { w with listed := listed } := ⟨hw.counted, hw.within_budget⟩
      exact walkEntries_spent (fun _ _ _ _ _ hw h => ih hw h) hnext h

/-- **The paths a walk returns are within its budget.** -/
theorem walkTree_spent {files : List ExFatFile} {empty : List Text} {s : Held} (hv : v.Sound)
    (h : exec (walkTree v) Held.fresh = (.ok (files, empty), s)) :
    (files.map fun f => utf8Len f.path).sum ≤ maxPathBytes := by
  have hplain := (walkTree_ok hv h).2.2
  unfold Volume.plainWalk walkWith at hplain
  obtain ⟨bytes, -, h⟩ := plain_bind_ok.1 hplain
  obtain ⟨⟨k, w⟩, hw, h⟩ := plain_bind_ok.1 h
  have hstart : Walked.Spent ⟨[], [], [v.rootCluster], 0, 0⟩ := ⟨Nat.le_refl 0, Nat.zero_le _⟩
  have hspent : w.Spent := walkDir_spent hstart hw
  cases h
  have hcounted := hspent.counted
  have hbudget := hspent.within_budget
  rw [Walked.listedBytes] at hcounted
  rw [((List.mergeSort_perm _ _).map _).sum_eq]
  omega

end Spent

/-! ## Ideographs -/

/-- A name of the ideographs from U+4E00 to U+9FA5, which have no case and are composed. -/
structure Ideographic (name : Text) : Prop where
  pos : name ≠ []
  le : name.length ≤ maxNameUnits
  range : ∀ c ∈ name, 0x4E00 ≤ c.toNat ∧ c.toNat < 0x9FA6

/-- An up-case table and a test for composed names that leave ideographs alone, as those of the
format do. -/
structure KeepsIdeographs (upcase : Bytes) (isNfc : Text → Bool) : Prop where
  unit_eq : ∀ u, 0x4E00 ≤ u → u < 0x9FA6 → upcaseUnit upcase u = u
  composed : ∀ name, Ideographic name → isNfc name = true
  table_le : upcase.length ≤ 2 ^ 17

namespace Ideographic

variable {name : Text} (h : Ideographic name)
include h

theorem units_eq : encodeUtf16 name = name.map Char.toNat := by
  rw [encodeUtf16, ← List.flatMap_singleton' (name.map Char.toNat), List.flatMap_map]
  exact List.flatMap_congr fun c hc => if_pos (by have := h.range c hc; omega)

theorem no_char {x : Char} (hx : x.toNat < 0x4E00) : x ∉ name := fun hmem => by
  have := (h.range x hmem).1
  omega

theorem nameUnits_ok {upcase : Bytes} {isNfc : Text → Bool} (hk : KeepsIdeographs upcase isNfc) :
    nameUnits isNfc name = .ok (encodeUtf16 name) := by
  have hclean : name.find? isForbidden = none := by
    refine List.find?_eq_none.2 fun c hc hbad => ?_
    have hrange := (h.range c hc).1
    rw [isForbidden, Bool.or_eq_true, decide_eq_true_eq, decide_eq_true_eq] at hbad
    rcases hbad with hlow | hmem
    · omega
    · have hsmall : ['"', '*', '/', ':', '<', '>', '?', '\\', '|'].all (Nat.blt ·.toNat 0x4E00) = true :=
        rfl
      have := Nat.le_of_ble_eq_true (List.all_eq_true.1 hsmall c hmem)
      omega
  unfold nameUnits
  dsimp only
  rw [if_neg (by
      rw [h.units_eq, List.length_map, List.map_eq_nil_iff, not_or, Nat.not_lt]
      exact ⟨h.pos, h.le⟩), hclean]
  dsimp only
  rw [if_pos (hk.composed name h)]

theorem keyOf_eq {upcase : Bytes} {isNfc : Text → Bool} (hk : KeepsIdeographs upcase isNfc) :
    keyOf upcase name = encodeUtf16 name := by
  rw [keyOf, h.units_eq, List.map_map]
  exact List.map_congr_left fun c hc => hk.unit_eq _ (h.range c hc).1 (h.range c hc).2

theorem listed : Listed name := by
  have hdot : ∀ t : Text, name ≠ '.' :: t := fun t heq =>
    h.no_char (show '.'.toNat < 0x4E00 by decide) (heq ▸ List.mem_cons_self)
  refine ⟨hdot _, hdot _, ?_⟩
  obtain ⟨c, rest, rfl⟩ := List.exists_cons_of_ne_nil h.pos
  have hc := (h.range c List.mem_cons_self).1
  have hlower : c.toLower = c := by
    refine dif_neg fun hcase => ?_
    have hle : c.toNat ≤ 'Z'.toNat := hcase.2
    have hz : 'Z'.toNat = 90 := by decide
    omega
  have hjunk : [".ds_store".toList, "thumbs.db".toList, "desktop.ini".toList,
      "system volume information".toList, ".fseventsd".toList, ".spotlight-v100".toList,
      ".trashes".toList].all (fun l => (l.headD 'a').toNat.blt 0x4E00) = true := by decide +kernel
  rw [isJunk, Bool.or_eq_false_iff, List.contains_eq_mem, decide_eq_false_iff_not]
  constructor
  · intro hmem
    have := Nat.le_of_ble_eq_true (List.all_eq_true.1 hjunk _ hmem)
    rw [List.map_cons, hlower, List.headD_cons] at this
    omega
  · rw [Bool.eq_false_iff]
    intro hpre
    obtain ⟨tail, htail⟩ := List.isPrefixOf_iff_prefix.1 hpre
    exact hdot _ htail.symm

end Ideographic

theorem components_underOf {cs : List Text} (hcs : ∀ c ∈ cs, '/' ∉ c ∧ c ≠ []) (p : Text) :
    components (underOf cs ++ p) = cs ++ components p := by
  induction cs with
  | nil => rfl
  | cons c cs ih =>
    have hc := hcs c List.mem_cons_self
    have hcut : underOf (c :: cs) ++ p = c ++ '/' :: (underOf cs ++ p) := by
      rw [underOf, List.flatMap_cons, ← underOf, List.append_assoc, List.append_assoc]
      rfl
    rw [hcut, components_append_slash, components_of_no_slash hc.1 hc.2,
      ih fun d hd => hcs d (List.mem_cons_of_mem c hd)]
    rfl

/-! ## The long source -/

def ideograph (i : Nat) : Char := Char.ofNat (0x4E00 + i)

/-- As many folders as the reader enters, each of as long a name as exFAT holds. -/
def longFolder : List Text := List.replicate maxDepth (List.replicate maxNameUnits (ideograph 0))

/-- The files of the long source. -/
def longCount : Nat := 10951

def longFile (i : Nat) : SourceFile := ⟨underOf longFolder ++ [ideograph i], 0⟩

/-- Empty files in the deepest folder the reader enters. -/
def longFiles : List SourceFile := (List.range longCount).map longFile

variable {i : Nat} {f : SourceFile}

theorem ideograph_toNat (hi : i < longCount) : (ideograph i).toNat = 0x4E00 + i := by
  rw [longCount] at hi
  have hvalid : (0x4E00 + i).isValidChar := .inl (by omega)
  rw [ideograph, Char.ofNat, dif_pos hvalid]
  exact UInt32.toNat_ofNatLT ..

theorem ideographic_one (hi : i < longCount) : Ideographic [ideograph i] := by
  refine ⟨List.cons_ne_nil _ _, Nat.le_add_left 1 254, fun c hc => ?_⟩
  rw [List.mem_singleton.1 hc, ideograph_toNat hi]
  rw [longCount] at hi
  omega

theorem ideographic_folder {name : Text} (h : name ∈ longFolder) : Ideographic name := by
  rw [longFolder, List.mem_replicate] at h
  rw [h.2]
  refine ⟨by decide, (List.length_replicate ..).le, fun c hc => ?_⟩
  rw [(List.mem_replicate.1 hc).2, ideograph_toNat (by decide)]
  decide

theorem components_longFile (hi : i < longCount) :
    components (longFile i).path = longFolder ++ [[ideograph i]] := by
  have hslash : '/'.toNat < 0x4E00 := by decide
  have hone := ideographic_one hi
  rw [longFile, components_underOf fun c hc =>
      ⟨(ideographic_folder hc).no_char hslash, (ideographic_folder hc).pos⟩,
    components_of_no_slash (hone.no_char hslash) hone.pos]

theorem mem_longFiles (hf : f ∈ longFiles) : ∃ i < longCount, longFile i = f := by
  obtain ⟨i, hi, hf⟩ := List.mem_map.1 hf
  exact ⟨i, List.mem_range.1 hi, hf⟩

/-- The names of the long source. -/
theorem name_longFile (hf : f ∈ longFiles) {c : Text} (hc : c ∈ components f.path) :
    c ∈ longFolder ∨ ∃ i < longCount, c = [ideograph i] := by
  obtain ⟨i, hi, rfl⟩ := mem_longFiles hf
  rw [components_longFile hi] at hc
  rcases List.mem_append.1 hc with hc | hc
  · exact .inl hc
  · exact .inr ⟨i, hi, List.mem_singleton.1 hc⟩

theorem ideographic_longFile (hf : f ∈ longFiles) {c : Text}
    (hc : c ∈ components f.path) : Ideographic c := by
  rcases name_longFile hf hc with hc | ⟨i, hi, rfl⟩
  · exact ideographic_folder hc
  · exact ideographic_one hi

theorem length_longFile (hf : f ∈ longFiles) : (components f.path).length = maxDepth + 1 := by
  obtain ⟨i, hi, rfl⟩ := mem_longFiles hf
  rw [components_longFile hi, List.length_append, longFolder, List.length_replicate]
  rfl

theorem clear_longFiles {upcase : Bytes} {isNfc : Text → Bool} (hk : KeepsIdeographs upcase isNfc) :
    Clear upcase isNfc longFiles where
  name_ok f hf c hc := (ideographic_longFile hf hc).nameUnits_ok hk
  key_inj f hf c hc g hg d hd heq := by
    rw [(ideographic_longFile hf hc).keyOf_eq hk, (ideographic_longFile hg hd).keyOf_eq hk] at heq
    exact encodeUtf16_injective heq
  nonempty f hf hnil := by
    have hlen := length_longFile hf
    rw [hnil] at hlen
    cases hlen
  apart := by
    have hne : ∀ {i j}, i < longCount → j < longCount →
        components (longFile i).path <+: components (longFile j).path → i = j := by
      intro i j hi hj hps
      have heq := hps.eq_of_length (by
        rw [length_longFile (List.mem_map_of_mem (List.mem_range.2 hi)),
          length_longFile (List.mem_map_of_mem (List.mem_range.2 hj))])
      rw [components_longFile hi, components_longFile hj] at heq
      have hchar := congrArg Char.toNat (List.singleton_inj.1
        (List.singleton_inj.1 (List.append_cancel_left heq)))
      rw [ideograph_toNat hi, ideograph_toNat hj] at hchar
      omega
    refine List.pairwise_map.2 (List.pairwise_lt_range.imp_of_mem fun {i j} hi hj hlt => ?_)
    rw [List.mem_range] at hi hj
    exact ⟨fun hps => absurd (hne hi hj hps) (by omega), fun hps => absurd (hne hj hi hps) (by omega)⟩

/-- The paths of the long source are more than a walk keeps. -/
theorem maxPathBytes_lt : maxPathBytes < (longFiles.map fun f => utf8Len (sourcePath f)).sum := by
  have hpath : ∀ f ∈ longFiles, 24513 ≤ utf8Len (sourcePath f) := fun f hf => by
    obtain ⟨i, hi, rfl⟩ := mem_longFiles hf
    have hfolder : utf8Len (underOf longFolder) = 24512 := by decide +kernel
    have hpos := Char.utf8Size_pos (ideograph i)
    rw [sourcePath, components_longFile hi, joined_concat, utf8Len, List.map_append, List.sum_append,
      ← utf8Len, hfolder, List.map_singleton, List.sum_singleton]
    omega
  have hsum := List.card_nsmul_le_sum (longFiles.map fun f => utf8Len (sourcePath f)) 24513 fun n hn => by
    obtain ⟨f, hf, rfl⟩ := List.mem_map.1 hn
    exact hpath f hf
  rw [List.length_map, longFiles, List.length_map, List.length_range, smul_eq_mul] at hsum
  have hlt : maxPathBytes < longCount * 24513 := by decide
  exact hlt.trans_le hsum

section Refused

variable {upcase : Bytes} {isNfc : Text → Bool} {t : Tree}
  (h : Holding upcase isNfc (Above longFiles [])
    (longFiles.map fun f => (trimSlashes f.path, f.size)) t)
include h

theorem kid_name {i k : Nat} (hk : k ∈ kids t i) :
    (nodeAt t k).name ∈ List.replicate maxNameUnits (ideograph 0) ::
      (List.range longCount).map fun j => [ideograph j] := by
  obtain ⟨cs, hi⟩ := at_exists h.forest (lt_of_kid hk)
  have hat := At.kid hi hk
  have hpath : ∃ f ∈ longFiles, cs ++ [(nodeAt t k).name] <+: components f.path := by
    cases hd : (nodeAt t k).isDir with
    | false =>
      obtain ⟨f, hf, hpath⟩ := h.source_of_file hat hd
      exact ⟨f, hf, hpath ▸ List.prefix_refl _⟩
    | true =>
      rcases h.dir_at k _ hat hd with hnil | ⟨f, hf, hps, -⟩ | ⟨d, hd, -⟩
      · simp at hnil
      · exact ⟨f, hf, hps⟩
      · cases hd
  obtain ⟨f, hf, hps⟩ := hpath
  have hmem : (nodeAt t k).name ∈ components f.path := hps.subset (by simp)
  rcases name_longFile hf hmem with hname | ⟨j, hj, hname⟩
  · exact List.mem_cons.2 (.inl (List.mem_replicate.1 hname).2)
  · exact List.mem_cons_of_mem _ (List.mem_map.2 ⟨j, List.mem_range.2 hj, hname.symm⟩)

/-- A folder of the long source has at most one folder and the files in it. -/
theorem length_kids_le (i : Nat) : (kids t i).length ≤ longCount + 1 := by
  have hnodup : ((kids t i).map fun k => (nodeAt t k).name).Nodup :=
    (h.forest.kids_nodup i).map_on fun j hj k hk hname => h.named.sibling hj hk hname
  have hle := (hnodup.subperm fun name hname => by
    obtain ⟨k, hk, rfl⟩ := List.mem_map.1 hname
    exact kid_name h hk).length_le
  rwa [List.length_map, List.length_cons, List.length_map, List.length_range] at hle

end Refused

/-- A source whose files are all empty. -/
def emptySource : Source := fun _ _ _ => .ok []

/-- **A planned source that is not read back.**  Every file of the long source is in reach of the
reader, and the planner takes it; its paths together are over the walk's budget, which the planner
does not know of. -/
theorem long_paths_refused {upcase : Bytes} {isNfc : Text → Bool} (hk : KeepsIdeographs upcase isNfc) :
    ∃ p, planExfat upcase isNfc longFiles [] (some 65536) 0 = .ok p ∧
      ServesAll emptySource (fun _ => []) longFiles ∧ InReach p longFiles [] ∧
      ∀ file : Image, ¬ReadsBack p (fun _ => []) longFiles [] file := by
  obtain ⟨t, ht⟩ := buildTree_accepts (clear_longFiles hk)
  have hempty : ∀ f ∈ longFiles, f.size = 0 := fun f hf => by
    obtain ⟨i, -, rfl⟩ := mem_longFiles hf
    rfl
  have hnames : (longFiles.map fun f => (components f.path).length + 1).sum = 34 * longCount := by
    rw [List.map_congr_left fun f hf => congrArg (· + 1) (length_longFile hf), List.map_const',
      List.sum_replicate, longFiles, List.length_map, List.length_range]
    rfl
  have hhollow := hollow_buildTree hempty ht
  rw [hnames] at hhollow
  have hholding := (buildTree_holding ht).1
  have hbytes := treeBytes_le hholding.forest hholding.named hhollow
  obtain ⟨p, hp⟩ := planExfat_accepts ht (show usableCluster 65536 = true by decide)
    (hbytes.trans (by decide)) (hk.table_le.trans (by decide))
  refine ⟨p, hp, fun f hf => ⟨fun _ _ => by simp [emptySource], (hempty f hf).symm⟩, ?_, ?_⟩
  · obtain ⟨t', hbuild, -, hlaid, -⟩ := planExfat_laid hp
    cases ht.symm.trans hbuild
    have hlaidHolding := hholding.laid hlaid
    obtain ⟨hfiles, hdirectories⟩ := planExfat_counts hp
    have hlen := hlaid.perm.length_eq
    rw [Layout.order, List.length_append, List.length_range, hlaid.shape.length_eq] at hlen
    have hnodes := hhollow.length_le
    rw [longCount] at hnodes
    refine ⟨fun f hf c hc => (ideographic_longFile hf hc).listed, List.forall_mem_nil _,
      fun f hf => (length_longFile hf).le, List.forall_mem_nil _, ?_, fun d _ => ?_⟩
    · rw [show maxEntries = 1000000 from rfl]
      omega
    · have hdir := dirBytes_le hlaidHolding.named d
      have hkids := length_kids_le hlaidHolding d
      rw [longCount] at hkids
      rw [show maxDirBytes = 67108864 from rfl]
      omega
  · intro file hread
    obtain ⟨v, hv, walked, empty, s, hwalk, hperm, -⟩ := hread.walk ""
    have hspent := walkTree_spent (from_file_sound hv) hwalk
    have hsum : (walked.map fun f => utf8Len f.path).sum =
        (longFiles.map fun f => utf8Len (sourcePath f)).sum := by
      have := (hperm.map fun q => utf8Len q.1).sum_eq
      rwa [List.map_map, List.map_map] at this
    have := maxPathBytes_lt
    omega

theorem long_paths_not_read : ∃ p,
    planExfat [] (fun _ => true) longFiles [] (some 65536) 0 = .ok p ∧
    ServesAll emptySource (fun _ => []) longFiles ∧ InReach p longFiles [] ∧
    ∀ file : Image, ¬ReadsBack p (fun _ => []) longFiles [] file :=
  long_paths_refused ⟨fun _ _ _ => rfl, fun _ _ => rfl, Nat.zero_le _⟩

end Ps5Upload.Exfat
