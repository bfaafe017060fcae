import Mathlib.Data.List.Find
import Ps5Upload.Engine.Collection.Split

/-!
# Split packages told apart

What `split_sets` promises of its sets, and for which lists of names it keeps the promise.

* `namedSet_ordered` — the sets named by part are in order;
* `toldApart_iff` — the other promises hold where no part has two leads that differ in case only, the later
  one of which is not its own, no two parts of a lead have one number, and no number is too large.
-/

namespace Ps5Upload.SplitSets

/-- The files of a set. -/
def SplitSet.files (s : SplitSet) : List Text := s.lead :: s.parts.map Prod.fst

/-- The sets of a list of names, told apart. -/
structure ToldApart (names : List Text) (isPackage : Text → Bool) (sets : List SplitSet) : Prop where
  once : (sets.flatMap SplitSet.files).Nodup
  spelled : ∀ s ∈ sets, s.layout = .suffix → ∀ p ∈ s.parts, ∃ lead, suffixPart p.1 = some (lead, p.2) ∧
    s.lead ∈ names ∧ lower s.lead = lower lead ∧ (lead ∈ names → s.lead = lead)
  ordered : ∀ s ∈ sets, (s.parts.map Prod.snd).Pairwise (· < ·)
  named : ∀ s ∈ sets, s.layout = .named → ∃ stem, namedPart s.lead = some (stem, 0) ∧
    ∀ p ∈ s.parts, namedPart p.1 = some (stem, p.2) ∧ 0 < p.2 ∧ isPackage p.1 = false
  filed : ∀ n ∈ names, ∀ lead num, Suffixed n lead num → (∃ l ∈ names, lower l = lower lead) →
    ∃ s ∈ sets, s.layout = .suffix ∧ n ∈ s.parts.map Prod.fst

/-- A name whose later spellings are not in the list. -/
def LastSpelled (names : List Text) (name : Text) : Prop :=
  ∃ pre post, names = pre ++ name :: post ∧ ∀ n ∈ post, lower n ≠ lower name

/-- The names that `split_sets` tells apart. -/
structure Clear (names : List Text) : Prop where
  /-- A part's lead, where it is there, is the last one of its spelling. -/
  spelled : ∀ n ∈ names, ∀ lead k, suffixPart n = some (lead, k) → lead ∈ names → LastSpelled names lead
  /-- No two parts of one lead have one number. -/
  numbers : ∀ n ∈ names, ∀ n' ∈ names, ∀ lead lead' k, suffixPart n = some (lead, k) →
    suffixPart n' = some (lead', k) → lower lead = lower lead' → (∃ l ∈ names, lower l = lower lead) → n = n'
  /-- The part numbers fit. -/
  small : ∀ n ∈ names, ∀ lead num, Suffixed n lead num → (∃ l ∈ names, lower l = lower lead) → value num < 2 ^ 32

section Apart

variable {names : List Text} {isPackage : Text → Bool}

/-! ## Leads -/

variable {n lead found : Text} {k : Nat} {s : SplitSet}

theorem isPkg_of_suffixPart (h : suffixPart n = some (lead, k)) : isPkg lead = true := by
  obtain ⟨num, hs, -⟩ := suffixPart_eq_some.1 h
  exact hs.2.2.2

/-- The lead of a package's name is the last spelling of the name. -/
theorem get_leadsOf_pkg (h : isPkg lead = true) :
    (leadsOf names).get (lower lead) = lastSpelling names (lower lead) := by
  rw [get_leadsOf, lastSpelling, lastSpelling, ← List.filter_reverse, List.find?_filter]
  refine List.find?_congr fun n _ => ?_
  by_cases heq : lower n = lower lead
  · rw [isPkg_congr heq, h, decide_eq_true heq]
    rfl
  · rw [decide_eq_false heq, decide_eq_false]
    rintro ⟨-, h⟩
    cases h

theorem lastSpelling_eq_some :
    lastSpelling names (lower lead) = some found ↔ lower found = lower lead ∧ LastSpelled names found := by
  rw [lastSpelling, List.find?_eq_some_iff_append, decide_eq_true_eq]
  refine and_congr_right fun heq => ?_
  constructor
  · rintro ⟨as, bs, hrev, has⟩
    refine ⟨bs.reverse, as.reverse, ?_, fun n hn hlow => ?_⟩
    · have := congrArg List.reverse hrev
      rwa [List.reverse_reverse, List.reverse_append, List.reverse_cons, List.append_assoc] at this
    · have hnot := has n (List.mem_reverse.1 hn)
      rw [decide_eq_true (hlow.trans heq)] at hnot
      cases hnot
  · rintro ⟨pre, post, rfl, hpost⟩
    refine ⟨post.reverse, pre.reverse, by simp, fun n hn => ?_⟩
    rw [decide_eq_false fun hlow => hpost n (List.mem_reverse.1 hn) (hlow.trans heq.symm)]
    rfl

theorem LastSpelled.mem {name : Text} (h : LastSpelled names name) : name ∈ names := by
  obtain ⟨pre, post, rfl, -⟩ := h
  exact List.mem_append_right _ List.mem_cons_self

theorem exists_lastSpelled (h : ∃ l ∈ names, lower l = lower lead) :
    ∃ found, lower found = lower lead ∧ LastSpelled names found := by
  obtain ⟨l, hl, hlow⟩ := h
  cases hfind : lastSpelling names (lower lead) with
  | none =>
    have hnone := List.find?_eq_none.1 hfind l (List.mem_reverse.2 hl)
    exact absurd (decide_eq_true hlow) hnone
  | some found => exact ⟨found, lastSpelling_eq_some.1 hfind⟩

/-! ## Sets with numbered suffixes -/

/-- The map of the suffixed parts. -/
abbrev suffixed (names : List Text) : BTreeMap Text (List (Text × Nat)) := suffixedOf (leadsOf names) names

theorem mem_suffixed : (found, n, k) ∈ (suffixed names).pairs ↔
    n ∈ names ∧ ∃ lead, suffixPart n = some (lead, k) ∧ lower found = lower lead ∧ LastSpelled names found := by
  rw [(pairs_suffixedOf _ _).mem_iff, List.mem_filterMap]
  constructor
  · rintro ⟨n', hn', hf⟩
    obtain ⟨rfl, lead, hs, hl⟩ := filed_eq_some.1 hf
    rw [get_leadsOf_pkg (isPkg_of_suffixPart hs)] at hl
    exact ⟨hn', lead, hs, lastSpelling_eq_some.1 hl⟩
  · rintro ⟨hn, lead, hs, hl⟩
    refine ⟨n, hn, filed_eq_some.2 ⟨rfl, lead, hs, ?_⟩⟩
    rw [get_leadsOf_pkg (isPkg_of_suffixPart hs)]
    exact lastSpelling_eq_some.2 hl

/-- The set of a lead with numbered suffixes. -/
def suffixSet (e : Text × List (Text × Nat)) : SplitSet := ⟨.suffix, e.1, e.2.insertionSort partLe⟩

theorem mem_suffixSet {e : Text × List (Text × Nat)} {p : Text × Nat} : p ∈ (suffixSet e).parts ↔ p ∈ e.2 :=
  (List.perm_insertionSort partLe e.2).mem_iff

/-- A part of a set with numbered suffixes. -/
theorem part_of_suffixSet {e : Text × List (Text × Nat)} (he : e ∈ (suffixed names).entries) {p : Text × Nat}
    (hp : p ∈ (suffixSet e).parts) : p.1 ∈ names ∧
      ∃ lead, suffixPart p.1 = some (lead, p.2) ∧ lower e.1 = lower lead ∧ LastSpelled names e.1 :=
  mem_suffixed.1 (BTreeMap.mem_pairs.2 ⟨e.2, he, mem_suffixSet.1 hp⟩)

theorem suffixSet_of_part (hn : n ∈ names) (hs : suffixPart n = some (lead, k))
    (hlow : lower found = lower lead) (hlast : LastSpelled names found) :
    ∃ e ∈ (suffixed names).entries, e.1 = found ∧ (n, k) ∈ (suffixSet e).parts := by
  obtain ⟨parts, he, hp⟩ := BTreeMap.mem_pairs.1 (mem_suffixed.2 ⟨hn, lead, hs, hlow, hlast⟩)
  exact ⟨(found, parts), he, rfl, mem_suffixSet.2 hp⟩

theorem partLe_total (a b : Text × Nat) : partLe a b ∨ partLe b a := by
  unfold partLe
  rcases Nat.lt_trichotomy a.2 b.2 with h | h | h
  · exact .inl (.inl h)
  · rcases le_total a.1 b.1 with h' | h'
    · exact .inl (.inr ⟨h, h'⟩)
    · exact .inr (.inr ⟨h.symm, h'⟩)
  · exact .inr (.inl h)

theorem partLe_trans {a b c : Text × Nat} (hab : partLe a b) (hbc : partLe b c) : partLe a c := by
  unfold partLe at *
  rcases hab with hab | ⟨hab, hab'⟩ <;> rcases hbc with hbc | ⟨hbc, hbc'⟩
  · exact .inl (hab.trans hbc)
  · exact .inl (hbc ▸ hab)
  · exact .inl (hab ▸ hbc)
  · exact .inr ⟨hab.trans hbc, hab'.trans hbc'⟩

instance : Std.Total partLe := ⟨partLe_total⟩

instance : IsTrans (Text × Nat) partLe := ⟨fun _ _ _ => partLe_trans⟩

theorem suffixSet_sorted (e : Text × List (Text × Nat)) : ((suffixSet e).parts.map Prod.snd).Pairwise (· ≤ ·) := by
  rw [List.pairwise_map]
  refine (List.pairwise_insertionSort partLe e.2).imp fun h => ?_
  rcases h with h | h
  · exact h.le
  · exact h.1.le

/-! ## Sets named by part -/

theorem mem_namedSet {numbered : BTreeMap Nat Text} (h : namedSet isPackage numbered = some s) :
    s.layout = .named ∧ numbered.get 0 = some s.lead ∧
      ∀ p ∈ s.parts, numbered.get p.2 = some p.1 ∧ 0 < p.2 ∧ isPackage p.1 = false := by
  unfold namedSet at h
  split at h
  · cases h
  · rename_i lead hlead
    dsimp only at h
    split at h
    · cases h
    · cases h
      refine ⟨rfl, hlead, fun p hp => ?_⟩
      obtain ⟨q, hq, rfl⟩ := List.mem_map.1 hp
      obtain ⟨hmem, hkeep⟩ := List.mem_filter.1 hq
      rw [Bool.and_eq_true, decide_eq_true_eq, Bool.not_eq_true'] at hkeep
      exact ⟨BTreeMap.get_eq_some.2 hmem, hkeep⟩

theorem namedSet_ordered {numbered : BTreeMap Nat Text} (h : namedSet isPackage numbered = some s) :
    (s.parts.map Prod.snd).Pairwise (· < ·) := by
  unfold namedSet at h
  split at h
  · cases h
  · dsimp only at h
    split at h
    · cases h
    · cases h
      rw [List.map_map, List.pairwise_map]
      exact numbered.sorted.filter _

variable (names isPackage) in
/-- The sets named by part. -/
def namedSets : List SplitSet :=
  (namedOf (suffixed names).keys names).entries.filterMap fun e => namedSet isPackage e.2

/-- What a set named by part holds. -/
theorem named_files {withSuffixParts : List Text} {e : Text × BTreeMap Nat Text}
    (he : e ∈ (namedOf withSuffixParts names).entries) (hs : namedSet isPackage e.2 = some s)
    (h : (n = s.lead ∧ k = 0) ∨ (n, k) ∈ s.parts) :
    n ∈ names ∧ n ∉ withSuffixParts ∧ namedPart n = some (e.1, k) := by
  obtain ⟨-, hlead, hparts⟩ := mem_namedSet hs
  have hget := BTreeMap.get_eq_some.2 he
  rcases h with ⟨rfl, rfl⟩ | hp
  · exact mem_namedOf hget hlead
  · exact mem_namedOf hget (hparts _ hp).1

/-- A file of a set named by part. -/
theorem mem_files_named (h : n ∈ s.files) : ∃ k, (n = s.lead ∧ k = 0) ∨ (n, k) ∈ s.parts := by
  rcases List.mem_cons.1 h with rfl | h
  · exact ⟨0, .inl ⟨rfl, rfl⟩⟩
  · obtain ⟨p, hp, rfl⟩ := List.mem_map.1 h
    exact ⟨p.2, .inr hp⟩

/-! ## No file twice -/

theorem flatMap_cons_perm {α β : Type} (l : List α) (f : α → β) (g : α → List β) :
    (l.flatMap fun x => f x :: g x).Perm (l.map f ++ l.flatMap g) := by
  induction l with
  | nil => exact List.Perm.refl _
  | cons x l ih =>
    rw [List.flatMap_cons, List.map_cons, List.flatMap_cons, List.cons_append, List.cons_append]
    refine List.Perm.cons _ ((ih.append_left _).trans ?_)
    rw [← List.append_assoc, ← List.append_assoc]
    exact List.perm_append_comm.append_right _

/-- The names filed are names of the list, in its order. -/
theorem map_filed (leads : BTreeMap Text Text) (l : List Text) :
    (l.filterMap (filed leads)).map (fun p => p.2.1) = l.filter fun n => (filed leads n).isSome := by
  induction l with
  | nil => rfl
  | cons n l ih =>
    cases hf : filed leads n with
    | none => rw [List.filterMap_cons_none hf, List.filter_cons_of_neg (by rw [hf]; decide), ih]
    | some p =>
      obtain ⟨found, n', k⟩ := p
      obtain ⟨rfl, -⟩ := filed_eq_some.1 hf
      rw [List.filterMap_cons_some hf, List.filter_cons_of_pos (by rw [hf]; rfl), List.map_cons, ih]

/-- The files of the sets with numbered suffixes: the leads, and the parts. -/
theorem suffix_files (b : BTreeMap Text (List (Text × Nat))) :
    ((b.entries.map suffixSet).flatMap SplitSet.files).Perm (b.keys ++ b.pairs.map fun p => p.2.1) := by
  have hparts : b.pairs.map (fun p => p.2.1) = b.entries.flatMap fun e => e.2.map Prod.fst := by
    rw [BTreeMap.pairs, List.map_flatMap]
    refine List.flatMap_congr fun e _ => ?_
    rw [List.map_map]
    rfl
  rw [List.flatMap_map, hparts]
  refine (flatMap_cons_perm _ _ _).trans (List.Perm.append_left _ ?_)
  exact List.Perm.flatMap_left _ fun e _ => (List.perm_insertionSort partLe e.2).map _

theorem suffixedOf_ne_nil (leads : BTreeMap Text Text) (l : List Text) :
    ∀ e ∈ (suffixedOf leads l).entries, e.2 ≠ [] := by
  rw [suffixedOf]
  have hempty : ∀ k vs, (∅ : BTreeMap Text (List (Text × Nat))).get k = some vs → vs ≠ [] :=
    fun k vs h => by cases h
  generalize (∅ : BTreeMap Text (List (Text × Nat))) = acc at hempty ⊢
  induction l generalizing acc with
  | nil => exact fun e he => hempty e.1 e.2 (BTreeMap.get_eq_some.2 he)
  | cons n l ih =>
    rw [List.foldl_cons]
    cases hf : filed leads n with
    | none => exact ih acc hempty
    | some p =>
      refine ih _ fun k vs hvs => ?_
      dsimp only at hvs
      rw [BTreeMap.push, BTreeMap.get_insert] at hvs
      split at hvs
      · cases hvs
        exact List.append_ne_nil_of_right_ne_nil _ (List.cons_ne_nil _ _)
      · exact hempty k vs hvs

/-- A lead with parts is a package's name. -/
theorem isPkg_of_key (h : found ∈ (suffixed names).keys) : isPkg found = true := by
  obtain ⟨e, he, rfl⟩ := List.mem_map.1 h
  obtain ⟨p, parts, hp⟩ := List.exists_cons_of_ne_nil (suffixedOf_ne_nil _ _ e he)
  have hmem : p ∈ (suffixSet e).parts := by
    rw [mem_suffixSet, hp]
    exact List.mem_cons_self
  obtain ⟨-, lead, hs, hlow, -⟩ := part_of_suffixSet he hmem
  rw [isPkg_congr hlow]
  exact isPkg_of_suffixPart hs

/-- No file is in two sets named by part. -/
theorem nodup_named : ((namedSets names isPackage).flatMap SplitSet.files).Nodup := by
  rw [List.nodup_flatMap]
  constructor
  · intro s hs
    obtain ⟨e, he, hs⟩ := List.mem_filterMap.1 hs
    have hnum : (s.parts.map Prod.snd).Nodup := (namedSet_ordered hs).imp fun h => ne_of_lt h
    have hpart : ∀ p ∈ s.parts, namedPart p.1 = some (e.1, p.2) := fun p hp => (named_files he hs (.inr hp)).2.2
    refine List.nodup_cons.2 ⟨fun hmem => ?_, List.Nodup.map_on (fun p hp q hq heq => ?_) (List.Nodup.of_map _ hnum)⟩
    · obtain ⟨p, hp, heq⟩ := List.mem_map.1 hmem
      have hlead := (named_files he hs (.inl ⟨rfl, rfl⟩)).2.2
      rw [← heq, hpart p hp] at hlead
      have hpos := ((mem_namedSet hs).2.2 p hp).2.1
      have hzero : p.2 = 0 := (Prod.mk.inj (Option.some.inj hlead)).2
      omega
    · have hq' := hpart p hp
      rw [heq, hpart q hq] at hq'
      exact Prod.ext heq (Prod.mk.inj (Option.some.inj hq')).2.symm
  · rw [namedSets, List.pairwise_filterMap]
    refine (namedOf _ names).sorted.imp_of_mem fun {e e'} he he' hlt s hs s' hs' n hn hn' => ?_
    obtain ⟨k, hk⟩ := mem_files_named hn
    obtain ⟨k', hk'⟩ := mem_files_named hn'
    have hpart := (named_files he hs hk).2.2
    rw [(named_files he' hs' hk').2.2] at hpart
    exact hlt.ne (Prod.mk.inj (Option.some.inj hpart)).1.symm

/-- No file is in two sets, nor twice in one. -/
theorem nodup_files (hnodup : names.Nodup) : ((splitSets names isPackage).flatMap SplitSet.files).Nodup := by
  have hsets : splitSets names isPackage = (suffixed names).entries.map suffixSet ++ namedSets names isPackage := rfl
  have hnames : ∀ n ∈ (suffixed names).pairs.map (fun p => p.2.1), isPkg n = false := by
    intro n hn
    obtain ⟨⟨found, n', k⟩, hp, rfl⟩ := List.mem_map.1 hn
    obtain ⟨-, lead, hs, -⟩ := mem_suffixed.1 hp
    obtain ⟨num, hsuf, -⟩ := suffixPart_eq_some.1 hs
    exact hsuf.not_pkg
  rw [hsets, List.flatMap_append, List.nodup_append']
  refine ⟨(suffix_files _).nodup_iff.2 (List.nodup_append'.2 ⟨BTreeMap.keys_nodup _, ?_, ?_⟩), nodup_named, ?_⟩
  · have hperm := (pairs_suffixedOf (leadsOf names) names).map fun p => p.2.1
    rw [map_filed] at hperm
    exact hperm.nodup_iff.2 (hnodup.filter _)
  · intro n hkey hpart
    have hpkg := isPkg_of_key hkey
    rw [hnames n hpart] at hpkg
    cases hpkg
  · intro n hsuf hnamed
    obtain ⟨s, hs, hn⟩ := List.mem_flatMap.1 hnamed
    obtain ⟨e, he, hs⟩ := List.mem_filterMap.1 hs
    obtain ⟨k, hk⟩ := mem_files_named hn
    obtain ⟨-, hnot, hpart⟩ := named_files he hs hk
    rcases List.mem_append.1 ((suffix_files _).mem_iff.1 hsuf) with hkey | hpart'
    · exact hnot hkey
    · have hpkg := namedPart_pkg hpart
      rw [hnames n hpart'] at hpkg
      cases hpkg

/-! ## The promises -/

theorem mem_splitSets : s ∈ splitSets names isPackage ↔
    (∃ e ∈ (suffixed names).entries, s = suffixSet e) ∨ s ∈ namedSets names isPackage := by
  have hsets : splitSets names isPackage = (suffixed names).entries.map suffixSet ++ namedSets names isPackage := rfl
  rw [hsets, List.mem_append, List.mem_map]
  exact or_congr_left (exists_congr fun e => and_congr_right fun _ => eq_comm)

/-- `split_sets` tells the sets apart where the names are clear, and only there. -/
theorem toldApart_iff (names : List Text) (hnodup : names.Nodup) (isPackage : Text → Bool) :
    ToldApart names isPackage (splitSets names isPackage) ↔ Clear names := by
  constructor
  · intro h
    have hset : ∀ e ∈ (suffixed names).entries, suffixSet e ∈ splitSets names isPackage := fun e he =>
      mem_splitSets.2 (.inl ⟨e, he, rfl⟩)
    refine ⟨fun n hn lead k hs hlead => ?_, fun n hn n' hn' lead lead' k hs hs' hlow hex => ?_,
      fun n hn lead num hsuf hex => ?_⟩
    · obtain ⟨found, hlow, hlast⟩ := exists_lastSpelled ⟨lead, hlead, rfl⟩
      obtain ⟨e, he, rfl, hp⟩ := suffixSet_of_part hn hs hlow hlast
      obtain ⟨lead', hs', -, -, heq⟩ := h.spelled _ (hset e he) rfl _ hp
      have hlead' : lead' = lead := (Prod.mk.inj (Option.some.inj (hs'.symm.trans hs))).1
      rw [hlead'] at heq
      rwa [← heq hlead]
    · obtain ⟨found, hfound, hlast⟩ := exists_lastSpelled hex
      obtain ⟨e, he, rfl, hp⟩ := suffixSet_of_part hn hs hfound hlast
      obtain ⟨e', he', heq, hp'⟩ := suffixSet_of_part hn' hs' (hfound.trans hlow) hlast
      obtain rfl : e' = e := List.inj_on_of_nodup_map (BTreeMap.keys_nodup _) he' he heq
      have hnum : ((suffixSet e').parts.map Prod.snd).Nodup := (h.ordered _ (hset e' he)).imp fun h => ne_of_lt h
      have hsame := List.inj_on_of_nodup_map hnum hp hp' rfl
      exact (Prod.mk.inj hsame).1
    · obtain ⟨s, hs, hlayout, hmem⟩ := h.filed n hn lead num hsuf hex
      obtain ⟨p, hp, rfl⟩ := List.mem_map.1 hmem
      obtain ⟨lead', hpart, -⟩ := h.spelled s hs hlayout p hp
      rw [suffixPart_of hsuf] at hpart
      obtain ⟨k, hk, -⟩ := Option.map_eq_some_iff.1 hpart
      exact (parseU32_eq_some.1 hk).1
  · intro h
    refine ⟨nodup_files hnodup, fun s hs hlayout p hp => ?_, fun s hs => ?_, fun s hs hlayout => ?_,
      fun n hn lead num hsuf hex => ?_⟩
    · rcases mem_splitSets.1 hs with ⟨e, he, rfl⟩ | hnamed
      · obtain ⟨hn, lead, hpart, hlow, hlast⟩ := part_of_suffixSet he hp
        refine ⟨lead, hpart, hlast.mem, hlow, fun hlead => ?_⟩
        have hfind := lastSpelling_eq_some.2 ⟨hlow, hlast⟩
        have hself : lower lead = lower lead := rfl
        have hfind' := lastSpelling_eq_some.2 ⟨hself, h.spelled p.1 hn lead p.2 hpart hlead⟩
        exact Option.some.inj (hfind.symm.trans hfind')
      · obtain ⟨e, -, hs⟩ := List.mem_filterMap.1 hnamed
        rw [(mem_namedSet hs).1] at hlayout
        cases hlayout
    · rcases mem_splitSets.1 hs with ⟨e, he, rfl⟩ | hnamed
      · have hnum : ((suffixSet e).parts.map Prod.snd).Nodup := by
          have hfiles := (List.nodup_flatMap.1 (nodup_files hnodup)).1 (suffixSet e) hs
          have hparts : (suffixSet e).parts.Nodup := List.Nodup.of_map _ (List.nodup_cons.1 hfiles).2
          refine List.Nodup.map_on (fun p hp q hq heq => ?_) hparts
          obtain ⟨hn, lead, hpart, hlow, hlast⟩ := part_of_suffixSet he hp
          obtain ⟨hn', lead', hpart', hlow', -⟩ := part_of_suffixSet he hq
          rw [← heq] at hpart'
          exact Prod.ext (h.numbers p.1 hn q.1 hn' lead lead' p.2 hpart hpart' (hlow.symm.trans hlow')
            ⟨e.1, hlast.mem, hlow⟩) heq
        exact (suffixSet_sorted e).imp₂ (fun _ _ hle hne => lt_of_le_of_ne hle hne) hnum
      · obtain ⟨e, -, hs⟩ := List.mem_filterMap.1 hnamed
        exact namedSet_ordered hs
    · rcases mem_splitSets.1 hs with ⟨e, he, rfl⟩ | hnamed
      · cases hlayout
      · obtain ⟨e, he, hs⟩ := List.mem_filterMap.1 hnamed
        exact ⟨e.1, (named_files he hs (.inl ⟨rfl, rfl⟩)).2.2, fun p hp =>
          ⟨(named_files he hs (.inr hp)).2.2, ((mem_namedSet hs).2.2 p hp).2⟩⟩
    · obtain ⟨found, hlow, hlast⟩ := exists_lastSpelled hex
      have hpart : suffixPart n = some (lead, value num) :=
        suffixPart_eq_some.2 ⟨num, hsuf, h.small n hn lead num hsuf hex, rfl⟩
      obtain ⟨e, he, -, hp⟩ := suffixSet_of_part hn hpart hlow hlast
      exact ⟨suffixSet e, mem_splitSets.2 (.inl ⟨e, he, rfl⟩), rfl, List.mem_map_of_mem hp⟩

end Apart

/-- A set of each layout. -/
def clearNames : List Text :=
  ["A.pkg".toList, "A.pkg.1".toList, "A.pkg.0".toList, "B_0.pkg".toList, "B_1.pkg".toList]

theorem toldApart_iff_clear : clearNames.Nodup ∧
    (ToldApart clearNames (fun _ => false) (splitSets clearNames fun _ => false) ↔ Clear clearNames) :=
  ⟨by decide, toldApart_iff clearNames (by decide) fun _ => false⟩

/-- Two spellings of one lead, and a part of the first. -/
def twoLeads : List Text := ["Game.pkg".toList, "GAME.pkg".toList, "Game.pkg.0".toList]

theorem part_under_other_spelling : ¬ ToldApart twoLeads (fun _ => false) (splitSets twoLeads fun _ => false) := by
  have hsets : splitSets twoLeads (fun _ => false) =
      [⟨.suffix, "GAME.pkg".toList, [("Game.pkg.0".toList, 0)]⟩] := by decide +kernel
  intro h
  rw [hsets] at h
  obtain ⟨lead, hpart, -, -, hlead⟩ := h.spelled _ List.mem_cons_self rfl _ List.mem_cons_self
  have hlead' : lead = "Game.pkg".toList := by
    have hvalue : suffixPart "Game.pkg.0".toList = some ("Game.pkg".toList, 0) := by decide +kernel
    exact (Prod.mk.inj (Option.some.inj (hpart.symm.trans hvalue))).1
  rw [hlead'] at hlead
  exact absurd (hlead List.mem_cons_self) (by decide)

end Ps5Upload.SplitSets
