import Mathlib.Data.Char
import Mathlib.Data.List.Lex
import Mathlib.Data.List.Sort
import Mathlib.Data.List.TakeWhile
import Ps5Upload.Lib.BTreeMap
import Ps5Upload.Lib.ListAt

/-!
# Split packages

`split_sets` of `ps5upload-engine/src/collection/split.rs`: which of the files of a folder are one package
kept in several files, by their names, in both layouts: `Game.pkg`, `Game.pkg.0`, `Game.pkg.1`, … and
`Game_0.pkg`, `Game_1.pkg`, ….

* `suffixPart_eq_some`, `namedPart_pkg` — the names of the parts;
* `get_leadsOf` — a lead is kept by its name without regard to case, the last spelling of it;
* `pairs_suffixedOf`, `mem_namedOf` — how the parts are filed.
-/

namespace Ps5Upload.SplitSets

abbrev Text := List Char

/-! ## Names -/

/-- `to_ascii_lowercase` -/
def lower (name : Text) : Text := name.map Char.toLower

/-- Whether a name ends with `.pkg`, in whatever case. -/
def isPkg (name : Text) : Bool := 4 ≤ name.length && lower (name.drop (name.length - 4)) = ".pkg".toList

def rsplitOnce (sep : Char) (t : Text) : Option (Text × Text) :=
  if sep ∈ t then
    some ((t.reverse.dropWhile (· ≠ sep)).tail.reverse, (t.reverse.takeWhile (· ≠ sep)).reverse)
  else none

/-- The number that digits spell. -/
def value (num : Text) : Nat := num.foldl (fun n c => 10 * n + (c.toNat - '0'.toNat)) 0

/-- `num.parse::<u32>()`, of digits. -/
def parseU32 (num : Text) : Option Nat := if value num < 2 ^ 32 then some (value num) else none

/-- `name_N.pkg`: the stem and the part number. -/
def namedPart (name : Text) : Option (Text × Nat) :=
  if !isPkg name then none
  else
    match rsplitOnce '_' (name.take (name.length - 4)) with
    | none => none
    | some (head, num) =>
      if num = [] || !num.all Char.isDigit then none else (parseU32 num).map fun k => (head, k)

/-- `name.pkg.N`: the lead's name and the part number. -/
def suffixPart (name : Text) : Option (Text × Nat) :=
  match rsplitOnce '.' name with
  | none => none
  | some (lead, num) =>
    if num = [] || !num.all Char.isDigit then none
    else if !isPkg lead then none
    else (parseU32 num).map fun k => (lead, k)

/-! ## `split_sets` -/

inductive Layout where
  | named | suffix
  deriving DecidableEq

structure SplitSet where
  layout : Layout
  /-- The file with the header. -/
  lead : Text
  /-- The later parts in order, each with its number. -/
  parts : List (Text × Nat)
  deriving DecidableEq

/-- The names that end with `.pkg`, by their names without regard to case. -/
def leadsOf (names : List Text) : BTreeMap Text Text :=
  (names.filter isPkg).foldl (fun leads n => leads.insert (lower n) n) ∅

/-- Where a part with a numbered suffix is filed. -/
def filed (leads : BTreeMap Text Text) (n : Text) : Option (Text × Text × Nat) :=
  match suffixPart n with
  | none => none
  | some (lead, k) => (leads.get (lower lead)).map fun found => (found, n, k)

def suffixedOf (leads : BTreeMap Text Text) (names : List Text) : BTreeMap Text (List (Text × Nat)) :=
  names.foldl (fun suffixed n =>
    match filed leads n with
    | none => suffixed
    | some (found, part) => suffixed.push found part) ∅

/-- By number, then by name. -/
def partLe (a b : Text × Nat) : Prop := a.2 < b.2 ∨ (a.2 = b.2 ∧ a.1 ≤ b.1)

instance (a b : Text × Nat) : Decidable (partLe a b) := inferInstanceAs (Decidable (_ ∨ _))

/-- `entry(stem).or_default().entry(k).or_insert(n)` -/
def addNamed (named : BTreeMap Text (BTreeMap Nat Text)) (stem : Text) (k : Nat) (n : Text) :
    BTreeMap Text (BTreeMap Nat Text) :=
  let numbered := (named.get stem).getD ∅
  named.insert stem (if (numbered.get k).isSome then numbered else numbered.insert k n)

def namedOf (withSuffixParts : List Text) (names : List Text) : BTreeMap Text (BTreeMap Nat Text) :=
  (names.filter fun n => !withSuffixParts.contains n).foldl (fun named n =>
    match namedPart n with
    | none => named
    | some (stem, k) => addNamed named stem k n) ∅

/-- The set of a part 0 and of later parts that are no packages. -/
def namedSet (isPackage : Text → Bool) (numbered : BTreeMap Nat Text) : Option SplitSet :=
  match numbered.get 0 with
  | none => none
  | some lead =>
    let parts := (numbered.entries.filter fun p => 0 < p.1 && !isPackage p.2).map fun p => (p.2, p.1)
    if parts = [] then none else some ⟨.named, lead, parts⟩

def splitSets (names : List Text) (isPackage : Text → Bool) : List SplitSet :=
  let suffixed := suffixedOf (leadsOf names) names
  (suffixed.entries.map fun e => ⟨.suffix, e.1, e.2.insertionSort partLe⟩) ++
    (namedOf suffixed.keys names).entries.filterMap fun e => namedSet isPackage e.2

/-! ## What the names say -/

theorem lower_length (name : Text) : (lower name).length = name.length := List.length_map _

/-- Names that differ in case only are packages' names or not together. -/
theorem isPkg_congr {a b : Text} (h : lower a = lower b) : isPkg a = isPkg b := by
  have hlen : a.length = b.length := by
    rw [← lower_length a, ← lower_length b, h]
  have hdrop : lower (a.drop (a.length - 4)) = lower (b.drop (b.length - 4)) := by
    rw [lower, lower, List.map_drop, List.map_drop, hlen]
    exact congrArg _ h
  rw [isPkg, isPkg, hlen, ← hdrop, hlen]

variable {num lead name stem n : Text} {k : Nat}

theorem rsplitOnce_append {sep : Char} (lead : Text) (h : sep ∉ num) :
    rsplitOnce sep (lead ++ sep :: num) = some (lead, num) := by
  have hnum : ∀ c ∈ num.reverse, decide (c ≠ sep) = true := fun c hc => by
    rw [decide_eq_true_eq]
    rintro rfl
    exact h (List.mem_reverse.1 hc)
  have hrev : (lead ++ sep :: num).reverse = num.reverse ++ sep :: lead.reverse := by simp
  rw [rsplitOnce, if_pos (List.mem_append_right _ List.mem_cons_self), hrev,
    List.takeWhile_append_of_pos hnum, List.dropWhile_append_of_pos hnum,
    List.takeWhile_cons_of_neg (by simp), List.dropWhile_cons_of_neg (by simp)]
  simp

theorem rsplitOnce_eq_some {sep : Char} {t : Text} (h : rsplitOnce sep t = some (lead, num)) :
    t = lead ++ sep :: num ∧ sep ∉ num := by
  by_cases hsep : sep ∈ t
  · obtain ⟨post, pre, hrev, hpost⟩ := List.eq_append_cons_of_mem (List.mem_reverse.2 hsep)
    have ht : t = pre.reverse ++ sep :: post.reverse := by
      have := congrArg List.reverse hrev
      rw [List.reverse_reverse] at this
      rw [this]
      simp
    have hpost' : sep ∉ post.reverse := fun hmem => hpost (List.mem_reverse.1 hmem)
    rw [ht, rsplitOnce_append _ hpost'] at h
    cases h
    exact ⟨ht, hpost'⟩
  · rw [rsplitOnce, if_neg hsep] at h
    cases h

theorem parseU32_eq_some : parseU32 num = some k ↔ value num < 2 ^ 32 ∧ value num = k := by
  rw [parseU32, Option.ite_none_right_eq_some, Option.some.injEq]

/-- A lead, a dot and digits. -/
def Suffixed (name lead num : Text) : Prop :=
  name = lead ++ '.' :: num ∧ num ≠ [] ∧ num.all Char.isDigit = true ∧ isPkg lead = true

theorem no_dot (h : num.all Char.isDigit = true) : '.' ∉ num := fun hmem => by
  have hdot := List.all_eq_true.1 h '.' hmem
  cases hdot

theorem suffixPart_of (h : Suffixed name lead num) :
    suffixPart name = (parseU32 num).map fun k => (lead, k) := by
  obtain ⟨rfl, hne, hdigits, hpkg⟩ := h
  have hcond : (decide (num = []) || !num.all Char.isDigit) = false := by
    rw [decide_eq_false hne, hdigits]
    rfl
  rw [suffixPart, rsplitOnce_append _ (no_dot hdigits)]
  dsimp only
  rw [hcond, hpkg]
  rfl

theorem suffixPart_eq_some :
    suffixPart name = some (lead, k) ↔ ∃ num, Suffixed name lead num ∧ value num < 2 ^ 32 ∧ value num = k := by
  constructor
  · intro h
    have h' := h
    unfold suffixPart at h'
    split at h'
    · cases h'
    · rename_i l num hcut
      split at h'
      · cases h'
      · rename_i hcond
        split at h'
        · cases h'
        · rename_i hpkg
          obtain ⟨k', hk, heq⟩ := Option.map_eq_some_iff.1 h'
          cases heq
          rw [Bool.not_eq_true, Bool.or_eq_false_iff, decide_eq_false_iff_not, Bool.not_eq_false'] at hcond
          rw [Bool.not_eq_true, Bool.not_eq_false'] at hpkg
          exact ⟨num, ⟨(rsplitOnce_eq_some hcut).1, hcond.1, hcond.2, hpkg⟩, parseU32_eq_some.1 hk⟩
  · rintro ⟨num, hs, hk⟩
    rw [suffixPart_of hs, parseU32_eq_some.2 hk]
    rfl

theorem lower_getLast : (lower name).getLast? = name.getLast?.map Char.toLower := by
  rw [lower, List.getLast?_map]

theorem toLower_of_digit {c : Char} (h : c.isDigit = true) : c.toLower = c := by
  refine dif_neg fun hcase => ?_
  have hge : 'A'.toNat ≤ c.toNat := hcase.1
  have hle : c.toNat ≤ '9'.toNat := by
    rw [Char.isDigit, Bool.and_eq_true, decide_eq_true_eq, decide_eq_true_eq] at h
    exact h.2
  exact absurd (hge.trans hle) (by decide)

/-- A name with digits behind its last dot does not end with `.pkg`. -/
theorem Suffixed.not_pkg (h : Suffixed name lead num) : isPkg name = false := by
  obtain ⟨rfl, hne, hdigits, -⟩ := h
  rw [Bool.eq_false_iff, isPkg, ne_eq, Bool.and_eq_true, decide_eq_true_eq, decide_eq_true_eq]
  rintro ⟨hlen, hpkg⟩
  obtain ⟨front, c, rfl⟩ := (List.eq_nil_or_concat num).resolve_left hne
  rw [List.concat_eq_append] at hdigits hpkg hlen
  have hc : c.isDigit = true := List.all_eq_true.1 hdigits c (by simp)
  have hlast : ((lead ++ '.' :: (front ++ [c])).drop ((lead ++ '.' :: (front ++ [c])).length - 4)).getLast? = some c := by
    rw [List.getLast?_drop, if_neg (by omega), List.getLast?_append, List.getLast?_cons,
      List.getLast?_append]
    rfl
  have hg := congrArg List.getLast? hpkg
  rw [lower_getLast, hlast] at hg
  have hlow : c.toLower = 'g' := Option.some.inj hg
  rw [toLower_of_digit hc] at hlow
  rw [hlow] at hc
  cases hc

theorem namedPart_pkg (h : namedPart name = some (stem, k)) : isPkg name = true := by
  unfold namedPart at h
  split at h
  · cases h
  · rename_i hpkg
    rwa [Bool.not_eq_true, Bool.not_eq_false'] at hpkg

/-! ## Leads -/

/-- The last spelling of a name, in a list. -/
def lastSpelling (names : List Text) (key : Text) : Option Text := names.reverse.find? fun n => lower n = key

theorem get_foldl_insert (names : List Text) (leads : BTreeMap Text Text) (key : Text) :
    (names.foldl (fun leads n => leads.insert (lower n) n) leads).get key =
      (lastSpelling names key).or (leads.get key) := by
  induction names generalizing leads with
  | nil => rfl
  | cons n names ih =>
    rw [List.foldl_cons, ih, lastSpelling, lastSpelling, List.reverse_cons, List.find?_append, Option.or_assoc]
    congr 1
    rw [BTreeMap.get_insert, List.find?_singleton]
    by_cases h : lower n = key
    · rw [if_pos h.symm, decide_eq_true h]
      rfl
    · rw [if_neg (Ne.symm h), decide_eq_false h]
      rfl

theorem get_leadsOf (names : List Text) (key : Text) : (leadsOf names).get key = lastSpelling (names.filter isPkg) key := by
  rw [leadsOf, get_foldl_insert, BTreeMap.get_empty, Option.or_none]

/-! ## Suffixed parts -/

/-- Each part is filed once, under its lead. -/
theorem pairs_suffixedOf (leads : BTreeMap Text Text) (names : List Text) :
    (suffixedOf leads names).pairs.Perm (names.filterMap (filed leads)) := by
  rw [suffixedOf]
  suffices h : ∀ acc : BTreeMap Text (List (Text × Nat)), (names.foldl (fun suffixed n =>
      match filed leads n with
      | none => suffixed
      | some (found, part) => suffixed.push found part) acc).pairs.Perm
        (acc.pairs ++ names.filterMap (filed leads)) from h ∅
  induction names with
  | nil => exact fun acc => by rw [List.filterMap_nil, List.append_nil]; exact List.Perm.refl _
  | cons n names ih =>
    intro acc
    rw [List.foldl_cons]
    cases hf : filed leads n with
    | none =>
      rw [List.filterMap_cons_none hf]
      exact ih acc
    | some p =>
      rw [List.filterMap_cons_some hf]
      refine (ih (acc.push p.1 p.2)).trans ?_
      exact ((acc.pairs_push p.1 p.2).append_right _).trans List.perm_middle.symm

theorem filed_eq_some {leads : BTreeMap Text Text} {found n' : Text} :
    filed leads n = some (found, n', k) ↔
      n' = n ∧ ∃ lead, suffixPart n = some (lead, k) ∧ leads.get (lower lead) = some found := by
  unfold filed
  cases hs : suffixPart n with
  | none =>
    refine ⟨nofun, ?_⟩
    rintro ⟨-, lead, h, -⟩
    cases h
  | some p =>
    dsimp only
    rw [Option.map_eq_some_iff]
    constructor
    · rintro ⟨f, hf, heq⟩
      cases heq
      exact ⟨rfl, p.1, rfl, hf⟩
    · rintro ⟨rfl, lead, hp, hf⟩
      cases hp
      exact ⟨found, hf, rfl⟩

/-! ## Parts by name -/

/-- What is filed under the stems of the names. -/
theorem get_addNamed {named : BTreeMap Text (BTreeMap Nat Text)} {stem' n' : Text} {k' : Nat}
    {numbered : BTreeMap Nat Text} (h : (addNamed named stem k n).get stem' = some numbered)
    (hn : numbered.get k' = some n') :
    (stem' = stem ∧ k' = k ∧ n' = n) ∨ ∃ old, named.get stem' = some old ∧ old.get k' = some n' := by
  rw [addNamed, BTreeMap.get_insert] at h
  split at h
  · rename_i hstem
    have hold : ((named.get stem).getD ∅).get k' = some n' →
        ∃ old, named.get stem' = some old ∧ old.get k' = some n' := by
      intro hg
      rw [hstem]
      cases hs : named.get stem with
      | none =>
        rw [hs, Option.getD_none, BTreeMap.get_empty] at hg
        cases hg
      | some old =>
        rw [hs] at hg
        exact ⟨old, rfl, hg⟩
    cases h
    split at hn
    · exact .inr (hold hn)
    · rw [BTreeMap.get_insert] at hn
      split at hn
      · rename_i hk
        exact .inl ⟨hstem, hk, (Option.some.inj hn).symm⟩
      · exact .inr (hold hn)
  · exact .inr ⟨numbered, h, hn⟩

theorem mem_namedOf {withSuffixParts names : List Text} {numbered : BTreeMap Nat Text}
    (h : (namedOf withSuffixParts names).get stem = some numbered) (hn : numbered.get k = some n) :
    n ∈ names ∧ n ∉ withSuffixParts ∧ namedPart n = some (stem, k) := by
  rw [namedOf] at h
  suffices hacc : ∀ (l : List Text) (acc : BTreeMap Text (BTreeMap Nat Text)),
      (l.foldl (fun named n =>
        match namedPart n with
        | none => named
        | some (stem, k) => addNamed named stem k n) acc).get stem = some numbered →
      (n ∈ l ∧ namedPart n = some (stem, k)) ∨ ∃ old, acc.get stem = some old ∧ old.get k = some n by
    rcases hacc _ ∅ h with ⟨hmem, hpart⟩ | ⟨old, hold, -⟩
    · have := List.mem_filter.1 hmem
      exact ⟨this.1, by simpa using this.2, hpart⟩
    · cases hold
  intro l
  induction l with
  | nil => exact fun acc hget => .inr ⟨numbered, hget, hn⟩
  | cons x l ih =>
    intro acc hget
    rw [List.foldl_cons] at hget
    rcases ih _ hget with ⟨hmem, hpart⟩ | ⟨old, hold, hk⟩
    · exact .inl ⟨List.mem_cons_of_mem x hmem, hpart⟩
    · cases hx : namedPart x with
      | none =>
        rw [hx] at hold
        exact .inr ⟨old, hold, hk⟩
      | some p =>
        rw [hx] at hold
        rcases get_addNamed hold hk with ⟨rfl, rfl, rfl⟩ | hold
        · exact .inl ⟨List.mem_cons_self, hx⟩
        · exact .inr hold

end Ps5Upload.SplitSets
