import Ps5Upload.Core.SaveArchive.Restore
import Mathlib.Data.List.Nodup
import Mathlib.Data.List.Dedup

/-!
# Save restores: the prefix again

What `restore_prepare` renames.

* `restoreEntries_ok` — it succeeds where no bare name is there with its prefix too;
* `restorePrepare_files` — the files of a whole restore.
-/

namespace Ps5Upload.SaveArchive

open ByteFile

/-! ## Bare names -/

/-- A path after the restore, where the listing has the bare names. -/
def renamed (title : Text) (listing : List (Text × Bool)) : Path → Path
  | [t, name] =>
    if t = title ∧ (name, true) ∈ listing ∧ keepsName name = false then [t, imagePrefix ++ name]
    else [t, name]
  | p => p

/-- A path after the restore, where the listing is whole. -/
def restored (title : Text) : Path → Path
  | [t, name] => if t = title ∧ keepsName name = false then [t, imagePrefix ++ name] else [t, name]
  | p => p

theorem keepsName_image (name : Text) : keepsName (imagePrefix ++ name) = true := by
  have hpre : imagePrefix.isPrefixOf (imagePrefix ++ name) = true :=
    List.isPrefixOf_iff_prefix.2 (List.prefix_append _ _)
  rw [keepsName, hpre]
  rfl

variable {name title : Text} {listing : List (Text × Bool)} {s : Store}

theorem not_dot_of_bare (h : keepsName name = false) : '.' ∉ name := by
  rw [keepsName, Bool.or_eq_false_iff, decide_eq_false_iff_not] at h
  exact h.2

theorem renamed_skip {isFile : Bool} (rest : List (Text × Bool))
    (h : isFile = false ∨ keepsName name = true) :
    renamed title ((name, isFile) :: rest) = renamed title rest := by
  funext p
  have hiff : ∀ m, ((m, true) ∈ (name, isFile) :: rest ∧ keepsName m = false) ↔
      ((m, true) ∈ rest ∧ keepsName m = false) := fun m => by
    refine and_congr_left fun hm => ⟨fun hmem => ?_, List.mem_cons_of_mem _⟩
    refine (List.mem_cons.1 hmem).resolve_left fun heq => ?_
    cases heq
    rcases h with h | h
    · cases h
    · exact Bool.false_ne_true (hm.symm.trans h)
  unfold renamed
  split
  · simp only [hiff]
  · rfl

theorem renamed_cons (rest : List (Text × Bool)) (h : keepsName name = false) (p : Path) :
    renamed title ((name, true) :: rest) p =
      renamed title rest (if p = [title, name] then [title, imagePrefix ++ name] else p) := by
  by_cases hp : p = [title, name]
  · rw [if_pos hp, hp]
    have hleft : renamed title ((name, true) :: rest) [title, name] = [title, imagePrefix ++ name] :=
      if_pos ⟨rfl, List.mem_cons_self, h⟩
    have hright : renamed title rest [title, imagePrefix ++ name] = [title, imagePrefix ++ name] :=
      if_neg fun hbare => Bool.false_ne_true (hbare.2.2.symm.trans (keepsName_image name))
    rw [hleft, hright]
  · rw [if_neg hp]
    unfold renamed
    split
    · rename_i t m
      have hmem : t = title → ((m, true) ∈ (name, true) :: rest ↔ (m, true) ∈ rest) := fun ht =>
        ⟨fun hmem => (List.mem_cons.1 hmem).resolve_left fun heq => by
          cases heq
          exact hp (by rw [ht]), List.mem_cons_of_mem _⟩
      have hiff : (t = title ∧ (m, true) ∈ (name, true) :: rest ∧ keepsName m = false) ↔
          (t = title ∧ (m, true) ∈ rest ∧ keepsName m = false) :=
        and_congr_right fun ht => and_congr_left fun _ => hmem ht
      simp only [hiff]
    · rfl

/-- **Bare files of the listing get the prefix**, and nothing else is renamed. -/
theorem restoreEntries_files {s' : Store} (h : restoreEntries title listing s = .ok s') :
    s'.files = s.files.map fun q => (renamed title listing q.1, q.2) := by
  induction listing generalizing s with
  | nil =>
    cases h
    have hid : ∀ p, renamed title [] p = p := fun p => by
      unfold renamed
      split
      · exact if_neg fun hbare => nomatch hbare.2.1
      · rfl
    simp only [hid, Prod.mk.eta, List.map_id']
  | cons e rest ih =>
    obtain ⟨name, isFile⟩ := e
    rw [restoreEntries] at h
    split at h
    · rename_i hdir
      rw [ih h, renamed_skip rest (.inl hdir)]
    · rename_i hfile
      split at h
      · rename_i hkeep
        rw [ih h, renamed_skip rest (.inr hkeep)]
      · rename_i hbare
        split at h
        · cases h
        · rw [ih h, Store.rename, List.map_map, Bool.not_eq_false _ |>.mp hfile]
          refine List.map_congr_left fun q _ => ?_
          rw [renamed_cons rest (Bool.eq_false_iff.2 hbare), Function.comp_apply]
          by_cases hq : q.1 = [title, name]
          · rw [if_pos hq, if_pos hq]
          · rw [if_neg hq, if_neg hq]

/-- No bare name of the listing is there with its prefix too. -/
def NoClash (title : Text) (listing : List (Text × Bool)) (s : Store) : Prop :=
  ∀ name, (name, true) ∈ listing → keepsName name = false → s.has [title, imagePrefix ++ name] = false

theorem has_false_iff {p : Path} : s.has p = false ↔ p ∉ s.files.map Prod.fst ∧ p ∉ s.dirs := by
  rw [Store.has, Store.isFile, Bool.or_eq_false_iff, decide_eq_false_iff_not, decide_eq_false_iff_not]

theorem restoreEntries_ok (hn : listing.Nodup)
    (h : NoClash title listing s) : ∃ s', restoreEntries title listing s = .ok s' := by
  induction listing generalizing s with
  | nil => exact ⟨s, rfl⟩
  | cons e rest ih =>
    obtain ⟨name, isFile⟩ := e
    obtain ⟨hnew, hrest⟩ := List.nodup_cons.1 hn
    have hskip := ih hrest fun m hm => h m (List.mem_cons_of_mem _ hm)
    rw [restoreEntries]
    split
    · exact hskip
    · rename_i hfile
      split
      · exact hskip
      · rename_i hbare
        rw [Bool.not_eq_false _ |>.mp hfile] at h hnew
        rw [h name List.mem_cons_self (Bool.eq_false_iff.2 hbare), if_neg Bool.false_ne_true]
        refine ih hrest fun m hm hmbare => ?_
        have hfree := has_false_iff.1 (h m (List.mem_cons_of_mem _ hm) hmbare)
        refine has_false_iff.2 ⟨fun hmem => ?_, hfree.2⟩
        obtain ⟨q, hq, hpath⟩ := List.mem_map.1 hmem
        obtain ⟨p, hp, rfl⟩ := List.mem_map.1 hq
        split at hpath
        · have hname : name = m := List.append_cancel_left (List.cons.inj (List.cons.inj hpath).2).1
          exact hnew (hname ▸ hm)
        · exact hfree.1 (hpath ▸ List.mem_map_of_mem hp)

/-! ## The listing -/

theorem mem_list_file : (name, true) ∈ s.list title ↔ [title, name] ∈ s.files.map Prod.fst := by
  rw [Store.list, List.mem_append, List.mem_filterMap, List.mem_dedup, List.mem_filterMap, List.mem_map]
  constructor
  · rintro (⟨q, hq, hname⟩ | ⟨p, -, hname⟩)
    · refine ⟨q, hq, ?_⟩
      split at hname
      · rename_i t m hp
        split at hname
        · rename_i ht
          cases hname
          rw [hp, ht]
        · cases hname
      · cases hname
    · split at hname
      · split at hname <;> cases hname
      · cases hname
  · rintro ⟨q, hq, hp⟩
    refine .inl ⟨q, hq, ?_⟩
    rw [hp]
    exact if_pos rfl

theorem nodup_list (h : (s.files.map Prod.fst).Nodup) (title : Text) : (s.list title).Nodup := by
  rw [Store.list]
  refine List.nodup_append.2 ⟨?_, List.nodup_dedup _, fun a ha b hb hab => ?_⟩
  · change (s.files.filterMap ((fun p : Path =>
        match p with
        | [t, name] => if t = title then some (name, true) else none
        | _ => none) ∘ Prod.fst)).Nodup
    rw [← List.filterMap_map]
    refine h.filterMap fun p p' b hp hp' => ?_
    split at hp
    · split at hp'
      · split at hp
        · split at hp'
          · rename_i ht ht'
            cases hp
            cases hp'
            rw [ht, ht']
          · cases hp'
        · cases hp
      · cases hp'
    · cases hp
  · rw [List.mem_filterMap] at ha
    rw [List.mem_dedup, List.mem_filterMap] at hb
    obtain ⟨q, -, ha⟩ := ha
    obtain ⟨p, -, hb⟩ := hb
    have htrue : a.2 = true := by
      split at ha
      · split at ha <;> cases ha
        rfl
      · cases ha
    have hfalse : b.2 = false := by
      split at hb
      · split at hb <;> cases hb
        rfl
      · cases hb
    rw [hab, hfalse] at htrue
    cases htrue

theorem renamed_eq_restored
    (hl : listing.Perm (s.list title)) {q : Path × Bytes} (hq : q ∈ s.files) :
    renamed title listing q.1 = restored title q.1 := by
  have hpath : q.1 ∈ s.files.map Prod.fst := List.mem_map_of_mem hq
  generalize q.1 = p at hpath
  unfold renamed restored
  split
  · rename_i t name
    have hmem : t = title → (name, true) ∈ listing := fun ht =>
      hl.mem_iff.2 (mem_list_file.2 (ht ▸ hpath))
    have hiff : (t = title ∧ (name, true) ∈ listing ∧ keepsName name = false) ↔
        (t = title ∧ keepsName name = false) :=
      and_congr_right fun ht => and_iff_right (hmem ht)
    simp only [hiff]
  · rfl

theorem restorePrepare_files {order : List (Text × Bool) → List (Text × Bool)} (ho : ∀ l, (order l).Perm l) {s' : Store} (h : restorePrepare order title s = .ok s') :
    s'.files = s.files.map fun q => (restored title q.1, q.2) := by
  rw [restorePrepare] at h
  split at h
  · cases h
  · rw [restoreEntries_files h]
    exact List.map_congr_left fun q hq => by rw [renamed_eq_restored (ho _) hq]

end Ps5Upload.SaveArchive
