import Ps5Upload.Lib.Checked
import Ps5Upload.Core.SaveArchive.Unzip
import Mathlib.Data.List.Nodup
import Mathlib.Data.List.TakeWhile

/-!
# Save restores: what a strict unzip may write

`unzip_strict` of `ps5upload-core/src/save_archive.rs`, into a folder that may have something in it.  The
first pass reads the top-level folder of a name up to its first slash and passes over a name that starts
with one; the second drops empty components.

* `passOne_iff` — the archives the first pass lets through;
* `Escapes` — an entry that the two read differently;
* `strict_iff` — the archives of which the expected folder is unzipped, and nothing else.
-/

namespace Ps5Upload.SaveArchive

open ByteFile

/-! ## The two passes -/

/-- Pass 1 with its checks. -/
def passOne (entries : List ZipEntry) (expectedInner : Text) : Res Unit := do
  match ← rootDirs entries [] with
  | [root] => if root ≠ expectedInner then .error (.wrongFolder root) else return ()
  | roots => .error (.notOneFolder roots)

/-- `unzip_strict` into a folder with something in it. -/
def unzipInto (dest : Store) (entries : List ZipEntry) (expectedInner : Text) : Res Store := do
  passOne entries expectedInner
  let (s, count) ← extract entries dest 0
  if count = 0 then .error .noFiles else return s

/-! ## What an archive says -/

/-- The entries that are not noise. -/
def quiet (entries : List ZipEntry) : List ZipEntry := entries.filter fun e => !isFinderNoise e.name

variable {e : ZipEntry} {es entries : List ZipEntry} {p : Path} {expected : Text} {s t dest : Store}
  {count n : Nat}

theorem quiet_noise (h : isFinderNoise e.name = true) :
    quiet (e :: es) = quiet es := List.filter_cons_of_neg (by rw [h]; decide)

theorem quiet_entry (h : isFinderNoise e.name = false) :
    quiet (e :: es) = e :: quiet es := List.filter_cons_of_pos (by rw [h]; rfl)

/-- The components of a name, without those that stand for no step. -/
def components (name : Text) : Path := (name.splitOn '/').filter fun seg => seg ≠ [] && seg ≠ ['.']

/-- All entries are below one top-level folder of the name. -/
def OneFolder (expected : Text) (entries : List ZipEntry) : Prop :=
  (∃ e ∈ quiet entries, (components e.name).head? = some expected) ∧
    ∀ e ∈ quiet entries, ∀ c, (components e.name).head? = some c →
      c = expected ∧ (components e.name = [c] → e.data = none)

/-- The bytes that an entry is to leave at a path. -/
def fileAt (p : Path) (e : ZipEntry) : Option Bytes := if sanitizeEntry e.name = some p then e.data else none

/-- The bytes of the last file entry of a path. -/
def lastData (entries : List ZipEntry) (p : Path) : Option Bytes :=
  ((quiet entries).filterMap (fileAt p)).getLast?

/-- The first entry of the second pass gets as far as the folder it is in. -/
def Starts (dest : Store) (entries : List ZipEntry) : Prop :=
  ∃ e es p s, quiet entries = e :: es ∧ sanitizeEntry e.name = some p ∧
    dest.createDirAll (if e.data.isSome then p.dropLast else p) = .ok s

/-- A strict unzip: another layout is refused before anything is written, and what is unzipped is the
files of the archive, below the expected folder. -/
structure Strict (dest : Store) (expected : Text) (entries : List ZipEntry) : Prop where
  refused : ¬ OneFolder expected entries → (∃ e, unzipInto dest entries expected = .error e) ∧
    ¬ (passOne entries expected = .ok () ∧ Starts dest entries)
  some_file : ∀ s, unzipInto dest entries expected = .ok s → ∃ e ∈ quiet entries, e.data.isSome
  dirs : ∀ s, unzipInto dest entries expected = .ok s →
    ∀ p ∈ s.dirs, p ∈ dest.dirs ∨ p = [] ∨ [expected] <+: p
  files : ∀ s, unzipInto dest entries expected = .ok s → ∀ p data, (p, data) ∈ s.files ↔
    lastData entries p = some data ∨ lastData entries p = none ∧ (p, data) ∈ dest.files
  below : ∀ s, unzipInto dest entries expected = .ok s →
    ∀ p, (lastData entries p).isSome → [expected] <+: p ∧ p ≠ [expected]
  all : ∀ s, unzipInto dest entries expected = .ok s →
    ∀ e ∈ quiet entries, e.data.isSome → ∃ p, sanitizeEntry e.name = some p ∧ (lastData entries p).isSome

/-! ## Names -/

theorem sanitizeSegments_eq {segs : List Text} {out : Path} (h : sanitizeSegments segs out = some p) :
    p = out ++ segs.filter fun seg => seg ≠ [] && seg ≠ ['.'] := by
  induction segs generalizing out with
  | nil =>
    cases h
    exact (List.append_nil _).symm
  | cons seg segs ih =>
    rw [sanitizeSegments] at h
    split at h
    · rename_i hblank
      rw [ih h, List.filter_cons_of_neg]
      rcases hblank with rfl | rfl <;> decide
    split at h
    · cases h
    split at h
    · cases h
    · rename_i hblank _ _
      rw [ih h, List.filter_cons_of_pos, List.append_assoc, List.singleton_append]
      rw [not_or] at hblank
      simp [hblank.1, hblank.2]

theorem sanitizeEntry_eq {name : Text} (h : sanitizeEntry name = some p) :
    p = components name ∧ p ≠ [] := by
  unfold sanitizeEntry at h
  split at h
  · cases h
  · cases h
  · rename_i out hne hout
    cases h
    exact ⟨sanitizeSegments_eq hout, hne⟩

/-- The name of a folder, without a separator. -/
structure FolderName (expected : Text) : Prop where
  ne_nil : expected ≠ []
  ne_dot : expected ≠ ['.']
  no_slash : '/' ∉ expected

theorem components_under (hname : FolderName expected) (t : Text) :
    components (expected ++ '/' :: t) = expected :: components t := by
  unfold components
  rw [List.splitOn_append_cons_self, List.splitOn_eq_singleton hname.no_slash, List.singleton_append,
    List.filter_cons_of_pos]
  simp [hname.ne_nil, hname.ne_dot]

/-! ## The first pass -/

/-- `name.split('/').next()` -/
def leading (name : Text) : Text := name.takeWhile (· ≠ '/')

theorem leading_eq_nil_iff (name : Text) : leading name = [] ↔ name = [] ∨ name.head? = some '/' := by
  cases name with
  | nil => simp [leading]
  | cons c name =>
    by_cases h : c = '/'
    · simp [leading, h]
    · simp [leading, h]

/-- The first pass reads the name as one below the folder. -/
def ReadsBelow (expected name : Text) : Prop := ∃ t, name = expected ++ '/' :: t

theorem readsBelow_iff {name : Text} (hs : '/' ∉ expected) :
    ReadsBelow expected name ↔ '/' ∈ name ∧ leading name = expected := by
  constructor
  · rintro ⟨t, rfl⟩
    exact ⟨List.mem_append_right _ List.mem_cons_self, takeWhile_under hs rfl⟩
  · rintro ⟨hslash, rfl⟩
    obtain ⟨c, t, ht⟩ : ∃ c t, name.dropWhile (· ≠ '/') = c :: t := by
      cases h : name.dropWhile (· ≠ '/') with
      | nil => exact absurd (List.dropWhile_eq_nil_iff.1 h '/' hslash) (by simp)
      | cons c t => exact ⟨c, t, rfl⟩
    have hc : c = '/' := by
      have hhead := List.head?_dropWhile_not (fun c : Char => decide (c ≠ '/')) name
      rw [ht] at hhead
      simpa using hhead
    subst hc
    exact ⟨t, by rw [leading, ← ht, List.takeWhile_append_dropWhile]⟩

/-- What the first pass lets through: names that start with no slash are below the expected folder, and
there is one. -/
def Leading (expected : Text) (entries : List ZipEntry) : Prop :=
  (∃ e ∈ quiet entries, ReadsBelow expected e.name) ∧
    ∀ e ∈ quiet entries, e.name = [] ∨ e.name.head? = some '/' ∨ ReadsBelow expected e.name

/-- The first pass goes over the names and collects the folders at the top. -/
theorem rootDirs_ok {roots rs : List Text} (hn : roots.Nodup)
    (h : rootDirs entries roots = .ok rs) :
    rs.Nodup ∧ (∀ e ∈ quiet entries, leading e.name = [] ∨ '/' ∈ e.name) ∧
      ∀ c, c ∈ rs ↔ c ∈ roots ∨ ∃ e ∈ quiet entries, leading e.name = c ∧ c ≠ [] := by
  induction entries generalizing roots with
  | nil =>
    cases h
    exact ⟨hn, nofun, fun c => ⟨.inl, fun h => h.elim id fun ⟨_, he, _⟩ => by cases he⟩⟩
  | cons e es ih =>
    rw [rootDirs] at h
    cases hnoise : isFinderNoise e.name with
    | true =>
      rw [hnoise, if_pos rfl] at h
      rw [quiet_noise hnoise]
      exact ih hn h
    | false =>
      rw [hnoise, if_neg Bool.false_ne_true] at h
      change (if leading e.name = [] then _ else _) = _ at h
      rw [quiet_entry hnoise]
      split at h
      · rename_i hnil
        obtain ⟨hrs, hall, hmem⟩ := ih hn h
        refine ⟨hrs, List.forall_mem_cons.2 ⟨.inl hnil, hall⟩, fun c => ?_⟩
        rw [hmem, List.exists_mem_cons_iff, hnil]
        exact or_congr_right (or_iff_right fun hc => hc.2 hc.1.symm).symm
      split at h
      · cases h
      · rename_i hne hslash
        have hslash := not_not.1 hslash
        have hnodup : (if roots.contains (leading e.name) then roots else roots ++ [leading e.name]).Nodup := by
          split
          · exact hn
          · rename_i hnew
            exact hn.append (List.nodup_singleton _)
              (List.disjoint_singleton.2 (mt List.contains_iff_mem.2 hnew))
        obtain ⟨hrs, hall, hmem⟩ := ih hnodup h
        refine ⟨hrs, List.forall_mem_cons.2 ⟨.inr hslash, hall⟩, fun c => ?_⟩
        have hroots : c ∈ (if roots.contains (leading e.name) then roots else roots ++ [leading e.name]) ↔
            c ∈ roots ∨ leading e.name = c := by
          split
          · rename_i hin
            exact ⟨.inl, fun h => h.elim id fun h => h ▸ List.contains_iff_mem.1 hin⟩
          · rw [List.mem_append, List.mem_singleton, eq_comm]
        rw [hmem, hroots, List.exists_mem_cons_iff, or_assoc]
        exact or_congr_right (or_congr_left ⟨fun h => ⟨h, h ▸ hne⟩, And.left⟩)

theorem rootDirs_isOk (roots : List Text)
    (h : ∀ e ∈ quiet entries, leading e.name = [] ∨ '/' ∈ e.name) : ∃ rs, rootDirs entries roots = .ok rs := by
  induction entries generalizing roots with
  | nil => exact ⟨roots, rfl⟩
  | cons e es ih =>
    rw [rootDirs]
    cases hnoise : isFinderNoise e.name with
    | true =>
      rw [quiet_noise hnoise] at h
      rw [if_pos rfl]
      exact ih _ h
    | false =>
      rw [quiet_entry hnoise] at h
      obtain ⟨he, hes⟩ := List.forall_mem_cons.1 h
      rw [if_neg Bool.false_ne_true]
      change ∃ rs, (if leading e.name = [] then _ else _) = _
      split
      · exact ih _ hes
      · rename_i hne
        rw [if_neg (not_not.2 (he.resolve_left hne))]
        exact ih _ hes

theorem passOne_eq_ok :
    passOne entries expected = .ok () ↔ rootDirs entries [] = .ok [expected] := by
  unfold passOne
  cases rootDirs entries [] with
  | error e => exact ⟨nofun, nofun⟩
  | ok roots =>
    rcases roots with _ | ⟨root, _ | ⟨root', rest⟩⟩
    · exact ⟨nofun, nofun⟩
    · change (if root ≠ expected then _ else _) = _ ↔ _
      by_cases h : root = expected
      · subst h
        rw [if_neg (not_not.2 rfl)]
        exact iff_of_true rfl rfl
      · rw [if_pos h]
        exact iff_of_false nofun fun heq => h (List.singleton_inj.1 (Except.ok.inj heq))
    · exact ⟨nofun, nofun⟩

theorem passOne_iff (hname : FolderName expected) (entries : List ZipEntry) :
    passOne entries expected = .ok () ↔ Leading expected entries := by
  have hread : ∀ {e : ZipEntry}, leading e.name = expected → (leading e.name = [] ∨ '/' ∈ e.name) →
      ReadsBelow expected e.name := fun heq hor =>
    (readsBelow_iff hname.no_slash).2 ⟨hor.resolve_left fun h => hname.ne_nil (heq.symm.trans h), heq⟩
  rw [passOne_eq_ok]
  constructor
  · intro h
    obtain ⟨-, hall, hmem⟩ := rootDirs_ok List.nodup_nil h
    constructor
    · obtain ⟨e, he, heq, -⟩ := ((hmem expected).1 List.mem_cons_self).resolve_left List.not_mem_nil
      exact ⟨e, he, hread heq (hall e he)⟩
    · intro e he
      by_cases hnil : leading e.name = []
      · exact ((leading_eq_nil_iff _).1 hnil).imp_right .inl
      · have heq := List.mem_singleton.1 ((hmem _).2 (.inr ⟨e, he, rfl, hnil⟩))
        exact .inr (.inr (hread heq (hall e he)))
  · rintro ⟨⟨e, he, hbelow⟩, hall⟩
    have hor : ∀ a ∈ quiet entries, leading a.name = [] ∨ leading a.name = expected ∧ '/' ∈ a.name := by
      intro a ha
      rcases hall a ha with h | h | h
      · exact .inl ((leading_eq_nil_iff _).2 (.inl h))
      · exact .inl ((leading_eq_nil_iff _).2 (.inr h))
      · exact .inr ((readsBelow_iff hname.no_slash).1 h).symm
    have hslash : ∀ a ∈ quiet entries, leading a.name = [] ∨ '/' ∈ a.name := fun a ha =>
      (hor a ha).imp_right And.right
    obtain ⟨rs, hrs⟩ := rootDirs_isOk [] hslash
    obtain ⟨hn, -, hmem⟩ := rootDirs_ok List.nodup_nil hrs
    have heq : ∀ c, c ∈ rs ↔ c = expected := by
      intro c
      rw [hmem]
      constructor
      · rintro (h | ⟨a, ha, rfl, hne⟩)
        · cases h
        · exact ((hor a ha).resolve_left hne).1
      · rintro rfl
        exact .inr ⟨e, he, ((readsBelow_iff hname.no_slash).1 hbelow).2, hname.ne_nil⟩
    have hperm : rs.Perm [expected] := (List.perm_ext_iff_of_nodup hn (List.nodup_singleton _)).2 fun c => by
      rw [heq, List.mem_singleton]
    rw [hrs, List.perm_singleton.1 hperm]

/-! ## The second pass -/

theorem lastData_noise (h : isFinderNoise e.name = true) (p : Path) :
    lastData (e :: es) p = lastData es p := by
  rw [lastData, quiet_noise h, lastData]

theorem lastData_cons (h : isFinderNoise e.name = false) (p : Path) :
    lastData (e :: es) p = (lastData es p).or (fileAt p e) := by
  rw [lastData, quiet_entry h, lastData, List.filterMap_cons]
  cases fileAt p e with
  | none => rw [Option.or_none]
  | some data =>
    dsimp only
    rw [List.getLast?_cons]
    cases ((quiet es).filterMap (fileAt p)).getLast? <;> rfl

theorem createDirAll_dirs (h : s.createDirAll p = .ok t) :
    t.files = s.files ∧ ∀ d, d ∈ t.dirs ↔ d ∈ s.dirs ∨ d <+: p := by
  unfold Store.createDirAll at h
  split at h
  · cases h
  · cases h
    exact ⟨rfl, fun d => by rw [List.mem_append, List.mem_inits]⟩

theorem writeFile_files {data : Bytes} (h : s.writeFile p data = .ok t) :
    t.dirs = s.dirs ∧ ∀ q d, (q, d) ∈ t.files ↔ (q = p ∧ d = data) ∨ (q ≠ p ∧ (q, d) ∈ s.files) := by
  unfold Store.writeFile at h
  split at h
  · cases h
  · cases h
    refine ⟨rfl, fun q d => ?_⟩
    rw [List.mem_append, List.mem_filter, List.mem_singleton, Prod.mk.injEq, decide_eq_true_eq, or_comm,
      and_comm (a := (q, d) ∈ s.files)]

/-- What the second pass does with a file. -/
theorem extract_file {data : Bytes}
    (hnoise : isFinderNoise e.name = false) (hdata : e.data = some data) (hp : sanitizeEntry e.name = some p)
    (h : extract (e :: es) s count = .ok (t, n)) :
    ∃ a b, s.createDirAll p.dropLast = .ok a ∧ a.writeFile p data = .ok b ∧
      extract es b (count + 1) = .ok (t, n) := by
  rw [extract, hnoise, if_neg Bool.false_ne_true, hp] at h
  dsimp only at h
  rw [hdata] at h
  obtain ⟨a, ha, h⟩ := Checked.bind_ok h
  obtain ⟨b, hb, h⟩ := Checked.bind_ok h
  exact ⟨a, b, ha, hb, h⟩

/-- What it does with a folder. -/
theorem extract_folder
    (hnoise : isFinderNoise e.name = false) (hdata : e.data = none) (hp : sanitizeEntry e.name = some p)
    (h : extract (e :: es) s count = .ok (t, n)) :
    ∃ a, s.createDirAll p = .ok a ∧ extract es a count = .ok (t, n) := by
  rw [extract, hnoise, if_neg Bool.false_ne_true, hp] at h
  dsimp only at h
  rw [hdata] at h
  exact Checked.bind_ok h

/-- What the second pass leaves. -/
theorem extract_spec (h : extract entries s count = .ok (t, n)) :
    n = count + ((quiet entries).filter (·.data.isSome)).length ∧
      (∀ p ∈ t.dirs, p ∈ s.dirs ∨ ∃ e ∈ quiet entries, ∃ q, sanitizeEntry e.name = some q ∧ p <+: q ∧
        (e.data.isSome → p ≠ q)) ∧
      ∀ p data, (p, data) ∈ t.files ↔
        lastData entries p = some data ∨ lastData entries p = none ∧ (p, data) ∈ s.files := by
  induction entries generalizing s count with
  | nil =>
    cases h
    exact ⟨rfl, fun p hp => .inl hp, fun p data => ⟨fun hp => .inr ⟨rfl, hp⟩,
      fun hp => hp.elim nofun And.right⟩⟩
  | cons e es ih =>
    cases hnoise : isFinderNoise e.name with
    | true =>
      rw [extract, hnoise, if_pos rfl] at h
      rw [quiet_noise hnoise]
      simp only [lastData_noise hnoise]
      exact ih h
    | false =>
      have hclean := extract_clean h e List.mem_cons_self hnoise
      obtain ⟨q, hq⟩ := Option.isSome_iff_exists.1 hclean
      rw [quiet_entry hnoise]
      simp only [lastData_cons hnoise]
      have hother : ∀ p, p ≠ q → fileAt p e = none := fun p hp => if_neg fun heq => by
        rw [hq] at heq
        exact hp (Option.some.inj heq).symm
      cases hdata : e.data with
      | none =>
        obtain ⟨a, ha, hes⟩ := extract_folder hnoise hdata hq h
        obtain ⟨hfiles, hdirs⟩ := createDirAll_dirs ha
        obtain ⟨hcount, hd, hf⟩ := ih hes
        rw [hfiles] at hf
        refine ⟨?_, fun p hp => ?_, fun p data => ?_⟩
        · rw [List.filter_cons_of_neg (by rw [hdata]; decide), hcount]
        · rcases hd p hp with hp | ⟨e', he', q', hq', hpq'⟩
          · rcases (hdirs p).1 hp with hp | hp
            · exact .inl hp
            · exact .inr ⟨e, List.mem_cons_self, q, hq, hp, fun h => by rw [hdata] at h; cases h⟩
          · exact .inr ⟨e', List.mem_cons_of_mem _ he', q', hq', hpq'⟩
        · have hnone : fileAt p e = none := by
            rw [fileAt, hdata, ite_self]
          rw [hf, hnone, Option.or_none]
      | some data =>
        obtain ⟨a, b, ha, hb, hes⟩ := extract_file hnoise hdata hq h
        obtain ⟨hfiles, hdirs⟩ := createDirAll_dirs ha
        obtain ⟨hbdirs, hbfiles⟩ := writeFile_files hb
        obtain ⟨hcount, hd, hf⟩ := ih hes
        have hne := (sanitizeEntry_eq hq).2
        refine ⟨?_, fun p hp => ?_, fun p d => ?_⟩
        · rw [List.filter_cons_of_pos (by rw [hdata]; rfl), hcount, List.length_cons]
          omega
        · rcases hd p hp with hp | ⟨e', he', q', hq', hpq'⟩
          · rw [hbdirs] at hp
            rcases (hdirs p).1 hp with hp | hp
            · exact .inl hp
            · refine .inr ⟨e, List.mem_cons_self, q, hq, hp.trans (List.dropLast_prefix q), fun _ heq => ?_⟩
              have hle := (heq ▸ hp).length_le
              have hpos := List.length_pos_iff.2 hne
              rw [List.length_dropLast] at hle
              omega
          · exact .inr ⟨e', List.mem_cons_of_mem _ he', q', hq', hpq'⟩
        · rw [hf, hbfiles, hfiles]
          by_cases hp : p = q
          · subst hp
            have hsome : fileAt p e = some data := by
              rw [fileAt, if_pos hq, hdata]
            rw [hsome]
            cases lastData es p with
            | none => simp [eq_comm]
            | some d' => simp
          · rw [hother p hp, Option.or_none]
            simp [hp]

/-! ## The defect -/

/-- An entry that only the second pass reads as one outside the folder, or as a file in its place. -/
def Escapes (expected : Text) (entries : List ZipEntry) : Prop :=
  ∃ e ∈ quiet entries,
    (e.name.head? = some '/' ∧ ∃ c, (components e.name).head? = some c ∧ c ≠ expected) ∨
      (components e.name = [expected] ∧ e.data.isSome)

theorem Escapes.not_oneFolder (h : Escapes expected entries) : ¬ OneFolder expected entries := by
  rintro ⟨-, hall⟩
  obtain ⟨e, he, ⟨-, c, hc, hne⟩ | ⟨hcomp, hdata⟩⟩ := h
  · exact hne (hall e he c hc).1
  · have hnone := (hall e he expected (by rw [hcomp]; rfl)).2 hcomp
    rw [hnone] at hdata
    cases hdata

/-- The first pass is enough where both read every name alike. -/
theorem oneFolder_of_not_escapes (hname : FolderName expected)
    (hlead : Leading expected entries) (hesc : ¬ Escapes expected entries) : OneFolder expected entries := by
  have hbelow : ∀ {e : ZipEntry}, ReadsBelow expected e.name →
      (components e.name).head? = some expected := fun h => by
    obtain ⟨t, ht⟩ := h
    rw [ht, components_under hname]
    rfl
  obtain ⟨⟨e, he, hread⟩, hall⟩ := hlead
  refine ⟨⟨e, he, hbelow hread⟩, fun a ha c hc => ?_⟩
  have hcexp : c = expected := by
    rcases hall a ha with hnil | hslash | hread
    · rw [hnil] at hc
      cases hc
    · by_contra hne
      exact hesc ⟨a, ha, .inl ⟨hslash, c, hc, hne⟩⟩
    · exact Option.some.inj (hc.symm.trans (hbelow hread))
  refine ⟨hcexp, fun hcomp => ?_⟩
  by_contra hdata
  exact hesc ⟨a, ha, .inr ⟨hcexp ▸ hcomp, Option.isSome_iff_ne_none.2 hdata⟩⟩

theorem unzipInto_ok (h : unzipInto dest entries expected = .ok s) :
    passOne entries expected = .ok () ∧ ∃ n, extract entries dest 0 = .ok (s, n) ∧ n ≠ 0 := by
  obtain ⟨_, hpass, h⟩ := Checked.bind_ok h
  obtain ⟨⟨t, n⟩, hext, h⟩ := Checked.bind_ok h
  change (if n = 0 then _ else _) = _ at h
  split at h
  · cases h
  · rename_i hn
    cases h
    exact ⟨hpass, n, hext, hn⟩

theorem starts_of_extract
    (h : extract entries dest count = .ok (s, n)) (hne : quiet entries ≠ []) : Starts dest entries := by
  induction entries with
  | nil => exact absurd rfl hne
  | cons e es ih =>
    cases hnoise : isFinderNoise e.name with
    | true =>
      rw [quiet_noise hnoise] at hne
      rw [extract, hnoise, if_pos rfl] at h
      obtain ⟨a, as, p, t, ha, hp, ht⟩ := ih h hne
      exact ⟨a, as, p, t, by rw [quiet_noise hnoise, ha], hp, ht⟩
    | false =>
      obtain ⟨p, hp⟩ := Option.isSome_iff_exists.1 (extract_clean h e List.mem_cons_self hnoise)
      cases hdata : e.data with
      | none =>
        obtain ⟨a, ha, -⟩ := extract_folder hnoise hdata hp h
        exact ⟨e, quiet es, p, a, quiet_entry hnoise, hp, by rw [hdata]; exact ha⟩
      | some data =>
        obtain ⟨a, b, ha, -, -⟩ := extract_file hnoise hdata hp h
        exact ⟨e, quiet es, p, a, quiet_entry hnoise, hp, by rw [hdata]; exact ha⟩

theorem lastData_isSome :
    (lastData entries p).isSome ↔ ∃ e ∈ quiet entries, sanitizeEntry e.name = some p ∧ e.data.isSome := by
  rw [lastData, List.getLast?_isSome]
  constructor
  · intro hne
    obtain ⟨data, hmem⟩ := List.exists_mem_of_ne_nil _ hne
    obtain ⟨e, he, hdata⟩ := List.mem_filterMap.1 hmem
    unfold fileAt at hdata
    split at hdata
    · rename_i hp
      exact ⟨e, he, hp, by rw [hdata]; rfl⟩
    · cases hdata
  · rintro ⟨e, he, hp, hdata⟩
    obtain ⟨data, hdata⟩ := Option.isSome_iff_exists.1 hdata
    exact List.ne_nil_of_mem (a := data) (List.mem_filterMap.2 ⟨e, he, by rw [fileAt, if_pos hp, hdata]⟩)

/-- What is unzipped from one folder. -/
theorem strict_of_oneFolder (hone : OneFolder expected entries) : Strict dest expected entries := by
  have hunder : ∀ e ∈ quiet entries, ∀ p, sanitizeEntry e.name = some p →
      (∃ rest, p = expected :: rest) ∧ (p = [expected] → e.data = none) := by
    intro e he p hp
    obtain ⟨heq, hne⟩ := sanitizeEntry_eq hp
    cases p with
    | nil => exact absurd rfl hne
    | cons c rest =>
      obtain ⟨rfl, hnone⟩ := hone.2 e he c (by rw [← heq]; rfl)
      exact ⟨⟨rest, rfl⟩, fun h => hnone (heq ▸ h)⟩
  refine ⟨fun h => absurd hone h, ?_, ?_, ?_, ?_, ?_⟩
  · intro s h
    obtain ⟨-, n, hext, hn⟩ := unzipInto_ok h
    obtain ⟨hcount, -⟩ := extract_spec hext
    rw [Nat.zero_add] at hcount
    obtain ⟨e, he⟩ := List.exists_mem_of_length_pos (Nat.pos_of_ne_zero (hcount ▸ hn))
    exact ⟨e, List.mem_filter.1 he⟩
  · intro s h p hp
    obtain ⟨-, n, hext, -⟩ := unzipInto_ok h
    obtain ⟨-, hdirs, -⟩ := extract_spec hext
    rcases hdirs p hp with hold | ⟨e, he, q, hq, hpre, -⟩
    · exact .inl hold
    · obtain ⟨⟨rest, rfl⟩, -⟩ := hunder e he q hq
      cases p with
      | nil => exact .inr (.inl rfl)
      | cons c p =>
        obtain ⟨rfl, -⟩ := List.cons_prefix_cons.1 hpre
        exact .inr (.inr (List.cons_prefix_cons.2 ⟨rfl, List.nil_prefix⟩))
  · intro s h
    obtain ⟨-, n, hext, -⟩ := unzipInto_ok h
    exact (extract_spec hext).2.2
  · intro s _ p hp
    obtain ⟨e, he, hq, hdata⟩ := lastData_isSome.1 hp
    obtain ⟨⟨rest, rfl⟩, hnone⟩ := hunder e he p hq
    refine ⟨List.cons_prefix_cons.2 ⟨rfl, List.nil_prefix⟩, fun heq => ?_⟩
    rw [hnone heq] at hdata
    cases hdata
  · intro s h e he hdata
    obtain ⟨-, n, hext, -⟩ := unzipInto_ok h
    have hmem := List.mem_filter.1 he
    obtain ⟨p, hp⟩ := Option.isSome_iff_exists.1
      (extract_clean hext e hmem.1 (Bool.not_eq_true' _ ▸ hmem.2))
    exact ⟨p, hp, lastData_isSome.2 ⟨e, he, hp, hdata⟩⟩

/-- **The expected folder is unzipped and nothing else**, exactly for the archives that have no entry which
the first pass lets through and the second reads otherwise, or of which the second pass stops at the
first entry. -/
theorem strict_iff {dest : Store} {expected : Text} (hname : FolderName expected) {entries : List ZipEntry} :
    Strict dest expected entries ↔
      ¬ (Leading expected entries ∧ Escapes expected entries ∧ Starts dest entries) := by
  constructor
  · rintro h ⟨hlead, hesc, hstarts⟩
    exact (h.refused hesc.not_oneFolder).2 ⟨(passOne_iff hname entries).2 hlead, hstarts⟩
  · intro h
    by_cases hone : OneFolder expected entries
    · exact strict_of_oneFolder hone
    · have hstops : ¬ (passOne entries expected = .ok () ∧ Starts dest entries) := fun ⟨hpass, hstarts⟩ => by
        have hlead := (passOne_iff hname entries).1 hpass
        exact h ⟨hlead, by_contra fun hesc => hone (oneFolder_of_not_escapes hname hlead hesc), hstarts⟩
      have hno : ∀ s, unzipInto dest entries expected ≠ .ok s := fun s hs => by
        obtain ⟨hpass, n, hext, -⟩ := unzipInto_ok hs
        obtain ⟨⟨e, he, -⟩, -⟩ := (passOne_iff hname entries).1 hpass
        exact hstops ⟨hpass, starts_of_extract hext (List.ne_nil_of_mem he)⟩
      have herr : ∃ e, unzipInto dest entries expected = .error e := by
        cases hres : unzipInto dest entries expected with
        | error e => exact ⟨e, rfl⟩
        | ok s => exact absurd hres (hno s)
      exact ⟨fun _ => ⟨herr, hstops⟩, fun s hs => absurd hs (hno s), fun s hs => absurd hs (hno s),
        fun s hs => absurd hs (hno s), fun s hs => absurd hs (hno s), fun s hs => absurd hs (hno s)⟩

/-- A folder with a folder in it, a file in each, and what the Finder adds. -/
def savedFolder : List ZipEntry :=
  [⟨"T/".toList, none⟩, ⟨"T/a".toList, some [1]⟩, ⟨"__MACOSX/T/._a".toList, some [0]⟩,
    ⟨"T/s/".toList, none⟩, ⟨"T/s/b".toList, some [2, 3]⟩]

/-- It is unzipped over an older file. -/
theorem strict_iff_folder : Strict ⟨[([['T'], ['a']], [9])], [[], [['T']]]⟩ ['T'] savedFolder := by
  refine (strict_iff ⟨by decide, by decide, by decide⟩).2 fun ⟨_, ⟨e, he, hesc⟩, _⟩ => ?_
  have hquiet : quiet savedFolder = [⟨"T/".toList, none⟩, ⟨"T/a".toList, some [1]⟩,
    ⟨"T/s/".toList, none⟩, ⟨"T/s/b".toList, some [2, 3]⟩] := by decide
  rw [hquiet] at he
  have hplain : e.name.head? ≠ some '/' ∧ (e.data.isSome → components e.name ≠ [['T']]) := by
    revert e
    decide
  rcases hesc with ⟨h, -⟩ | ⟨h, hdata⟩
  · exact hplain.1 h
  · exact hplain.2 hdata h

/-- A file of a name that starts with a slash, beside one in the expected folder. -/
theorem strict_outside :
    ¬ Strict ⟨[], []⟩ ['T'] [⟨['T', '/', 'a'], some []⟩, ⟨['/', 'U', '/', 'b'], some []⟩] := by
  intro h
  have hok : unzipInto ⟨[], []⟩ [⟨['T', '/', 'a'], some []⟩, ⟨['/', 'U', '/', 'b'], some []⟩] ['T'] =
      .ok ⟨[([['T'], ['a']], []), ([['U'], ['b']], [])], [[], [['T']], [], [['U']]]⟩ := by rfl
  exact absurd (h.dirs _ hok [['U']] (by decide)) (by decide)

end Ps5Upload.SaveArchive
