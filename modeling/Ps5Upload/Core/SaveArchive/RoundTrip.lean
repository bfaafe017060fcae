import Ps5Upload.Core.SaveArchive.Unzip
import Ps5Upload.Core.SaveArchive.Prepare
import Mathlib.Algebra.Order.BigOperators.Group.List

/-!
# Save archives: backup, then restore

A backup strips the prefix of an image by its first byte, and a restore adds it again by the shape of the
bare name.

* `backup_restores` — a backup restores as it was exactly when the two rules agree on every file at the
  top, no name has a backslash and there is a file at all;
* `prefix_lost_and_gained` — a folder of which one image loses its prefix and another file gets one.
-/

namespace Ps5Upload.SaveArchive

open ByteFile

/-! ## The backup's paths -/

/-- A title folder as it is downloaded: files under names, and at most a folder `sce_sys`; nothing in it
is Finder noise. -/
structure TitleFolder (title : Text) (kids : Folder) : Prop where
  title_isName : IsName title
  distinct : (names kids).Nodup
  proper : ProperKids kids
  downloaded : Downloaded kids
  quiet : ∀ e ∈ zipFolder title kids, isFinderNoise e.name = false

/-- The files of a title folder. -/
def titleFiles (title : Text) (kids : Folder) : List (Path × Bytes) := filesOf (rowsOf [title] kids)

variable {name title : Text} {data : Bytes} {kids zipped : Folder} {r : Row} {n : Node}

theorem imagePrefix_append (h : stripped name data = true) :
    imagePrefix ++ name.drop imagePrefix.length = name := by
  rw [stripped, Bool.and_eq_true] at h
  exact List.prefix_iff_eq_append.1 (List.isPrefixOf_iff_prefix.1 h.1)

theorem backupName_stripped (h : stripped name data = true) :
    backupName name (.file data) = name.drop imagePrefix.length := if_pos h

theorem backupName_kept (h : stripped name data = false) :
    backupName name (.file data) = name := if_neg (Bool.eq_false_iff.1 h)

/-- A path of the backup is one of the folder, or a bare image's. -/
theorem mem_rowsOf_backedUp :
    r ∈ rowsOf [title] (backedUp kids) ↔ ∃ q ∈ kids, r ∈ q.2.rows [title, backupName q.1 q.2] := by
  rw [rowsOf_eq, List.mem_flatMap]
  constructor
  · rintro ⟨b, hb, hr⟩
    obtain ⟨q, hq, rfl⟩ := List.mem_map.1 hb
    exact ⟨q, hq, hr⟩
  · rintro ⟨q, hq, hr⟩
    exact ⟨_, List.mem_map_of_mem hq, hr⟩

theorem mem_rowsOf : r ∈ rowsOf [title] kids ↔ ∃ q ∈ kids, r ∈ q.2.rows [title, q.1] := by
  rw [rowsOf_eq, List.mem_flatMap]
  rfl

theorem rows_backup_cases (h : r ∈ n.rows [title, backupName name n]) :
    r ∈ n.rows [title, name] ∨ ∃ data, n = .file data ∧ stripped name data = true ∧
      r = ([title, name.drop imagePrefix.length], some data) := by
  cases n with
  | dir kids => exact .inl h
  | file data =>
    cases hs : stripped name data with
    | false =>
      rw [backupName_kept hs] at h
      exact .inl h
    | true =>
      rw [backupName_stripped hs, Node.rows, List.mem_singleton] at h
      exact .inr ⟨data, rfl, hs, h⟩

/-- The zipped paths of a title folder. -/
def zippedRows (title : Text) (zipped : Folder) : List Row := (Node.dir zipped).rows [title]

theorem isName_drop (hn : IsName name) (n : Nat) (h : name.drop n ∉ [[], ['.'], ['.', '.']]) :
    IsName (name.drop n) where
  ne_nil := fun heq => h (by rw [heq]; decide)
  ne_dot := fun heq => h (by rw [heq]; decide)
  ne_dots := fun heq => h (by rw [heq]; decide)
  no_slash := fun hmem => hn.no_slash (List.mem_of_mem_drop hmem)
  no_nul := fun hmem => hn.no_nul (List.mem_of_mem_drop hmem)

theorem properKids_backedUp (hk : ProperKids kids)
    (hb : ∀ q ∈ kids, backupName q.1 q.2 = q.1 ∨ backupName q.1 q.2 ∉ [[], ['.'], ['.', '.']]) :
    ProperKids (backedUp kids) := by
  refine properKids_iff.2 fun b hmem => ?_
  obtain ⟨q, hq, rfl⟩ := List.mem_map.1 hmem
  obtain ⟨hname, hproper⟩ := properKids_iff.1 hk q hq
  refine ⟨?_, hproper⟩
  obtain ⟨name, n⟩ := q
  rcases hb _ hq with hsame | hfresh
  · exact hsame.symm ▸ hname
  · cases n with
    | dir inner => exact hname
    | file data =>
      cases hs : stripped name data with
      | false => exact (backupName_kept hs).symm ▸ hname
      | true =>
        rw [backupName_stripped hs] at hfresh ⊢
        exact isName_drop hname _ hfresh

/-- What is zipped is under the title's folder. -/
theorem under_zipped (hf : TitleFolder title kids)
    (hn : (names zipped).Nodup) (hp : ProperKids zipped) : Under title (zippedRows title zipped) where
  separate := separate_rows [title] ⟨hn, hp⟩
  isName := fun _ hr => isName_of_mem_rows
    (fun c hc => List.mem_singleton.1 hc ▸ hf.title_isName) (show (Node.dir zipped).Proper from ⟨hn, hp⟩) hr
  head := ⟨_, rfl⟩
  under := fun r hr => by
    rcases List.mem_cons.1 hr with rfl | hr
    · exact ⟨[], rfl, .inr rfl⟩
    · obtain ⟨q, -, t, ht⟩ := prefix_of_mem_rowsOf hr
      exact ⟨q.1 :: t, ht.symm, .inl (List.cons_ne_nil _ _)⟩
  quiet := hf.quiet _ (by rw [zipFolder_eq]; exact List.mem_cons_self)

theorem hasBackslash_pair {a b : Text} : hasBackslash [a, b] = false ↔ '\\' ∉ a ∧ '\\' ∉ b := by
  rw [hasBackslash, List.any_cons, List.any_cons, List.any_nil, Bool.or_false, Bool.or_eq_false_iff,
    decide_eq_false_iff_not, decide_eq_false_iff_not]

/-- A bare image's name is no noise, under a folder that is none. -/
theorem quiet_bare {rest : Text} (ht : '/' ∉ title)
    (hq : isFinderNoise (entryOf ([title], none)).name = false) (hs : '/' ∉ rest) (hdot : '.' ∉ rest) :
    isFinderNoise (entryOf ([title, rest], some data)).name = false := by
  have hname : (entryOf ([title, rest], some data)).name = title ++ '/' :: rest := by
    simp [entryOf, joinPath]
  have hroot : (entryOf ([title], none)).name = title ++ ['/'] := by
    simp [entryOf, joinPath]
  rw [hname]
  refine Bool.eq_false_iff.2 fun hnoise => ?_
  rw [isFinderNoise, Bool.or_eq_true, Bool.or_eq_true, decide_eq_true_iff] at hnoise
  rcases hnoise with (hpre | heq) | hsuf
  · obtain ⟨t, ht'⟩ := List.isPrefixOf_iff_prefix.1 hpre
    have hmac := takeWhile_under (by decide) (show title ++ '/' :: rest = "__MACOSX".toList ++ '/' :: t from
      ht'.symm.trans (List.append_cons "__MACOSX".toList '/' t).symm)
    rw [takeWhile_under ht rfl] at hmac
    rw [hroot, hmac] at hq
    exact absurd hq (by decide)
  · have hmem : '/' ∈ title ++ '/' :: rest := List.mem_append_right _ List.mem_cons_self
    rw [heq] at hmem
    exact absurd hmem (by decide)
  · obtain ⟨t, ht'⟩ := List.isSuffixOf_iff_suffix.1 hsuf
    have hrev : (title ++ '/' :: rest).reverse = rest.reverse ++ '/' :: title.reverse := by simp
    have hstore : (title ++ '/' :: rest).reverse = ".DS_Store".toList.reverse ++ '/' :: t.reverse := by
      rw [← ht', List.reverse_append, List.append_cons]
      rfl
    have hsame := takeWhile_under (fun hmem => hs (List.mem_reverse.1 hmem)) hrev
    rw [takeWhile_under (by decide) hstore] at hsame
    refine hdot (List.mem_reverse.1 ?_)
    rw [← hsame]
    decide

/-! ## The restored files -/

/-- A file after the restore. -/
def restoredFile (title : Text) (q : Path × Bytes) : Path × Bytes := (restored title q.1, q.2)

theorem filesOf_flatMap {α : Type} (l : List α) (f : α → List Row) :
    filesOf (l.flatMap f) = l.flatMap fun a => filesOf (f a) := by
  induction l with
  | nil => rfl
  | cons a l ih => rw [List.flatMap_cons, filesOf_append, ih, List.flatMap_cons]

theorem titleFiles_eq (title : Text) (kids : Folder) :
    titleFiles title kids = kids.flatMap fun q => filesOf (q.2.rows [title, q.1]) := by
  rw [titleFiles, rowsOf_eq, filesOf_flatMap]
  rfl

/-- What is zipped are the backup's files. -/
theorem files_zipped (hz : zipped.Perm (backedUp kids)) : (filesOf (zippedRows title zipped)).Perm
      (kids.flatMap fun q => filesOf (q.2.rows [title, backupName q.1 q.2])) := by
  have hroot : filesOf (zippedRows title zipped) = titleFiles title zipped := rfl
  rw [hroot, titleFiles_eq]
  refine (hz.flatMap_right _).trans (List.Perm.of_eq ?_)
  rw [backedUp, List.flatMap_map]

theorem restored_dir {inner : Folder} :
    (filesOf ((Node.dir inner).rows [title, name])).map (restoredFile title) =
      filesOf ((Node.dir inner).rows [title, name]) := by
  refine (List.map_congr_left fun q hq => ?_).trans (List.map_id _)
  rw [mem_filesOf, Node.rows, List.mem_cons] at hq
  obtain ⟨k, -, t, ht⟩ := prefix_of_mem_rowsOf (hq.resolve_left fun heq => nomatch (Prod.ext_iff.1 heq).2)
  rw [restoredFile, ← show [title, name] ++ [k.1] ++ t = q.1 from ht]
  exact Prod.ext ht rfl

theorem restored_file : (filesOf ((Node.file data).rows [title, name])).map (restoredFile title) =
      [([title, if keepsName name then name else imagePrefix ++ name], data)] := by
  have hpath : restored title [title, name] =
      [title, if keepsName name then name else imagePrefix ++ name] := by
    cases hk : keepsName name with
    | true => exact if_neg fun h => Bool.noConfusion (hk.symm.trans h.2)
    | false => exact if_pos ⟨rfl, hk⟩
  rw [← hpath]
  rfl

/-- A file in a folder's own rows is deeper than one at the top. -/
theorem file_of_top {m : Text}
    (h : ([title, m], some data) ∈ n.rows [title, name]) : n = .file data ∧ m = name := by
  cases n with
  | file d =>
    rw [Node.rows, List.mem_singleton] at h
    cases h
    exact ⟨rfl, rfl⟩
  | dir inner =>
    rw [Node.rows, List.mem_cons] at h
    obtain ⟨k, -, hps⟩ := prefix_of_mem_rowsOf (h.resolve_left nofun)
    exact absurd hps.length_le (by simp)

/-! ## Where the two rules agree -/

/-- A folder that a backup and a restore keep: a file is in it, no name has a backslash, and the rule that
strips and the rule that adds agree on every file at the top. -/
structure Restorable (title : Text) (kids : Folder) : Prop where
  some_file : titleFiles title kids ≠ []
  no_backslash : ∀ r ∈ zippedRows title kids, hasBackslash r.1 = false
  bare_images : ∀ name data, (name, Node.file data) ∈ kids → stripped name data = true →
    keepsName (name.drop imagePrefix.length) = false
  kept_names : ∀ name data, (name, Node.file data) ∈ kids → stripped name data = false → keepsName name = true

/-- **A file gets its name again**, where the two rules agree on it. -/
theorem restoredFiles_eq (hr : Restorable title kids) {q : Text × Node} (hq : q ∈ kids) :
    (filesOf (q.2.rows [title, backupName q.1 q.2])).map (restoredFile title) =
      filesOf (q.2.rows [title, q.1]) := by
  obtain ⟨name, n⟩ := q
  cases n with
  | dir inner => exact restored_dir
  | file data =>
    rw [restored_file]
    cases hs : stripped name data with
    | true =>
      rw [backupName_stripped hs, hr.bare_images name data hq hs, if_neg Bool.false_ne_true,
        imagePrefix_append hs]
      rfl
    | false =>
      rw [backupName_kept hs, hr.kept_names name data hq hs, if_pos rfl]
      rfl

theorem flatMap_restored (title : Text) (kids : Folder) (f : Text × Node → List (Path × Bytes)) :
    (kids.flatMap f).map (restoredFile title) = kids.flatMap fun q => (f q).map (restoredFile title) :=
  List.map_flatMap

/-- The kids of a folder with one name are one. -/
theorem kid_unique (hn : (names kids).Nodup) {m : Node}
    (h : (name, n) ∈ kids) (h' : (name, m) ∈ kids) : n = m :=
  congrArg Prod.snd (List.inj_on_of_nodup_map hn h h' rfl)

/-- A zipped path at the top is a kid's. -/
theorem zippedRows_cases (hz : zipped.Perm (backedUp kids)) (hr : r ∈ zippedRows title zipped) :
    r = ([title], none) ∨ ∃ q ∈ kids, r ∈ q.2.rows [title, backupName q.1 q.2] := by
  refine (List.mem_cons.1 hr).imp id fun hmem => ?_
  refine mem_rowsOf_backedUp.1 ?_
  rw [rowsOf_eq, List.mem_flatMap] at hmem ⊢
  obtain ⟨q, hq, h⟩ := hmem
  exact ⟨q, hz.subset hq, h⟩

/-- Nothing stands where a bare image gets its prefix. -/
theorem noClash (hf : TitleFolder title kids)
    (hr : Restorable title kids) (hz : zipped.Perm (backedUp kids)) {s : Store}
    (hs : Unzipped (zippedRows title zipped) s) {listing : List (Text × Bool)}
    (hl : listing.Perm (s.list title)) : NoClash title listing s := by
  intro m hm hbare
  -- the bare name is a stripped image's, whose name the prefix makes
  obtain ⟨f, hfile, hpath⟩ := List.mem_map.1 (mem_list_file.1 (hl.mem_iff.1 hm))
  rw [hs.files, mem_filesOf, hpath] at hfile
  obtain ⟨q, hq, hrow⟩ := (zippedRows_cases hz hfile).resolve_left nofun
  obtain ⟨name, n⟩ := q
  obtain ⟨rfl, hname⟩ := file_of_top hrow
  have hstrip : stripped name f.2 = true := by
    refine Bool.eq_true_of_not_eq_false fun hkept => ?_
    rw [backupName_kept hkept] at hname
    have := hr.kept_names name f.2 hq hkept
    rw [← hname, hbare] at this
    cases this
  rw [backupName_stripped hstrip] at hname
  have hwhole : imagePrefix ++ m = name := hname ▸ imagePrefix_append hstrip
  -- another kid of that name in the backup has it in the folder
  have hother : ∀ k ∈ kids, backupName k.1 k.2 = name → k = (name, .file f.2) := by
    intro k hk hback
    obtain ⟨other, n⟩ := k
    have hsame : other = name := by
      cases n with
      | dir inner => exact hback
      | file data =>
        cases hso : stripped other data with
        | false => exact (backupName_kept hso).symm.trans hback
        | true =>
          have hb := hr.bare_images other data hk hso
          rw [← backupName_stripped hso, hback, ← hwhole, keepsName_image] at hb
          cases hb
    subst hsame
    exact Prod.ext rfl (kid_unique hf.distinct hk hq)
  have hnot : backupName name (.file f.2) ≠ name := fun heq => by
    have hlen := congrArg List.length (heq.trans hwhole.symm)
    rw [backupName_stripped hstrip, ← hname, List.length_append] at hlen
    have hprefix : 0 < imagePrefix.length := by decide
    omega
  rw [hwhole]
  refine has_false_iff.2 ⟨fun hmem => ?_, fun hd => ?_⟩
  · obtain ⟨g, hg, hgp⟩ := List.mem_map.1 hmem
    rw [hs.files, mem_filesOf, hgp] at hg
    obtain ⟨k, hk, hkrow⟩ := (zippedRows_cases hz hg).resolve_left nofun
    obtain ⟨-, hkname⟩ := file_of_top hkrow
    have := hother k hk hkname.symm
    subst this
    exact hnot hkname.symm
  · obtain ⟨r, hrow, hps, hlast⟩ := hs.dirs _ hd
    rcases zippedRows_cases hz hrow with rfl | ⟨k, hk, hkrow⟩
    · exact absurd hps.length_le (by simp)
    · have hkname : backupName k.1 k.2 = name := by
        have hkps : [title] ++ [backupName k.1 k.2] <+: r.1 := prefix_of_mem_rows hkrow
        exact concat_prefix_inj hkps (show [title] ++ [name] <+: r.1 from hps)
      have := hother k hk hkname
      subst this
      exact hnot hkname

/-- Nothing that is zipped is noise or has a backslash. -/
theorem zippedRows_clean (hf : TitleFolder title kids)
    (hr : Restorable title kids) (hz : zipped.Perm (backedUp kids))
    (hrow : r ∈ zippedRows title zipped) :
    isFinderNoise (entryOf r).name = false ∧ hasBackslash r.1 = false := by
  have hsame : ∀ a ∈ zippedRows title kids,
      isFinderNoise (entryOf a).name = false ∧ hasBackslash a.1 = false := fun a ha =>
    ⟨hf.quiet _ (by rw [zipFolder_eq]; exact List.mem_map_of_mem ha), hr.no_backslash a ha⟩
  rcases zippedRows_cases hz hrow with rfl | ⟨q, hq, hmem⟩
  · exact hsame _ List.mem_cons_self
  · have horig : ∀ {a : Row}, a ∈ q.2.rows [title, q.1] → a ∈ zippedRows title kids := fun ha =>
      List.mem_cons_of_mem _ (mem_rowsOf.2 ⟨q, hq, ha⟩)
    obtain ⟨name, n⟩ := q
    rcases rows_backup_cases hmem with hmem | ⟨data, rfl, hs, rfl⟩
    · exact hsame r (horig hmem)
    · have hname := (properKids_iff.1 hf.proper _ hq).1
      obtain ⟨hquiet, hback⟩ := hsame ([title, name], some data) (horig List.mem_cons_self)
      refine ⟨quiet_bare hf.title_isName.no_slash (hsame _ List.mem_cons_self).1
        (fun hmem => hname.no_slash (List.mem_of_mem_drop hmem))
        (not_dot_of_bare (hr.bare_images name data hq hs)), ?_⟩
      obtain ⟨ht, hn⟩ := hasBackslash_pair.1 hback
      exact hasBackslash_pair.2 ⟨ht, fun hmem => hn (List.mem_of_mem_drop hmem)⟩

/-- **A folder on which the rules agree restores as it was.** -/
theorem restores_of_restorable (hf : TitleFolder title kids)
    (hr : Restorable title kids) (hz : zipped.Perm (backedUp kids))
    (hu : Under title (zippedRows title zipped))
    {order : List (Text × Bool) → List (Text × Bool)} (ho : ∀ l, (order l).Perm l) :
    ∃ s, (unzipStrict (zipFolder title zipped) title >>= restorePrepare order title) = .ok s ∧
      s.files.Perm (titleFiles title kids) := by
  have hclean := fun r (hrow : r ∈ zippedRows title zipped) => zippedRows_clean hf hr hz hrow
  have hquiet : quietRows (zippedRows title zipped) = zippedRows title zipped :=
    List.filter_eq_self.2 fun r hrow => by rw [(hclean r hrow).1]; rfl
  have hfinal : ((filesOf (zippedRows title zipped)).map (restoredFile title)).Perm (titleFiles title kids) := by
    refine ((files_zipped hz).map _).trans (List.Perm.of_eq ?_)
    rw [flatMap_restored, titleFiles_eq]
    exact List.flatMap_congr fun q hq => restoredFiles_eq hr hq
  have hsome : filesOf (zippedRows title zipped) ≠ [] := fun hnil => by
    rw [hnil, List.map_nil] at hfinal
    exact hr.some_file hfinal.nil_eq.symm
  obtain ⟨s, hs, hunz, hdir⟩ := @unzipStrict_ok title _ hu
    (fun r hrow => (hclean r (List.mem_filter.1 hrow).1).2) (by rw [hquiet]; exact hsome)
  rw [hquiet] at hunz
  have hpaths : (s.files.map Prod.fst).Nodup := by
    rw [hunz.files]
    exact nodup_filesOf hu.separate
  obtain ⟨s', hs'⟩ := restoreEntries_ok ((ho _).nodup_iff.2 (nodup_list hpaths title))
    (noClash hf hr hz hunz (ho (s.list title)))
  have hprep : restorePrepare order title s = .ok s' := by
    rw [restorePrepare, if_neg (not_not.2 hdir), hs']
  refine ⟨s', ?_, ?_⟩
  · rw [zipFolder_eq]
    change (unzipStrict ((zippedRows title zipped).map entryOf) title >>= _) = _
    rw [hs]
    exact hprep
  · rw [restorePrepare_files ho hprep, hunz.files]
    exact hfinal

/-! ## Where they do not -/

theorem keepsName_of_restored {p : Path} (h : restored title p = [title, name]) :
    keepsName name = true := by
  unfold restored at h
  split at h
  · split at h
    · have hname := (List.cons.inj (List.cons.inj h).2).1
      exact hname ▸ keepsName_image _
    · rename_i hkeep
      obtain ⟨ht, hrest⟩ := List.cons.inj h
      rw [← (List.cons.inj hrest).1]
      exact Bool.eq_true_of_not_eq_false fun hbare => hkeep ⟨ht, hbare⟩
  · rename_i hshape
    exact absurd h (hshape title name)

/-- The names of files, all their letters counted. -/
def letters (l : List (Path × Bytes)) : Nat := (l.map fun f => (f.1.map List.length).sum).sum

theorem letters_flatMap {α : Type} (l : List α) (f : α → List (Path × Bytes)) :
    letters (l.flatMap f) = (l.map fun a => letters (f a)).sum := by
  induction l with
  | nil => rfl
  | cons a l ih =>
    rw [List.flatMap_cons, letters, List.map_append, List.sum_append, List.map_cons, List.sum_cons, ← ih]
    rfl

/-- A kid's files have no more letters after the restore, and fewer where a stripped image stays bare. -/
theorem letters_restored {q : Text × Node}
    (hkept : ∀ data, q.2 = .file data → keepsName q.1 = true) :
    letters ((filesOf (q.2.rows [title, backupName q.1 q.2])).map (restoredFile title)) ≤
        letters (filesOf (q.2.rows [title, q.1])) ∧
      ∀ data, q.2 = .file data → stripped q.1 data = true →
        keepsName (q.1.drop imagePrefix.length) = true →
        letters ((filesOf (q.2.rows [title, backupName q.1 q.2])).map (restoredFile title)) <
          letters (filesOf (q.2.rows [title, q.1])) := by
  obtain ⟨name, n⟩ := q
  cases n with
  | dir inner => exact ⟨le_of_eq (congrArg letters restored_dir), nofun⟩
  | file data =>
    have horig : letters (filesOf ((Node.file data).rows [title, name])) = title.length + name.length := rfl
    have hfinal : letters ((filesOf ((Node.file data).rows [title, backupName name (.file data)])).map
        (restoredFile title)) = title.length + (if keepsName (backupName name (.file data)) then
          backupName name (.file data) else imagePrefix ++ backupName name (.file data)).length := by
      rw [restored_file]
      rfl
    dsimp only
    rw [horig, hfinal]
    cases hs : stripped name data with
    | false =>
      rw [backupName_kept hs, hkept data rfl, if_pos rfl]
      exact ⟨le_rfl, fun d hd hsd => by
        cases hd
        exact absurd (hs.symm.trans hsd) Bool.false_ne_true⟩
    | true =>
      have hwhole := congrArg List.length (imagePrefix_append hs)
      have hsix : imagePrefix.length = 6 := rfl
      rw [List.length_append] at hwhole
      rw [backupName_stripped hs]
      cases hk : keepsName (name.drop imagePrefix.length) with
      | true =>
        rw [if_pos rfl]
        exact ⟨by omega, fun _ _ _ _ => by omega⟩
      | false =>
        rw [if_neg Bool.false_ne_true, List.length_append]
        exact ⟨by omega, fun _ _ _ h => nomatch h⟩

/-- **No other folder does.** -/
theorem restorable_of_restores (hf : TitleFolder title kids)
    (hz : zipped.Perm (backedUp kids)) (hu : Under title (zippedRows title zipped))
    {order : List (Text × Bool) → List (Text × Bool)} (ho : ∀ l, (order l).Perm l) {s : Store}
    (hs : (unzipStrict (zipFolder title zipped) title >>= restorePrepare order title) = .ok s)
    (hperm : s.files.Perm (titleFiles title kids)) : Restorable title kids := by
  rw [zipFolder_eq] at hs
  cases hzip : unzipStrict ((zippedRows title zipped).map entryOf) title with
  | error e =>
    rw [show ((Node.dir zipped).rows [title]).map entryOf = (zippedRows title zipped).map entryOf from rfl,
      hzip] at hs
    cases hs
  | ok t =>
    rw [show ((Node.dir zipped).rows [title]).map entryOf = (zippedRows title zipped).map entryOf from rfl,
      hzip] at hs
    obtain ⟨hback, hsome, hunz⟩ := unzipStrict_clean hu hzip
    rw [restorePrepare_files ho hs, hunz.files] at hperm
    -- as many files are restored as were zipped, so none of them is noise
    have hlen : (filesOf (zippedRows title zipped)).length = (titleFiles title kids).length := by
      rw [(files_zipped hz).length_eq, titleFiles_eq, List.length_flatMap, List.length_flatMap]
      refine congrArg List.sum (List.map_congr_left fun q _ => ?_)
      obtain ⟨name, n⟩ := q
      cases n with
      | file data => rfl
      | dir inner => rfl
    have hcount : (filesOf (quietRows (zippedRows title zipped))).length =
        (filesOf (zippedRows title zipped)).length := by
      rw [hlen, ← hperm.length_eq, List.length_map]
    have hall : filesOf (quietRows (zippedRows title zipped)) = filesOf (zippedRows title zipped) :=
      (List.Sublist.filterMap _ List.filter_sublist).eq_of_length hcount
    have hquiet : ∀ {p : Path} {data : Bytes}, (p, some data) ∈ zippedRows title zipped →
        hasBackslash p = false := fun hrow =>
      hback (_, some _) (@mem_filesOf _ (_, _) |>.1 (by rw [hall]; exact mem_filesOf.2 hrow))
    rw [hall] at hperm hsome
    have hfinal := ((files_zipped hz).map (restoredFile title)).symm.trans hperm
    rw [flatMap_restored, titleFiles_eq] at hfinal
    have hkept : ∀ q ∈ kids, ∀ data, q.2 = .file data → keepsName q.1 = true := by
      intro q hq data hdata
      have hmem : ([title, q.1], data) ∈ titleFiles title kids :=
        mem_filesOf.2 (mem_rowsOf.2 ⟨q, hq, by rw [hdata]; exact List.mem_cons_self⟩)
      obtain ⟨f, -, hfp⟩ := List.mem_map.1 (hperm.mem_iff.2 hmem)
      exact keepsName_of_restored (congrArg Prod.fst hfp)
    have hzipped : ∀ {q : Text × Node}, q ∈ kids → ∀ {r : Row}, r ∈ q.2.rows [title, backupName q.1 q.2] →
        r ∈ zippedRows title zipped := by
      intro q hq r hr
      have hmem := mem_rowsOf_backedUp.2 ⟨q, hq, hr⟩
      rw [rowsOf_eq, List.mem_flatMap] at hmem
      obtain ⟨b, hb, hrow⟩ := hmem
      refine List.mem_cons_of_mem _ ?_
      rw [rowsOf_eq, List.mem_flatMap]
      exact ⟨b, hz.symm.subset hb, hrow⟩
    have hsame : ∀ r ∈ zippedRows title kids, r ∈ zippedRows title zipped → hasBackslash r.1 = false :=
      fun r horig hrow => hback r (List.mem_filter.2 ⟨hrow, by
        rw [hf.quiet _ (by rw [zipFolder_eq]; exact List.mem_map_of_mem horig)]
        rfl⟩)
    refine ⟨fun hnil => ?_, fun r hr => ?_, fun name data hq hs => ?_, fun name data hq _ => hkept _ hq data rfl⟩
    · rw [hnil] at hperm
      exact hsome (List.map_eq_nil_iff.1 hperm.eq_nil)
    · rcases List.mem_cons.1 hr with rfl | hmem
      · exact hsame _ List.mem_cons_self List.mem_cons_self
      · obtain ⟨q, hq, hrow⟩ := mem_rowsOf.1 hmem
        have hin := @hzipped q hq
        obtain ⟨name, n⟩ := q
        cases n with
        | dir inner => exact hsame r hr (hin hrow)
        | file data =>
          cases hst : stripped name data with
          | false =>
            rw [backupName_kept hst] at hin
            exact hsame r hr (hin hrow)
          | true =>
            rw [backupName_stripped hst] at hin
            have hbare := hasBackslash_pair.1 (hquiet (hin List.mem_cons_self))
            rw [Node.rows, List.mem_singleton] at hrow
            rw [hrow]
            refine hasBackslash_pair.2 ⟨hbare.1, fun hslash => ?_⟩
            rw [← imagePrefix_append hst] at hslash
            exact (List.mem_append.1 hslash).elim (by decide) hbare.2
    · refine Bool.eq_false_iff.2 fun hkeep => ?_
      have hsum : letters _ = letters _ := (hfinal.map _).sum_eq
      rw [letters_flatMap, letters_flatMap] at hsum
      have hlt := List.sum_lt_sum (l := kids) _ _ (fun q hq => (@letters_restored title q (hkept q hq)).1)
        ⟨_, hq, (@letters_restored title _ (hkept _ hq)).2 data rfl hs hkeep⟩
      exact absurd hsum (Nat.ne_of_lt hlt)

/-! ## Backup, then restore -/

/-- **A save backup restores as it was exactly when the two rules agree.** -/
theorem backup_restores {title : Text} {kids : Folder} (hf : TitleFolder title kids) {r : Finalized}
    (hr : backupFinalize kids = .ok r) {zipped : Folder} (hz : zipped.Perm r.kids)
    {order : List (Text × Bool) → List (Text × Bool)} (ho : ∀ l, (order l).Perm l) :
    (∃ s, (unzipStrict (zipFolder title zipped) title >>= restorePrepare order title) = .ok s ∧
      s.files.Perm (titleFiles title kids)) ↔ Restorable title kids := by
  obtain ⟨hkids, hnames, hfresh⟩ := backupFinalize_ok hf.downloaded hf.distinct hr
  rw [hkids] at hz hnames
  have hproper := properKids_backedUp hf.proper hfresh
  have hu : Under title (zippedRows title zipped) :=
    under_zipped hf ((hz.map Prod.fst).nodup_iff.2 hnames)
      (properKids_iff.2 fun q hq => properKids_iff.1 hproper q (hz.subset hq))
  exact ⟨fun ⟨_, hs, hperm⟩ => restorable_of_restores hf hz hu ho hs hperm,
    fun hrest => restores_of_restorable hf hrest hz hu ho⟩

instance : DecidablePred IsName := fun name =>
  decidable_of_iff (name ≠ [] ∧ name ≠ ['.'] ∧ name ≠ ['.', '.'] ∧ '/' ∉ name ∧ Char.ofNat 0 ∉ name)
    ⟨fun ⟨h1, h2, h3, h4, h5⟩ => ⟨h1, h2, h3, h4, h5⟩, fun ⟨h1, h2, h3, h4, h5⟩ => ⟨h1, h2, h3, h4, h5⟩⟩

/-- A folder of files only. -/
theorem titleFolder_files (ht : IsName title) (hd : (names kids).Nodup)
    (hn : ∀ q ∈ kids, IsName q.1) (hfiles : (kids.all fun q => q.2.isFile) = true)
    (hq : ∀ e ∈ zipFolder title kids, isFinderNoise e.name = false) : TitleFolder title kids := by
  have hfile := List.all_eq_true.1 hfiles
  refine ⟨ht, hd, properKids_iff.2 fun q hmem => ⟨hn q hmem, ?_⟩, fun q hmem hdir => ?_, hq⟩
  · obtain ⟨name, n⟩ := q
    cases n with
    | file data => trivial
    | dir inner => cases hfile _ hmem
  · rw [Node.isDir, hfile q hmem] at hdir
    cases hdir

/-- The test's folder: an image whose bare name has no dot, and its key. -/
def discAndKey : Folder := [("sdimg_SLUS-20268".toList, .file [1, 7]), ("SLUS-20268.bin".toList, .file [66])]

theorem discAndKey_restores :
    (∃ r, backupFinalize discAndKey = .ok r ∧
      ∃ s, (unzipStrict (zipFolder "CUSA03474".toList r.kids) "CUSA03474".toList >>=
        restorePrepare id "CUSA03474".toList) = .ok s ∧
        s.files.Perm (titleFiles "CUSA03474".toList discAndKey)) ∧
      Restorable "CUSA03474".toList discAndKey := by
  have hr : Restorable "CUSA03474".toList discAndKey := by
    refine ⟨by decide, by decide, fun name data h => ?_, fun name data h => ?_⟩
    all_goals
      rcases List.mem_cons.1 h with heq | h
      · cases heq
        decide
      · cases List.mem_singleton.1 h
        decide
  have hf : TitleFolder "CUSA03474".toList discAndKey :=
    titleFolder_files (by decide) (by decide) (by decide) (by decide) (by decide)
  obtain ⟨r, hfin⟩ : ∃ r, backupFinalize discAndKey = .ok r := ⟨_, rfl⟩
  exact ⟨⟨r, hfin, (@backup_restores _ _ hf r hfin _ (List.Perm.refl _) id fun _ => List.Perm.refl _).2 hr⟩, hr⟩

/-- An image with a dot in its name, and a file with neither a dot nor a prefix. -/
def dotAndBare : Folder := [("sdimg_disc.v2".toList, .file [1, 7]), ("SAVEDATA".toList, .file [5])]

/-- **A prefix lost and one gained**: the image stays bare, and the other file becomes an image. -/
theorem prefix_lost_and_gained :
    TitleFolder "CUSA03474".toList dotAndBare ∧ ∃ r, backupFinalize dotAndBare = .ok r ∧
      ∃ s, (unzipStrict (zipFolder "CUSA03474".toList r.kids) "CUSA03474".toList >>=
        restorePrepare id "CUSA03474".toList) = .ok s ∧
      s.files = [(["CUSA03474".toList, "disc.v2".toList], [1, 7]),
        (["CUSA03474".toList, "sdimg_SAVEDATA".toList], [5])] ∧
      ¬s.files.Perm (titleFiles "CUSA03474".toList dotAndBare) := by
  refine ⟨titleFolder_files (by decide) (by decide) (by decide) (by decide) (by decide), ?_⟩
  exact ⟨_, rfl, _, rfl, by decide, by decide⟩

end Ps5Upload.SaveArchive
