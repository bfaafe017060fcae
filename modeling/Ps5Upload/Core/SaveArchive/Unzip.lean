import Ps5Upload.Core.SaveArchive.Rows
import Mathlib.Data.List.Infix

/-!
# Save restores: unzipping the zip of a tree

The zip of a tree has an entry for each of its paths, and `unzip_strict` makes the paths of the entries
again.
-/

namespace Ps5Upload.SaveArchive

open ByteFile

/-! ## The entries of paths -/

def joinPath (p : Path) : Text := ['/'].intercalate p

/-- The entry of a path; a folder's name ends in a slash. -/
def entryOf (r : Row) : ZipEntry :=
  ⟨joinPath (match r.2 with | some _ => r.1 | none => r.1 ++ [[]]), r.2⟩

theorem joinPath_concat {p : Path} (hp : p ≠ []) (name : Text) :
    joinPath (p ++ [name]) = joinPath p ++ '/' :: name := by
  induction p with
  | nil => exact absurd rfl hp
  | cons c p ih =>
    cases p with
    | nil => simp [joinPath]
    | cons d p =>
      have hih := ih (List.cons_ne_nil _ _)
      simp only [joinPath, List.cons_append, List.intercalate_cons_cons, List.append_assoc] at hih ⊢
      rw [hih]

mutual
/-- **The entries of a tree are those of its paths.** -/
theorem addRecursive_eq {p : Path} (hp : p ≠ []) :
    ∀ n : Node, n.addRecursive (joinPath p) = (n.rows p).map entryOf
  | .file data => by
    rw [Node.addRecursive, Node.rows]
    rfl
  | .dir kids => by
    rw [Node.addRecursive, Node.rows, List.map_cons, addAll_eq hp kids, entryOf, joinPath_concat hp]
theorem addAll_eq {p : Path} (hp : p ≠ []) :
    ∀ kids : Folder, addAll (joinPath p) kids = (rowsOf p kids).map entryOf
  | [] => rfl
  | (name, n) :: kids => by
    rw [addAll, rowsOf, List.map_append, ← joinPath_concat hp, addAll_eq hp kids,
      addRecursive_eq (List.append_ne_nil_of_right_ne_nil p (List.cons_ne_nil name [])) n]
end

theorem zipFolder_eq (title : Text) (kids : Folder) :
    zipFolder title kids = ((Node.dir kids).rows [title]).map entryOf := by
  have hroot : joinPath [title] = title := List.intercalate_singleton
  rw [zipFolder, ← addRecursive_eq (List.cons_ne_nil title []), hroot]

/-! ## The paths of entries -/

/-- Whether a name of the path has a backslash. -/
def hasBackslash (p : Path) : Bool := p.any fun name => '\\' ∈ name

theorem sanitizeSegments_append {segs : Path} (hs : ∀ c ∈ segs, IsName c) (tail : List Text) (out : Path) :
    sanitizeSegments (segs ++ tail) out =
      if hasBackslash segs then none else sanitizeSegments tail (out ++ segs) := by
  induction segs generalizing out with
  | nil => rw [List.append_nil]; rfl
  | cons c segs ih =>
    have hc := hs c List.mem_cons_self
    have hblank : ¬(c = [] ∨ c = ['.']) := fun h => h.elim hc.ne_nil hc.ne_dot
    rw [List.cons_append, sanitizeSegments, if_neg hblank, if_neg hc.ne_dots]
    by_cases hback : '\\' ∈ c
    · have hany : hasBackslash (c :: segs) = true :=
        List.any_eq_true.2 ⟨c, List.mem_cons_self, decide_eq_true hback⟩
      rw [if_pos (.inl hback), if_pos hany]
    · have hany : hasBackslash (c :: segs) = hasBackslash segs := by
        rw [hasBackslash, List.any_cons, decide_eq_false hback, Bool.false_or, hasBackslash]
      rw [if_neg (fun h => h.elim hback hc.no_nul), ih (fun d hd => hs d (List.mem_cons_of_mem _ hd)), hany,
        List.append_assoc, List.singleton_append]

variable {p : Path} {title : Text} {rows : List Row} {s : Store}

theorem splitOn_joinPath (hp : p ≠ []) (hn : ∀ c ∈ p, '/' ∉ c) : (joinPath p).splitOn '/' = p :=
  List.splitOn_intercalate '/' hn hp

/-- **An entry's name is its path**, unless a name of it has a backslash. -/
theorem sanitizeEntry_entryOf {r : Row} (hr : r.1 ≠ []) (hn : ∀ c ∈ r.1, IsName c) :
    sanitizeEntry (entryOf r).name = if hasBackslash r.1 then none else some r.1 := by
  have hsegs : sanitizeSegments ((entryOf r).name.splitOn '/') [] =
      if hasBackslash r.1 then none else some r.1 := by
    obtain ⟨p, data⟩ := r
    cases data with
    | some data =>
      have hall := sanitizeSegments_append hn [] []
      rw [List.append_nil] at hall
      have hsplit : (entryOf (p, some data)).name.splitOn '/' = p :=
        splitOn_joinPath hr fun c hc => (hn c hc).no_slash
      rw [hsplit, hall]
      rfl
    | none =>
      have hsplit : (entryOf (p, none)).name.splitOn '/' = p ++ [[]] :=
        splitOn_joinPath (List.append_ne_nil_of_left_ne_nil hr _) fun c hc =>
          (List.mem_append.1 hc).elim (fun h => (hn c h).no_slash)
            fun h => by rw [List.mem_singleton.1 h]; exact List.not_mem_nil
      rw [hsplit, sanitizeSegments_append hn]
      rfl
  rw [sanitizeEntry, hsegs]
  by_cases hback : hasBackslash r.1 = true
  · rw [if_pos hback]
  · rw [if_neg hback]
    obtain ⟨p, data⟩ := r
    cases p with
    | nil => exact absurd rfl hr
    | cons c p => rfl

/-! ## The folder at the top -/

theorem entryOf_under {rest : Path} {data : Option Bytes} (h : rest ≠ [] ∨ data = none) :
    ∃ t, (entryOf (title :: rest, data)).name = title ++ '/' :: t := by
  have hunder : ∀ c p, ∃ t, joinPath (title :: c :: p) = title ++ '/' :: t := fun c p =>
    ⟨joinPath (c :: p), by rw [joinPath, List.intercalate_cons_cons, List.append_assoc]; rfl⟩
  cases data with
  | none =>
    cases rest with
    | nil => exact hunder [] []
    | cons c p => exact hunder c (p ++ [[]])
  | some data =>
    cases rest with
    | nil => exact absurd rfl (h.resolve_right nofun)
    | cons c p => exact hunder c p

theorem takeWhile_under {t name : Text} (hs : '/' ∉ title) (h : name = title ++ '/' :: t) :
    name.takeWhile (· ≠ '/') = title := by
  have hpos : ∀ c ∈ title, (decide (c ≠ '/')) = true := fun c hc =>
    decide_eq_true fun (heq : c = '/') => hs (heq ▸ hc)
  rw [h, List.takeWhile_append_of_pos hpos]
  simp

/-- Entries under one folder have that folder at the top. -/
theorem rootDirs_under (hne : title ≠ []) (hs : '/' ∉ title) :
    ∀ es : List ZipEntry, (∀ e ∈ es, ∃ t, e.name = title ++ '/' :: t) →
      rootDirs es [title] = .ok [title]
  | [], _ => rfl
  | e :: es, h => by
    have hrest := rootDirs_under hne hs es fun e he => h e (List.mem_cons_of_mem _ he)
    obtain ⟨t, ht⟩ := h e List.mem_cons_self
    have hfirst := takeWhile_under hs ht
    have hslash : '/' ∈ e.name := ht ▸ List.mem_append_right _ List.mem_cons_self
    rw [rootDirs]
    dsimp only
    rw [hfirst, if_neg hne, if_neg (not_not.2 hslash), if_pos (List.contains_iff_mem.2 List.mem_cons_self), hrest,
      ite_self]

theorem rootDirs_eq (hne : title ≠ []) (hs : '/' ∉ title) {e : ZipEntry} {es : List ZipEntry}
    (hhead : isFinderNoise e.name = false) (h : ∀ a ∈ e :: es, ∃ t, a.name = title ++ '/' :: t) :
    rootDirs (e :: es) [] = .ok [title] := by
  have hrest := rootDirs_under hne hs es fun a ha => h a (List.mem_cons_of_mem _ ha)
  obtain ⟨t, ht⟩ := h e List.mem_cons_self
  have hfirst := takeWhile_under hs ht
  have hslash : '/' ∈ e.name := ht ▸ List.mem_append_right _ List.mem_cons_self
  rw [rootDirs, hhead]
  dsimp only
  rw [hfirst, if_neg Bool.false_ne_true, if_neg hne, if_neg (not_not.2 hslash)]
  exact hrest

/-! ## The files -/

/-- The files among the paths. -/
def filesOf (rows : List Row) : List (Path × Bytes) := rows.filterMap fun r => r.2.map (Prod.mk r.1)

theorem filesOf_append (a b : List Row) : filesOf (a ++ b) = filesOf a ++ filesOf b := List.filterMap_append

theorem mem_filesOf {rows : List Row} {q : Path × Bytes} : q ∈ filesOf rows ↔ (q.1, some q.2) ∈ rows := by
  rw [filesOf, List.mem_filterMap]
  refine ⟨fun ⟨r, hr, hq⟩ => ?_, fun h => ⟨_, h, rfl⟩⟩
  obtain ⟨p, data⟩ := r
  cases data with
  | none => cases hq
  | some data =>
    cases hq
    exact hr

/-- No two files of separate paths have one path. -/
theorem nodup_filesOf (h : Separate rows) : ((filesOf rows).map Prod.fst).Nodup := by
  have hsub : ((filesOf rows).map Prod.fst).Sublist (rows.map Prod.fst) := by
    clear h
    induction rows with
    | nil => exact List.Sublist.refl _
    | cons r rows ih =>
      obtain ⟨p, data⟩ := r
      cases data with
      | none => exact ih.cons p
      | some data => exact ih.cons_cons p
  exact h.nodup.sublist hsub

theorem isFile_iff : s.isFile p = true ↔ ∃ data, (p, data) ∈ s.files := by
  rw [Store.isFile, decide_eq_true_iff, List.mem_map]
  exact ⟨fun ⟨q, hq, heq⟩ => ⟨q.2, heq ▸ hq⟩, fun ⟨data, h⟩ => ⟨_, h, rfl⟩⟩

/-- What has been unzipped of some paths: their files, and folders that are theirs or above them. -/
structure Unzipped (done : List Row) (s : Store) : Prop where
  files : s.files = filesOf done
  dirs : ∀ d ∈ s.dirs, ∃ r ∈ done, d <+: r.1 ∧ (r.2.isSome → d ≠ r.1)

theorem Unzipped.no_file {done : List Row} {s : Store} (h : Unzipped done s) {p : Path}
    (hp : ∀ a ∈ done, a.2.isSome → ¬a.1 <+: p) : p.inits.any s.isFile = false := by
  refine Bool.eq_false_iff.2 fun hany => ?_
  obtain ⟨d, hd, hfile⟩ := List.any_eq_true.1 hany
  obtain ⟨data, hmem⟩ := isFile_iff.1 hfile
  rw [h.files, mem_filesOf] at hmem
  exact hp _ hmem rfl ((List.mem_inits _ _).1 hd)

/-- One folder more. -/
theorem Unzipped.dir {done : List Row} {s : Store} (h : Unzipped done s) {p : Path}
    (hsep : Separate (done ++ [(p, none)])) :
    ∃ t, s.createDirAll p = .ok t ∧ Unzipped (done ++ [(p, none)]) t ∧ p ∈ t.dirs := by
  have hfree := @Unzipped.no_file _ _ h p fun a ha hfile hps => by
    have heq := hsep.leaf a (List.mem_append_left _ ha) (p, none) (List.mem_append_right _ List.mem_cons_self)
      hfile hps
    have hn := hsep.nodup
    rw [List.map_append, List.nodup_append] at hn
    exact hn.2.2 a.1 (List.mem_map_of_mem ha) p List.mem_cons_self heq
  refine ⟨{ s with dirs := s.dirs ++ p.inits }, ?_, ⟨?_, fun d hd => ?_⟩, ?_⟩
  · rw [Store.createDirAll, hfree]
    rfl
  · rw [filesOf_append, ← h.files]
    exact (List.append_nil _).symm
  · rcases List.mem_append.1 hd with hd | hd
    · obtain ⟨r, hr, hrest⟩ := h.dirs d hd
      exact ⟨r, List.mem_append_left _ hr, hrest⟩
    · exact ⟨(p, none), List.mem_append_right _ List.mem_cons_self, (List.mem_inits _ _).1 hd, nofun⟩
  · exact List.mem_append_right _ ((List.mem_inits _ _).2 (List.prefix_refl p))

/-- One file more. -/
theorem Unzipped.file {done : List Row} (h : Unzipped done s) {data : Bytes}
    (hp : p ≠ []) (hsep : Separate (done ++ [(p, some data)])) :
    ∃ t u, s.createDirAll p.dropLast = .ok t ∧ t.writeFile p data = .ok u ∧
      Unzipped (done ++ [(p, some data)]) u ∧ s.dirs ⊆ u.dirs := by
  have hlast : (p, some data) ∈ done ++ [(p, some data)] := List.mem_append_right _ List.mem_cons_self
  have hother : ∀ a ∈ done, a.1 ≠ p := fun a ha heq => by
    have hn := hsep.nodup
    rw [List.map_append, List.nodup_append] at hn
    exact hn.2.2 a.1 (List.mem_map_of_mem ha) p List.mem_cons_self heq
  have hdrop : p.dropLast <+: p := List.dropLast_prefix p
  have hfree := @Unzipped.no_file _ _ h p.dropLast fun a ha hfile hps =>
    hother a ha (hsep.leaf a (List.mem_append_left _ ha) _ hlast hfile (hps.trans hdrop))
  have hnodir : p ∉ s.dirs ++ p.dropLast.inits := fun hd => by
    rcases List.mem_append.1 hd with hd | hd
    · obtain ⟨r, hr, hps, -⟩ := h.dirs p hd
      exact hother r hr (hsep.leaf _ hlast r (List.mem_append_left _ hr) rfl hps).symm
    · have hle := ((List.mem_inits _ _).1 hd).length_le
      have hpos := List.length_pos_iff.2 hp
      rw [List.length_dropLast] at hle
      omega
  have hnew : s.files.filter (fun q => q.1 ≠ p) = s.files := List.filter_eq_self.2 fun q hq => by
    rw [h.files, mem_filesOf] at hq
    exact decide_eq_true (hother _ hq)
  refine ⟨{ s with dirs := s.dirs ++ p.dropLast.inits },
    { files := s.files ++ [(p, data)], dirs := s.dirs ++ p.dropLast.inits }, ?_, ?_, ⟨?_, fun d hd => ?_⟩, ?_⟩
  · rw [Store.createDirAll, hfree]
    rfl
  · rw [Store.writeFile, if_neg hnodir, hnew]
  · rw [filesOf_append, ← h.files]
    rfl
  · rcases List.mem_append.1 hd with hd | hd
    · obtain ⟨r, hr, hrest⟩ := h.dirs d hd
      exact ⟨r, List.mem_append_left _ hr, hrest⟩
    · have hps := (List.mem_inits _ _).1 hd
      exact ⟨_, hlast, hps.trans hdrop, fun _ heq => hnodir (List.mem_append_right _ ((show d = p from heq) ▸ hd))⟩
  · exact List.subset_append_left _ _

/-- **Entries of separate paths are unzipped**, where their names may stand in a path. -/
theorem extract_ok {todo : List Row} (hne : ∀ r ∈ todo, r.1 ≠ []) (hn : ∀ r ∈ todo, ∀ c ∈ r.1, IsName c)
    (hback : ∀ r ∈ todo, hasBackslash r.1 = false) (hnoise : ∀ r ∈ todo, isFinderNoise (entryOf r).name = false)
    {done : List Row} (hsep : Separate (done ++ todo)) {s : Store} (hs : Unzipped done s) (count : Nat) :
    ∃ t, extract (todo.map entryOf) s count = .ok (t, count + (filesOf todo).length) ∧
      t.files = filesOf (done ++ todo) ∧ (∀ p, p ∈ s.dirs ∨ (p, none) ∈ todo → p ∈ t.dirs) ∧
      Unzipped (done ++ todo) t := by
  induction todo generalizing done s count with
  | nil =>
    rw [List.append_nil]
    exact ⟨s, rfl, hs.files, fun p hp => hp.resolve_right List.not_mem_nil, hs⟩
  | cons r todo ih =>
    have hall : ∀ {P : Row → Prop}, (∀ a ∈ r :: todo, P a) → ∀ a ∈ todo, P a :=
      fun h a ha => h a (List.mem_cons_of_mem _ ha)
    have hsplit : done ++ r :: todo = (done ++ [r]) ++ todo := List.append_cons ..
    rw [hsplit] at hsep ⊢
    have hsep1 := hsep.sublist (List.sublist_append_left (done ++ [r]) todo)
    have hpath : sanitizeEntry (entryOf r).name = some r.1 := by
      rw [sanitizeEntry_entryOf (hne r List.mem_cons_self) (hn r List.mem_cons_self),
        hback r List.mem_cons_self, if_neg Bool.false_ne_true]
    rw [List.map_cons, extract, hnoise r List.mem_cons_self, if_neg Bool.false_ne_true, hpath]
    obtain ⟨p, data⟩ := r
    cases data with
    | none =>
      obtain ⟨t, ht, hdone, hmem⟩ := hs.dir hsep1
      obtain ⟨u, hu, hfiles, hdirs, hunz⟩ := ih (hall hne) (hall hn) (hall hback) (hall hnoise) hsep hdone count
      have hkeep : s.dirs ⊆ t.dirs := by
        rw [Store.createDirAll] at ht
        split at ht
        · cases ht
        · cases ht
          exact List.subset_append_left _ _
      refine ⟨u, ?_, hfiles, fun q hq => hdirs q ?_, hunz⟩
      · change (s.createDirAll p >>= fun s => extract (todo.map entryOf) s count) = _
        rw [ht]
        exact hu
      · rcases hq with hq | hq
        · exact .inl (hkeep hq)
        · rcases List.mem_cons.1 hq with heq | hq
          · cases heq
            exact .inl hmem
          · exact .inr hq
    | some data =>
      obtain ⟨t, v, ht, hv, hdone, hkeep⟩ := hs.file (hne _ List.mem_cons_self) hsep1
      obtain ⟨u, hu, hfiles, hdirs, hunz⟩ :=
        ih (hall hne) (hall hn) (hall hback) (hall hnoise) hsep hdone (count + 1)
      refine ⟨u, ?_, hfiles, fun q hq => hdirs q ?_, hunz⟩
      · change (s.createDirAll p.dropLast >>= fun s => s.writeFile p data >>= fun s =>
          extract (todo.map entryOf) s (count + 1)) = _
        rw [ht]
        change (t.writeFile p data >>= fun s => extract (todo.map entryOf) s (count + 1)) = _
        rw [hv]
        have hlen : (filesOf ((p, some data) :: todo)).length = (filesOf todo).length + 1 := rfl
        rw [hlen, ← Nat.add_assoc, Nat.add_right_comm]
        exact hu
      · rcases hq with hq | hq
        · exact .inl (hkeep hq)
        · exact (List.mem_cons.1 hq).elim nofun .inr

/-- What is unzipped has no backslash in its names. -/
theorem extract_clean {es : List ZipEntry} {count : Nat} {r : Store × Nat}
    (h : extract es s count = .ok r) :
    ∀ e ∈ es, isFinderNoise e.name = false → (sanitizeEntry e.name).isSome = true := by
  induction es generalizing s count with
  | nil => exact nofun
  | cons e es ih =>
    intro a ha hnoise
    rw [extract] at h
    split at h
    · rename_i hskip
      rcases List.mem_cons.1 ha with rfl | ha
      · exact absurd (hskip.symm.trans hnoise) (by decide)
      · exact ih h a ha hnoise
    · split at h
      · cases h
      · rename_i path hpath
        rcases List.mem_cons.1 ha with rfl | ha
        · rw [hpath]
          rfl
        · split at h
          · cases hdir : s.createDirAll path with
            | error err =>
              rw [hdir] at h
              cases h
            | ok t =>
              rw [hdir] at h
              exact ih h a ha hnoise
          · rename_i data _
            cases hdir : s.createDirAll path.dropLast with
            | error err =>
              rw [hdir] at h
              cases h
            | ok t =>
              rw [hdir] at h
              change (t.writeFile path data >>= fun s => extract es s (count + 1)) = _ at h
              cases hfile : t.writeFile path data with
              | error err =>
                rw [hfile] at h
                cases h
              | ok u =>
                rw [hfile] at h
                exact ih h a ha hnoise

/-- Noise is passed over. -/
theorem extract_filter (es : List ZipEntry) (s : Store) (count : Nat) :
    extract (es.filter fun e => !isFinderNoise e.name) s count = extract es s count := by
  induction es generalizing s count with
  | nil => rfl
  | cons e es ih =>
    cases hnoise : isFinderNoise e.name with
    | true => rw [List.filter_cons_of_neg (by rw [hnoise]; decide), ih, extract, hnoise, if_pos rfl]
    | false =>
      rw [List.filter_cons_of_pos (by rw [hnoise]; rfl), extract, extract, hnoise]
      simp only [ih]

/-! ## A zip under one folder -/

/-- Paths under one folder, which comes first and is not noise. -/
structure Under (title : Text) (rows : List Row) : Prop where
  separate : Separate rows
  isName : ∀ r ∈ rows, ∀ c ∈ r.1, IsName c
  head : ∃ rest, rows = ([title], none) :: rest
  under : ∀ r ∈ rows, ∃ q, r.1 = title :: q ∧ (q ≠ [] ∨ r.2 = none)
  quiet : isFinderNoise (entryOf ([title], none)).name = false

/-- The paths that are not noise. -/
def quietRows (rows : List Row) : List Row := rows.filter fun r => !isFinderNoise (entryOf r).name

theorem filter_entries (rows : List Row) :
    (rows.map entryOf).filter (fun e => !isFinderNoise e.name) = (quietRows rows).map entryOf :=
  List.filter_map

theorem Under.rootDirs_eq (h : Under title rows) :
    rootDirs (rows.map entryOf) [] = .ok [title] := by
  have hname := h.isName
  have hunder := h.under
  obtain ⟨rest, rfl⟩ := h.head
  have htitle := hname _ List.mem_cons_self title List.mem_cons_self
  refine SaveArchive.rootDirs_eq htitle.ne_nil htitle.no_slash h.quiet fun a ha => ?_
  obtain ⟨r, hr, rfl⟩ := List.mem_map.1 (show a ∈ (([title], none) :: rest).map entryOf from ha)
  obtain ⟨q, hq, hdata⟩ := hunder r hr
  obtain ⟨p, data⟩ := r
  rw [show p = title :: q from hq]
  exact entryOf_under hdata

theorem unzipStrict_eq (h : Under title rows) : unzipStrict (rows.map entryOf) title =
      (extract ((quietRows rows).map entryOf) ⟨[], []⟩ 0 >>= fun r =>
        if r.2 = 0 then .error .noFiles else .ok r.1) := by
  rw [unzipStrict, h.rootDirs_eq, ← filter_entries, extract_filter]
  exact if_neg (not_not.2 rfl)

theorem extract_quiet (h : Under title rows)
    (hback : ∀ r ∈ quietRows rows, hasBackslash r.1 = false) :
    ∃ s, extract ((quietRows rows).map entryOf) ⟨[], []⟩ 0 = .ok (s, (filesOf (quietRows rows)).length) ∧
      Unzipped (quietRows rows) s ∧ [title] ∈ s.dirs := by
  have hsub : ∀ r ∈ quietRows rows, r ∈ rows := fun r hr => (List.mem_filter.1 hr).1
  obtain ⟨s, hs, -, hdirs, hunz⟩ := @extract_ok (quietRows rows)
    (fun r hr => by
      obtain ⟨q, hq, -⟩ := h.under r (hsub r hr)
      rw [hq]
      exact List.cons_ne_nil _ _)
    (fun r hr => h.isName r (hsub r hr)) hback
    (fun r hr => Bool.not_eq_true' _ ▸ (List.mem_filter.1 hr).2)
    [] (h.separate.sublist List.filter_sublist) ⟨[], []⟩ ⟨rfl, nofun⟩ 0
  rw [Nat.zero_add] at hs
  refine ⟨s, hs, hunz, hdirs _ (.inr (List.mem_filter.2 ⟨?_, by rw [h.quiet]; rfl⟩))⟩
  obtain ⟨rest, hrest⟩ := h.head
  rw [hrest]
  exact List.mem_cons_self

/-- **A zip whose names may all stand in a path is unzipped**, if a file is in it. -/
theorem unzipStrict_ok {title : Text} {rows : List Row} (h : Under title rows)
    (hback : ∀ r ∈ quietRows rows, hasBackslash r.1 = false) (hfiles : filesOf (quietRows rows) ≠ []) :
    ∃ s, unzipStrict (rows.map entryOf) title = .ok s ∧ Unzipped (quietRows rows) s ∧ [title] ∈ s.dirs := by
  obtain ⟨s, hs, hunz, hdir⟩ := extract_quiet h hback
  refine ⟨s, ?_, hunz, hdir⟩
  rw [unzipStrict_eq h, hs]
  exact if_neg fun hzero => hfiles (List.length_eq_zero_iff.1 hzero)

/-- **No other zip is.** -/
theorem unzipStrict_clean (h : Under title rows)
    (hok : unzipStrict (rows.map entryOf) title = .ok s) :
    (∀ r ∈ quietRows rows, hasBackslash r.1 = false) ∧ filesOf (quietRows rows) ≠ [] ∧
      Unzipped (quietRows rows) s := by
  rw [unzipStrict_eq h] at hok
  cases hext : extract ((quietRows rows).map entryOf) ⟨[], []⟩ 0 with
  | error e =>
    rw [hext] at hok
    cases hok
  | ok r =>
    have hback : ∀ q ∈ quietRows rows, hasBackslash q.1 = false := fun q hq => by
      have hmem := (List.mem_filter.1 hq).1
      have hsome := extract_clean hext _ (List.mem_map_of_mem hq)
        (Bool.not_eq_true' _ ▸ (List.mem_filter.1 hq).2)
      obtain ⟨t, ht, -⟩ := h.under q hmem
      rw [sanitizeEntry_entryOf (by rw [ht]; exact List.cons_ne_nil _ _) (h.isName q hmem)] at hsome
      cases hb : hasBackslash q.1 with
      | false => rfl
      | true =>
        rw [hb] at hsome
        cases hsome
    obtain ⟨t, ht, hunz, -⟩ := extract_quiet h hback
    rw [ht] at hok
    change (if (filesOf (quietRows rows)).length = 0 then _ else _) = _ at hok
    split at hok
    · cases hok
    · rename_i hlen
      cases hok
      exact ⟨hback, fun hnil => hlen (by rw [hnil]; rfl), hunz⟩

end Ps5Upload.SaveArchive
