import Ps5Upload.Engine.Collection.Organize

/-!
# Where the files of an organized folder are

A run of moves, at any of its moments, has taken the files of some of the moves to their new places
and no others: `Placed` says so of a list of moves and a tree.  It is kept by a rename there and back,
by a folder made on the way to one of the places, and by the removal of anything but a solid file.

* `Separate` — what the moves have to be for the two names of each to speak of its own files.
-/

namespace Ps5Upload.Collection

/-! ## Paths -/

/-- Neither path is the other one or below it. -/
def Apart (p q : Path) : Prop := ¬ p <+: q ∧ ¬ q <+: p

instance (p q : Path) : Decidable (Apart p q) := inferInstanceAs (Decidable (_ ∧ _))

theorem Apart.symm {p q : Path} (h : Apart p q) : Apart q p := ⟨h.2, h.1⟩

theorem Apart.not_below {p q r : Path} (h : Apart p q) (hp : p <+: r) : ¬ q <+: r :=
  fun hq => (List.prefix_or_prefix_of_prefix hp hq).elim h.1 h.2

theorem reloc_of_below {src dst p : Path} (h : src <+: p) :
    reloc src dst p = dst ++ p.drop src.length := if_pos h

theorem reloc_of_not {src dst p : Path} (h : ¬ src <+: p) : reloc src dst p = p := if_neg h

theorem prefix_reloc {src dst p : Path} (h : src <+: p) : dst <+: reloc src dst p := by
  rw [reloc_of_below h]
  exact List.prefix_append _ _

theorem reloc_reloc {src dst p : Path} (h : src <+: p) : reloc dst src (reloc src dst p) = p := by
  rw [reloc_of_below (prefix_reloc h), reloc_of_below h, List.drop_left]
  exact List.prefix_iff_eq_append.1 h

theorem Component.isSome_of_contained {rel : List Component} (h : contained rel = true) :
    ∃ c ∈ rel, c.name?.isSome := by
  rw [contained, Bool.and_eq_true, decide_eq_true_eq, List.all_eq_true] at h
  obtain ⟨c, hc⟩ := List.exists_mem_of_ne_nil rel h.1
  exact ⟨c, hc, h.2 c hc⟩

theorem names_ne_nil {rel : List Component} (h : contained rel = true) :
    rel.filterMap Component.name? ≠ [] := by
  obtain ⟨c, hc, hsome⟩ := Component.isSome_of_contained h
  obtain ⟨name, hname⟩ := Option.isSome_iff_exists.1 hsome
  exact List.ne_nil_of_mem (List.mem_filterMap.2 ⟨c, hc, hname⟩)

theorem Move.src_ne_nil {m : Move} (h : m.Contained = true) : m.src ≠ [] :=
  names_ne_nil (Bool.and_eq_true_iff.1 h).1

theorem Move.dst_ne_nil {m : Move} (h : m.Contained = true) : m.dst ≠ [] :=
  names_ne_nil (Bool.and_eq_true_iff.1 h).2

/-! ## What a tree has -/

namespace Tree

variable {t : Tree} {p q src dst : Path}

theorem has_eq_true : t.has p = true ↔ p = [] ∨ ∃ n ∈ t, p <+: n.1 := by
  simp [has]

theorem has_of_mem {n : Path × Node} (hn : n ∈ t) (h : p <+: n.1) : t.has p = true :=
  has_eq_true.2 (.inr ⟨n, hn, h⟩)

theorem not_prefix_of_has {n : Path × Node} (h : t.has p = false) (hn : n ∈ t) : ¬ p <+: n.1 :=
  fun hp => by simp [has_of_mem hn hp] at h

theorem exists_of_has (h : t.has p = true) (hp : p ≠ []) : ∃ n ∈ t, p <+: n.1 :=
  (has_eq_true.1 h).resolve_left hp

/-- A rename to a free name takes every node to its new place. -/
theorem rename_eq (h : t.has dst = false) :
    t.rename src dst = t.map fun n => (reloc src dst n.1, n.2) := by
  rw [rename, List.filter_eq_self.2]
  intro n hn
  simpa using not_prefix_of_has h hn

/-- What is at a place apart from the new name was there before, and was not moved. -/
theorem exists_of_has_rename (h : t.has dst = false) (hq : q ≠ []) (hap : Apart dst q)
    (hhas : (t.rename src dst).has q = true) : ∃ n ∈ t, q <+: n.1 ∧ ¬ src <+: n.1 := by
  obtain ⟨n', hn', hpre⟩ := exists_of_has hhas hq
  rw [rename_eq h, List.mem_map] at hn'
  obtain ⟨n, hn, rfl⟩ := hn'
  by_cases hsrc : src <+: n.1
  · exact absurd hpre (hap.not_below (prefix_reloc hsrc))
  · rw [reloc_of_not hsrc] at hpre
    exact ⟨n, hn, hpre, hsrc⟩

variable (src) in
theorem mem_rename (h : t.has dst = false) {n : Path × Node} (hn : n ∈ t) :
    (reloc src dst n.1, n.2) ∈ t.rename src dst := by
  rw [rename_eq h]
  exact List.mem_map.2 ⟨n, hn, rfl⟩

theorem mem_rename_of_not (h : t.has dst = false) {n : Path × Node} (hn : n ∈ t)
    (hsrc : ¬ src <+: n.1) : n ∈ t.rename src dst := by
  have := mem_rename src h hn
  rwa [reloc_of_not hsrc] at this

end Tree

/-- A file keeps its own name when a folder above it moves. -/
theorem solid_reloc {server : Bool} {src dst p : Path} {node : Node} (hp : src <+: p) (hne : p ≠ src) :
    solid server (reloc src dst p, node) = solid server (p, node) := by
  obtain ⟨r, rfl⟩ := hp
  have hr : r ≠ [] := fun h => hne (by rw [h, List.append_nil])
  rw [reloc_of_below (List.prefix_append src r), List.drop_left]
  simp only [solid, List.getLast?_append_of_ne_nil _ hr]

/-! ## Moves that keep out of each other's way -/

/-- No name of a move is one of another move's or inside or above it; where something is at a new name
already, the move has a solid file of its own; and no solid file becomes junk by its new name. -/
structure Separate (server : Bool) (before : Tree) (moves : List Move) : Prop where
  apart : ∀ m ∈ moves, ∀ m' ∈ moves, m ≠ m' → m.Contained = true → m'.Contained = true →
    Apart m.src m'.src ∧ Apart m.dst m'.dst ∧ Apart m.src m'.dst
  known : ∀ m ∈ moves, m.Contained = true → before.has m.dst = true →
    ∃ n ∈ before, solid server n = true ∧ m.src <+: n.1
  named : ∀ m ∈ moves, m.Contained = true → ∀ n ∈ before, n.1 = m.src → solid server n = true →
    solid server (m.dst, n.2) = true

/-- The files of the moves `D` are at their new places, and all others where they were. -/
structure Placed (server : Bool) (before : Tree) (moves : List Move) (D : List Move) (t : Tree) :
    Prop where
  mem : ∀ m ∈ D, m ∈ moves
  contained : ∀ m ∈ D, m.Contained = true
  apart : ∀ m ∈ D, Apart m.src m.dst
  fresh : ∀ m ∈ D, ∀ n ∈ before, solid server n = true → ¬ m.dst <+: n.1
  stays : ∀ n ∈ before, solid server n = true → (∀ m ∈ D, ¬ m.src <+: n.1) → n ∈ t
  moved : ∀ m ∈ D, ∀ n ∈ before, solid server n = true → m.src <+: n.1 →
    (reloc m.src m.dst n.1, n.2) ∈ t
  gone : ∀ m ∈ D, t.has m.src = false
  free : ∀ m ∈ moves, m.Contained = true → m ∉ D → t.has m.dst = true → before.has m.dst = true

/-- Every solid file is where it was, and nothing is at a new name that was free. -/
structure Home (server : Bool) (before : Tree) (moves : List Move) (t : Tree) : Prop where
  files : ∀ n ∈ before, solid server n = true → n ∈ t
  left : ∀ m ∈ moves, m.Contained = true → t.has m.dst = true → before.has m.dst = true

section Placing

variable {server : Bool} {before t : Tree} {moves D : List Move} {m : Move}

theorem Placed.start : Placed server before moves [] before where
  mem _ h := absurd h List.not_mem_nil
  contained _ h := absurd h List.not_mem_nil
  apart _ h := absurd h List.not_mem_nil
  fresh _ h := absurd h List.not_mem_nil
  stays _ h _ _ := h
  moved _ h := absurd h List.not_mem_nil
  gone _ h := absurd h List.not_mem_nil
  free _ _ _ _ h := h

theorem Placed.home (h : Placed server before moves [] t) : Home server before moves t where
  files n hn hs := h.stays n hn hs nofun
  left m hm hc := h.free m hm hc List.not_mem_nil

variable (sep : Separate server before moves)

include sep

/-- A solid file of a move that has not happened is in the tree. -/
theorem Placed.mem_of_src (h : Placed server before moves D t) (hm : m ∈ moves)
    (hc : m.Contained = true) (hD : m ∉ D) {n : Path × Node} (hn : n ∈ before)
    (hs : solid server n = true) (hpre : m.src <+: n.1) : n ∈ t :=
  h.stays n hn hs fun m' hm' =>
    (sep.apart m hm m' (h.mem m' hm') (fun he => hD (he ▸ hm')) hc (h.contained m' hm')).1.not_below
      hpre

/-- **What the two names say**: something at the new one and nothing at the old one is a move that
happened. -/
theorem Placed.mem_of_has (h : Placed server before moves D t) (hm : m ∈ moves)
    (hc : m.Contained = true) (hdst : t.has m.dst = true) (hsrc : t.has m.src = false) : m ∈ D := by
  by_contra hD
  obtain ⟨n, hn, hs, hpre⟩ := sep.known m hm hc (h.free m hm hc hD hdst)
  exact Tree.not_prefix_of_has hsrc (h.mem_of_src sep hm hc hD hn hs hpre) hpre

/-- The rename of a move. -/
theorem Placed.there (h : Placed server before moves D t) (hm : m ∈ moves) (hc : m.Contained = true)
    (hD : m ∉ D) (hdst : t.has m.dst = false) (hsrc : t.has m.src = true)
    (hin : ¬ m.src <+: m.dst) : Placed server before moves (m :: D) (t.rename m.src m.dst) := by
  have hne : ∀ m' ∈ D, m ≠ m' := fun m' hm' he => hD (he ▸ hm')
  have hap : Apart m.src m.dst := by
    obtain ⟨n, hn, hpre⟩ := Tree.exists_of_has hsrc (m.src_ne_nil hc)
    exact ⟨hin, fun h => Tree.not_prefix_of_has hdst hn (h.trans hpre)⟩
  have apart : ∀ m' ∈ D, Apart m.src m'.src ∧ Apart m.dst m'.dst ∧ Apart m.src m'.dst :=
    fun m' hm' => sep.apart m hm m' (h.mem m' hm') (hne m' hm') hc (h.contained m' hm')
  have apart' : ∀ m' ∈ D, Apart m'.src m.dst := fun m' hm' =>
    (sep.apart m' (h.mem m' hm') m hm (hne m' hm').symm (h.contained m' hm') hc).2.2
  refine ⟨?_, ?_, ?_, ?_, ?_, ?_, ?_, ?_⟩
  · exact List.forall_mem_cons.2 ⟨hm, h.mem⟩
  · exact List.forall_mem_cons.2 ⟨hc, h.contained⟩
  · exact List.forall_mem_cons.2 ⟨hap, h.apart⟩
  · refine List.forall_mem_cons.2 ⟨fun n hn hs hpre => ?_, h.fresh⟩
    -- A solid file at the new name would still be there.
    have : n ∈ t := h.stays n hn hs fun m' hm' => (apart' m' hm').symm.not_below hpre
    exact Tree.not_prefix_of_has hdst this hpre
  · intro n hn hs hall
    obtain ⟨hmn, hall⟩ := List.forall_mem_cons.1 hall
    exact Tree.mem_rename_of_not hdst (h.stays n hn hs hall) hmn
  · refine List.forall_mem_cons.2 ⟨fun n hn hs hpre => ?_, fun m' hm' n hn hs hpre => ?_⟩
    · exact Tree.mem_rename _ hdst (h.mem_of_src sep hm hc hD hn hs hpre)
    · exact Tree.mem_rename_of_not (n := (_, _)) hdst (h.moved m' hm' n hn hs hpre)
        ((apart m' hm').2.2.symm.not_below (prefix_reloc hpre))
  · refine List.forall_mem_cons.2 ⟨?_, fun m' hm' => ?_⟩
    · refine Bool.eq_false_iff.2 fun hhas => ?_
      obtain ⟨n, -, hpre, hnot⟩ := Tree.exists_of_has_rename hdst (m.src_ne_nil hc) hap.symm hhas
      exact hnot hpre
    · refine Bool.eq_false_iff.2 fun hhas => ?_
      obtain ⟨n, hn, hpre, -⟩ := Tree.exists_of_has_rename hdst (m'.src_ne_nil (h.contained m' hm'))
        (apart' m' hm').symm hhas
      exact Tree.not_prefix_of_has (h.gone m' hm') hn hpre
  · intro m' hm' hc' hnot hhas
    have hmm : m ≠ m' := fun he => hnot (he ▸ List.mem_cons_self)
    obtain ⟨n, hn, hpre, -⟩ := Tree.exists_of_has_rename hdst (m'.dst_ne_nil hc')
      (sep.apart m hm m' hm' hmm hc hc').2.1 hhas
    exact h.free m' hm' hc' (fun hmem => hnot (List.mem_cons_of_mem _ hmem)) (Tree.has_of_mem hn hpre)

/-- The rename back. -/
theorem Placed.back (h : Placed server before moves D t) (hm : m ∈ D) :
    Placed server before moves (D.filter (· ≠ m)) (t.rename m.dst m.src) := by
  have hmem := h.mem m hm
  have hc := h.contained m hm
  have hgone := h.gone m hm
  have hsub : ∀ m' ∈ D.filter (· ≠ m), m' ∈ D ∧ m' ≠ m := fun m' hm' => by
    simpa using List.mem_filter.1 hm'
  have apart : ∀ m' ∈ moves, m' ≠ m → m'.Contained = true →
      Apart m.src m'.src ∧ Apart m.dst m'.dst ∧ Apart m.src m'.dst := fun m' hm' hne hc' =>
    sep.apart m hmem m' hm' hne.symm hc hc'
  refine ⟨fun m' hm' => h.mem m' (hsub m' hm').1, fun m' hm' => h.contained m' (hsub m' hm').1,
    fun m' hm' => h.apart m' (hsub m' hm').1, fun m' hm' => h.fresh m' (hsub m' hm').1, ?_, ?_, ?_, ?_⟩
  · intro n hn hs hall
    by_cases hpre : m.src <+: n.1
    · have := Tree.mem_rename m.dst hgone (h.moved m hm n hn hs hpre)
      rwa [reloc_reloc hpre] at this
    · refine Tree.mem_rename_of_not hgone (h.stays n hn hs fun m' hm' => ?_) (h.fresh m hm n hn hs)
      by_cases he : m' = m
      · exact he ▸ hpre
      · exact hall m' (List.mem_filter.2 ⟨hm', by simpa using he⟩)
  · intro m' hm' n hn hs hpre
    obtain ⟨hD', hne⟩ := hsub m' hm'
    exact Tree.mem_rename_of_not (n := (_, _)) hgone (h.moved m' hD' n hn hs hpre)
      ((apart m' (h.mem m' hD') hne (h.contained m' hD')).2.1.symm.not_below (prefix_reloc hpre))
  · intro m' hm'
    obtain ⟨hD', hne⟩ := hsub m' hm'
    refine Bool.eq_false_iff.2 fun hhas => ?_
    obtain ⟨n, hn, hpre, -⟩ := Tree.exists_of_has_rename hgone (m'.src_ne_nil (h.contained m' hD'))
      (apart m' (h.mem m' hD') hne (h.contained m' hD')).1 hhas
    exact Tree.not_prefix_of_has (h.gone m' hD') hn hpre
  · intro m' hm' hc' hnot hhas
    by_cases he : m' = m
    · subst he
      obtain ⟨n, -, hpre, hn⟩ := Tree.exists_of_has_rename hgone (m'.dst_ne_nil hc)
        (h.apart m' hm) hhas
      exact absurd hpre hn
    · obtain ⟨n, hn, hpre, -⟩ := Tree.exists_of_has_rename hgone (m'.dst_ne_nil hc')
        (apart m' hm' he hc').2.2 hhas
      refine h.free m' hm' hc' (fun hD' => hnot ?_) (Tree.has_of_mem hn hpre)
      exact List.mem_filter.2 ⟨hD', by simpa using he⟩

/-- Files of Finder's and empty folders may go. -/
theorem Placed.filter (h : Placed server before moves D t) {keep : Path × Node → Bool}
    (hkeep : ∀ n ∈ t, solid server n = true → keep n = true) :
    Placed server before moves D (t.filter keep) := by
  have hhas : ∀ {q : Path}, (Tree.has (t.filter keep) q) = true → t.has q = true := by
    intro q hq
    rcases Tree.has_eq_true.1 hq with rfl | ⟨n, hn, hpre⟩
    · exact Tree.has_eq_true.2 (.inl rfl)
    · exact Tree.has_of_mem (List.mem_filter.1 hn).1 hpre
  refine ⟨h.mem, h.contained, h.apart, h.fresh, fun n hn hs hall => ?_, fun m hm n hn hs hpre => ?_,
    fun m hm => ?_, fun m hm hc hD hq => h.free m hm hc hD (hhas hq)⟩
  · have hmem := h.stays n hn hs hall
    exact List.mem_filter.2 ⟨hmem, hkeep n hmem hs⟩
  · have hmem := h.moved m hm n hn hs hpre
    refine List.mem_filter.2 ⟨hmem, hkeep _ hmem ?_⟩
    by_cases he : n.1 = m.src
    · rw [he, reloc_of_below (List.prefix_refl _), List.drop_length, List.append_nil]
      exact sep.named m (h.mem m hm) (h.contained m hm) n hn he hs
    · rw [solid_reloc hpre he]
      exact hs
  · exact Bool.eq_false_iff.2 fun hq => by simpa [h.gone m hm] using hhas hq

omit sep

/-- A folder may be made that is below no old name of a move that happened, and below no new name of
one that did not. -/
theorem Placed.mkdir (h : Placed server before moves D t) {p : Path}
    (hsrc : ∀ m ∈ D, ¬ m.src <+: p)
    (hdst : ∀ m ∈ moves, m.Contained = true → m ∉ D → ¬ m.dst <+: p) :
    Placed server before moves D (t ++ [(p, .dir)]) := by
  have hhas : ∀ {q : Path}, ¬ q <+: p → Tree.has (t ++ [(p, .dir)]) q = true → t.has q = true := by
    intro q hp hq
    rcases Tree.has_eq_true.1 hq with rfl | ⟨n, hn, hpre⟩
    · exact Tree.has_eq_true.2 (.inl rfl)
    · rcases List.mem_append.1 hn with hn | hn
      · exact Tree.has_of_mem hn hpre
      · rw [List.mem_singleton.1 hn] at hpre
        exact absurd hpre hp
  refine ⟨h.mem, h.contained, h.apart, h.fresh,
    fun n hn hs hall => List.mem_append_left _ (h.stays n hn hs hall),
    fun m hm n hn hs hpre => List.mem_append_left _ (h.moved m hm n hn hs hpre),
    fun m hm => ?_, fun m hm hc hD hq => h.free m hm hc hD (hhas (hdst m hm hc hD) hq)⟩
  exact Bool.eq_false_iff.2 fun hq => by simpa [h.gone m hm] using hhas (hsrc m hm) hq

/-- Moves with nothing at their new names any more count as put back. -/
theorem Placed.only (h : Placed server before moves D t) {done : List Move}
    (hdone : ∀ m ∈ D, m ∈ done ∨ t.has m.dst = false) :
    Placed server before moves (D.filter (· ∈ done)) t := by
  have hsub : ∀ m ∈ D.filter (· ∈ done), m ∈ D := fun m hm => (List.mem_filter.1 hm).1
  refine ⟨fun m hm => h.mem m (hsub m hm), fun m hm => h.contained m (hsub m hm),
    fun m hm => h.apart m (hsub m hm), fun m hm => h.fresh m (hsub m hm), fun n hn hs hall => ?_,
    fun m hm => h.moved m (hsub m hm), fun m hm => h.gone m (hsub m hm), fun m hm hc hD hq => ?_⟩
  · refine h.stays n hn hs fun m hm hpre => ?_
    rcases hdone m hm with hd | hnone
    · exact hall m (List.mem_filter.2 ⟨hm, by simpa using hd⟩) hpre
    · exact Tree.not_prefix_of_has hnone (h.moved m hm n hn hs hpre) (prefix_reloc hpre)
  · by_cases hmD : m ∈ D
    · rcases hdone m hmD with hd | hnone
      · exact absurd (List.mem_filter.2 ⟨hmD, by simpa using hd⟩) hD
      · rw [hnone] at hq
        exact absurd hq Bool.false_ne_true
    · exact h.free m hm hc hmD hq

end Placing

end Ps5Upload.Collection
