import Ps5Upload.Engine.Collection.Placed

/-!
# Where the parts of a split set are

The parts of a set are files.  While the set is moved, each is at its old name or at its new one, with nothing
else there, and every other file of the tree is where it was.

* `Spread.there`, `Spread.back` — one part more, and one part less;
* `Spread.mkdir` — a folder made changes nothing of it.
-/

namespace Ps5Upload.Collection

/-- The parts of a set that can start: a file at each old name, nothing at the new ones. -/
structure Parts (before : Tree) (group : List Move) : Prop where
  contained : ∀ m ∈ group, m.Contained = true
  srcs : ∀ m ∈ group, ∀ m' ∈ group, m.src = m'.src → m = m'
  dsts : ∀ m ∈ group, ∀ m' ∈ group, m.dst = m'.dst → m = m'
  file : ∀ m ∈ group, ∃ bytes, (m.src, .file bytes) ∈ before ∧
    ∀ n ∈ before, m.src <+: n.1 → n = (m.src, .file bytes)
  free : ∀ m ∈ group, before.has m.dst = false

/-- Where a part is, when those of `D` have moved. -/
def spot (D : List Move) (m : Move) : Path := if m ∈ D then m.dst else m.src

/-- Where it is not. -/
def offSpot (D : List Move) (m : Move) : Path := if m ∈ D then m.src else m.dst

/-- The parts `D` have moved; nothing else has changed but for folders. -/
structure Spread (before : Tree) (group D : List Move) (t : Tree) : Prop where
  sub : ∀ m ∈ D, m ∈ group
  here : ∀ m ∈ group, ∀ bytes, (m.src, .file bytes) ∈ before →
    (spot D m, .file bytes) ∈ t ∧ ∀ n ∈ t, spot D m <+: n.1 → n = (spot D m, .file bytes)
  off : ∀ m ∈ group, ∀ n ∈ t, n.1 = offSpot D m → n.2 = .dir
  others : ∀ n, n.2 ≠ .dir → (∀ m ∈ group, n.1 ≠ m.src ∧ n.1 ≠ m.dst) → (n ∈ t ↔ n ∈ before)

section Spreading

variable {before t : Tree} {group D : List Move} {m m' : Move} {q : Path}

/-! ## Names -/

theorem Parts.src_ne_dst (h : Parts before group) (hm : m ∈ group) (hm' : m' ∈ group) : m.src ≠ m'.dst := by
  obtain ⟨bytes, hin, -⟩ := h.file m hm
  intro heq
  have hfree := Tree.not_prefix_of_has (h.free m' hm') hin
  exact hfree (heq ▸ List.prefix_rfl)

theorem Parts.dst_not_below_src (h : Parts before group) (hm : m ∈ group) (hm' : m' ∈ group) : ¬ m.dst <+: m'.src := by
  obtain ⟨bytes, hin, -⟩ := h.file m' hm'
  exact Tree.not_prefix_of_has (h.free m hm) hin

theorem spot_ne_nil (h : Parts before group) (hm : m ∈ group) : spot D m ≠ [] := by
  unfold spot
  split
  · exact Move.dst_ne_nil (h.contained m hm)
  · exact Move.src_ne_nil (h.contained m hm)

/-- No name of one part is one of another's. -/
theorem Parts.names_ne (h : Parts before group) (hm : m ∈ group) (hm' : m' ∈ group) (hne : m ≠ m') :
    m.src ≠ m'.src ∧ m.dst ≠ m'.dst ∧ m.src ≠ m'.dst ∧ m.dst ≠ m'.src :=
  ⟨fun heq => hne (h.srcs m hm m' hm' heq), fun heq => hne (h.dsts m hm m' hm' heq), h.src_ne_dst hm hm',
    (h.src_ne_dst hm' hm).symm⟩

theorem spot_eq_or (D : List Move) (m : Move) : spot D m = m.src ∨ spot D m = m.dst := by
  unfold spot
  split
  · exact .inr rfl
  · exact .inl rfl

theorem offSpot_eq_or (D : List Move) (m : Move) : offSpot D m = m.src ∨ offSpot D m = m.dst := by
  unfold offSpot
  split
  · exact .inl rfl
  · exact .inr rfl

/-! ## Folders -/

/-- There is no folder at a file, nor below it. -/
theorem not_below_file {p : Path} {bytes : ByteFile.Bytes} (hp : p ≠ [])
    (honly : ∀ n ∈ t, p <+: n.1 → n = (p, Node.file bytes)) (hdir : t.isDir q = true) : ¬ p <+: q := by
  intro hpre
  rw [Tree.isDir, Bool.or_eq_true] at hdir
  rcases hdir with hnil | hany
  · rw [decide_eq_true_eq] at hnil
    rw [hnil] at hpre
    exact hp (List.prefix_nil.1 hpre)
  · obtain ⟨n, hn, hcase⟩ := List.any_eq_true.1 hany
    simp only [Bool.or_eq_true, Bool.and_eq_true, decide_eq_true_eq] at hcase
    rcases hcase with ⟨hq, hnode⟩ | ⟨hq, hne⟩
    · have heq := honly n hn (hq ▸ hpre)
      rw [heq] at hnode
      cases hnode
    · have heq := honly n hn (hpre.trans hq)
      rw [heq] at hq hne
      exact hne (hpre.eq_of_length_le hq.length_le)

theorem prefix_dropLast {p : Path} (h : p <+: q) (hne : p ≠ q) : p <+: q.dropLast := by
  obtain ⟨r, rfl⟩ := h
  have hr : r ≠ [] := fun hr => hne (by rw [hr, List.append_nil])
  rw [List.dropLast_append_of_ne_nil hr]
  exact List.prefix_append _ _

theorem Spread.mkdir (h : Spread before group D t) (hp : Parts before group) (hfree : t.has q = false)
    (hdir : t.isDir q.dropLast = true) : Spread before group D (t ++ [(q, .dir)]) where
  sub := h.sub
  here m hm bytes hin := by
    obtain ⟨hat, honly⟩ := h.here m hm bytes hin
    refine ⟨List.mem_append_left _ hat, fun n hn hpre => ?_⟩
    rcases List.mem_append.1 hn with hn | hn
    · exact honly n hn hpre
    · rw [List.mem_singleton.1 hn] at hpre
      have hne : spot D m ≠ q := by
        intro heq
        have hnot := Tree.not_prefix_of_has hfree hat
        exact hnot (heq ▸ List.prefix_rfl)
      exact absurd (prefix_dropLast hpre hne) (not_below_file (spot_ne_nil hp hm) honly hdir)
  off m hm n hn heq := by
    rcases List.mem_append.1 hn with hn | hn
    · exact h.off m hm n hn heq
    · rw [List.mem_singleton.1 hn]
  others n hn hne := by
    rw [List.mem_append, List.mem_singleton, h.others n hn hne]
    refine or_iff_left fun heq => hn ?_
    rw [heq]

/-! ## Renames -/

/-- A file's rename takes the file to its new name, and nothing else. -/
theorem mem_rename_file {a b : Path} {bytes : ByteFile.Bytes} (hfree : t.has b = false)
    (hfile : (a, Node.file bytes) ∈ t) (honly : ∀ n ∈ t, a <+: n.1 → n = (a, Node.file bytes)) (n : Path × Node) :
    n ∈ t.rename a b ↔ (n ∈ t ∧ n.1 ≠ a) ∨ n = (b, Node.file bytes) := by
  have hself : (reloc a b a, Node.file bytes) = (b, Node.file bytes) := by
    rw [reloc_of_below List.prefix_rfl, List.drop_length, List.append_nil]
  rw [Tree.rename_eq hfree, List.mem_map]
  constructor
  · rintro ⟨x, hx, rfl⟩
    by_cases hbelow : a <+: x.1
    · rw [honly x hx hbelow]
      exact .inr hself
    · rw [reloc_of_not hbelow]
      exact .inl ⟨hx, fun heq => hbelow (heq ▸ List.prefix_rfl)⟩
  · rintro (⟨hn, hne⟩ | rfl)
    · refine ⟨n, hn, ?_⟩
      have hbelow : ¬ a <+: n.1 := fun hbelow => hne (by rw [honly n hn hbelow])
      rw [reloc_of_not hbelow]
    · exact ⟨_, hfile, hself⟩

/-- One part goes from `spot D m` to the other name of its own. -/
theorem Spread.rename {D' : List Move} (h : Spread before group D t) (hp : Parts before group) (hm : m ∈ group)
    (hfree : t.has (spot D' m) = false) (hdir : t.isDir (spot D' m).dropLast = true)
    (hD' : ∀ m' ∈ D', m' ∈ group) (hflip : spot D' m = offSpot D m ∧ offSpot D' m = spot D m)
    (hother : ∀ m' ∈ group, m' ≠ m → spot D' m' = spot D m' ∧ offSpot D' m' = offSpot D m') :
    Spread before group D' (t.rename (spot D m) (spot D' m)) := by
  obtain ⟨bytes, hin, -⟩ := hp.file m hm
  obtain ⟨hat, honly⟩ := h.here m hm bytes hin
  have hmem := mem_rename_file hfree hat honly
  have hspots : ∀ m' ∈ group, m' ≠ m → ∀ x y, (x = m'.src ∨ x = m'.dst) → (y = m.src ∨ y = m.dst) → x ≠ y := by
    intro m' hm' hne x y hx hy
    obtain ⟨h1, h2, h3, h4⟩ := hp.names_ne hm' hm hne
    rcases hx with rfl | rfl <;> rcases hy with rfl | rfl
    · exact h1
    · exact h3
    · exact h4
    · exact h2
  refine ⟨hD', fun m' hm' bytes' hin' => ?_, fun m' hm' n hn heq => ?_, fun n hn hne => ?_⟩
  · by_cases hself : m' = m
    · subst hself
      obtain ⟨bytes₀, -, honly₀⟩ := hp.file m' hm
      have hbytes : bytes' = bytes := by
        have h1 := honly₀ _ hin List.prefix_rfl
        have h2 := honly₀ _ hin' List.prefix_rfl
        rw [Prod.mk.injEq, Node.file.injEq] at h1 h2
        rw [h1.2, h2.2]
      rw [hbytes]
      refine ⟨(hmem _).2 (.inr rfl), fun n hn hpre => ?_⟩
      rcases (hmem n).1 hn with ⟨hn, -⟩ | hn
      · exact absurd hpre (Tree.not_prefix_of_has hfree hn)
      · exact hn
    · obtain ⟨hat', honly'⟩ := h.here m' hm' bytes' hin'
      rw [(hother m' hm' hself).1]
      refine ⟨(hmem _).2 (.inl ⟨hat', hspots m' hm' hself _ _ (spot_eq_or D m') (spot_eq_or D m)⟩), fun n hn hpre => ?_⟩
      rcases (hmem n).1 hn with ⟨hn, -⟩ | hn
      · exact honly' n hn hpre
      · rw [hn] at hpre
        have hne := hspots m' hm' hself _ _ (spot_eq_or D m') (spot_eq_or D' m)
        exact absurd (prefix_dropLast hpre hne) (not_below_file (spot_ne_nil hp hm') honly' hdir)
  · rcases (hmem n).1 hn with ⟨hn, hna⟩ | hn
    · by_cases hself : m' = m
      · subst hself
        exact absurd (heq.trans hflip.2) hna
      · exact h.off m' hm' n hn (heq.trans (hother m' hm' hself).2)
    · rw [hn] at heq
      by_cases hself : m' = m
      · subst hself
        have hsame : spot D' m' = offSpot D' m' := heq
        unfold spot offSpot at hsame
        split at hsame
        · exact absurd hsame.symm (hp.src_ne_dst hm hm)
        · exact absurd hsame (hp.src_ne_dst hm hm)
      · exact absurd heq.symm (hspots m' hm' hself _ _ (offSpot_eq_or D' m') (spot_eq_or D' m))
  · have hnotspot : ∀ x, (x = m.src ∨ x = m.dst) → n.1 ≠ x := by
      rintro x (rfl | rfl)
      · exact (hne m hm).1
      · exact (hne m hm).2
    rw [hmem, h.others n hn hne, and_iff_left (hnotspot _ (spot_eq_or D m))]
    refine or_iff_left fun heq => ?_
    rw [heq] at hnotspot
    exact hnotspot _ (spot_eq_or D' m) rfl

theorem Spread.there (h : Spread before group D t) (hp : Parts before group) (hm : m ∈ group) (hD : m ∉ D)
    (hfree : t.has m.dst = false) (hdir : t.isDir m.dst.dropLast = true) :
    Spread before group (D ++ [m]) (t.rename m.src m.dst) := by
  have hmem : m ∈ D ++ [m] := List.mem_append_right _ List.mem_cons_self
  have hold : spot D m = m.src := if_neg hD
  have hnew : spot (D ++ [m]) m = m.dst := if_pos hmem
  have hfree' : t.has (spot (D ++ [m]) m) = false := by rwa [hnew]
  have hmove := h.rename hp hm hfree' (by rwa [hnew]) (fun m' hm' => ?_)
    ⟨hnew.trans (if_neg hD).symm, (if_pos hmem).trans hold.symm⟩ fun m' _ hne => ?_
  · rwa [hold, hnew] at hmove
  · rcases List.mem_append.1 hm' with hm' | hm'
    · exact h.sub m' hm'
    · rw [List.mem_singleton.1 hm']
      exact hm
  · have hiff : m' ∈ D ++ [m] ↔ m' ∈ D := by
      rw [List.mem_append, List.mem_singleton]
      exact or_iff_left hne
    simp only [spot, offSpot, hiff, and_self]

theorem Spread.back (h : Spread before group D t) (hp : Parts before group) (hD : m ∈ D)
    (hfree : t.has m.src = false) (hdir : t.isDir m.src.dropLast = true) :
    Spread before group (D.filter (· ≠ m)) (t.rename m.dst m.src) := by
  have hm := h.sub m hD
  have hnot : m ∉ D.filter (· ≠ m) := by simp
  have hold : spot D m = m.dst := if_pos hD
  have hnew : spot (D.filter (· ≠ m)) m = m.src := if_neg hnot
  have hfree' : t.has (spot (D.filter (· ≠ m)) m) = false := by rwa [hnew]
  have hmove := h.rename hp hm hfree' (by rwa [hnew])
    (fun m' hm' => h.sub m' (List.mem_filter.1 hm').1)
    ⟨hnew.trans (if_pos hD).symm, (if_neg hnot).trans hold.symm⟩ fun m' _ hne => ?_
  · rwa [hold, hnew] at hmove
  · have hiff : m' ∈ D.filter (· ≠ m) ↔ m' ∈ D := by
      rw [List.mem_filter, decide_eq_true_eq]
      exact and_iff_left hne
    simp only [spot, offSpot, hiff, and_self]

end Spreading

end Ps5Upload.Collection
