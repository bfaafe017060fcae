import Ps5Upload.Core.SaveArchive.Restore

/-!
# Save archives: the paths of a tree

A tree as the list of its paths.

* `isName_of_mem_rowsOf` — the paths are of names;
* `separate_rowsOf` — no path is there twice, and none is under a file.
-/

namespace Ps5Upload.SaveArchive

open ByteFile

/-- A path of a tree, with a file's bytes. -/
abbrev Row := Path × Option Bytes

mutual
def Node.rows (p : Path) : Node → List Row
  | .file data => [(p, some data)]
  | .dir kids => (p, none) :: rowsOf p kids
/-- The paths of a folder's kids. -/
def rowsOf (p : Path) : Folder → List Row
  | [] => []
  | (name, n) :: kids => n.rows (p ++ [name]) ++ rowsOf p kids
end

/-- A name of a file system. -/
structure IsName (name : Text) : Prop where
  ne_nil : name ≠ []
  ne_dot : name ≠ ['.']
  ne_dots : name ≠ ['.', '.']
  no_slash : '/' ∉ name
  no_nul : Char.ofNat 0 ∉ name

mutual
/-- A tree of names, different in every folder. -/
def Node.Proper : Node → Prop
  | .file _ => True
  | .dir kids => (names kids).Nodup ∧ ProperKids kids
def ProperKids : Folder → Prop
  | [] => True
  | (name, n) :: kids => IsName name ∧ n.Proper ∧ ProperKids kids
end

theorem properKids_iff {kids : Folder} :
    ProperKids kids ↔ ∀ q ∈ kids, IsName q.1 ∧ q.2.Proper := by
  induction kids with
  | nil => exact ⟨fun _ => nofun, fun _ => trivial⟩
  | cons q kids ih =>
    obtain ⟨name, n⟩ := q
    rw [ProperKids, ih]
    exact ⟨fun ⟨h1, h2, h⟩ q hq => (List.mem_cons.1 hq).elim (fun heq => heq ▸ ⟨h1, h2⟩) (h q),
      fun h => ⟨(h _ List.mem_cons_self).1, (h _ List.mem_cons_self).2,
        fun q hq => h q (List.mem_cons_of_mem _ hq)⟩⟩

theorem rowsOf_eq (p : Path) (kids : Folder) :
    rowsOf p kids = kids.flatMap fun q => q.2.rows (p ++ [q.1]) := by
  induction kids with
  | nil => rfl
  | cons q kids ih => rw [rowsOf, ih, List.flatMap_cons]

/-! ## Paths of a tree -/

mutual
theorem prefix_of_mem_rows {p : Path} {r : Row} : ∀ {n : Node}, r ∈ n.rows p → p <+: r.1
  | .file data, h => by
    rw [Node.rows, List.mem_singleton] at h
    simp only [h, List.prefix_refl]
  | .dir kids, h => by
    rw [Node.rows, List.mem_cons] at h
    rcases h with rfl | h
    · exact List.prefix_refl p
    · obtain ⟨q, -, hq⟩ := prefix_of_mem_rowsOf h
      exact (List.prefix_append p [q.1]).trans hq
theorem prefix_of_mem_rowsOf {p : Path} {r : Row} : ∀ {kids : Folder}, r ∈ rowsOf p kids →
    ∃ q ∈ kids, p ++ [q.1] <+: r.1
  | [], h => by cases h
  | (name, n) :: kids, h => by
    rw [rowsOf, List.mem_append] at h
    rcases h with h | h
    · exact ⟨(name, n), List.mem_cons_self, prefix_of_mem_rows h⟩
    · obtain ⟨q, hq, hps⟩ := prefix_of_mem_rowsOf h
      exact ⟨q, List.mem_cons_of_mem _ hq, hps⟩
end

mutual
theorem isName_of_mem_rows {p : Path} (hp : ∀ c ∈ p, IsName c) {r : Row} :
    ∀ {n : Node}, n.Proper → r ∈ n.rows p → ∀ c ∈ r.1, IsName c
  | .file data, _, h => by
    rw [Node.rows, List.mem_singleton] at h
    rw [h]
    exact hp
  | .dir kids, hn, h => by
    rw [Node.rows, List.mem_cons] at h
    rw [Node.Proper] at hn
    rcases h with rfl | h
    · exact hp
    · exact isName_of_mem_rowsOf hp hn.2 h
theorem isName_of_mem_rowsOf {p : Path} (hp : ∀ c ∈ p, IsName c) {r : Row} :
    ∀ {kids : Folder}, ProperKids kids → r ∈ rowsOf p kids → ∀ c ∈ r.1, IsName c
  | [], _, h => by cases h
  | (name, n) :: kids, hk, h => by
    rw [rowsOf, List.mem_append] at h
    rw [ProperKids] at hk
    rcases h with h | h
    · refine isName_of_mem_rows (fun c hc => ?_) hk.2.1 h
      rcases List.mem_append.1 hc with hc | hc
      · exact hp c hc
      · rw [List.mem_singleton.1 hc]
        exact hk.1
    · exact isName_of_mem_rowsOf hp hk.2.2 h
end

/-- No path twice, and no path under a file. -/
structure Separate (rows : List Row) : Prop where
  nodup : (rows.map Prod.fst).Nodup
  leaf : ∀ a ∈ rows, ∀ b ∈ rows, a.2.isSome → a.1 <+: b.1 → a.1 = b.1

theorem Separate.sublist {rows rows' : List Row} (h : Separate rows) (hs : rows'.Sublist rows) :
    Separate rows' :=
  ⟨h.nodup.sublist (hs.map _), fun a ha b hb => h.leaf a (hs.subset ha) b (hs.subset hb)⟩

theorem concat_prefix_inj {p : Path} {a b : Text} {l : Path} (ha : p ++ [a] <+: l) (hb : p ++ [b] <+: l) :
    a = b := by
  obtain ⟨s, rfl⟩ := ha
  obtain ⟨t, ht⟩ := hb
  rw [List.append_assoc, List.append_assoc, List.append_cancel_left_eq] at ht
  exact (List.cons.inj ht).1.symm

mutual
theorem separate_rows (p : Path) : ∀ {n : Node}, n.Proper → Separate (n.rows p)
  | .file data, _ => by
    rw [Node.rows]
    refine ⟨List.nodup_cons.2 ⟨List.not_mem_nil, List.nodup_nil⟩, fun a ha b hb _ _ => ?_⟩
    rw [List.mem_singleton.1 ha, List.mem_singleton.1 hb]
  | .dir kids, hn => by
    rw [Node.Proper] at hn
    rw [Node.rows]
    have hkids := separate_rowsOf p hn.1 hn.2
    have hlong : ∀ r ∈ rowsOf p kids, p.length < r.1.length := fun r hr => by
      obtain ⟨q, -, hq⟩ := prefix_of_mem_rowsOf hr
      have := hq.length_le
      rw [List.length_append, List.length_singleton] at this
      omega
    refine ⟨List.nodup_cons.2 ⟨fun hmem => ?_, hkids.nodup⟩, fun a ha b hb hfile hps => ?_⟩
    · obtain ⟨r, hr, heq⟩ := List.mem_map.1 hmem
      have := hlong r hr
      rw [heq] at this
      exact Nat.lt_irrefl _ this
    · rcases List.mem_cons.1 ha with rfl | ha
      · cases hfile
      · rcases List.mem_cons.1 hb with rfl | hb
        · have hlen : a.1.length ≤ p.length := hps.length_le
          have := hlong a ha
          omega
        · exact hkids.leaf a ha b hb hfile hps
theorem separate_rowsOf (p : Path) :
    ∀ {kids : Folder}, (names kids).Nodup → ProperKids kids → Separate (rowsOf p kids)
  | [], _, _ => ⟨List.nodup_nil, nofun⟩
  | (name, n) :: kids, hnodup, hk => by
    rw [ProperKids] at hk
    rw [names, List.map_cons, List.nodup_cons] at hnodup
    have hhead := separate_rows (p ++ [name]) hk.2.1
    have htail := separate_rowsOf p hnodup.2 hk.2.2
    have happart : ∀ a ∈ n.rows (p ++ [name]), ∀ b ∈ rowsOf p kids, ∀ l, a.1 <+: l → ¬b.1 <+: l := by
      intro a ha b hb l hal hbl
      obtain ⟨q, hq, hps⟩ := prefix_of_mem_rowsOf hb
      have hname := concat_prefix_inj ((prefix_of_mem_rows ha).trans hal) (hps.trans hbl)
      exact hnodup.1 (List.mem_map.2 ⟨q, hq, hname.symm⟩)
    rw [rowsOf]
    refine ⟨?_, fun a ha b hb hfile hps => ?_⟩
    · rw [List.map_append]
      refine List.nodup_append.2 ⟨hhead.nodup, htail.nodup, fun x hx y hy hxy => ?_⟩
      obtain ⟨a, ha, rfl⟩ := List.mem_map.1 hx
      obtain ⟨b, hb, rfl⟩ := List.mem_map.1 hy
      exact happart a ha b hb a.1 (List.prefix_refl _) (hxy ▸ List.prefix_refl _)
    · rcases List.mem_append.1 ha with ha | ha
      · rcases List.mem_append.1 hb with hb | hb
        · exact hhead.leaf a ha b hb hfile hps
        · exact absurd (List.prefix_refl _) (happart a ha b hb b.1 hps)
      · rcases List.mem_append.1 hb with hb | hb
        · exact absurd hps (happart b hb a ha b.1 (List.prefix_refl _))
        · exact htail.leaf a ha b hb hfile hps
end

end Ps5Upload.SaveArchive
