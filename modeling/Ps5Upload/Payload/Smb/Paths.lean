import Ps5Upload.Payload.Smb.Copy

/-!
# The paths of a copied tree

Names hold no slash, so the paths below two entries of a folder are different paths, and a part name
is the name of an entry next to its file.
-/

namespace Ps5Upload.SmbCopy

variable {c : Ctx} {d n n' p q s t t' : Text}

/-! ## Names -/

/-- A name that a folder may list. -/
def NameOk (n : Text) : Prop := n ≠ [] ∧ 0x2f ∉ n

/-- What may follow a name in a path: nothing, or a slash and more. -/
def Tail (t : Text) : Prop := t = [] ∨ ∃ r, t = 0x2f :: r

theorem partSuffix_ne_nil : partSuffix ≠ [] := by decide

theorem oldSuffix_ne_nil {k : Nat} (h : k < asideTries) : oldSuffix k ≠ [] := by
  revert k
  decide

theorem getLast?_oldSuffix {k : Nat} (h : k < asideTries) : (oldSuffix k).getLast? ≠ some 0x74 := by
  revert k
  decide

theorem takeWhile_name (hn : (0x2f : UInt8) ∉ n) (ht : Tail t) :
    (n ++ t).takeWhile (· ≠ 0x2f) = n := by
  have hall : ∀ x ∈ n, decide (x ≠ 0x2f) = true := by
    intro x hx
    simp only [decide_eq_true_eq]
    rintro rfl
    exact hn hx
  rw [List.takeWhile_append_of_pos hall]
  rcases ht with rfl | ⟨r, rfl⟩ <;> simp

/-- The first name of a path is found again. -/
theorem name_cancel (hn : (0x2f : UInt8) ∉ n) (hn' : (0x2f : UInt8) ∉ n') (ht : Tail t)
    (ht' : Tail t') (h : n ++ t = n' ++ t') : n = n' ∧ t = t' := by
  have hname : n = n' := by
    rw [← takeWhile_name hn ht, h, takeWhile_name hn' ht']
  subst hname
  exact ⟨rfl, List.append_cancel_left h⟩

theorem length_le_slashed (d : Text) : d.length ≤ (slashed d).length := by
  unfold slashed
  split
  · simp [*]
  · split
    · simp [*]
    · simp

/-- An entry of a folder is another place than the folder. -/
theorem length_lt_child (hn : NameOk n) (d : Text) : d.length < (child d n).length := by
  have := length_le_slashed d
  have := List.length_pos_iff.2 hn.1
  rw [child, List.length_append]
  omega

theorem slashed_child (hn : NameOk n) (d : Text) : slashed (child d n) = child d n ++ [0x2f] := by
  have hlen := length_lt_child hn d
  have hne : child d n ≠ [] := fun h => by simp [h] at hlen
  have hne' : child d n ≠ [0x2f] := by
    intro h
    have hmem : (0x2f : UInt8) ∉ n := hn.2
    unfold child slashed at h
    split at h
    · rw [List.nil_append] at h
      exact hmem (by simp [h])
    · split at h
      · exact hn.1 (by simpa using h)
      · rename_i h1 _
        have hd := List.length_pos_iff.2 h1
        have := congrArg List.length h
        simp only [List.length_append, List.length_singleton] at this
        omega
  rw [slashed, if_neg hne, if_neg hne']

/-! ## Places below a folder -/

/-- The path is the folder or stands below it. -/
def Under (d p : Text) : Prop := p = d ∨ slashed d <+: p

theorem under_child (hn : NameOk n) : Under (child d n) p ↔ ∃ t, Tail t ∧ p = slashed d ++ (n ++ t) := by
  rw [Under, slashed_child hn]
  constructor
  · rintro (rfl | ⟨r, rfl⟩)
    · exact ⟨[], .inl rfl, by rw [List.append_nil, child]⟩
    · exact ⟨0x2f :: r, .inr ⟨r, rfl⟩, by simp [child]⟩
  · rintro ⟨t, rfl | ⟨r, rfl⟩, rfl⟩
    · exact .inl (by rw [List.append_nil, child])
    · exact .inr ⟨r, by simp [child]⟩

theorem Under.of_child (hn : NameOk n) (h : Under (child d n) p) : Under d p := by
  obtain ⟨t, -, rfl⟩ := (under_child hn).1 h
  exact .inr (List.prefix_append _ _)

/-- **Nothing is below two entries of a folder.** -/
theorem Under.disjoint (hn : NameOk n) (hn' : NameOk n') (hne : n ≠ n')
    (h : Under (child d n) p) : ¬ Under (child d n') p := by
  intro h'
  obtain ⟨t, ht, rfl⟩ := (under_child hn).1 h
  obtain ⟨t', ht', heq⟩ := (under_child hn').1 h'
  exact hne (name_cancel hn.2 hn'.2 ht ht' (List.append_cancel_left heq)).1

theorem old_ne {k : Nat} (h : k < asideTries) (p : Text) : p ++ oldSuffix k ≠ p := by
  intro heq
  have := congrArg List.length heq
  rw [List.length_append] at this
  have := List.length_pos_iff.2 (oldSuffix_ne_nil h)
  omega

/-- No path is both a part name and an aside name. -/
theorem part_ne_old {k : Nat} (h : k < asideTries) (p q : Text) : p ++ partSuffix ≠ q ++ oldSuffix k := by
  intro heq
  have hlast := congrArg List.getLast? heq
  rw [List.getLast?_append_of_ne_nil _ partSuffix_ne_nil,
    List.getLast?_append_of_ne_nil _ (oldSuffix_ne_nil h)] at hlast
  exact getLast?_oldSuffix h (hlast.symm.trans (by decide))

/-! ## The tree -/

/-- The names a folder lists that are copied. -/
def Ctx.listed (c : Ctx) (path : Text) : List Text := (c.src.names path).filter (c.takes path)

theorem mem_listed : n ∈ c.listed s ↔ n ∈ c.src.names s ∧ c.takes s n = true := List.mem_filter

theorem nameOk_of_listed (h : n ∈ c.listed s) : NameOk n := c.src.name_ok s n (mem_listed.1 h).1

/-- The node at `s'` of the source tree at `s` belongs at `d'` of the tree at `d`. -/
inductive Below (c : Ctx) : Text → Text → Text → Text → Prop
  | root (s d : Text) : Below c s d s d
  | entry {s d n s' d' : Text} (hdir : c.src.node s = some .dir) (hn : n ∈ c.listed s)
      (h : Below c (child s n) (child d n) s' d') : Below c s d s' d'

variable {s' d' s₂ d₂ : Text}

theorem Below.trans (h : Below c s d s' d') (h' : Below c s' d' s₂ d₂) : Below c s d s₂ d₂ := by
  induction h with
  | root => exact h'
  | entry hdir hn _ ih => exact .entry hdir hn (ih h')

/-- One entry further down. -/
theorem Below.child (h : Below c s d s' d') (hdir : c.src.node s' = some .dir)
    (hn : n ∈ c.listed s') : Below c s d (child s' n) (child d' n) :=
  h.trans (.entry hdir hn (.root _ _))

theorem Below.under (h : Below c s d s' d') : Under d d' := by
  induction h with
  | root => exact .inl rfl
  | entry _ hn _ ih => exact ih.of_child (nameOk_of_listed hn)

end Ps5Upload.SmbCopy
