import Mathlib.Algebra.GroupWithZero.Nat
import Mathlib.Data.List.Infix
import Mathlib.Tactic.Common
import Ps5Upload.Lib.Checked

/-!
# Texts cut at byte offsets

A text is a list of characters, and it is cut at the offsets its UTF-8 form has: a cut inside a
character, or past the end, is refused by the languages that cut so, either with a panic or with
no answer.

* `splitAt?_eq_some`: a cut succeeds exactly where the text falls into two texts of those sizes;
* `find_eq_some`, `mem_offsets` — where a character stands;
* `rfindStr_eq_some`, `rfindStr_append` — the last place of a pattern.
-/

namespace Ps5Upload.Utf8

open Checked

abbrev Text := List Char

variable {ε : Type} {s t a b : Text} {c : Char} {i j : Nat}

/-! ## Sizes and cuts -/

/-- The length of the text in bytes. -/
def size (s : Text) : Nat := (s.map Char.utf8Size).sum

def bytes (s : Text) : List UInt8 := s.flatMap String.utf8EncodeChar

@[simp] theorem size_nil : size [] = 0 := rfl

@[simp] theorem size_cons (c : Char) (s : Text) : size (c :: s) = c.utf8Size + size s := by
  simp [size]

@[simp] theorem size_append (s t : Text) : size (s ++ t) = size s + size t := by
  simp [size]

theorem size_eq_zero : size s = 0 ↔ s = [] := by
  cases s with
  | nil => simp
  | cons c s =>
    have := c.utf8Size_pos
    simp only [size_cons, reduceCtorEq, iff_false]
    omega

theorem size_pos (h : s ≠ []) : 0 < size s := by
  rw [Nat.pos_iff_ne_zero, Ne, size_eq_zero]
  exact h

theorem length_bytes (s : Text) : (bytes s).length = size s := by
  simp [bytes, size, List.length_flatMap]

@[simp] theorem bytes_append (s t : Text) : bytes (s ++ t) = bytes s ++ bytes t := by
  simp [bytes]

@[simp] theorem bytes_cons (c : Char) (s : Text) :
    bytes (c :: s) = String.utf8EncodeChar c ++ bytes s := rfl

/-- The two sides of a byte offset, where a character begins or the text ends there. -/
def splitAt? : Text → Nat → Option (Text × Text)
  | [], i => if i = 0 then some ([], []) else none
  | c :: s, i =>
    if i = 0 then some ([], c :: s)
    else if c.utf8Size ≤ i then (splitAt? s (i - c.utf8Size)).map fun p => (c :: p.1, p.2)
    else none

theorem splitAt?_append (a b : Text) : splitAt? (a ++ b) (size a) = some (a, b) := by
  induction a with
  | nil => cases b <;> simp [splitAt?]
  | cons c a ih =>
    have := c.utf8Size_pos
    rw [List.cons_append, size_cons, splitAt?, if_neg (by omega), if_pos (by omega),
      Nat.add_sub_cancel_left, ih]
    rfl

theorem splitAt?_eq_some : splitAt? s i = some (a, b) ↔ s = a ++ b ∧ size a = i := by
  constructor
  · intro h
    induction s generalizing i a b with
    | nil =>
      rw [splitAt?] at h
      split at h
      · cases h
        exact ⟨rfl, by symm; assumption⟩
      · cases h
    | cons c s ih =>
      rw [splitAt?] at h
      split at h
      · cases h
        exact ⟨rfl, by symm; assumption⟩
      · split at h
        · obtain ⟨⟨a', b'⟩, hab, hp⟩ := Option.map_eq_some_iff.1 h
          cases hp
          obtain ⟨rfl, hi⟩ := ih hab
          refine ⟨rfl, ?_⟩
          have : size a' = i - c.utf8Size := hi
          have : size (c :: a') = c.utf8Size + size a' := size_cons c a'
          show size (c :: a') = i
          omega
        · cases h
  · rintro ⟨rfl, rfl⟩
    exact splitAt?_append a b

/-- `&s[i..]` -/
def sliceFrom (s : Text) (i : Nat) : Res ε Text :=
  match splitAt? s i with
  | some p => .ok p.2
  | none => panic

/-- `&s[..i]` -/
def sliceTo (s : Text) (i : Nat) : Res ε Text :=
  match splitAt? s i with
  | some p => .ok p.1
  | none => panic

/-- `s.get(i..j)` -/
def get (s : Text) (i j : Nat) : Option Text :=
  if i ≤ j then (splitAt? s j).bind fun p => (splitAt? p.1 i).map Prod.snd else none

/-- `&s[i..j]` -/
def sliceBetween (s : Text) (i j : Nat) : Res ε Text :=
  match get s i j with
  | some t => .ok t
  | none => panic

theorem sliceFrom_append (a b : Text) : (sliceFrom (a ++ b) (size a) : Res ε _) = .ok b := by
  rw [sliceFrom, splitAt?_append]

theorem sliceTo_append (a b : Text) : (sliceTo (a ++ b) (size a) : Res ε _) = .ok a := by
  rw [sliceTo, splitAt?_append]

theorem get_append (a t b : Text) : get (a ++ t ++ b) (size a) (size a + size t) = some t := by
  rw [get, if_pos (by omega), ← size_append, splitAt?_append]
  simp only [Option.bind_some, splitAt?_append, Option.map_some]

theorem get_eq_some : get s i j = some t ↔
    ∃ a b, s = a ++ t ++ b ∧ size a = i ∧ size a + size t = j := by
  constructor
  · intro h
    rw [get] at h
    split at h
    · obtain ⟨⟨u, b⟩, hu, h⟩ := Option.bind_eq_some_iff.1 h
      obtain ⟨⟨a, t'⟩, ha, rfl⟩ := Option.map_eq_some_iff.1 h
      obtain ⟨rfl, rfl⟩ := splitAt?_eq_some.1 hu
      obtain ⟨rfl, rfl⟩ := splitAt?_eq_some.1 ha
      exact ⟨a, b, rfl, rfl, (size_append a t').symm⟩
    · cases h
  · rintro ⟨a, b, rfl, rfl, rfl⟩
    exact get_append a t b

/-- Two cuts of one text at one offset are the same cut. -/
theorem append_inj_size {a' b' : Text} (h : a ++ b = a' ++ b') (hs : size a = size a') :
    a = a' ∧ b = b' := by
  have := splitAt?_append a b
  rw [h, hs, splitAt?_append] at this
  cases this
  exact ⟨rfl, rfl⟩

/-! ## Where a character stands -/

/-- `s.rfind(c)` -/
def rfind (c : Char) : Text → Option Nat
  | [] => none
  | d :: s =>
    match rfind c s with
    | some i => some (d.utf8Size + i)
    | none => if d = c then some 0 else none

/-- `s.find(c)` -/
def find (c : Char) : Text → Option Nat
  | [] => none
  | d :: s => if d = c then some 0 else (find c s).map (d.utf8Size + ·)

/-- The offsets at which the character stands, in order. -/
def offsets (c : Char) : Text → List Nat
  | [] => []
  | d :: s => (if d = c then [0] else []) ++ (offsets c s).map (d.utf8Size + ·)

theorem rfind_eq_none : rfind c s = none ↔ c ∉ s := by
  induction s with
  | nil => simp [rfind]
  | cons d s ih =>
    rw [rfind]
    split
    · rename_i i hi
      have : c ∈ s := by
        by_contra hc
        rw [ih.2 hc] at hi
        cases hi
      simp [this]
    · rename_i hn
      have := ih.1 hn
      by_cases hd : d = c
      · simp [hd]
      · simp [hd, this, Ne.symm hd]

theorem rfind_append (a : Text) {b : Text} (hb : c ∉ b) : rfind c (a ++ c :: b) = some (size a) := by
  induction a with
  | nil => simp [rfind, rfind_eq_none.2 hb]
  | cons d a ih => simp [rfind, ih]

theorem find_eq_none : find c s = none ↔ c ∉ s := by
  induction s with
  | nil => simp [find]
  | cons d s ih =>
    rw [find]
    split
    · rename_i hd
      simp [hd]
    · rename_i hd
      simp [ih, Ne.symm hd]

theorem find_append {a : Text} (ha : c ∉ a) (b : Text) : find c (a ++ c :: b) = some (size a) := by
  induction a with
  | nil => simp [find]
  | cons d a ih =>
    have hd : d ≠ c := fun h => ha (h ▸ List.mem_cons_self)
    simp [find, hd, ih fun h => ha (List.mem_cons_of_mem d h)]

theorem find_eq_some : find c s = some i ↔ ∃ a b, s = a ++ c :: b ∧ c ∉ a ∧ size a = i := by
  constructor
  · intro h
    have hc : c ∈ s := by
      by_contra hc
      rw [find_eq_none.2 hc] at h
      cases h
    obtain ⟨a, b, rfl, ha⟩ := List.eq_append_cons_of_mem hc
    rw [find_append ha] at h
    cases h
    exact ⟨a, b, rfl, ha, rfl⟩
  · rintro ⟨a, b, rfl, ha, rfl⟩
    exact find_append ha b

@[simp] theorem offsets_append (s t : Text) :
    offsets c (s ++ t) = offsets c s ++ (offsets c t).map (size s + ·) := by
  induction s with
  | nil => simp [offsets]
  | cons d s ih =>
    simp only [List.cons_append, offsets, ih, List.map_append, List.map_map, size_cons,
      List.append_assoc]
    congr 3
    funext k
    simp [Nat.add_assoc]

theorem offsets_eq_nil (h : c ∉ s) : offsets c s = [] := by
  induction s with
  | nil => rfl
  | cons d s ih =>
    have hd : d ≠ c := fun hd => h (hd ▸ List.mem_cons_self)
    simp [offsets, hd, ih fun hc => h (List.mem_cons_of_mem d hc)]

theorem mem_offsets : i ∈ offsets c s ↔ ∃ a b, s = a ++ c :: b ∧ size a = i := by
  constructor
  · intro h
    induction s generalizing i with
    | nil => cases h
    | cons d s ih =>
      rcases List.mem_append.1 h with h | h
      · split at h
        · rename_i hd
          have : i = 0 := by simpa using h
          subst hd
          exact ⟨[], s, rfl, this.symm⟩
        · cases h
      · obtain ⟨k, hk, rfl⟩ := List.mem_map.1 h
        obtain ⟨a, b, rfl, rfl⟩ := ih hk
        exact ⟨d :: a, b, rfl, by simp⟩
  · rintro ⟨a, b, rfl, rfl⟩
    rw [offsets_append]
    exact List.mem_append_right _ (List.mem_map.2 ⟨0, by simp [offsets], by simp⟩)

/-! ## Where a pattern stands -/

/-- `s.rfind(t)` -/
def rfindStr (t : Text) : Text → Option Nat
  | [] => if t = [] then some 0 else none
  | d :: s =>
    match rfindStr t s with
    | some i => some (d.utf8Size + i)
    | none => if t.isPrefixOf (d :: s) then some 0 else none

theorem rfindStr_eq_none : rfindStr t s = none ↔ ¬ t <:+: s := by
  induction s with
  | nil => simp [rfindStr]
  | cons d s ih =>
    rw [rfindStr, List.infix_cons_iff]
    split
    · rename_i i hi
      have : t <:+: s := by
        by_contra hc
        rw [ih.2 hc] at hi
        cases hi
      simp [this]
    · rename_i hn
      simp [ih.1 hn]

/-- The last place of a pattern that does not stand again after its first character. -/
theorem rfindStr_append (a : Text) {b : Text} (ht : t ≠ []) (h : ¬ t <:+: (t ++ b).tail) :
    rfindStr t (a ++ t ++ b) = some (size a) := by
  induction a with
  | nil =>
    obtain ⟨d, u, rfl⟩ := List.exists_cons_of_ne_nil ht
    have hn : rfindStr (d :: u) (u ++ b) = none := rfindStr_eq_none.2 h
    rw [List.nil_append, List.cons_append, rfindStr, hn]
    simp
  | cons d a ih => rw [List.cons_append, List.cons_append, rfindStr, ih, size_cons]

theorem rfindStr_some (h : rfindStr t s = some i) : ∃ a b, s = a ++ t ++ b ∧ size a = i := by
  induction s generalizing i with
  | nil =>
    rw [rfindStr] at h
    split at h
    · rename_i ht
      cases h
      exact ⟨[], [], by simp [ht], rfl⟩
    · cases h
  | cons d s ih =>
    rw [rfindStr] at h
    split at h
    · rename_i k hk
      obtain ⟨a, b, rfl, rfl⟩ := ih hk
      cases h
      exact ⟨d :: a, b, rfl, by simp⟩
    · split at h
      · rename_i hp
        obtain ⟨b, hb⟩ := List.isPrefixOf_iff_prefix.1 hp
        cases h
        exact ⟨[], b, hb.symm, rfl⟩
      · cases h

end Ps5Upload.Utf8
