import Mathlib.Algebra.Group.Nat.Defs
import Mathlib.Data.List.Basic
import Mathlib.Tactic.Common

/-!
# UTF-16

Texts, lists of characters, as the 16-bit units of UTF-16, and back.  A unit of the surrogate range
that stands alone makes the units no text.

* `encodeUtf16_lt` — a unit has sixteen bits;
* `encodeUtf16_injective` — no two texts have the same units.
-/

namespace Ps5Upload.Utf16

/-- The units of one character. -/
def charUnits (c : Char) : List Nat :=
  if c.toNat < 0x10000 then [c.toNat]
  else [0xD800 + (c.toNat - 0x10000) / 0x400, 0xDC00 + (c.toNat - 0x10000) % 0x400]

def encodeUtf16 (t : List Char) : List Nat := t.flatMap charUnits

/-- The text units spell; none where a surrogate stands alone. -/
def fromUtf16 : List Nat → Option (List Char)
  | [] => some []
  | [u] => if u < 0xD800 ∨ 0xE000 ≤ u then some [Char.ofNat u] else none
  | u :: w :: rest =>
    if u < 0xD800 ∨ 0xE000 ≤ u then (fromUtf16 (w :: rest)).map (Char.ofNat u :: ·)
    else if u < 0xDC00 ∧ 0xDC00 ≤ w ∧ w < 0xE000 then
      (fromUtf16 rest).map (Char.ofNat (0x10000 + (u - 0xD800) * 0x400 + (w - 0xDC00)) :: ·)
    else none

/-- A unit outside the surrogate range is a character. -/
theorem fromUtf16_cons {u : Nat} (h : u < 0xD800 ∨ 0xE000 ≤ u) (rest : List Nat) :
    fromUtf16 (u :: rest) = (fromUtf16 rest).map (Char.ofNat u :: ·) := by
  cases rest with
  | nil =>
    show (if _ then _ else _) = _
    rw [if_pos h]
    rfl
  | cons w rest => rw [fromUtf16, if_pos h]

/-- A character is no surrogate. -/
theorem toNat_valid (c : Char) : c.toNat < 0xD800 ∨ (0xE000 ≤ c.toNat ∧ c.toNat < 0x110000) := by
  rcases c.valid with h | ⟨h1, h2⟩
  · exact Or.inl h
  · exact Or.inr ⟨h1, h2⟩

theorem fromUtf16_charUnits (c : Char) (rest : List Nat) :
    fromUtf16 (charUnits c ++ rest) = (fromUtf16 rest).map (c :: ·) := by
  have hvalid := toNat_valid c
  unfold charUnits
  by_cases h : c.toNat < 0x10000
  · rw [if_pos h, List.singleton_append, fromUtf16_cons (by omega), Char.ofNat_toNat]
  · have hsum : 0x10000 + (0xD800 + (c.toNat - 0x10000) / 0x400 - 0xD800) * 0x400 +
        (0xDC00 + (c.toNat - 0x10000) % 0x400 - 0xDC00) = c.toNat := by omega
    rw [if_neg h, List.cons_append, List.singleton_append, fromUtf16, if_neg (by omega),
      if_pos (by omega), hsum, Char.ofNat_toNat]

/-- **Reading back.** -/
theorem fromUtf16_encodeUtf16 (t : List Char) : fromUtf16 (encodeUtf16 t) = some t := by
  induction t with
  | nil => rfl
  | cons c t ih =>
    rw [encodeUtf16, List.flatMap_cons, fromUtf16_charUnits]
    change (fromUtf16 (encodeUtf16 t)).map (c :: ·) = some (c :: t)
    rw [ih, Option.map_some]

/-- A text has no more characters than units. -/
theorem length_fromUtf16 {us : List Nat} {t : List Char} (h : fromUtf16 us = some t) :
    t.length ≤ us.length := by
  induction us using fromUtf16.induct generalizing t with
  | case1 =>
    cases h
    exact Nat.le_refl 0
  | case2 u hu =>
    rw [fromUtf16, if_pos hu] at h
    cases h
    exact Nat.le_refl 1
  | case3 u hu =>
    rw [fromUtf16, if_neg hu] at h
    cases h
  | case4 u w rest hu ih =>
    rw [fromUtf16, if_pos hu, Option.map_eq_some_iff] at h
    obtain ⟨t', ht', rfl⟩ := h
    exact Nat.succ_le_succ (ih ht')
  | case5 u w rest hu hw ih =>
    rw [fromUtf16, if_neg hu, if_pos hw, Option.map_eq_some_iff] at h
    obtain ⟨t', ht', rfl⟩ := h
    have := ih ht'
    simp only [List.length_cons]
    omega
  | case6 u w rest hu hw =>
    rw [fromUtf16, if_neg hu, if_neg hw] at h
    cases h

theorem encodeUtf16_injective : Function.Injective encodeUtf16 := by
  intro t u h
  have := fromUtf16_encodeUtf16 u
  rw [← h, fromUtf16_encodeUtf16] at this
  exact Option.some.inj this

theorem encodeUtf16_lt {t : List Char} {u : Nat} (h : u ∈ encodeUtf16 t) : u < 2 ^ 16 := by
  obtain ⟨c, -, hu⟩ := List.mem_flatMap.1 h
  have hvalid := toNat_valid c
  unfold charUnits at hu
  split at hu
  · rw [List.mem_singleton] at hu
    omega
  · rw [List.mem_cons, List.mem_singleton] at hu
    omega

end Ps5Upload.Utf16
