import Ps5Upload.Lib.Bytes
import Ps5Upload.Lib.Checked

/-!
# Fixed-width fields of a record

A number of `width` bytes at a place of a record, with the bounds of the record checked.

* `field_eq` — inside the record it is the number the bytes spell, `safe_field` its bound;
* `leAt_lt` — a number of `width` bytes is below `256 ^ width`.
-/

namespace Ps5Upload.ByteFile

open Checked

theorem fromLe_lt (bs : Bytes) : fromLe bs < 256 ^ bs.length := by
  induction bs with
  | nil => exact Nat.one_pos
  | cons b bs ih =>
    have hb : b.toNat < 256 := b.toNat_lt
    rw [fromLe, List.length_cons, pow_succ]
    omega

theorem leAt_lt (f : Bytes) (off width : Nat) : leAt f off width < 256 ^ width := by
  refine Nat.lt_of_lt_of_le (fromLe_lt _) (Nat.pow_le_pow_right (by omega) ?_)
  rw [List.length_take]
  exact Nat.min_le_left _ _

variable {ε : Type}

/-- The number of `width` bytes at `off`. -/
def field (bs : Bytes) (off width : Nat) : Res ε Nat := do
  let b ← slice bs off (off + width)
  return fromLe b

theorem field_eq {bs : Bytes} {off width : Nat} (h : off + width ≤ bs.length) :
    (field bs off width : Res ε _) = .ok (leAt bs off width) := by
  rw [field, slice_eq (by omega) h, ok_bind, Nat.add_sub_cancel_left]
  rfl

theorem safe_field {bs : Bytes} {off width : Nat} (h : off + width ≤ bs.length) :
    Safe (fun n => n = leAt bs off width) (field bs off width : Res ε _) := by
  rw [field_eq h]
  exact rfl

end Ps5Upload.ByteFile
