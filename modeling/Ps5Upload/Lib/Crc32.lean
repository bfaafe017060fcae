import Mathlib.Data.List.Basic
import Mathlib.Tactic.Common
import Ps5Upload.Lib.Bytes

/-!
# CRC-32

The reflected CRC-32 of zip and gzip, as a hasher that takes its input piece by piece.  What
a running check rests on is `update_append`: feeding two pieces is feeding them joined.
-/

namespace Ps5Upload.Crc32

open ByteFile

/-- The running state, before the final complement. -/
structure Hasher where
  state : UInt32
  deriving DecidableEq, Repr

def Hasher.new : Hasher := ⟨0xFFFFFFFF⟩

/-- One bit through the register. -/
def bitStep (c : UInt32) : UInt32 :=
  if c &&& 1 = 1 then (c >>> 1) ^^^ 0xEDB88320 else c >>> 1

/-- One byte through the register. -/
def byteStep (c : UInt32) (b : UInt8) : UInt32 :=
  bitStep (bitStep (bitStep (bitStep (bitStep (bitStep (bitStep (bitStep
    (c ^^^ b.toUInt32))))))))

def Hasher.update (h : Hasher) (d : Bytes) : Hasher := ⟨d.foldl byteStep h.state⟩

def Hasher.finalize (h : Hasher) : UInt32 := h.state ^^^ 0xFFFFFFFF

/-- The checksum of a whole string. -/
def crc32 (d : Bytes) : UInt32 := (Hasher.new.update d).finalize

theorem update_append (h : Hasher) (a b : Bytes) :
    h.update (a ++ b) = (h.update a).update b := by
  simp [Hasher.update]

@[simp] theorem update_nil (h : Hasher) : h.update [] = h := rfl

/-- The bytes through the register, which is looked at after each: an evaluation of this does not leave
all the steps to the end. -/
def settle : Bytes → UInt32 → UInt32
  | [], c => c
  | b :: d, c => if byteStep c b = c then settle d (byteStep c b) else settle d (byteStep c b)

theorem settle_eq (d : Bytes) (c : UInt32) : settle d c = d.foldl byteStep c := by
  induction d generalizing c with
  | nil => rfl
  | cons b d ih => rw [settle, ite_self, ih, List.foldl_cons]

theorem crc32_eq_settle (d : Bytes) : crc32 d = settle d 0xFFFFFFFF ^^^ 0xFFFFFFFF := by
  rw [settle_eq]
  rfl

/-- The check value of the standard. -/
example : crc32 [49, 50, 51, 52, 53, 54, 55, 56, 57] = 0xCBF43926 := by decide +kernel

end Ps5Upload.Crc32
