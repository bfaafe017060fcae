import Mathlib.Data.List.Basic
import Mathlib.Tactic.Common
import Mathlib.Tactic.Ring

/-!
# Bytes, little-endian numbers and files

A file is the list of its bytes.  `readAt`, `writeAt` and `setLen` are positioned reads and
writes and the change of a file's length, with the system's own corner cases: a read past the
end fails, a write past it leaves zeros in between, an empty read or write does nothing.

* `fromLe_le` — a number of `w` bytes read back is the number modulo `256 ^ w`;
* `getElem?_writeAt` — a write changes the bytes it covers and no others;
* `Holds` — a file has a piece at a place.
-/

namespace Ps5Upload.ByteFile

/-- A string of bytes. -/
abbrev Bytes := List UInt8

/-! ## Little-endian numbers -/

/-- The low `width` bytes of a number, least first. -/
def le : Nat → Nat → Bytes
  | 0, _ => []
  | width + 1, n => UInt8.ofNat n :: le width (n / 256)

def fromLe : Bytes → Nat
  | [] => 0
  | b :: bs => b.toNat + 256 * fromLe bs

@[simp] theorem length_le (width n : Nat) : (le width n).length = width := by
  induction width generalizing n with
  | zero => rfl
  | succ width ih => simp [le, ih]

theorem fromLe_le (width n : Nat) : fromLe (le width n) = n % 256 ^ width := by
  induction width generalizing n with
  | zero => simp [le, fromLe, Nat.mod_one]
  | succ width ih =>
    rw [le, fromLe, ih, pow_succ, Nat.mul_comm (256 ^ width) 256, Nat.mod_mul]
    simp [UInt8.toNat_ofNat']

/-- The number of `width` bytes at `off`. -/
def leAt (f : Bytes) (off width : Nat) : Nat := fromLe ((f.drop off).take width)

/-- What stands in front of the place read does not matter. -/
theorem leAt_append (a b : Bytes) {off : Nat} (h : a.length ≤ off) (width : Nat) :
    leAt (a ++ b) off width = leAt b (off - a.length) width := by
  rw [leAt, leAt, List.drop_append, List.drop_of_length_le h, List.nil_append]

theorem leAt_drop (f : Bytes) (k off width : Nat) :
    leAt (f.drop k) off width = leAt f (k + off) width := by
  rw [leAt, leAt, List.drop_drop]

theorem leAt_le_append {w off : Nat} (v : Nat) (b : Bytes) (h : w ≤ off) (width : Nat) :
    leAt (le w v ++ b) off width = leAt b (off - w) width := by
  rw [leAt_append _ _ (by rwa [length_le]), length_le]

theorem leAt_le (w v : Nat) (b : Bytes) : leAt (le w v ++ b) 0 w = v % 256 ^ w := by
  rw [leAt, List.drop_zero, List.take_left' (length_le w v), fromLe_le]

/-! ## Files -/

/-- The bytes of a file from `off` on, if it has that many. -/
def readAt (f : Bytes) (off n : Nat) : Option Bytes :=
  if n = 0 then some []
  else if off + n ≤ f.length then some ((f.drop off).take n)
  else none

/-- The file with `d` written at `off`. -/
def writeAt (f : Bytes) (off : Nat) (d : Bytes) : Bytes :=
  if d = [] then f
  else f.take off ++ List.replicate (off - f.length) 0 ++ d ++ f.drop (off + d.length)

/-- The file cut or filled up to `n` bytes. -/
def setLen (f : Bytes) (n : Nat) : Bytes := f.take n ++ List.replicate (n - f.length) 0

theorem length_setLen (f : Bytes) (n : Nat) : (setLen f n).length = n := by
  rw [setLen, List.length_append, List.length_take, List.length_replicate]
  omega

/-- A write at the end of a file appends to it. -/
theorem writeAt_length (f d : Bytes) : writeAt f f.length d = f ++ d := by
  unfold writeAt
  split
  · rename_i h
    rw [h, List.append_nil]
  · simp

/-- The length after a write inside a file or at its end. -/
theorem length_writeAt {f d : Bytes} {off : Nat} (h : off ≤ f.length) :
    (writeAt f off d).length = max f.length (off + d.length) := by
  unfold writeAt
  split
  · rename_i hd
    rw [hd]
    simp only [List.length_nil]
    omega
  · simp only [List.length_append, List.length_take, List.length_replicate, List.length_drop]
    omega

/-- A write changes the bytes it covers and no others. -/
theorem getElem?_writeAt {f d : Bytes} {off : Nat} (h : off ≤ f.length) (p : Nat) :
    (writeAt f off d)[p]? = if off ≤ p ∧ p < off + d.length then d[p - off]? else f[p]? := by
  unfold writeAt
  split
  · rename_i hd
    rw [if_neg]
    rw [hd]
    simp only [List.length_nil]
    omega
  · have hzero : off - f.length = 0 := by omega
    have hlen : (f.take off).length = off := by simp; omega
    rw [hzero, List.replicate_zero, List.append_nil, List.append_assoc]
    by_cases hp : p < off
    · rw [if_neg (by omega), List.getElem?_append_left (by omega), List.getElem?_take_of_lt hp]
    · rw [List.getElem?_append_right (by omega), hlen]
      by_cases hq : p < off + d.length
      · rw [if_pos ⟨by omega, hq⟩, List.getElem?_append_left (by omega)]
      · rw [if_neg (by omega), List.getElem?_append_right (by omega), List.getElem?_drop]
        congr 1
        omega

theorem setLen_of_le {f : Bytes} {n : Nat} (h : n ≤ f.length) : setLen f n = f.take n := by
  have : n - f.length = 0 := by omega
  rw [setLen, this, List.replicate_zero, List.append_nil]

/-- Reading what stands between two parts of a file. -/
theorem readAt_append (a b c : Bytes) : readAt (a ++ b ++ c) a.length b.length = some b := by
  unfold readAt
  split
  · rename_i h
    rw [List.length_eq_zero_iff.1 h]
  · rw [if_pos (by simp), List.append_assoc, List.drop_left, List.take_left]

/-- A read sees only the bytes it covers. -/
theorem readAt_of_agree {f g : Bytes} {off n : Nat} {d : Bytes} (hd : readAt g off n = some d)
    (h : ∀ p, off ≤ p → p < off + n → f[p]? = g[p]?) : readAt f off n = some d := by
  unfold readAt at hd ⊢
  split at hd
  · rename_i hn
    rw [if_pos hn]
    exact hd
  · rename_i hn
    rw [if_neg hn]
    split at hd
    · rename_i hlen
      have hf : off + n ≤ f.length := by
        have hlast := h (off + n - 1) (by omega) (by omega)
        rw [List.getElem?_eq_getElem (by omega : off + n - 1 < g.length)] at hlast
        have := (List.getElem?_eq_some_iff.1 hlast).1
        omega
      rw [if_pos hf, ← hd]
      congr 1
      refine List.ext_getElem? fun p => ?_
      by_cases hp : p < n
      · rw [List.getElem?_take_of_lt hp, List.getElem?_take_of_lt hp, List.getElem?_drop,
          List.getElem?_drop]
        exact h (off + p) (by omega) (by omega)
      · rw [List.getElem?_eq_none (by simp; omega), List.getElem?_eq_none (by simp; omega)]
    · simp at hd

/-! ## Records -/

theorem length_flatMap_const {α : Type} {l : List α} {f : α → Bytes} {c : Nat}
    (h : ∀ a ∈ l, (f a).length = c) : (l.flatMap f).length = l.length * c := by
  induction l with
  | nil => rw [List.flatMap_nil, List.length_nil, List.length_nil, Nat.zero_mul]
  | cons a l ih =>
    rw [List.flatMap_cons, List.length_append, h a List.mem_cons_self,
      ih fun b hb => h b (List.mem_cons_of_mem a hb), List.length_cons, Nat.succ_mul, Nat.add_comm]

/-- The `i`-th of records of `w` bytes behind a header. -/
theorem take_drop_records {α : Type} (head : Bytes) {f : α → Bytes} {w : Nat} {xs : List α} {i : Nat}
    {x : α} (hw : ∀ x, (f x).length = w) (hx : xs[i]? = some x) :
    ((head ++ xs.flatMap f).drop (head.length + i * w)).take w = f x := by
  obtain ⟨hlt, rfl⟩ := List.getElem?_eq_some_iff.1 hx
  have hpre : ((xs.take i).flatMap f).length = i * w := by
    rw [length_flatMap_const fun x _ => hw x, List.length_take_of_le (Nat.le_of_lt hlt)]
  have hsplit : xs.flatMap f = (xs.take i).flatMap f ++ (f xs[i] ++ (xs.drop (i + 1)).flatMap f) := by
    conv_lhs => rw [← List.take_append_drop i xs, List.flatMap_append, List.drop_eq_getElem_cons hlt,
      List.flatMap_cons]
  rw [← List.drop_drop, List.drop_left, hsplit, ← hpre, List.drop_left, ← hw xs[i], List.take_left]

/-! ## Parts of a file -/

/-- The file has the bytes `d` at `off`. -/
def Holds (f : Bytes) (off : Nat) (d : Bytes) : Prop := ∃ a b, f = a ++ (d ++ b) ∧ a.length = off

namespace Holds

variable {f d e : Bytes} {off off' : Nat}

theorem of_append (a d b : Bytes) : Holds (a ++ (d ++ b)) a.length d := ⟨a, b, rfl, rfl⟩

/-- What follows a part of known length. -/
theorem of_length {a d : Bytes} (h : a.length = off) : Holds (a ++ d) off d :=
  ⟨a, [], by rw [List.append_nil], h⟩

/-- A part of a part. -/
theorem trans (h : Holds f off d) (h' : Holds d off' e) : Holds f (off + off') e := by
  obtain ⟨a, b, rfl, rfl⟩ := h
  obtain ⟨a', b', rfl, rfl⟩ := h'
  exact ⟨a ++ a', b' ++ b, by simp only [List.append_assoc], List.length_append⟩

theorem take_drop (h : Holds f off d) : (f.drop off).take d.length = d := by
  obtain ⟨a, b, rfl, rfl⟩ := h
  rw [List.drop_left, List.take_left]

theorem le_length (h : Holds f off d) : off + d.length ≤ f.length := by
  obtain ⟨a, b, rfl, rfl⟩ := h
  simp only [List.length_append]
  omega

/-- Bytes inside the part. -/
theorem slice (h : Holds f off d) {i n : Nat} (hn : i + n ≤ d.length) :
    (f.drop (off + i)).take n = (d.drop i).take n := by
  obtain ⟨a, b, rfl, rfl⟩ := h
  rw [← List.drop_drop, List.drop_left, List.drop_append_of_le_length (by omega),
    List.take_append_of_le_length (by rw [List.length_drop]; omega)]

theorem leAt (h : Holds f off d) {i w : Nat} (hw : i + w ≤ d.length) :
    leAt f (off + i) w = ByteFile.leAt d i w := by
  rw [ByteFile.leAt, ByteFile.leAt, h.slice hw]

end Holds

end Ps5Upload.ByteFile
