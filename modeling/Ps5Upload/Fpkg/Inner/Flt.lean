import Ps5Upload.Lib.Bytes
import Ps5Upload.Lib.Utf8
import Mathlib.Data.List.Sort

/-!
# Flat-path tables

`flt.rs` of `ps5upload-fpkg`: the hash of a path, the words of an entry and the bytes of a table.
-/

namespace Ps5Upload.Inner

open ByteFile Utf8

/-- `to_ascii_uppercase` -/
def upper (t : Text) : Text := t.map fun c => if 'a' ≤ c ∧ c ≤ 'z' then Char.ofNat (c.toNat - 32) else c

abbrev Word := BitVec 64

/-! ## The hash -/

def seed0 : Word := 0x92ca8aab26a24f51

def seed1 : Word := 0x09bbb761a41bc44d

def roundConst : Word := 0x8000000080008081

/-- The three lanes. -/
structure Lanes where
  a0 : Word
  a1 : Word
  a2 : Word

/-- One word into the lanes. -/
def Lanes.absorb (s : Lanes) (w : Word) : Lanes :=
  let a0 := s.a0 ^^^ w
  let t18 := ((s.a2 ^^^ s.a1).rotateLeft 5 ^^^ a0).rotateRight 11
  let t12 := ((s.a2 ^^^ a0).rotateLeft 17 ^^^ s.a1).rotateLeft 11
  let a2 := ((s.a1 ^^^ a0).rotateLeft 1 ^^^ s.a2).rotateRight 5
  ⟨(~~~t12 &&& a2) ^^^ t18 ^^^ roundConst, (~~~a2 &&& t18) ^^^ t12, a2 ^^^ (~~~t18 &&& t12)⟩

/-- `words` words of eight bytes, and what is left of the bytes. -/
def absorbWords : Nat → Lanes → Bytes → Lanes × Bytes
  | 0, s, bytes => (s, bytes)
  | words + 1, s, bytes =>
    absorbWords words (s.absorb (BitVec.ofNat 64 (fromLe (bytes.take 8)))) (bytes.drop 8)

/-- `hash_bytes`: the last one to eight bytes are not absorbed like the others. -/
def hashBytes (bytes : Bytes) : Word :=
  let start : Lanes := ⟨seed0, seed0.rotateLeft 11, seed0.rotateLeft 23⟩
  let (s, rest) := absorbWords ((bytes.length - 1) / 8) start bytes
  let u6 := BitVec.ofNat 64 (fromLe rest) ^^^ s.a0 ^^^ seed1
  let u17 := (s.a2 ^^^ s.a1).rotateLeft 5 ^^^ u6
  let u18 := (s.a2 ^^^ u6).rotateLeft 17 ^^^ s.a1
  let u11 := (s.a1 ^^^ u6).rotateLeft 1 ^^^ s.a2
  (~~~(u18.rotateLeft 11) &&& u11.rotateRight 5) ^^^ u17.rotateRight 11 ^^^ roundConst

/-- `hash_path` -/
def hashPath (path : Text) : Word :=
  hashBytes (bytes (upper (if ['/'] <+: path then path.drop 1 else path)))

/-! ## Entries -/

/-- `FLAG_EMPTY` -/
def flagEmpty : Word := 0x20000000

/-- `pack_inode_entry` -/
def packInodeEntry (inode : Nat) (isDir isSubtree : Bool) (afid : Nat) : Word :=
  (BitVec.ofNat 64 inode &&& 0xFFFFFF) ||| (if isDir then 0x40000000 else 0) |||
    (if isSubtree then 0x80000000 else 0) |||
    (BitVec.ofNat 64 (if isDir then 0xFFFFFF else afid) <<< 40)

/-- `pack_apr_entry` -/
def packAprEntry (uncompressedSize afid : Nat) : Word :=
  (BitVec.ofNat 64 uncompressedSize &&& 0xFFFFFFFFFF) ||| (BitVec.ofNat 64 afid <<< 40)

/-- `HEADER_SEED` -/
def headerSeed : Bytes :=
  [0x51, 0x4f, 0xa2, 0x26, 0xab, 0x8a, 0xca, 0x92, 0x4d, 0xc4, 0x1b, 0xa4, 0x61, 0xb7, 0xbb, 0x09]

/-- `flt::write`: the header, and the entries by their hashes. -/
def fltBytes (entries : List (Word × Word)) : Bytes :=
  let sorted := entries.insertionSort fun a b => a.1.toNat ≤ b.1.toNat
  le 4 1 ++ [16, 0, 0, 0] ++ le 4 0x40 ++ List.replicate 20 0 ++ [0x7F, 0x46, 0x4C, 0x54] ++
    List.replicate 8 0 ++ le 4 sorted.length ++ headerSeed ++
    sorted.flatMap fun e => le 8 e.1.toNat ++ le 8 e.2.toNat

end Ps5Upload.Inner
