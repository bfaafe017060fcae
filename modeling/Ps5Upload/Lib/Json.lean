import Ps5Upload.Lib.CText

/-!
# JSON trees and their compact text

A JSON value as a tree, and the text a compact writer makes of it: no blanks, the members of an
object in the order they stand in, strings with the short escapes where there are any.  A number is
kept as the digits it is written with, so a fraction or an exponent stays as it is.
-/

namespace Ps5Upload.JsonText

open ByteFile CText

/-- One digit or more. -/
structure Digits where
  text : Bytes
  nonempty : text ≠ []
  digits : ∀ c ∈ text, isDigit c = true
  deriving DecidableEq

/-- The digits of a natural number. -/
def Digits.ofNat (n : Nat) : Digits := ⟨dec n, dec_ne_nil n, fun _ h => mem_dec h⟩

/-- The sign of an exponent, if one is written. -/
inductive ExpSign where
  | none
  | plus
  | minus
  deriving DecidableEq

structure JsonNum where
  neg : Bool
  whole : Digits
  frac : Option Digits
  exp : Option (ExpSign × Digits)
  deriving DecidableEq

def JsonNum.ofNat (n : Nat) : JsonNum := ⟨false, Digits.ofNat n, none, none⟩

mutual

inductive Json where
  | null
  | bool (b : Bool)
  | num (n : JsonNum)
  | str (s : Bytes)
  | arr (items : Items)
  | obj (members : Members)

inductive Items where
  | nil
  | cons (j : Json) (rest : Items)

inductive Members where
  | nil
  | cons (key : Bytes) (j : Json) (rest : Members)

end

/-! ## Text -/

/-- A byte inside a string. -/
def escapeByte (c : UInt8) : Bytes :=
  if c = 0x22 then [0x5c, 0x22]
  else if c = 0x5c then [0x5c, 0x5c]
  else if c = 0x08 then [0x5c, 0x62]
  else if c = 0x09 then [0x5c, 0x74]
  else if c = 0x0a then [0x5c, 0x6e]
  else if c = 0x0c then [0x5c, 0x66]
  else if c = 0x0d then [0x5c, 0x72]
  else if c < 0x20 then
    [0x5c, 0x75, 0x30, 0x30, hexDigit (c.toNat / 16), hexDigit (c.toNat % 16)]
  else [c]

def printStr (s : Bytes) : Bytes := 0x22 :: s.flatMap escapeByte ++ [0x22]

def ExpSign.text : ExpSign → Bytes
  | .none => []
  | .plus => [0x2b]
  | .minus => [0x2d]

def JsonNum.text (n : JsonNum) : Bytes :=
  (if n.neg then [0x2d] else []) ++ n.whole.text
    ++ (n.frac.elim [] fun ds => 0x2e :: ds.text)
    ++ (n.exp.elim [] fun e => 0x65 :: e.1.text ++ e.2.text)

mutual

def Json.print : Json → Bytes
  | .null => [0x6e, 0x75, 0x6c, 0x6c]
  | .bool true => [0x74, 0x72, 0x75, 0x65]
  | .bool false => [0x66, 0x61, 0x6c, 0x73, 0x65]
  | .num n => n.text
  | .str s => printStr s
  | .arr items => 0x5b :: items.print ++ [0x5d]
  | .obj members => 0x7b :: members.print ++ [0x7d]

/-- The items with commas between them. -/
def Items.print : Items → Bytes
  | .nil => []
  | .cons j .nil => j.print
  | .cons j (.cons j' rest) => j.print ++ 0x2c :: (Items.cons j' rest).print

def Members.print : Members → Bytes
  | .nil => []
  | .cons key j .nil => printStr key ++ 0x3a :: j.print
  | .cons key j (.cons key' j' rest) =>
    printStr key ++ 0x3a :: j.print ++ 0x2c :: (Members.cons key' j' rest).print

end

/-- A byte of a string is written as a short escape, as a code, or as it is. -/
theorem escapeByte_cases (c : UInt8) :
    (∃ d, escapeByte c = [0x5c, d]) ∨
    (∃ m < 16, ∃ n < 16, escapeByte c = [0x5c, 0x75, 0x30, 0x30, hexDigit m, hexDigit n]) ∨
    (escapeByte c = [c] ∧ c ≠ 0x5c ∧ c ≠ 0x22 ∧ ¬c < 0x20) := by
  have hc := c.toNat_lt
  unfold escapeByte
  split
  · exact Or.inl ⟨_, rfl⟩
  split
  · exact Or.inl ⟨_, rfl⟩
  split
  · exact Or.inl ⟨_, rfl⟩
  split
  · exact Or.inl ⟨_, rfl⟩
  split
  · exact Or.inl ⟨_, rfl⟩
  split
  · exact Or.inl ⟨_, rfl⟩
  split
  · exact Or.inl ⟨_, rfl⟩
  split
  · exact Or.inr (Or.inl ⟨_, by omega, _, by omega, rfl⟩)
  · rename_i hq hb _ _ _ _ _ hctl
    exact Or.inr (Or.inr ⟨rfl, hb, hq, hctl⟩)

/-! ## Looking things up -/

/-- The value of a key of an object. -/
def Members.get (key : Bytes) : Members → Option Json
  | .nil => none
  | .cons k j rest => if k = key then some j else rest.get key

def Json.get (j : Json) (key : Bytes) : Option Json :=
  match j with
  | .obj members => members.get key
  | _ => none

def Json.isObject : Json → Bool
  | .obj _ => true
  | _ => false

def Json.asBool : Json → Option Bool
  | .bool b => some b
  | _ => none

/-- A whole number of 64 bits that is not negative. -/
def Json.asU64 : Json → Option UInt64
  | .num n =>
    if n.neg || n.frac.isSome || n.exp.isSome then none
    else
      let v := readDigits 0 n.whole.text
      if v < 2 ^ 64 then some (UInt64.ofNat v) else none
  | _ => none

theorem print_ofNat (n : Nat) : (Json.num (JsonNum.ofNat n)).print = dec n := by
  simp [Json.print, JsonNum.text, JsonNum.ofNat, Digits.ofNat]

theorem asU64_ofNat (n : UInt64) : (Json.num (JsonNum.ofNat n.toNat)).asU64 = some n := by
  have hread : readDigits 0 (dec n.toNat) = n.toNat := by
    simpa using readDigits_dec n.toNat noDigit_nil
  have hlt := n.toNat_lt
  simp [Json.asU64, JsonNum.ofNat, Digits.ofNat, hread, hlt]

end Ps5Upload.JsonText
