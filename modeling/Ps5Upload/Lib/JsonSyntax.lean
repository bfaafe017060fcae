import Ps5Upload.Lib.Bytes

/-!
# JSON texts

The texts of RFC 8259 as trees that keep what was written: the blanks, the escapes of a string, the
signs and cases of a number.  Any byte from `0x20` on that is no quote and no backslash may stand in a
string as it is.

* `Value.text`, `Elems.text`, `Members.text` — the text a tree was written as;
* `Members.find`, `ObjectText.find` — the first member whose key is written so, with what follows its
  value;
* `stringValue` — what a string's characters mean, where its surrogates are paired.
-/

namespace Ps5Upload.JsonSyntax

open ByteFile

/-- Bytes that may stand between the tokens. -/
def isBlank (c : UInt8) : Bool := c = 0x20 || c = 0x09 || c = 0x0a || c = 0x0d

structure Blank where
  text : Bytes
  blank : ∀ c ∈ text, isBlank c = true

def isHex (c : UInt8) : Bool :=
  (0x30 ≤ c && c ≤ 0x39) || (0x61 ≤ c && c ≤ 0x66) || (0x41 ≤ c && c ≤ 0x46)

/-- The value of a hexadecimal digit. -/
def hexOf (c : UInt8) : Nat :=
  if c ≤ 0x39 then c.toNat - 0x30 else if 0x61 ≤ c then c.toNat - 0x61 + 10 else c.toNat - 0x41 + 10

/-- The two-character escapes, and what they mean. -/
def shortEscapes : List (UInt8 × Nat) :=
  [(0x22, 0x22), (0x5c, 0x5c), (0x2f, 0x2f), (0x62, 0x08), (0x66, 0x0c), (0x6e, 0x0a), (0x72, 0x0d),
    (0x74, 0x09)]

/-- A character of a string as it is written. -/
inductive Chr where
  | plain (c : UInt8) (h : 0x20 ≤ c ∧ c ≠ 0x22 ∧ c ≠ 0x5c)
  | short (e : UInt8 × Nat) (h : e ∈ shortEscapes)
  | code (a b c d : UInt8) (h : isHex a ∧ isHex b ∧ isHex c ∧ isHex d)

def Chr.text : Chr → Bytes
  | .plain c _ => [c]
  | .short e _ => [0x5c, e.1]
  | .code a b c d _ => [0x5c, 0x75, a, b, c, d]

/-- The text between the quotes of a string. -/
def stringText (s : List Chr) : Bytes := s.flatMap Chr.text

structure Digits where
  text : Bytes
  nonempty : text ≠ []
  digits : ∀ c ∈ text, 0x30 ≤ c ∧ c ≤ 0x39

/-- The exponent of a number: its letter, its sign and its digits. -/
structure Exponent where
  letter : UInt8
  sign : Bytes
  digits : Digits
  letter_e : letter = 0x65 ∨ letter = 0x45
  sign_ok : sign ∈ [[], [0x2b], [0x2d]]

structure Number where
  minus : Bool
  whole : Digits
  frac : Option Digits
  exp : Option Exponent
  no_leading_zero : whole.text.head? = some 0x30 → whole.text.length = 1

def Number.text (n : Number) : Bytes :=
  (if n.minus then [0x2d] else []) ++ n.whole.text ++ (n.frac.elim [] fun ds => 0x2e :: ds.text) ++
    (n.exp.elim [] fun e => e.letter :: e.sign ++ e.digits.text)

/-- The number that digits spell, after `acc`. -/
def digitsValue (acc : Nat) (ds : Bytes) : Nat := ds.foldl (fun v c => v * 10 + (c.toNat - 0x30)) acc

mutual

inductive Value where
  | null
  | bool (b : Bool)
  | num (n : Number)
  | str (s : List Chr)
  | emptyArr (w : Blank)
  | arr (items : Elems)
  | emptyObj (w : Blank)
  | obj (members : Members)

/-- One element or more, each between blanks. -/
inductive Elems where
  | last (w : Blank) (v : Value) (w' : Blank)
  | more (w : Blank) (v : Value) (w' : Blank) (rest : Elems)

/-- One member or more: a key and a value, with blanks around each. -/
inductive Members where
  | last (w : Blank) (key : List Chr) (w' : Blank) (w₁ : Blank) (v : Value) (w₂ : Blank)
  | more (w : Blank) (key : List Chr) (w' : Blank) (w₁ : Blank) (v : Value) (w₂ : Blank) (rest : Members)

end

mutual

def Value.text : Value → Bytes
  | .null => [0x6e, 0x75, 0x6c, 0x6c]
  | .bool true => [0x74, 0x72, 0x75, 0x65]
  | .bool false => [0x66, 0x61, 0x6c, 0x73, 0x65]
  | .num n => n.text
  | .str s => 0x22 :: (stringText s ++ [0x22])
  | .emptyArr w => 0x5b :: (w.text ++ [0x5d])
  | .arr items => 0x5b :: (items.text ++ [0x5d])
  | .emptyObj w => 0x7b :: (w.text ++ [0x7d])
  | .obj members => 0x7b :: (members.text ++ [0x7d])

def Elems.text : Elems → Bytes
  | .last w v w' => w.text ++ (v.text ++ w'.text)
  | .more w v w' rest => w.text ++ (v.text ++ (w'.text ++ 0x2c :: rest.text))

def Members.text : Members → Bytes
  | .last w key w' w₁ v w₂ =>
    w.text ++ 0x22 :: (stringText key ++ 0x22 :: (w'.text ++ 0x3a :: (w₁.text ++ (v.text ++ w₂.text))))
  | .more w key w' w₁ v w₂ rest =>
    w.text ++ 0x22 :: (stringText key ++ 0x22 :: (w'.text ++ 0x3a :: (w₁.text ++ (v.text ++
      (w₂.text ++ 0x2c :: rest.text)))))

end

/-- **The first member whose key is written so**: its value, and the members' text after it. -/
def Members.find (key : Bytes) : Members → Option (Value × Bytes)
  | .last _ k _ _ v w₂ => if stringText k = key then some (v, w₂.text) else none
  | .more _ k _ _ v w₂ rest =>
    if stringText k = key then some (v, w₂.text ++ 0x2c :: rest.text) else rest.find key

/-- The strings of an array that has nothing else. -/
def Elems.strings : Elems → Option (List (List Chr))
  | .last _ (.str s) _ => some [s]
  | .more _ (.str s) _ rest => rest.strings.map (s :: ·)
  | _ => none

def Value.isArray : Value → Bool
  | .emptyArr _ => true
  | .arr _ => true
  | _ => false

/-- The strings of a value that is an array of strings. -/
def Value.strings : Value → Option (List (List Chr))
  | .emptyArr _ => some []
  | .arr items => items.strings
  | _ => none

/-- The text of an object, with blanks around it. -/
inductive ObjectText where
  | empty (before inner after : Blank)
  | members (before : Blank) (ms : Members) (after : Blank)

def ObjectText.text : ObjectText → Bytes
  | .empty before inner after => before.text ++ 0x7b :: (inner.text ++ 0x7d :: after.text)
  | .members before ms after => before.text ++ 0x7b :: (ms.text ++ 0x7d :: after.text)

/-- The first top-level member of a key: its value, and the whole text after it. -/
def ObjectText.find (key : Bytes) : ObjectText → Option (Value × Bytes)
  | .empty _ _ _ => none
  | .members _ ms after => (ms.find key).map fun r => (r.1, r.2 ++ 0x7d :: after.text)

/-! ## What a string means -/

/-- The unit of four digits. -/
def codeUnit (a b c d : UInt8) : Nat := ((hexOf a * 16 + hexOf b) * 16 + hexOf c) * 16 + hexOf d

/-- A code point in UTF-8. -/
def encode (cp : Nat) : Bytes :=
  if cp < 0x80 then [UInt8.ofNat cp]
  else if cp < 0x800 then [UInt8.ofNat (0xc0 + cp / 64), UInt8.ofNat (0x80 + cp % 64)]
  else if cp < 0x10000 then
    [UInt8.ofNat (0xe0 + cp / 4096), UInt8.ofNat (0x80 + cp / 64 % 64), UInt8.ofNat (0x80 + cp % 64)]
  else
    [UInt8.ofNat (0xf0 + cp / 262144), UInt8.ofNat (0x80 + cp / 4096 % 64),
      UInt8.ofNat (0x80 + cp / 64 % 64), UInt8.ofNat (0x80 + cp % 64)]

/-- A code point that is no surrogate. -/
def IsScalar (cp : Nat) : Prop := cp < 0xd800 ∨ (0xe000 ≤ cp ∧ cp < 0x110000)

/-- What a string's characters mean, in UTF-8; none where a surrogate stands alone. -/
def stringValue : List Chr → Option Bytes
  | [] => some []
  | .plain c _ :: s => (stringValue s).map (c :: ·)
  | .short e _ :: s => (stringValue s).map (encode e.2 ++ ·)
  | .code a b c d _ :: .code a' b' c' d' h' :: s =>
    let hi := codeUnit a b c d
    let lo := codeUnit a' b' c' d'
    if 0xdc00 ≤ hi ∧ hi ≤ 0xdfff then none
    else if 0xd800 ≤ hi ∧ hi ≤ 0xdbff then
      if 0xdc00 ≤ lo ∧ lo ≤ 0xdfff then
        (stringValue s).map (encode (0x10000 + (hi - 0xd800) * 1024 + (lo - 0xdc00)) ++ ·)
      else none
    else (stringValue (.code a' b' c' d' h' :: s)).map (encode hi ++ ·)
  | .code a b c d _ :: s =>
    let cp := codeUnit a b c d
    if 0xd800 ≤ cp ∧ cp ≤ 0xdfff then none else (stringValue s).map (encode cp ++ ·)

end Ps5Upload.JsonSyntax
