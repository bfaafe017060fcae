import Mathlib.Data.List.Basic
import Mathlib.Tactic.Common
import Ps5Upload.Lib.Bytes

/-!
# The helper's JSON reader

The readers of `payload/src/webui_codec.c` that look up a top-level key of a request: strings,
unsigned numbers and booleans.  A pointer into the text is the rest of the text from there.

`decodeStr` writes a string into a buffer of fixed size; `strValue` is what the string says,
without a buffer.  `decodeStr_eq` says how the two differ: a value that is too long for the
buffer, or has a NUL, is not read.
-/

namespace Ps5Upload.WebuiCodec

open ByteFile

/-- The bytes of a text of plain characters. -/
def ascii (s : String) : Bytes := s.toList.map fun c => UInt8.ofNat c.toNat

/-! ## Scanning -/

def isSpace (c : UInt8) : Bool := c = 0x20 || c = 0x09 || c = 0x0a || c = 0x0d

def ws (p : Bytes) : Bytes := p.dropWhile isSpace

/-- The text inside a string and what follows its closing quote; `p` is after the opening one. -/
def splitStr : Bytes → Option (Bytes × Bytes)
  | [] => none
  | c :: cs =>
    if c = 0x5c then
      match cs with
      | [] => none
      | d :: cs' => (splitStr cs').map fun r => (c :: d :: r.1, r.2)
    else if c = 0x22 then some ([], cs)
    else (splitStr cs).map fun r => (c :: r.1, r.2)

theorem ws_cons {c : UInt8} (hc : isSpace c = false) (cs : Bytes) : ws (c :: cs) = c :: cs :=
  List.dropWhile_cons_of_neg (by rw [hc]; exact Bool.false_ne_true)

theorem splitStr_escape (d : UInt8) (cs : Bytes) :
    splitStr (0x5c :: d :: cs) = (splitStr cs).map fun r => (0x5c :: d :: r.1, r.2) := by
  rw [splitStr.eq_def]
  exact if_pos rfl

theorem splitStr_quote (cs : Bytes) : splitStr (0x22 :: cs) = some ([], cs) := by
  rw [splitStr.eq_def]
  rfl

theorem splitStr_plain {c : UInt8} (hc : c ≠ 0x5c) (hq : c ≠ 0x22) (cs : Bytes) :
    splitStr (c :: cs) = (splitStr cs).map fun r => (c :: r.1, r.2) := by
  rw [splitStr.eq_def]
  exact (if_neg hc).trans (if_neg hq)

def skipStr (p : Bytes) : Option Bytes := (splitStr p).map Prod.snd

def isDelim (c : UInt8) : Bool := c = 0x2c || c = 0x7d || c = 0x5d || isSpace c

/-- The loop over a container: brackets are counted outside strings. -/
def skipBrackets : Nat → Bool → Bytes → Option Bytes
  | _, _, [] => none
  | depth, true, c :: cs =>
    if c = 0x5c then
      match cs with
      | [] => none
      | _ :: cs' => skipBrackets depth true cs'
    else if c = 0x22 then skipBrackets depth false cs
    else skipBrackets depth true cs
  | depth, false, c :: cs =>
    if c = 0x22 then skipBrackets depth true cs
    else if c = 0x7b ∨ c = 0x5b then skipBrackets (depth + 1) false cs
    else if c = 0x7d ∨ c = 0x5d then
      if depth = 1 then some cs else skipBrackets (depth - 1) false cs
    else skipBrackets depth false cs

/-- What follows the value at `p`. -/
def skipVal (p : Bytes) : Option Bytes :=
  match p with
  | [] => none
  | c :: cs =>
    if c = 0x22 then skipStr cs
    else if c = 0x7b ∨ c = 0x5b then skipBrackets 0 false p
    else if isDelim c then none
    else some (cs.dropWhile fun d => !isDelim d)

/-- The loop over the members of an object; every turn takes bytes, so the length of the text is
turns enough. -/
def memberValue (key : Bytes) : Nat → Bytes → Option Bytes
  | 0, _ => none
  | turns + 1, p =>
    match ws p with
    | [] => none
    | c :: cs =>
      if c ≠ 0x22 then none
      else
        match splitStr cs with
        | none => none
        | some (k, p) =>
          match ws p with
          | [] => none
          | c :: cs =>
            if c ≠ 0x3a then none
            else
              let v := ws cs
              if v = [] then none
              else if k = key then some v
              else
                match skipVal v with
                | none => none
                | some p =>
                  match ws p with
                  | c :: cs => if c = 0x2c then memberValue key turns cs else none
                  | [] => none

/-- The text from the value of a top-level key on. -/
def topValue (json key : Bytes) : Option Bytes :=
  match ws json with
  | c :: cs => if c = 0x7b then memberValue key json.length cs else none
  | [] => none

/-! ## Strings -/

def hexval (c : UInt8) : Option Nat :=
  if 0x30 ≤ c ∧ c ≤ 0x39 then some (c.toNat - 0x30)
  else if 0x61 ≤ c ∧ c ≤ 0x66 then some (c.toNat - 0x61 + 10)
  else if 0x41 ≤ c ∧ c ≤ 0x46 then some (c.toNat - 0x41 + 10)
  else none

/-- Four hex digits. -/
def hex4 : Bytes → Option Nat
  | a :: b :: c :: d :: _ => do
    let a ← hexval a
    let b ← hexval b
    let c ← hexval c
    let d ← hexval d
    some (((a * 16 + b) * 16 + c) * 16 + d)
  | _ => none

/-- The code point of an escape, and how many bytes it takes after the backslash. -/
def escape : Bytes → Option (Nat × Nat)
  | [] => none
  | c :: cs =>
    if c = 0x22 ∨ c = 0x5c ∨ c = 0x2f then some (c.toNat, 1)
    else if c = 0x62 then some (0x08, 1)
    else if c = 0x66 then some (0x0c, 1)
    else if c = 0x6e then some (0x0a, 1)
    else if c = 0x72 then some (0x0d, 1)
    else if c = 0x74 then some (0x09, 1)
    else if c = 0x75 then
      match hex4 cs with
      | none => none
      | some v =>
        if 0xdc00 ≤ v ∧ v ≤ 0xdfff then none
        else if 0xd800 ≤ v ∧ v ≤ 0xdbff then
          match cs.drop 4 with
          | 0x5c :: 0x75 :: cs' =>
            match hex4 cs' with
            | none => none
            | some lo =>
              if lo < 0xdc00 ∨ 0xdfff < lo then none
              else some (0x10000 + (v - 0xd800) * 1024 + (lo - 0xdc00), 11)
          | _ => none
        else some (v, 5)
    else none

/-- The escape of a code unit, or of a surrogate pair. -/
theorem escape_unicode (cs : Bytes) : escape (0x75 :: cs) =
    match hex4 cs with
    | none => none
    | some v =>
      if 0xdc00 ≤ v ∧ v ≤ 0xdfff then none
      else if 0xd800 ≤ v ∧ v ≤ 0xdbff then
        match cs.drop 4 with
        | 0x5c :: 0x75 :: cs' =>
          match hex4 cs' with
          | none => none
          | some lo =>
            if lo < 0xdc00 ∨ 0xdfff < lo then none
            else some (0x10000 + (v - 0xd800) * 1024 + (lo - 0xdc00), 11)
        | _ => none
      else some (v, 5) := rfl

/-- A code point in UTF-8. -/
def utf8 (cp : Nat) : Bytes :=
  if cp < 0x80 then [UInt8.ofNat cp]
  else if cp < 0x800 then [UInt8.ofNat (0xc0 + cp / 64), UInt8.ofNat (0x80 + cp % 64)]
  else if cp < 0x10000 then
    [UInt8.ofNat (0xe0 + cp / 4096), UInt8.ofNat (0x80 + cp / 64 % 64),
      UInt8.ofNat (0x80 + cp % 64)]
  else
    [UInt8.ofNat (0xf0 + cp / 262144), UInt8.ofNat (0x80 + cp / 4096 % 64),
      UInt8.ofNat (0x80 + cp / 64 % 64), UInt8.ofNat (0x80 + cp % 64)]

/-- The loop of `decode_str` into a buffer of `cap` bytes, `o` of them filled; the first `skip`
bytes belong to an escape already read. -/
def decodeFrom (cap : Nat) : Nat → Nat → Bytes → Option Bytes
  | _, _, [] => none
  | skip + 1, o, _ :: cs => decodeFrom cap skip o cs
  | 0, o, c :: cs =>
    if c = 0x22 then some []
    else if c < 0x20 then none
    else if c ≠ 0x5c then
      if cap ≤ o + 1 then none else (decodeFrom cap 0 (o + 1) cs).map fun v => c :: v
    else
      match escape cs with
      | none => none
      | some (cp, used) =>
        if cp = 0 then none
        else if cap ≤ o + (utf8 cp).length then none
        else (decodeFrom cap used (o + (utf8 cp).length) cs).map fun v => utf8 cp ++ v

def decodeStr (cap : Nat) (p : Bytes) : Option Bytes :=
  match p with
  | c :: cs => if c ≠ 0x22 ∨ cap = 0 then none else decodeFrom cap 0 0 cs
  | [] => none

/-- What a reader found: a value, no such key, or a value it cannot use. -/
inductive Found (α : Type) where
  | found (v : α)
  | absent
  | unusable
  deriving DecidableEq, Repr

def Found.value? {α : Type} : Found α → Option α
  | .found v => some v
  | _ => none

def jsonStr (json : Bytes) (key : String) (cap : Nat) : Found Bytes :=
  match topValue json (ascii key) with
  | none => .absent
  | some p =>
    match decodeStr cap p with
    | none => .unusable
    | some v => .found v

/-! ## Numbers and booleans -/

/-- The digits at `p`, added to `v`, and what follows them; `none` past 64 bits. -/
def digits : Nat → Nat → Bytes → Option (Nat × Nat × Bytes)
  | v, n, c :: cs =>
    if 0x30 ≤ c ∧ c ≤ 0x39 then
      let d := c.toNat - 0x30
      if (2 ^ 64 - 1 - d) / 10 < v then none else digits (v * 10 + d) (n + 1) cs
    else some (v, n, c :: cs)
  | v, n, [] => some (v, n, [])

def atDelim : Bytes → Bool
  | [] => true
  | c :: _ => isDelim c

def jsonU64 (json : Bytes) (key : String) : Found Nat :=
  match topValue json (ascii key) with
  | none => .absent
  | some p =>
    match digits 0 0 p with
    | none => .unusable
    | some (v, n, rest) => if n = 0 ∨ !atDelim rest then .unusable else .found v

def jsonBool (json : Bytes) (key : String) : Found Bool :=
  match topValue json (ascii key) with
  | none => .absent
  | some p =>
    if (ascii "true").isPrefixOf p && atDelim (p.drop 4) then .found true
    else if (ascii "false").isPrefixOf p && atDelim (p.drop 5) then .found false
    else .unusable

/-! ## What a string says -/

/-- The value of the string whose text goes on at `p`, in UTF-8. -/
def valueFrom : Nat → Bytes → Option Bytes
  | _, [] => none
  | skip + 1, _ :: cs => valueFrom skip cs
  | 0, c :: cs =>
    if c = 0x22 then some []
    else if c < 0x20 then none
    else if c ≠ 0x5c then (valueFrom 0 cs).map fun v => c :: v
    else
      match escape cs with
      | none => none
      | some (cp, used) => (valueFrom used cs).map fun v => utf8 cp ++ v

/-- The string that is a request's value for a key, if it has one. -/
def strValue (json : Bytes) (key : String) : Option Bytes :=
  match topValue json (ascii key) with
  | some (c :: cs) => if c = 0x22 then valueFrom 0 cs else none
  | _ => none

theorem hexval_lt {c : UInt8} {n : Nat} (h : hexval c = some n) : n < 16 := by
  unfold hexval at h
  simp only [UInt8.le_iff_toNat_le] at h
  split at h
  · rename_i hc
    obtain rfl := Option.some.inj h
    have : c.toNat ≤ 0x39 := hc.2
    omega
  · split at h
    · rename_i hc
      obtain rfl := Option.some.inj h
      have : c.toNat ≤ 0x66 := hc.2
      omega
    · split at h
      · rename_i hc
        obtain rfl := Option.some.inj h
        have : c.toNat ≤ 0x46 := hc.2
        omega
      · simp at h

theorem hex4_lt {p : Bytes} {v : Nat} (h : hex4 p = some v) : v < 0x10000 := by
  match p with
  | a :: b :: c :: d :: _ =>
    simp only [hex4, Option.bind_eq_bind, Option.bind_eq_some_iff, Option.some.injEq] at h
    obtain ⟨a', ha, b', hb, c', hc, d', hd, rfl⟩ := h
    have := hexval_lt ha
    have := hexval_lt hb
    have := hexval_lt hc
    have := hexval_lt hd
    omega
  | [] | [_] | [_, _] | [_, _, _] => simp [hex4] at h

theorem escape_lt {p : Bytes} {cp used : Nat} (h : escape p = some (cp, used)) :
    cp < 0x110000 := by
  cases p with
  | nil => simp [escape] at h
  | cons c cs =>
    have hc : c.toNat < 256 := c.toNat_lt
    simp only [escape] at h
    split at h
    · obtain ⟨rfl, -⟩ : c.toNat = cp ∧ 1 = used := by simpa using h
      omega
    split at h
    · obtain ⟨rfl, -⟩ : 0x08 = cp ∧ 1 = used := by simpa using h
      omega
    split at h
    · obtain ⟨rfl, -⟩ : 0x0c = cp ∧ 1 = used := by simpa using h
      omega
    split at h
    · obtain ⟨rfl, -⟩ : 0x0a = cp ∧ 1 = used := by simpa using h
      omega
    split at h
    · obtain ⟨rfl, -⟩ : 0x0d = cp ∧ 1 = used := by simpa using h
      omega
    split at h
    · obtain ⟨rfl, -⟩ : 0x09 = cp ∧ 1 = used := by simpa using h
      omega
    split at h
    · split at h
      · simp at h
      rename_i v hv
      have hlt := hex4_lt hv
      split at h
      · simp at h
      split at h
      · split at h
        · split at h
          · simp at h
          rename_i lo hlo
          split at h
          · simp at h
          obtain ⟨rfl, -⟩ : 0x10000 + (v - 0xd800) * 1024 + (lo - 0xdc00) = cp ∧ 11 = used := by
            simpa using h
          omega
        · simp at h
      · obtain ⟨rfl, -⟩ : v = cp ∧ 5 = used := by simpa using h
        omega
    · simp at h

theorem utf8_zero_mem {cp : Nat} (h : cp ≠ 0) (hlt : cp < 0x110000) :
    (0 : UInt8) ∉ utf8 cp := by
  have hz : ∀ n : Nat, n % 256 ≠ 0 → (0 : UInt8) ≠ UInt8.ofNat n := by
    intro n hn he
    have := congrArg UInt8.toNat he
    rw [UInt8.toNat_ofNat'] at this
    exact hn this.symm
  unfold utf8
  split
  · simp only [List.mem_singleton]
    exact hz cp (by omega)
  · split
    · simp only [List.mem_cons, List.not_mem_nil, or_false, not_or]
      exact ⟨hz _ (by omega), hz _ (by omega)⟩
    · split
      · simp only [List.mem_cons, List.not_mem_nil, or_false, not_or]
        exact ⟨hz _ (by omega), hz _ (by omega), hz _ (by omega)⟩
      · simp only [List.mem_cons, List.not_mem_nil, or_false, not_or]
        exact ⟨hz _ (by omega), hz _ (by omega), hz _ (by omega), hz _ (by omega)⟩

theorem utf8_zero : utf8 0 = [0] := rfl

/-- The buffered reader reads the value, if it fits and has no NUL. -/
theorem decodeFrom_eq (cap skip o : Nat) (p : Bytes) (ho : o < cap) :
    decodeFrom cap skip o p
      = (valueFrom skip p).filter fun v => o + v.length < cap && (0 : UInt8) ∉ v := by
  induction p generalizing skip o with
  | nil => cases skip <;> rfl
  | cons c cs ih =>
    cases skip with
    | succ skip => exact ih skip o ho
    | zero =>
      rw [decodeFrom, valueFrom]
      split
      · simp [Option.filter, ho]
      · split
        · rfl
        · rename_i hctl
          split
          · -- a plain byte, which is not NUL
            have hc : (0 : UInt8) ≠ c := by
              rintro rfl
              exact hctl (by decide)
            split
            · rename_i hfull
              cases valueFrom 0 cs with
              | none => rfl
              | some v =>
                have : ¬ (o + (v.length + 1) < cap) := by omega
                simp [Option.filter, this]
            · rename_i hroom
              rw [ih 0 (o + 1) (by omega)]
              cases valueFrom 0 cs with
              | none => rfl
              | some v =>
                have hiff : o + 1 + v.length < cap ↔ o + (v.length + 1) < cap := by omega
                simp only [Option.filter, Option.map_some, List.length_cons, hiff,
                  List.mem_cons, hc, false_or]
                by_cases h1 : o + (v.length + 1) < cap <;> by_cases h2 : (0 : UInt8) ∈ v <;>
                  simp_all
          · cases he : escape cs with
            | none => rfl
            | some r =>
              obtain ⟨cp, used⟩ := r
              have hlt := escape_lt he
              simp only
              split
              · -- an escaped NUL
                rename_i hz
                subst hz
                cases valueFrom used cs with
                | none => rfl
                | some v => simp [utf8_zero, Option.filter]
              · rename_i hz
                have hnz := utf8_zero_mem hz hlt
                split
                · rename_i hfull
                  cases valueFrom used cs with
                  | none => rfl
                  | some v =>
                    have : ¬ (o + ((utf8 cp).length + v.length) < cap) := by omega
                    simp [Option.filter, this]
                · rename_i hroom
                  rw [ih used (o + (utf8 cp).length) (by omega)]
                  cases valueFrom used cs with
                  | none => rfl
                  | some v =>
                    have hiff : o + (utf8 cp).length + v.length < cap ↔
                        o + ((utf8 cp).length + v.length) < cap := by omega
                    simp only [Option.filter, Option.map_some, List.length_append, hiff,
                      List.mem_append, hnz, false_or]
                    by_cases h1 : o + ((utf8 cp).length + v.length) < cap <;>
                      by_cases h2 : (0 : UInt8) ∈ v <;> simp_all

/-- **The buffered reader.**  It finds a string value that is shorter than the buffer and has no
NUL, and no other. -/
theorem jsonStr_value? (json : Bytes) (key : String) {cap : Nat} (hcap : 0 < cap) :
    (jsonStr json key cap).value?
      = (strValue json key).filter fun v => v.length < cap && (0 : UInt8) ∉ v := by
  unfold jsonStr strValue
  cases topValue json (ascii key) with
  | none => rfl
  | some p =>
    cases p with
    | nil => rfl
    | cons c cs =>
      by_cases hc : c = 0x22
      · have hne : cap ≠ 0 := by omega
        simp only [decodeStr, hc, ne_eq, not_true_eq_false, hne, or_self, if_false, if_true]
        rw [decodeFrom_eq cap 0 0 cs hcap]
        simp only [Nat.zero_add]
        cases (valueFrom 0 cs).filter fun v => v.length < cap && (0 : UInt8) ∉ v with
        | none => rfl
        | some v => rfl
      · simp [decodeStr, hc, Found.value?]

end Ps5Upload.WebuiCodec
