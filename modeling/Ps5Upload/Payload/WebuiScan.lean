import Ps5Upload.Lib.Checked
import Ps5Upload.Lib.CText
import Ps5Upload.Payload.WebuiCodec

/-!
# The console's JSON scanner, byte by byte

The functions of `payload/src/webui_codec.c` that look into a text or write one, with every byte they
read checked against the end.  A pointer is the rest of the text from there, so `p < e` is that something
is left, and `p[i]` is the byte at `i` of it.
-/

namespace Ps5Upload.WebuiCodec

open ByteFile Checked CText

abbrev Res (α : Type) := Checked.Res Empty α

/-! ## The scanner -/

def wsAt (p : Bytes) : Res Bytes :=
  if _h : 0 < p.length then do
    let c ← index p 0
    if isSpace c then wsAt (p.drop 1) else return p
  else .ok p
termination_by p.length
decreasing_by rw [List.length_drop]; omega

/-- `skip_str` from after the opening quote. -/
def skipStrAt (p : Bytes) : Res (Option Bytes) :=
  if _h : 0 < p.length then do
    let c ← index p 0
    if c = 0x5c then if p.length ≤ 1 then return none else skipStrAt (p.drop 2)
    else if c = 0x22 then return some (p.drop 1)
    else skipStrAt (p.drop 1)
  else .ok none
termination_by p.length
decreasing_by all_goals rw [List.length_drop]; omega

def skipScalar (p : Bytes) : Res Bytes :=
  if _h : 0 < p.length then do
    let c ← index p 0
    if isDelim c then return p else skipScalar (p.drop 1)
  else .ok p
termination_by p.length
decreasing_by rw [List.length_drop]; omega

/-- The loop over a container; every turn takes a byte, so the text's length is turns enough. -/
def skipContainer : Nat → Nat → Bytes → Res (Option Bytes)
  | 0, _, p => if 0 < p.length then panic else .ok none
  | turns + 1, depth, p =>
    if 0 < p.length then do
      let c ← index p 0
      if c = 0x22 then do
        match ← skipStrAt (p.drop 1) with
        | none => return none
        | some q => skipContainer turns depth q
      else if c = 0x7b ∨ c = 0x5b then skipContainer turns (depth + 1) (p.drop 1)
      else if c = 0x7d ∨ c = 0x5d then
        if depth = 1 then return some (p.drop 1) else skipContainer turns (depth - 1) (p.drop 1)
      else skipContainer turns depth (p.drop 1)
    else .ok none

def skipValAt (p : Bytes) : Res (Option Bytes) :=
  if p.length = 0 then .ok none
  else do
    let c ← index p 0
    if c = 0x22 then skipStrAt (p.drop 1)
    else if c = 0x7b ∨ c = 0x5b then skipContainer p.length 0 p
    else do
      let q ← skipScalar p
      return if q.length < p.length then some q else none

/-- The loop over the members; every turn takes bytes. -/
def memberAt (key : Bytes) : Nat → Bytes → Res (Option Bytes)
  | 0, _ => panic
  | turns + 1, p => do
    let p ← wsAt p
    if p.length = 0 then return none
    else do
      let c ← index p 0
      if c ≠ 0x22 then return none
      else do
        let ks := p.drop 1
        match ← skipStrAt ks with
        | none => return none
        | some ke =>
          let p ← wsAt ke
          if p.length = 0 then return none
          else do
            let c ← index p 0
            if c ≠ 0x3a then return none
            else do
              let v ← wsAt (p.drop 1)
              if v.length = 0 then return none
              else do
                -- the key's bytes are compared where there are as many of them
                let written ← slice ks 0 (ks.length - ke.length - 1)
                if written = key then return some v
                else do
                  match ← skipValAt v with
                  | none => return none
                  | some p =>
                    let p ← wsAt p
                    if p.length = 0 then return none
                    else do
                      let c ← index p 0
                      if c = 0x2c then memberAt key turns (p.drop 1) else return none

def topValueAt (json key : Bytes) : Res (Option Bytes) := do
  let p ← wsAt json
  if p.length = 0 then return none
  else do
    let c ← index p 0
    if c = 0x7b then memberAt key json.length (p.drop 1) else return none

/-! ## Strings -/

/-- Four hex digits, if as many bytes are left. -/
def hex4At (p : Bytes) : Res (Option Nat) :=
  if p.length < 4 then .ok none
  else do
    let a ← index p 0
    let b ← index p 1
    let c ← index p 2
    let d ← index p 3
    return hex4 [a, b, c, d]

/-- The code point after a backslash, and how many bytes it takes. -/
def escapeAt (p : Bytes) : Res (Option (Nat × Nat)) :=
  if p.length = 0 then .ok none
  else do
    let c ← index p 0
    if c ≠ 0x75 then return escape [c]
    else do
      match ← hex4At (p.drop 1) with
      | none => return none
      | some v =>
        if 0xdc00 ≤ v ∧ v ≤ 0xdfff then return none
        else if 0xd800 ≤ v ∧ v ≤ 0xdbff then
          if (p.drop 4).length < 7 then return none
          else do
            let back ← index p 5
            if back ≠ 0x5c then return none
            else do
              let u ← index p 6
              if u ≠ 0x75 then return none
              else do
                match ← hex4At (p.drop 7) with
                | none => return none
                | some lo =>
                  if lo < 0xdc00 ∨ 0xdfff < lo then return none
                  else return some (0x10000 + (v - 0xd800) * 1024 + (lo - 0xdc00), 11)
        else return some (v, 5)

/-- `decode_str` after the opening quote: the bytes written and what follows the closing quote. -/
def decodeLoop (cap o : Nat) (p : Bytes) : Res (Option (Bytes × Bytes)) :=
  if _h : 0 < p.length then do
    let c ← index p 0
    if c = 0x22 then return some ([], p.drop 1)
    else if c < 0x20 then return none
    else if c ≠ 0x5c then
      if cap ≤ o + 1 then return none
      else do
        let r ← decodeLoop cap (o + 1) (p.drop 1)
        return r.map fun v => (c :: v.1, v.2)
    else do
      match ← escapeAt (p.drop 1) with
      | none => return none
      | some (cp, used) =>
        if cp = 0 then return none
        else if cap ≤ o + (utf8 cp).length then return none
        else do
          let r ← decodeLoop cap (o + (utf8 cp).length) (p.drop (1 + used))
          return r.map fun v => (utf8 cp ++ v.1, v.2)
  else .ok none
termination_by p.length
decreasing_by all_goals rw [List.length_drop]; omega

def decodeAt (cap : Nat) (p : Bytes) : Res (Option (Bytes × Bytes)) :=
  if p.length = 0 then .ok none
  else do
    let c ← index p 0
    if c ≠ 0x22 ∨ cap = 0 then return none else decodeLoop cap 0 (p.drop 1)

def webuiJsonStr (json key : Bytes) (cap : Nat) : Res (Found Bytes) := do
  match ← topValueAt json key with
  | none => return .absent
  | some p =>
    match ← decodeAt cap p with
    | none => return .unusable
    | some (v, _) => return .found v

/-- What `webui_json_array_str` says: an element, that there is no other, or that it is no string. -/
inductive Element where
  | str (v : Bytes)
  | done
  | bad
  deriving DecidableEq, Repr

/-- One call: what it says, and the place for the next one. -/
def webuiJsonArrayStr (arr : Bytes) (cap pos : Nat) : Res (Element × Nat) :=
  if arr.length < pos then .ok (.bad, pos)
  else if pos = arr.length ∧ arr.length ≠ 0 then .ok (.done, pos)
  else do
    let start ← wsAt (arr.drop pos)
    let element := fun (q : Bytes) => (do
      match ← decodeAt cap q with
      | none => return (.bad, pos)
      | some (v, after) => return (.str v, arr.length - after.length) : Res (Element × Nat))
    let closes := fun (q : Bytes) => (if q.length = 0 then .ok false else do
      let c ← index q 0
      return c = 0x5d : Res Bool)
    if pos = 0 then do
      if start.length = 0 then return (.bad, pos)
      else do
        let c ← index start 0
        if c ≠ 0x5b then return (.bad, pos)
        else do
          let q ← wsAt (start.drop 1)
          if ← closes q then return (.done, arr.length) else element q
    else do
      if ← closes start then return (.done, arr.length)
      else if start.length = 0 then return (.bad, pos)
      else do
        let c ← index start 0
        if c ≠ 0x2c then return (.bad, pos)
        else do
          let q ← wsAt (start.drop 1)
          element q

/-! ## Numbers, booleans and arrays -/

/-- The digits at `p`, added to `v`, how many there are and what follows them; none past 64 bits. -/
def digitsAt (v n : Nat) (p : Bytes) : Res (Option (Nat × Nat × Bytes)) :=
  if _h : 0 < p.length then do
    let c ← index p 0
    if 0x30 ≤ c ∧ c ≤ 0x39 then
      if (2 ^ 64 - 1 - (c.toNat - 0x30)) / 10 < v then return none
      else digitsAt (v * 10 + (c.toNat - 0x30)) (n + 1) (p.drop 1)
    else return some (v, n, p)
  else .ok (some (v, n, p))
termination_by p.length
decreasing_by rw [List.length_drop]; omega

/-- Whether the text ends here or goes on with a delimiter. -/
def delimAt (p : Bytes) : Res Bool :=
  if p.length = 0 then .ok true
  else do
    let c ← index p 0
    return isDelim c

def webuiJsonU64 (json key : Bytes) : Res (Found Nat) := do
  match ← topValueAt json key with
  | none => return .absent
  | some p =>
    match ← digitsAt 0 0 p with
    | none => return .unusable
    | some (v, n, rest) =>
      if n = 0 then return .unusable
      else do
        let ends ← delimAt rest
        return if ends then .found v else .unusable

/-- Whether a word stands at `p`, and nothing of it after. -/
def wordAt (word p : Bytes) : Res Bool :=
  if p.length < word.length then .ok false
  else do
    let s ← slice p 0 word.length
    if s ≠ word then return false else delimAt (p.drop word.length)

def webuiJsonBool (json key : Bytes) : Res (Found Bool) := do
  match ← topValueAt json key with
  | none => return .absent
  | some p =>
    if ← wordAt (ascii "true") p then return .found true
    else if ← wordAt (ascii "false") p then return .found false
    else return .unusable

def webuiJsonNull (json key : Bytes) : Res Bool := do
  match ← topValueAt json key with
  | none => return false
  | some p => wordAt (ascii "null") p

/-- The text of an array, if the value is one. -/
def webuiJsonArray (json key : Bytes) : Res (Found Bytes) := do
  match ← topValueAt json key with
  | none => return .absent
  | some p => do
    let c ← index p 0
    if c ≠ 0x5b then return .unusable
    else do
      match ← skipValAt p with
      | none => return .unusable
      | some q => do
        let val ← slice p 0 (p.length - q.length)
        return .found val

/-! ## Escaping -/

/-- A writer into a buffer: the bytes written, the full length, and whether a piece did not fit. -/
structure Jw where
  cap : Nat
  len : Nat
  wrote : Bytes
  full : Bool

def Jw.put (w : Jw) (s : Bytes) : Jw :=
  if w.full = false ∧ w.cap ≠ 0 ∧ w.len + s.length ≤ w.cap - 1 then
    { w with wrote := w.wrote ++ s, len := w.len + s.length }
  else { w with full := true, len := w.len + s.length }

/-- The continuation bytes of a sequence, added to its code point. -/
def utf8Tail (s : Bytes) : Nat → Nat → Nat → Res (Option Nat)
  | 0, _, cp => .ok (some cp)
  | todo + 1, i, cp => do
    let c ← index s i
    if c.toNat / 64 ≠ 2 then return none else utf8Tail s todo (i + 1) (cp * 64 + c.toNat % 64)

/-- The length of the valid sequence at the front of `s`, or none. -/
def utf8Seq (s : Bytes) : Res (Option Nat) := do
  let c ← index s 0
  let c := c.toNat
  let head : Option (Nat × Nat) :=
    if 0xc2 ≤ c ∧ c ≤ 0xdf then some (2, c % 32)
    else if 0xe0 ≤ c ∧ c ≤ 0xef then some (3, c % 16)
    else if 0xf0 ≤ c ∧ c ≤ 0xf4 then some (4, c % 8)
    else none
  match head with
  | none => return none
  | some (k, cp) =>
    if s.length < k then return none
    else do
      match ← utf8Tail s (k - 1) 1 cp with
      | none => return none
      | some cp =>
        return if (k = 3 ∧ cp < 0x800) ∨ (k = 4 ∧ (cp < 0x10000 ∨ 0x10ffff < cp)) ∨
          (0xd800 ≤ cp ∧ cp ≤ 0xdfff) then none else some k

/-- The escape of a character of one byte. -/
def escapeByte (c : UInt8) : Bytes :=
  if c = 0x22 then [0x5c, 0x22]
  else if c = 0x5c then [0x5c, 0x5c]
  else if c = 0x0a then [0x5c, 0x6e]
  else if c = 0x0d then [0x5c, 0x72]
  else if c = 0x09 then [0x5c, 0x74]
  else if c = 0x08 then [0x5c, 0x62]
  else if c = 0x0c then [0x5c, 0x66]
  else if c < 0x20 then [0x5c, 0x75, 0x30, 0x30, hexDigit (c.toNat / 16), hexDigit (c.toNat % 16)]
  else [c]

def esc (w : Jw) (s : Bytes) : Res Jw :=
  if _h : 0 < s.length then do
    let c ← index s 0
    if c < 0x80 then esc (w.put (escapeByte c)) (s.drop 1)
    else do
      match ← utf8Seq s with
      | some k => do
        let piece ← slice s 0 k
        -- a sequence is two bytes at least
        esc (w.put piece) (s.drop (max k 1))
      | none => esc (w.put (ascii "\\ufffd")) (s.drop 1)
  else .ok w
termination_by s.length
decreasing_by all_goals rw [List.length_drop]; omega

/-- What is written, and the length it needs. -/
def webuiJsonEscape (cap : Nat) (s : Bytes) : Res (Bytes × Nat) := do
  let w ← esc ⟨cap, 0, [], false⟩ s
  return (w.wrote, w.len)

end Ps5Upload.WebuiCodec
