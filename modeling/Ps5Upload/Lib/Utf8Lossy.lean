import Ps5Upload.Lib.Utf8

/-!
# Bytes as text, whatever they are

`String::from_utf8_lossy` of Rust's library: the characters of the valid sequences, and one U+FFFD for
every longest start of a sequence that goes wrong.
-/

namespace Ps5Upload.Utf8

/-- The character at the front. -/
def frontChar (b : List UInt8) : Option Char := ByteArray.utf8DecodeChar? b.toByteArray 0

def isCont (b : UInt8) : Bool := 0x80 ≤ b && b ≤ 0xbf

/-- The second bytes that may follow a first one. -/
def isSecond (first second : UInt8) : Bool :=
  if first = 0xe0 then 0xa0 ≤ second && second ≤ 0xbf
  else if first = 0xed then 0x80 ≤ second && second ≤ 0x9f
  else if first = 0xf0 then 0x90 ≤ second && second ≤ 0xbf
  else if first = 0xf4 then 0x80 ≤ second && second ≤ 0x8f
  else isCont second

/-- How much of a sequence that goes wrong one U+FFFD stands for, after its first byte. -/
def wrongTail (first : UInt8) (rest : List UInt8) : Nat :=
  if 0xe0 ≤ first ∧ first ≤ 0xf4 then
    match rest with
    | [] => 0
    | second :: rest =>
      if !isSecond first second then 0
      else if first < 0xf0 then 1
      else
        match rest with
        | [] => 1
        | third :: _ => if isCont third then 2 else 1
  else 0

/-- `String::from_utf8_lossy` -/
def lossy : List UInt8 → Text
  | [] => []
  | b :: rest =>
    match frontChar (b :: rest) with
    | some c => c :: lossy (rest.drop (c.utf8Size - 1))
    | none => '\uFFFD' :: lossy (rest.drop (wrongTail b rest))
termination_by b => b.length
decreasing_by all_goals rw [List.length_drop, List.length_cons]; omega

theorem frontChar_encode (c : Char) (rest : List UInt8) : frontChar (String.utf8EncodeChar c ++ rest) = some c := by
  rw [frontChar, List.toByteArray_append]
  exact ByteArray.utf8DecodeChar?_utf8EncodeChar_append

theorem lossy_char (c : Char) (rest : List UInt8) :
    lossy (String.utf8EncodeChar c ++ rest) = c :: lossy rest := by
  have hfront := frontChar_encode c rest
  have hlen : (String.utf8EncodeChar c).length = c.utf8Size := String.length_utf8EncodeChar c
  have hpos := c.utf8Size_pos
  cases henc : String.utf8EncodeChar c with
  | nil =>
    rw [henc, List.length_nil] at hlen
    omega
  | cons b bs =>
    rw [henc, List.cons_append] at hfront
    rw [henc, List.length_cons] at hlen
    have hdrop : c.utf8Size - 1 = bs.length := by omega
    rw [List.cons_append, lossy, hfront]
    dsimp only
    rw [hdrop, List.drop_left]

/-- **A text's own bytes are read as the text.** -/
theorem lossy_bytes (s : Text) : lossy (bytes s) = s := by
  induction s with
  | nil => rw [bytes, List.flatMap_nil, lossy]
  | cons c s ih => rw [bytes_cons, lossy_char, ih]

end Ps5Upload.Utf8
