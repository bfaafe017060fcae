import Ps5Upload.Payload.WebuiCodec

/-!
# Keys and stored fields

What the parts of `payload/src/mesh.c` share: device keys, and `clean_field`, which makes a text
fit to be stored.
-/

namespace Ps5Upload.Mesh

open ByteFile

/-- A device's key. -/
abbrev Key := Vector UInt8 32

/-- A byte that goes on a UTF-8 character. -/
def isCont (c : UInt8) : Bool := c &&& 0xc0 = 0x80

/-- A control byte is stored as a blank. -/
def printable (c : UInt8) : UInt8 := if c < 0x20 ∨ c = 0x7f then 0x20 else c

/-- What is left when the last character is cut: none of it. -/
def dropPartial (kept : Bytes) : Bytes := (kept.reverse.dropWhile isCont).tail.reverse

/-- A text as stored in a field of `cap` bytes. -/
def cleanField (cap : Nat) (s : Bytes) : Bytes :=
  let kept := (s.take (cap - 1)).map printable
  match s.drop (cap - 1) with
  | c :: _ => if isCont c then dropPartial kept else kept
  | [] => kept

end Ps5Upload.Mesh
