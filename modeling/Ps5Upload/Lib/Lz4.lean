import Ps5Upload.Lib.Fields
import Mathlib.Tactic.NormNum

/-!
# LZ4 blocks

A block is a list of sequences and literals behind them.  A sequence is some literals, copied, and a
match: so many bytes from so far back, which may overlap what they make.
-/

namespace Ps5Upload.Lz4

open ByteFile

/-- Literals and the match behind them. -/
structure Sequence where
  literals : Bytes
  length : Nat
  distance : Nat
  deriving DecidableEq, Repr

/-- A match the format can hold. -/
structure Sequence.Sound (s : Sequence) : Prop where
  length_ge : 4 ≤ s.length
  distance_pos : 1 ≤ s.distance
  distance_le : s.distance ≤ 65535

/-! ## Reading -/

/-- A length's extension: bytes are added up until one is not 255. -/
def readExtension : Bytes → Option (Nat × Bytes)
  | [] => none
  | b :: rest =>
    if b = 255 then (readExtension rest).map fun q => (255 + q.1, q.2) else some (b.toNat, rest)

/-- A length: half a token, extended when it is 15. -/
def readLength (half : Nat) (rest : Bytes) : Option (Nat × Bytes) :=
  if half = 15 then (readExtension rest).map fun q => (15 + q.1, q.2) else some (half, rest)

/-- The sequences of a block and the literals it ends in. -/
def parse : Nat → Bytes → Option (List Sequence × Bytes)
  | 0, _ => none
  | _, [] => none
  | turns + 1, token :: rest => do
    let (lit, rest) ← readLength (token.toNat / 16) rest
    if rest.length < lit then none
    else if rest.drop lit = [] then return ([], rest)
    else if (rest.drop lit).length < 2 then none
    else do
      let (more, after) ← readLength (token.toNat % 16) ((rest.drop lit).drop 2)
      let (seqs, last) ← parse turns after
      return (⟨rest.take lit, 4 + more, leAt (rest.drop lit) 0 2⟩ :: seqs, last)

/-- `n` bytes from `distance` back, one after another. -/
def copyMatch (distance : Nat) : Nat → Bytes → Option Bytes
  | 0, out => some out
  | n + 1, out =>
    if distance = 0 ∨ out.length < distance then none
    else (out[out.length - distance]?).bind fun b => copyMatch distance n (out ++ [b])

/-- What a block spells behind `out`. -/
def expand : List Sequence → Bytes → Bytes → Option Bytes
  | [], last, out => some (out ++ last)
  | s :: seqs, last, out => (copyMatch s.distance s.length (out ++ s.literals)).bind (expand seqs last)

/-- What a block decodes to. -/
def decode (block : Bytes) : Option Bytes :=
  (parse block.length block).bind fun q => expand q.1 q.2 []

/-- Where the matches start that are made from `at_` on. -/
def matchStarts : List Sequence → Nat → List Nat
  | [], _ => []
  | s :: seqs, at_ =>
    (at_ + s.literals.length) :: matchStarts seqs (at_ + s.literals.length + s.length)

/-! ## Writing -/

def extension (n : Nat) : Bytes := List.replicate (n / 255) 255 ++ [UInt8.ofNat (n % 255)]

def lengthBytes (n : Nat) : Bytes := if n < 15 then [] else extension (n - 15)

def token (lit more : Nat) : UInt8 := UInt8.ofNat (min lit 15 * 16 + min more 15)

def sequenceBytes (s : Sequence) : Bytes :=
  token s.literals.length (s.length - 4) :: (lengthBytes s.literals.length ++ (s.literals ++
    (le 2 s.distance ++ lengthBytes (s.length - 4))))

def lastBytes (last : Bytes) : Bytes := token last.length 0 :: (lengthBytes last.length ++ last)

def blockBytes (seqs : List Sequence) (last : Bytes) : Bytes :=
  seqs.flatMap sequenceBytes ++ lastBytes last

theorem readExtension_extension (n : Nat) (rest : Bytes) :
    readExtension (extension n ++ rest) = some (n, rest) := by
  have hrun : ∀ k r, r < 255 → readExtension (List.replicate k 255 ++ UInt8.ofNat r :: rest) =
      some (k * 255 + r, rest) := by
    intro k r hr
    have hbyte : (UInt8.ofNat r).toNat = r := by
      rw [UInt8.toNat_ofNat']
      omega
    induction k with
    | zero =>
      have hne : UInt8.ofNat r ≠ 255 := fun h => by
        have := congrArg UInt8.toNat h
        rw [hbyte, show (255 : UInt8).toNat = 255 from rfl] at this
        omega
      rw [List.replicate_zero, List.nil_append, readExtension, if_neg hne, hbyte, Nat.zero_mul,
        Nat.zero_add]
    | succ k ih =>
      rw [List.replicate_succ, List.cons_append, readExtension, if_pos rfl, ih, Option.map_some]
      congr 2
      omega
  rw [extension, List.append_assoc, List.singleton_append, hrun _ _ (Nat.mod_lt n (by decide))]
  congr 2
  omega

theorem readLength_lengthBytes (n : Nat) (rest : Bytes) :
    readLength (min n 15) (lengthBytes n ++ rest) = some (n, rest) := by
  unfold readLength lengthBytes
  by_cases hn : n < 15
  · rw [if_neg (by omega), if_pos hn, Nat.min_eq_left (by omega)]
    rfl
  · rw [if_pos (by omega), if_neg hn, readExtension_extension, Option.map_some]
    congr 2
    omega

theorem token_toNat (lit more : Nat) : (token lit more).toNat = min lit 15 * 16 + min more 15 := by
  rw [token, UInt8.toNat_ofNat']
  omega

theorem parse_sequence {s : Sequence} (hs : s.Sound) (turns : Nat) (rest : Bytes) :
    parse (turns + 1) (sequenceBytes s ++ rest) =
      (parse turns rest).map fun q => (s :: q.1, q.2) := by
  have hdist : leAt (le 2 s.distance ++ (lengthBytes (s.length - 4) ++ rest)) 0 2 = s.distance := by
    have := hs.distance_le
    rw [leAt_le]
    omega
  have hlen : 4 + (s.length - 4) = s.length := Nat.add_sub_of_le hs.length_ge
  have htwo : (le 2 s.distance).length = 2 := rfl
  rw [sequenceBytes, List.cons_append, parse, token_toNat]
  rw [show (min s.literals.length 15 * 16 + min (s.length - 4) 15) / 16 = min s.literals.length 15 by omega,
    show (min s.literals.length 15 * 16 + min (s.length - 4) 15) % 16 = min (s.length - 4) 15 by omega,
    List.append_assoc, readLength_lengthBytes]
  simp only [Option.bind_eq_bind, Option.bind_some, List.append_assoc, List.drop_left, List.take_left]
  have hmore : ∀ b : Bytes, le 2 s.distance ++ b ≠ [] := fun b h => by
    have := congrArg List.length h
    rw [List.length_append, htwo, List.length_nil] at this
    omega
  rw [if_neg (by rw [List.length_append]; omega), if_neg (hmore _),
    if_neg (by rw [List.length_append, htwo]; omega),
    show (le 2 s.distance ++ (lengthBytes (s.length - 4) ++ rest)).drop 2 =
      lengthBytes (s.length - 4) ++ rest from rfl, readLength_lengthBytes, hdist]
  dsimp only [Option.bind_some]
  rw [hlen]
  cases parse turns rest <;> rfl

theorem parse_last (turns : Nat) (last : Bytes) : parse (turns + 1) (lastBytes last) = some ([], last) := by
  rw [lastBytes, parse, token_toNat]
  rw [show (min last.length 15 * 16 + min 0 15) / 16 = min last.length 15 by omega,
    readLength_lengthBytes]
  simp only [Option.bind_eq_bind, Option.bind_some]
  rw [if_neg (Nat.lt_irrefl _), if_pos (List.drop_length ..)]
  rfl

variable {seqs : List Sequence} {distance : Nat} {out : Bytes}

/-- **A block is parsed as what it was written from.** -/
theorem parse_blockBytes (hs : ∀ s ∈ seqs, s.Sound) (last : Bytes) {turns : Nat}
    (hturns : seqs.length < turns) : parse turns (blockBytes seqs last) = some (seqs, last) := by
  induction seqs generalizing turns with
  | nil =>
    obtain ⟨turns, rfl⟩ := Nat.exists_eq_add_of_lt hturns
    rw [List.length_nil, Nat.zero_add]
    exact parse_last turns last
  | cons s seqs ih =>
    rw [List.length_cons] at hturns
    obtain ⟨turns, rfl⟩ : ∃ n, turns = n + 1 := ⟨turns - 1, by omega⟩
    rw [blockBytes, List.flatMap_cons, List.append_assoc, parse_sequence (hs s List.mem_cons_self),
      ← blockBytes, ih (fun q hq => hs q (List.mem_cons_of_mem s hq)) (by omega)]
    rfl

theorem length_lt_blockBytes (seqs : List Sequence) (last : Bytes) :
    seqs.length < (blockBytes seqs last).length := by
  induction seqs with
  | nil => exact Nat.succ_pos _
  | cons s seqs ih =>
    rw [blockBytes, List.flatMap_cons, List.append_assoc, List.length_append, ← blockBytes,
      sequenceBytes, List.length_cons, List.length_cons]
    omega

/-! ## Matches -/

/-- **A match of a text's own bytes** makes a prefix of the text a longer prefix. -/
theorem copyMatch_take {d : Bytes} (hpos : 1 ≤ distance) {n p : Nat} (hle : distance ≤ p)
    (hend : p + n ≤ d.length) (hsame : ∀ i < n, d[p - distance + i]? = d[p + i]?) :
    copyMatch distance n (d.take p) = some (d.take (p + n)) := by
  induction n generalizing p with
  | zero => rfl
  | succ n ih =>
    have hp : p < d.length := by omega
    have hlen : (d.take p).length = p := by
      rw [List.length_take]
      omega
    have hbyte : (d.take p)[p - distance]? = some d[p] := by
      have := hsame 0 (Nat.succ_pos n)
      rw [Nat.add_zero, Nat.add_zero, List.getElem?_eq_getElem hp] at this
      rw [List.getElem?_take_of_lt (by omega), this]
    rw [copyMatch, hlen, if_neg (by omega), hbyte, Option.bind_some, List.take_append_getElem hp,
      ih (by omega) (by omega) fun i hi => ?_]
    · congr 2
      omega
    · have := hsame (i + 1) (Nat.succ_lt_succ hi)
      rwa [show p + 1 - distance + i = p - distance + (i + 1) by omega,
        show p + 1 + i = p + (i + 1) by omega]

/-! ## Blocks behind a history -/

/-- What a block decodes to behind `history`, which its matches may reach into. -/
def decodeAfter (history block : Bytes) : Option Bytes :=
  (parse block.length block).bind fun q => (expand q.1 q.2 history).map (·.drop history.length)

theorem decodeAfter_nil (block : Bytes) : decodeAfter [] block = decode block := by
  rw [decodeAfter, decode]
  congr 1
  funext q
  cases expand q.1 q.2 [] <;> rfl

theorem length_copyMatch {n : Nat} {out' : Bytes}
    (h : copyMatch distance n out = some out') : out'.length = out.length + n := by
  induction n generalizing out with
  | zero =>
    cases h
    rfl
  | succ n ih =>
    rw [copyMatch] at h
    split at h
    · simp at h
    · obtain ⟨b, -, h⟩ := Option.bind_eq_some_iff.1 h
      rw [ih h, List.length_append, List.length_singleton]
      omega

/-- A match that reaches no further back than `out` copies the same with more in front of it. -/
theorem copyMatch_append (a : Bytes) (hd : distance ≤ out.length)
    (n : Nat) : copyMatch distance n (a ++ out) = (copyMatch distance n out).map (a ++ ·) := by
  induction n generalizing out with
  | zero => rfl
  | succ n ih =>
    rw [copyMatch, copyMatch]
    by_cases hz : distance = 0
    · rw [if_pos (.inl hz), if_pos (.inl hz)]
      rfl
    · rw [if_neg (by rw [List.length_append]; omega), if_neg (by omega),
        List.getElem?_append_right (by rw [List.length_append]; omega)]
      have hidx : (a ++ out).length - distance - a.length = out.length - distance := by
        rw [List.length_append]
        omega
      rw [hidx]
      cases out[out.length - distance]? with
      | none => rfl
      | some b =>
        rw [Option.bind_some, Option.bind_some, List.append_assoc]
        exact ih (by rw [List.length_append]; omega)

theorem expand_append (a : Bytes) {last : Bytes} (hd : ∀ s ∈ seqs, s.distance ≤ out.length) :
    expand seqs last (a ++ out) = (expand seqs last out).map (a ++ ·) := by
  induction seqs generalizing out with
  | nil => rw [expand, expand, List.append_assoc, Option.map_some]
  | cons s seqs ih =>
    have hs := hd s List.mem_cons_self
    rw [expand, expand, List.append_assoc,
      copyMatch_append a (by rw [List.length_append]; omega)]
    cases hm : copyMatch s.distance s.length (out ++ s.literals) with
    | none => rfl
    | some out' =>
      have hlen := length_copyMatch hm
      rw [List.length_append] at hlen
      rw [Option.map_some, Option.bind_some, Option.bind_some]
      exact ih fun q hq => by have := hd q (List.mem_cons_of_mem s hq); omega

/-- A distance has two bytes. -/
theorem distance_of_parse {turns : Nat} {block last : Bytes}
    (h : parse turns block = some (seqs, last)) : ∀ s ∈ seqs, s.distance ≤ 65535 := by
  induction turns generalizing block seqs with
  | zero => simp [parse] at h
  | succ turns ih =>
    cases block with
    | nil => simp [parse] at h
    | cons t rest =>
      rw [parse] at h
      obtain ⟨⟨lit, rest'⟩, -, h⟩ := Option.bind_eq_some_iff.1 h
      dsimp only at h
      split at h
      · simp at h
      split at h
      · cases h
        exact nofun
      split at h
      · simp at h
      obtain ⟨⟨more, after⟩, -, h⟩ := Option.bind_eq_some_iff.1 h
      obtain ⟨⟨seqs', last'⟩, hrest, h⟩ := Option.bind_eq_some_iff.1 h
      cases h
      intro s hs
      rcases List.mem_cons.1 hs with rfl | hs
      · exact Nat.le_of_lt_succ (leAt_lt _ 0 2)
      · exact ih hrest s hs

/-- **The window**: a block sees the last 64 KiB of its history and nothing in front of them. -/
theorem decodeAfter_append (a : Bytes) {h : Bytes} (hlen : 65535 ≤ h.length) (block : Bytes) :
    decodeAfter (a ++ h) block = decodeAfter h block := by
  rw [decodeAfter, decodeAfter]
  cases hp : parse block.length block with
  | none => rfl
  | some q =>
    rw [Option.bind_some, Option.bind_some,
      expand_append a fun s hs => Nat.le_trans (distance_of_parse hp s hs) hlen, Option.map_map]
    congr 1
    funext out
    rw [Function.comp_apply, List.length_append, ← List.drop_drop, List.drop_left]

end Ps5Upload.Lz4
