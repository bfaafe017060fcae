import Ps5Upload.Fpkg.Kraken.Huff

/-!
# Kraken: decoding a block

`get_array`, `put_literals`, `decode_half` and `decode_block` of `ps5upload-fpkg/src/kraken.rs`, with
every index, slice, subtraction and shift checked.  The stored halves are arbitrary bytes.

* `decodeHalf_safe` and `decode_block_total` — a half and a block of any bytes.
-/

namespace Ps5Upload.Kraken

open ByteFile Bits Checked

/-- A half's logical size. -/
def half : Nat := 0x20000

/-- A block's logical size. -/
def block : Nat := 0x40000

def seed : Nat := 8

/-- The closest a match may reference. -/
def minDistance : Nat := 8

/-! ## Arrays -/

/-- A number in the order of its bytes, the highest first. -/
def beNum (bs : Bytes) : Nat := bs.foldl (fun n b => 256 * n + b.toNat) 0

/-- The size of a raw array and of its header. -/
def rawHeader (src : Bytes) (at_ end_ : Nat) (b0 : UInt8) : Res (Nat × Nat) :=
  if 0x80 ≤ b0.toNat then do
    let b1 ← index src (at_ + 1)
    return (beNum [b0, b1] % 0x1000, 2)
  else if end_ < at_ + 3 then fail "kraken: truncated array"
  else do
    let b1 ← index src (at_ + 1)
    let b2 ← index src (at_ + 2)
    let n := beNum [b0, b1, b2]
    if 0x40000 ≤ n then fail "kraken: bad array size" else return (n, 3)

/-- The stored and the decoded size of a Huffman array, and the size of its header. -/
def huffHeader (src : Bytes) (at_ end_ : Nat) (b0 : UInt8) : Res (Nat × Nat × Nat) :=
  if 0x80 ≤ b0.toNat then
    if end_ < at_ + 3 then fail "kraken: truncated array"
    else do
      let b1 ← index src (at_ + 1)
      let b2 ← index src (at_ + 2)
      let v := beNum [b0, b1, b2]
      let s := v % 0x400
      return (s, s + v / 0x400 % 0x400 + 1, 3)
  else if end_ < at_ + 5 then fail "kraken: truncated array"
  else do
    let b1 ← index src (at_ + 1)
    let b2 ← index src (at_ + 2)
    let b3 ← index src (at_ + 3)
    let b4 ← index src (at_ + 4)
    let v := beNum [b1, b2, b3, b4]
    return (v % 0x40000, (b0.toNat * 0x4000 + v / 0x40000) % 0x40000 + 1, 5)

/-- An array at `at_`, raw or Huffman-coded, and how many bytes it takes; `max` bounds what it
decodes to. -/
def getArray (src : Bytes) (at_ end_ max : Nat) : Res (Bytes × Nat) :=
  if end_ < at_ + 2 then fail "kraken: truncated array"
  else do
    let b0 ← index src at_
    let kind := b0.toNat / 16 % 8
    if kind = 0 then do
      let (n, h) ← rawHeader src at_ end_ b0
      if max < n ∨ end_ < at_ + h + n then fail "kraken: array overruns its chunk"
      else do
        let data ← slice src (at_ + h) (at_ + h + n)
        return (data, h + n)
    else if kind = 2 then do
      let (srcSize, dstSize, h) ← huffHeader src at_ end_ b0
      if dstSize ≤ srcSize ∨ max < dstSize ∨ end_ < at_ + h + srcSize then
        fail "kraken: bad Huffman array size"
      else do
        let body ← slice src (at_ + h) (at_ + h + srcSize)
        let data ← Huff.decode body dstSize
        return (data, h + srcSize)
    else fail "kraken: unsupported array type"

/-! ## The parts of a half -/

/-- The seed of a block's first half: the block's first bytes as they are.  Returns the block, and
where the chunk and the block go on. -/
def readSeed (src out : Bytes) (at_ len : Nat) : Res (Bytes × Nat × Nat) :=
  if at_ = 0 then
    if src.length < seed ∨ len < seed then fail "kraken: truncated seed"
    else do
      let first ← slice src 0 seed
      let out ← blit out 0 first
      return (out, seed, seed)
  else return (out, 0, at_)

/-- The excess framing at `p`: where the chunk goes on, and where its main part ends. -/
def readExcess (src : Bytes) (p : Nat) : Res (Nat × Nat) := do
  let flag ← getOr src p "kraken: chunk too short"
  -- The two highest bits are `10`.
  if flag.toNat / 64 ≠ 2 then fail "kraken: expected the excess framing"
  else
    let low := flag.toNat % 64
    if 0x1F < low then do
      let hi ← getOr src (p + 1) "kraken: chunk too short"
      let excess := low + hi.toNat * 0x20
      let room ← sub src.length (p + 2)
      if room < excess then fail "kraken: excess overruns the chunk"
      else do
        let mainEnd ← sub src.length excess
        return (p + 2, mainEnd)
    else do
      let room ← sub src.length (p + 1)
      if room < low then fail "kraken: excess overruns the chunk"
      else do
        let mainEnd ← sub src.length low
        return (p + 1, mainEnd)

/-- The arrays of a half, and where they end. -/
structure Arrays where
  lits : Bytes
  cmds : Bytes
  scaled : Bool
  offsCodes : Bytes
  lens : Bytes
  p : Nat

def readArrays (src : Bytes) (p mainEnd len : Nat) : Res Arrays := do
  let (lits, n) ← getArray src p mainEnd len
  let p := p + n
  let (cmds, n) ← getArray src p mainEnd len
  let p := p + n
  if mainEnd ≤ p then fail "kraken: truncated offsets"
  else do
    let marker ← index src p
    if 0x80 < marker.toNat then fail "kraken: unsupported offset scaling"
    else do
      let scaled := marker.toNat = 0x80
      let p := if scaled then p + 1 else p
      let (offsCodes, n) ← getArray src p mainEnd cmds.length
      let p := p + n
      let (lens, n) ← getArray src p mainEnd (len / 4)
      return ⟨lits, cmds, scaled, offsCodes, lens, p + n⟩

/-- The distance of an offset code, with its extra bits from `r`. -/
def readOffset (scaled : Bool) (c : UInt8) (r : BitReader) : Res (Nat × BitReader) :=
  if scaled then
    let nb := c.toNat / 8
    if 26 < nb then fail "kraken: bad offset code"
    else do
      let base ← shl 32 (8 + c.toNat % 8) nb
      let (x, r) ← r.get nb
      let d ← sub (base ||| x) 8
      return (d, r)
  else if 0xF0 ≤ c.toNat then fail "kraken: offset beyond a block"
  else
    let n := c.toNat / 16 + 4
    do
      let one ← shl 32 1 n
      let (x, r) ← r.get n
      let v ← shl 32 (one ||| x) 4
      let d ← sub (v + c.toNat % 16) 248
      return (d, r)

/-- The offsets: `a` reads those at even places and `b` those at odd ones, so the readers change
places at every turn. -/
def readOffsets (scaled : Bool) : Bytes → BitReader → BitReader →
    Res (List Nat × BitReader × BitReader)
  | [], a, b => return ([], a, b)
  | c :: cs, a, b => do
    let (d, a) ← readOffset scaled c a
    let (ds, b, a) ← readOffsets scaled cs b a
    return (d :: ds, a, b)

/-- The length escapes, read from both ends in turn. -/
def readEscapes : Nat → BitReader → BitReader → Res (List Nat)
  | 0, _, _ => return []
  | k + 1, a, b => do
    let (v, a) ← a.getLength
    let vs ← readEscapes k b a
    return v :: vs

/-- The lengths that are left: the entries of the array and the escapes. -/
structure Lens where
  lens : Bytes
  esc : List Nat
  deriving DecidableEq, Repr

def Lens.next : Lens → Res (Nat × Lens)
  | ⟨[], _⟩ => fail "kraken: length missing"
  | ⟨v :: vs, esc⟩ =>
    if v = 255 then
      match esc with
      | [] => fail "kraken: escape missing"
      | e :: es => return (3 + (255 + e), ⟨vs, es⟩)
    else return (3 + v.toNat, ⟨vs, esc⟩)

/-! ## Writing -/

/-- Delta literals: each less the byte `last` back. -/
def putDelta (last : Nat) : Bytes → Nat → Bytes → Res Bytes
  | out, _, [] => return out
  | out, dst, l :: ls => do
    let i ← sub dst last
    let x ← index out i
    let out ← store out dst (l + x)
    putDelta last out (dst + 1) ls

def putLiterals (out : Bytes) (dst : Nat) (lits : Bytes) (delta : Bool) (last : Nat) : Res Bytes :=
  if delta then putDelta last out dst lits else blit out dst lits

/-- A match of `n` bytes at `dist` back, byte by byte. -/
def copyMatch (dist : Nat) : Nat → Bytes → Nat → Res Bytes
  | 0, out, _ => return out
  | n + 1, out, dst => do
    let i ← sub dst dist
    let x ← index out i
    let out ← store out dst x
    copyMatch dist n out (dst + 1)

/-- The recent offsets moved up by one, from the `j`-th down. -/
def shiftUp : Nat → List Nat → Res (List Nat)
  | 0, recent => return recent
  | j + 1, recent => do
    let d ← index recent j
    let recent ← store recent (j + 1) d
    shiftUp j recent

/-- The state of the loop over the commands. -/
structure Run where
  out : Bytes
  dst : Nat
  litAt : Nat := 0
  offs : List Nat
  lens : Lens
  recent : List Nat := [8, 8, 8]
  deriving DecidableEq, Repr

/-- The distance of a command, and the recent offsets after it. -/
def nextDist (kind : Nat) (offs recent : List Nat) : Res (Nat × List Nat × List Nat) :=
  if kind = 3 then
    match offs with
    | [] => fail "kraken: offset missing"
    | d :: offs => do
      let r0 ← index recent 0
      let r1 ← index recent 1
      return (d, offs, [d, r0, r1])
  else do
    let d ← index recent kind
    let recent ← shiftUp kind recent
    let recent ← store recent 0 d
    return (d, offs, recent)

/-- The literal run of a command. -/
def nextLit (f : UInt8) (lens : Lens) : Res (Nat × Lens) :=
  let lit := f.toNat % 4
  if lit = 3 then lens.next else return (lit, lens)

/-- The match length of a command. -/
def nextLen (f : UInt8) (lens : Lens) : Res (Nat × Lens) :=
  let code := f.toNat / 4 % 16
  if code = 15 then do
    let (v, lens) ← lens.next
    return (14 + v, lens)
  else return (code + 2, lens)

def runCommand (lits : Bytes) (end_ : Nat) (delta : Bool) (s : Run) (f : UInt8) : Res Run := do
  let (lit, lens) ← nextLit f s.lens
  if lits.length < s.litAt + lit ∨ end_ < s.dst + lit then fail "kraken: literal run overruns"
  else do
    let run ← slice lits s.litAt (s.litAt + lit)
    let last ← index s.recent 0
    let out ← putLiterals s.out s.dst run delta last
    let dst := s.dst + lit
    let (dist, offs, recent) ← nextDist (f.toNat / 64) s.offs s.recent
    let (mlen, lens) ← nextLen f lens
    if dist < minDistance ∨ dst < dist ∨ end_ < dst + mlen then fail "kraken: match out of bounds"
    else do
      let out ← copyMatch dist mlen out dst
      return ⟨out, dst + mlen, s.litAt + lit, offs, lens, recent⟩

/-- The literals after the last match, and that nothing is left. -/
def finishRun (lits : Bytes) (end_ : Nat) (delta : Bool) (s : Run) : Res Bytes := do
  let tail ← sub end_ s.dst
  let rest ← sub lits.length s.litAt
  if rest ≠ tail then fail "kraken: trailing literals do not fill the half"
  else do
    let run ← slice lits s.litAt lits.length
    let last ← index s.recent 0
    let out ← putLiterals s.out s.dst run delta last
    if s.offs ≠ [] ∨ s.lens.lens ≠ [] then fail "kraken: unused offsets or lengths" else return out

/-- One LZ half into `out[at_..at_ + len]`; what is before it is the block's history. -/
def decodeHalf (src out : Bytes) (at_ len : Nat) (delta : Bool) : Res Bytes :=
  if src.length < 13 then fail "kraken: chunk too short"
  else do
    let (out, p, dst) ← readSeed src out at_ len
    let (p, mainEnd) ← readExcess src p
    let arr ← readArrays src p mainEnd len
    let a ← BitReader.new src arr.p mainEnd false
    let b ← BitReader.new src arr.p mainEnd true
    let (offs, a, b) ← readOffsets arr.scaled arr.offsCodes a b
    let sa ← a.seam
    let sb ← b.seam
    if sa ≠ sb then fail "kraken: offset streams do not meet"
    else do
      let ea ← BitReader.new src mainEnd src.length false
      let eb ← BitReader.new src mainEnd src.length true
      let esc ← readEscapes (arr.lens.count 255) ea eb
      let s ← fold (runCommand arr.lits (at_ + len) delta)
        { out := out, dst := dst, offs := offs, lens := ⟨arr.lens, esc⟩ } arr.cmds
      finishRun arr.lits (at_ + len) delta s

/-- How one half of a block is stored. -/
inductive Half where
  /-- The logical bytes as they are. -/
  | raw (b : Bytes)
  /-- An LZ chunk with its literals as they are. -/
  | lz (b : Bytes)
  /-- An LZ chunk with delta literals. -/
  | lzDelta (b : Bytes)
  /-- One bare entropy-coded array. -/
  | entropy (b : Bytes)
  deriving DecidableEq, Repr

/-- One half of `hl` bytes at `at_`: the block after it. -/
def decodeOne (out : Bytes) (at_ hl : Nat) : Half → Res Bytes
  | .raw b =>
    if b.length ≠ hl then fail "kraken: raw half has the wrong length" else blit out at_ b
  | .lz b => decodeHalf b out at_ hl false
  | .lzDelta b => decodeHalf b out at_ hl true
  | .entropy b => do
    let (bytes, used) ← getArray b 0 b.length hl
    if used ≠ b.length ∨ bytes.length ≠ hl then fail "kraken: entropy half does not fill the half"
    else blit out at_ bytes

def decodeHalves (len : Nat) : List Half → Bytes → Nat → Res (Bytes × Nat)
  | [], out, at_ => return (out, at_)
  | h :: hs, out, at_ => do
    let left ← sub len at_
    let hl := min left half
    let out ← decodeOne out at_ hl h
    decodeHalves len hs out (at_ + hl)

/-- A block of `len` logical bytes from its halves. -/
def decodeBlock (halves : List Half) (len : Nat) : Res Bytes := do
  let (out, at_) ← decodeHalves len halves (List.replicate len 0) 0
  if at_ ≠ len then fail "kraken: halves do not cover the block" else return out

/-! ## Safety of the arrays -/

variable {src out lits : Bytes} {at_ end_ len c dst : Nat} {t : Stretch} {recent : List Nat}

theorem rawHeader_safe (b0 : UInt8) (hat : at_ + 2 ≤ end_) (hend : end_ ≤ src.length) :
    Safe (fun p => 2 ≤ p.2) (rawHeader src at_ end_ b0) := by
  rw [rawHeader]
  split
  · refine Safe.bind (safe_index (by omega)) fun b1 _ => ?_
    exact Nat.le_refl 2
  · split
    · exact safe_fail _
    · refine Safe.bind (safe_index (by omega)) fun b1 _ => ?_
      refine Safe.bind (safe_index (by omega)) fun b2 _ => ?_
      simp only
      split
      · exact safe_fail _
      · exact Nat.le_succ 2

theorem huffHeader_safe (b0 : UInt8) (hend : end_ ≤ src.length) :
    Safe (fun p => 3 ≤ p.2.2) (huffHeader src at_ end_ b0) := by
  rw [huffHeader]
  split
  · split
    · exact safe_fail _
    · refine Safe.bind (safe_index (by omega)) fun b1 _ => ?_
      refine Safe.bind (safe_index (by omega)) fun b2 _ => ?_
      exact Nat.le_refl 3
  · split
    · exact safe_fail _
    · refine Safe.bind (safe_index (by omega)) fun b1 _ => ?_
      refine Safe.bind (safe_index (by omega)) fun b2 _ => ?_
      refine Safe.bind (safe_index (by omega)) fun b3 _ => ?_
      refine Safe.bind (safe_index (by omega)) fun b4 _ => ?_
      show 3 ≤ 5
      omega

/-- **An array** is refused, or lies inside its chunk and holds at most `max` bytes. -/
theorem getArray_safe {max : Nat} (hend : end_ ≤ src.length) :
    Safe (fun p => p.1.length ≤ max ∧ at_ + p.2 ≤ end_) (getArray src at_ end_ max) := by
  rw [getArray]
  split
  · exact safe_fail _
  · refine Safe.bind (safe_index (by omega)) fun b0 _ => ?_
    simp only
    split
    · refine Safe.bind (rawHeader_safe b0 (by omega) hend) ?_
      rintro ⟨n, h⟩ -
      simp only
      split
      · exact safe_fail _
      · refine Safe.bind (safe_slice (by omega) (by omega)) fun data hdata => ?_
        exact ⟨by show data.length ≤ max; omega, by show at_ + (h + n) ≤ end_; omega⟩
    · split
      · refine Safe.bind (huffHeader_safe b0 hend) ?_
        rintro ⟨srcSize, dstSize, h⟩ -
        simp only
        split
        · exact safe_fail _
        · refine Safe.bind (safe_slice (by omega) (by omega)) fun body _ => ?_
          refine Safe.bind (Huff.decode_safe body dstSize) fun data hdata => ?_
          exact ⟨by show data.length ≤ max; omega, by show at_ + (h + srcSize) ≤ end_; omega⟩
      · exact safe_fail _

theorem readArrays_safe {p mainEnd : Nat} (hend : mainEnd ≤ src.length) :
    Safe (fun arr => arr.lits.length ≤ len ∧ arr.cmds.length ≤ len ∧
      arr.offsCodes.length ≤ len ∧ arr.lens.length ≤ len ∧ arr.p ≤ mainEnd)
      (readArrays src p mainEnd len) := by
  rw [readArrays]
  refine Safe.bind (getArray_safe hend) ?_
  rintro ⟨lits, n⟩ ⟨hlits, -⟩
  refine Safe.bind (getArray_safe hend) ?_
  rintro ⟨cmds, n₂⟩ ⟨hcmds, -⟩
  simp only at hcmds ⊢
  split
  · exact safe_fail _
  · refine Safe.bind (safe_index (by omega)) fun marker _ => ?_
    split
    · exact safe_fail _
    · refine Safe.bind (getArray_safe hend) ?_
      rintro ⟨offs, n₃⟩ ⟨hoffs, -⟩
      refine Safe.bind (getArray_safe hend) ?_
      rintro ⟨lens, n₄⟩ ⟨hlens, hp⟩
      simp only at hoffs hlens
      exact ⟨hlits, hcmds, by show offs.length ≤ len; omega, by show lens.length ≤ len; omega, hp⟩

/-! ## Safety of the bit streams -/

/-- The distance of a traditional code. -/
theorem readOffset_plain {r : BitReader} {code : UInt8} (h : Reads t c r)
    (hcode : code.toNat < 0xF0) (hc : c < 2 ^ 59) :
    ∃ r', readOffset false code r =
        .ok ((2 ^ (code.toNat / 16 + 4) + msbNum t.bit c (code.toNat / 16 + 4)) * 16
          + code.toNat % 16 - 248, r') ∧ Reads t (c + (code.toNat / 16 + 4)) r' := by
  obtain ⟨r', hr', h'⟩ := get_spec h (n := code.toNat / 16 + 4) (by omega) fun _ => by omega
  refine ⟨r', ?_, h'⟩
  rw [readOffset, if_neg (by simp), if_neg (by omega)]
  have hn : code.toNat / 16 + 4 ≤ 18 := by omega
  have hn4 : 4 ≤ code.toNat / 16 + 4 := by omega
  generalize code.toNat / 16 + 4 = n at hr' hn hn4 ⊢
  have hlt := msbNum_lt t.bit c n
  have hpow : 2 ^ n ≤ 2 ^ 18 := Nat.pow_le_pow_right (by omega) hn
  have hpow4 : 2 ^ 4 ≤ 2 ^ n := Nat.pow_le_pow_right (by omega) hn4
  have hone : 1 < 2 ^ (32 - n) :=
    Nat.lt_of_lt_of_le (by decide : 1 < 2 ^ 14) (Nat.pow_le_pow_right (by omega) (by omega))
  simp only
  rw [shl_eq (by omega)]
  simp only [bind, Except.bind, hr']
  rw [shl_or hone (by omega) hlt, shl_eq (by omega)]
  simp only
  rw [Nat.shiftLeft_eq, Nat.mod_eq_of_lt (by omega), sub_eq (by omega), Nat.one_mul]
  rfl

/-- **The distance of an offset code is never negative**, in either of the two codes. -/
theorem readOffset_safe {r : BitReader} (scaled : Bool) (code : UInt8)
    (h : Reads t c r) (hc : c < 2 ^ 59) :
    Safe (fun p => ∃ c', c' ≤ c + 26 ∧ Reads t c' p.2) (readOffset scaled code r) := by
  cases scaled with
  | false =>
    by_cases hcode : code.toNat < 0xF0
    · obtain ⟨r', hr', h'⟩ := readOffset_plain h hcode hc
      rw [hr']
      exact ⟨_, by omega, h'⟩
    · rw [readOffset, if_neg (by simp), if_pos (by omega)]
      exact safe_fail _
  | true =>
    rw [readOffset, if_pos rfl]
    simp only
    split
    · exact safe_fail _
    · rename_i hnb
      obtain ⟨r', hr', h'⟩ := get_spec h (n := code.toNat / 8) (by omega) fun _ => by omega
      rw [shl_eq (by omega)]
      simp only [bind, Except.bind, hr']
      have hbase : (8 + code.toNat % 8) <<< (code.toNat / 8) < 2 ^ 32 := by
        rw [Nat.shiftLeft_eq]
        calc (8 + code.toNat % 8) * 2 ^ (code.toNat / 8) ≤ 15 * 2 ^ 26 :=
              Nat.mul_le_mul (by omega) (Nat.pow_le_pow_right (by omega) (by omega))
          _ < 2 ^ 32 := by decide
      have hbig : 8 ≤ ((8 + code.toNat % 8) <<< (code.toNat / 8)) % 2 ^ 32
          ||| msbNum t.bit c (code.toNat / 8) := by
        rw [Nat.mod_eq_of_lt hbase]
        apply Nat.le_trans _ Nat.left_le_or
        rw [Nat.shiftLeft_eq]
        exact Nat.le_trans (by omega) (Nat.le_mul_of_pos_right _ (Nat.two_pow_pos _))
      rw [sub_eq hbig]
      exact ⟨_, by omega, h'⟩

theorem readOffsets_safe {u : Stretch} (scaled : Bool) (codes : Bytes) {d n : Nat}
    {a b : BitReader} (ha : Reads t c a) (hb : Reads u d b) (hc : c ≤ 26 * n) (hd : d ≤ 26 * n)
    (hn : n + codes.length < 2 ^ 50) :
    Safe (fun p => (∃ c', Reads t c' p.2.1) ∧ ∃ d', Reads u d' p.2.2)
      (readOffsets scaled codes a b) := by
  induction codes generalizing t u c d n a b with
  | nil => exact ⟨⟨c, ha⟩, d, hb⟩
  | cons code codes ih =>
    rw [List.length_cons] at hn
    refine Safe.bind (readOffset_safe scaled code ha (by omega)) ?_
    rintro ⟨dist, a'⟩ ⟨c', hc', ha'⟩
    refine Safe.bind (ih hb ha' (n := n + 1) (by omega) (by omega) (by omega)) ?_
    rintro ⟨ds, b', a''⟩ ⟨hb', ha''⟩
    exact ⟨ha'', hb'⟩

theorem readEscapes_safe {u : Stretch} (k : Nat) {d n : Nat} {a b : BitReader}
    (ha : Reads t c a) (hb : Reads u d b) (hc : c ≤ 31 * n) (hd : d ≤ 31 * n)
    (hn : n + k < 2 ^ 50) : Safe (fun _ => True) (readEscapes k a b) := by
  induction k generalizing t u c d n a b with
  | zero => exact True.intro
  | succ k ih =>
    refine Safe.bind (getLength_spec ha fun _ => by omega) ?_
    rintro ⟨v, a'⟩ ⟨c', hc', ha'⟩
    refine Safe.bind (ih hb ha' (n := n + 1) (by omega) (by omega) (by omega)) fun vs _ => ?_
    exact True.intro

/-! ## Safety of the writes -/

theorem putDelta_safe {last : Nat} (lits : Bytes) (hlast : last ≤ dst)
    (hpos : 0 < last) (hroom : dst + lits.length ≤ out.length) :
    Safe (fun out' => out'.length = out.length) (putDelta last out dst lits) := by
  induction lits generalizing out dst with
  | nil => exact rfl
  | cons l lits ih =>
    rw [List.length_cons] at hroom
    refine Safe.bind (safe_sub hlast) ?_
    rintro _ rfl
    refine Safe.bind (safe_index (by omega)) fun x _ => ?_
    refine Safe.bind (safe_store (by omega) _) fun out₁ h₁ => ?_
    refine Safe.mono (ih (by omega) (by omega)) fun out' h' => ?_
    rw [h', h₁]

theorem putLiterals_safe {last : Nat} (delta : Bool)
    (hlast : (0 < last ∧ last ≤ dst) ∨ lits = []) (hroom : dst + lits.length ≤ out.length) :
    Safe (fun out' => out'.length = out.length) (putLiterals out dst lits delta last) := by
  rw [putLiterals]
  split
  · rcases hlast with ⟨hpos, hle⟩ | rfl
    · exact putDelta_safe lits hle hpos hroom
    · exact rfl
  · exact safe_blit hroom

theorem copyMatch_safe {dist : Nat} (n : Nat) (hdist : dist ≤ dst)
    (hpos : 0 < dist) (hroom : dst + n ≤ out.length) :
    Safe (fun out' => out'.length = out.length) (copyMatch dist n out dst) := by
  induction n generalizing out dst with
  | zero => exact rfl
  | succ n ih =>
    refine Safe.bind (safe_sub hdist) ?_
    rintro _ rfl
    refine Safe.bind (safe_index (by omega)) fun x _ => ?_
    refine Safe.bind (safe_store (by omega) _) fun out₁ h₁ => ?_
    refine Safe.mono (ih (by omega) (by omega)) fun out' h' => ?_
    rw [h', h₁]

/-! ## Safety of the commands -/

/-- Three recent offsets, each inside what has been written. -/
def RecentOk (recent : List Nat) (dst : Nat) : Prop :=
  recent.length = 3 ∧ ∀ d ∈ recent, 0 < d ∧ d ≤ dst

theorem RecentOk.mono {dst' : Nat} (h : RecentOk recent dst)
    (hle : dst ≤ dst') : RecentOk recent dst' :=
  ⟨h.1, fun d hd => ⟨(h.2 d hd).1, Nat.le_trans (h.2 d hd).2 hle⟩⟩

theorem shiftUp_safe (j : Nat) (h : RecentOk recent dst)
    (hj : j < 3) : Safe (fun recent' => RecentOk recent' dst) (shiftUp j recent) := by
  induction j generalizing recent with
  | zero => exact h
  | succ j ih =>
    have hlen := h.1
    refine Safe.bind (safe_index (by omega)) fun d hd => ?_
    rw [store_eq (by omega)]
    apply ih _ (by omega)
    refine ⟨by rw [List.length_set, h.1], fun e he => ?_⟩
    rcases List.mem_or_eq_of_mem_set he with he | rfl
    · exact h.2 e he
    · exact h.2 e (List.mem_of_getElem? hd)

/-- The next distance.  A new one has not been checked yet, so the recent offsets are inside what has
been written only once it is. -/
theorem nextDist_safe {kind : Nat} (hkind : kind < 4) (offs : List Nat) (h : RecentOk recent dst) :
    Safe (fun p => 0 < p.1 → p.1 ≤ dst → RecentOk p.2.2 dst) (nextDist kind offs recent) := by
  have hlen := h.1
  rw [nextDist.eq_def]
  split
  · cases offs with
    | nil => exact safe_fail _
    | cons d offs =>
      refine Safe.bind (safe_index (by omega)) fun r0 h0 => ?_
      refine Safe.bind (safe_index (by omega)) fun r1 h1 => ?_
      intro hpos hle
      refine ⟨rfl, fun e he => ?_⟩
      rcases List.mem_cons.1 he with rfl | he
      · exact ⟨hpos, hle⟩
      · rcases List.mem_cons.1 he with rfl | he
        · exact h.2 e (List.mem_of_getElem? h0)
        · rw [List.mem_singleton.1 he]
          exact h.2 r1 (List.mem_of_getElem? h1)
  · refine Safe.bind (safe_index (by omega)) fun d hd => ?_
    refine Safe.bind (shiftUp_safe kind h (by omega)) fun recent' h' => ?_
    have hlen' := h'.1
    rw [store_eq (by omega)]
    intro _ _
    refine ⟨by show (recent'.set 0 d).length = 3; rw [List.length_set, hlen'], fun e he => ?_⟩
    rcases List.mem_or_eq_of_mem_set he with he | rfl
    · exact h'.2 e he
    · exact h.2 e (List.mem_of_getElem? hd)

theorem lens_next_safe (lens : Lens) : Safe (fun _ => True) lens.next := by
  obtain ⟨lens, esc⟩ := lens
  cases lens with
  | nil => exact safe_fail _
  | cons v vs =>
    rw [Lens.next.eq_def]
    simp only
    split
    · cases esc with
      | nil => exact safe_fail _
      | cons e es => exact True.intro
    · exact True.intro

theorem nextLit_safe (f : UInt8) (lens : Lens) : Safe (fun _ => True) (nextLit f lens) := by
  rw [nextLit]
  split
  · exact lens_next_safe lens
  · exact True.intro

theorem nextLen_safe (f : UInt8) (lens : Lens) : Safe (fun _ => True) (nextLen f lens) := by
  rw [nextLen]
  simp only
  split
  · exact Safe.bind (lens_next_safe lens) fun _ _ => True.intro
  · exact True.intro

/-- What the loop over the commands keeps: the block's length `size`, the two positions inside what
they run over, and the recent offsets inside what has been written. -/
structure RunOk (size : Nat) (lits : Bytes) (end_ : Nat) (s : Run) : Prop where
  out : s.out.length = size
  dst : s.dst ≤ end_
  litAt : s.litAt ≤ lits.length
  recent : RecentOk s.recent s.dst

/-- **One command** writes inside the half, and reads only what has been written. -/
theorem runCommand_safe {size : Nat} {delta : Bool} {s : Run} (f : UInt8)
    (h : RunOk size lits end_ s) (hend : end_ ≤ size) :
    Safe (RunOk size lits end_) (runCommand lits end_ delta s f) := by
  have hlen := h.recent.1
  rw [runCommand]
  refine Safe.bind (nextLit_safe f s.lens) ?_
  rintro ⟨lit, lens⟩ -
  simp only
  split
  · exact safe_fail _
  · rename_i hover
    refine Safe.bind (safe_slice (by omega) (by omega)) fun run hrun => ?_
    refine Safe.bind (safe_index (by omega)) fun last hlast => ?_
    have hlast := h.recent.2 last (List.mem_of_getElem? hlast)
    have hsize := h.out
    refine Safe.bind (putLiterals_safe delta (.inl hlast) (by omega)) fun out hout => ?_
    have hkind : f.toNat / 64 < 4 := by
      have := f.toNat_lt
      omega
    refine Safe.bind (nextDist_safe hkind s.offs (h.recent.mono (Nat.le_add_right _ lit))) ?_
    rintro ⟨dist, offs, recent⟩ hrecent
    refine Safe.bind (nextLen_safe f lens) ?_
    rintro ⟨mlen, lens'⟩ -
    simp only
    split
    · exact safe_fail _
    · rename_i hbad
      have hmin : minDistance = 8 := rfl
      refine Safe.bind (copyMatch_safe mlen (by omega) (by omega) (by omega)) fun out' hout' => ?_
      refine ⟨?_, ?_, ?_, ?_⟩
      · show out'.length = size
        omega
      · show s.dst + lit + mlen ≤ end_
        omega
      · show s.litAt + lit ≤ lits.length
        omega
      · exact (hrecent (show 0 < dist by omega) (show dist ≤ s.dst + lit by omega)).mono
          (Nat.le_add_right _ mlen)

theorem finishRun_safe {size : Nat} {delta : Bool} {s : Run}
    (hout : s.out.length = size) (hdst : s.dst ≤ end_) (hlit : s.litAt ≤ lits.length)
    (hlen : s.recent.length = 3) (hrecent : RecentOk s.recent s.dst ∨ lits = [])
    (hend : end_ ≤ size) :
    Safe (fun out => out.length = size) (finishRun lits end_ delta s) := by
  rw [finishRun]
  refine Safe.bind (safe_sub hdst) ?_
  rintro _ rfl
  refine Safe.bind (safe_sub hlit) ?_
  rintro _ rfl
  split
  · exact safe_fail _
  · refine Safe.bind (safe_slice hlit (Nat.le_refl _)) fun run hrun => ?_
    refine Safe.bind (safe_index (by omega)) fun last hlast => ?_
    have hdelta : (0 < last ∧ last ≤ s.dst) ∨ run = [] := by
      rcases hrecent with hrecent | rfl
      · exact .inl (hrecent.2 last (List.mem_of_getElem? hlast))
      · exact .inr (List.length_eq_zero_iff.1 (by rw [hrun, List.length_nil, Nat.zero_sub]))
    refine Safe.bind (putLiterals_safe delta hdelta (by omega)) fun out h => ?_
    split
    · exact safe_fail _
    · show out.length = size
      omega

/-! ## Safety of a half and of a block -/

theorem readSeed_safe (hroom : at_ + len ≤ out.length) (hat : at_ = 0 ∨ seed ≤ at_ ∨ len = 0) :
    Safe (fun p => p.1.length = out.length ∧ p.2.1 ≤ seed ∧ p.2.2 ≤ at_ + len ∧
      (seed ≤ p.2.2 ∨ len = 0)) (readSeed src out at_ len) := by
  have hseed : seed = 8 := rfl
  rw [readSeed]
  split
  · rename_i hzero
    split
    · exact safe_fail _
    · refine Safe.bind (safe_slice (by omega) (by omega)) fun first hfirst => ?_
      refine Safe.bind (safe_blit (by omega)) fun out' hout' => ?_
      exact ⟨hout', Nat.le_refl _, by show seed ≤ at_ + len; omega, .inl (Nat.le_refl _)⟩
  · refine ⟨rfl, Nat.zero_le _, Nat.le_add_right .., ?_⟩
    rcases hat with hat | hat | hat
    · omega
    · exact .inl hat
    · exact .inr hat

theorem readExcess_safe {p : Nat} (hp : p + 2 ≤ src.length) :
    Safe (fun q => q.1 ≤ q.2 ∧ q.2 ≤ src.length) (readExcess src p) := by
  rw [readExcess]
  refine Safe.bind (safe_getOr _ _ _) fun flag _ => ?_
  split
  · exact safe_fail _
  · simp only
    split
    · refine Safe.bind (safe_getOr _ _ _) fun hi _ => ?_
      refine Safe.bind (safe_sub (by omega)) ?_
      rintro _ rfl
      split
      · exact safe_fail _
      · refine Safe.bind (safe_sub (by omega)) ?_
        rintro _ rfl
        exact ⟨by show p + 2 ≤ _; omega, Nat.sub_le ..⟩
    · refine Safe.bind (safe_sub (by omega)) ?_
      rintro _ rfl
      split
      · exact safe_fail _
      · refine Safe.bind (safe_sub (by omega)) ?_
        rintro _ rfl
        exact ⟨by show p + 1 ≤ _; omega, Nat.sub_le ..⟩

/-- **A half of any bytes.**  `at_` is the block's start, past its seed, or nothing is asked for. -/
theorem decodeHalf_safe (delta : Bool)
    (hroom : at_ + len ≤ out.length) (hat : at_ = 0 ∨ seed ≤ at_ ∨ len = 0) (hlen : len ≤ block) :
    Safe (fun out' => out'.length = out.length) (decodeHalf src out at_ len delta) := by
  have hseed : seed = 8 := rfl
  have hblock : block = 262144 := rfl
  rw [decodeHalf]
  split
  · exact safe_fail _
  · refine Safe.bind (readSeed_safe hroom hat) ?_
    rintro ⟨out₁, p, dst⟩ ⟨hout₁, hp, hdst, hpast⟩
    simp only at hout₁ hp hdst hpast
    refine Safe.bind (readExcess_safe (by omega)) ?_
    rintro ⟨p₂, mainEnd⟩ ⟨-, hmain⟩
    simp only at hmain
    refine Safe.bind (readArrays_safe hmain) fun arr harr => ?_
    obtain ⟨hlits, hcmds, hoffs, hlens, hpend⟩ := harr
    obtain ⟨a, hnewa, ha⟩ := new_spec ⟨src, arr.p, mainEnd, false, hpend, hmain⟩
    obtain ⟨b, hnewb, hb⟩ := new_spec ⟨src, arr.p, mainEnd, true, hpend, hmain⟩
    simp only at hnewa hnewb
    rw [hnewa, ok_bind, hnewb, ok_bind]
    refine Safe.bind (readOffsets_safe arr.scaled arr.offsCodes ha hb (n := 0) (by omega) (by omega)
      (by omega)) ?_
    rintro ⟨offs, a', b'⟩ ⟨⟨c', ha'⟩, d', hb'⟩
    simp only at ha' hb'
    simp only
    obtain ⟨sa, hsa⟩ : ∃ z, a'.seam = .ok z := ⟨_, seam_spec ha'⟩
    obtain ⟨sb, hsb⟩ : ∃ z, b'.seam = .ok z := ⟨_, seam_spec hb'⟩
    rw [hsa, ok_bind, hsb, ok_bind]
    split
    · exact safe_fail _
    · obtain ⟨ea, hnewea, hea⟩ := new_spec ⟨src, mainEnd, src.length, false, hmain, Nat.le_refl _⟩
      obtain ⟨eb, hneweb, heb⟩ := new_spec ⟨src, mainEnd, src.length, true, hmain, Nat.le_refl _⟩
      simp only at hnewea hneweb
      rw [hnewea, ok_bind, hneweb, ok_bind]
      have hcount : arr.lens.count 255 ≤ arr.lens.length := List.count_le_length
      refine Safe.bind (readEscapes_safe (arr.lens.count 255) hea heb (n := 0) (by omega) (by omega)
        (by omega)) fun esc _ => ?_
      -- A half that starts before a seed's length has no commands and no literals.
      rcases hpast with hpast | hzero
      · have hstart : RunOk out.length arr.lits (at_ + len)
            { out := out₁, dst := dst, offs := offs, lens := ⟨arr.lens, esc⟩ } := by
          refine ⟨hout₁, hdst, Nat.zero_le _, rfl, fun d hd => ?_⟩
          have : d = 8 := by simpa using hd
          subst this
          exact ⟨by omega, hpast⟩
        refine Safe.bind (safe_fold hstart fun s f _ hs => runCommand_safe f hs hroom) fun s hs => ?_
        exact finishRun_safe hs.out hs.dst hs.litAt hs.recent.1 (.inl hs.recent) hroom
      · have hnil : arr.cmds = [] := List.length_eq_zero_iff.1 (by omega)
        have hlnil : arr.lits = [] := List.length_eq_zero_iff.1 (by omega)
        rw [hnil]
        exact finishRun_safe hout₁ hdst (Nat.zero_le _) rfl (.inr hlnil) hroom

theorem decodeOne_safe {hl : Nat} (h : Half) (hroom : at_ + hl ≤ out.length)
    (hat : at_ = 0 ∨ seed ≤ at_ ∨ hl = 0) (hlen : hl ≤ block) :
    Safe (fun out' => out'.length = out.length) (decodeOne out at_ hl h) := by
  cases h with
  | raw b =>
    rw [decodeOne]
    split
    · exact safe_fail _
    · exact safe_blit (by omega)
  | lz b => exact decodeHalf_safe false hroom hat hlen
  | lzDelta b => exact decodeHalf_safe true hroom hat hlen
  | entropy b =>
    refine Safe.bind (getArray_safe (Nat.le_refl _)) ?_
    rintro ⟨bytes, used⟩ -
    simp only
    split
    · exact safe_fail _
    · exact safe_blit (by omega)

theorem decodeHalves_safe (hs : List Half)
    (hout : out.length = len) (hat : at_ ≤ len) (hpast : at_ = 0 ∨ seed ≤ at_ ∨ at_ = len) :
    Safe (fun p => p.1.length = len) (decodeHalves len hs out at_) := by
  have hhalf : half = 131072 := rfl
  have hseed : seed = 8 := rfl
  have hblock : block = 262144 := rfl
  induction hs generalizing out at_ with
  | nil => exact hout
  | cons h hs ih =>
    rw [decodeHalves, sub_eq hat]
    show Safe _ (decodeOne out at_ (min (len - at_) half) h >>= _)
    refine Safe.bind (decodeOne_safe h (by omega) (by omega) (by omega)) fun out' hout' => ?_
    exact ih (by omega) (by omega) (by omega)

/-- **The decoder is total on hostile input.**  Whatever halves it is given, of whatever bytes, no
check of an index, slice, subtraction or shift fails and no loop runs on: it returns an error, or a
block of exactly the length asked for. -/
theorem decode_block_total (halves : List Half) (len : Nat) :
    Safe (fun out => out.length = len) (decodeBlock halves len) := by
  rw [decodeBlock]
  refine Safe.bind (decodeHalves_safe halves (List.length_replicate ..) (Nat.zero_le _)
    (.inl rfl)) ?_
  rintro ⟨out, at_⟩ hout
  simp only
  split
  · exact safe_fail _
  · exact hout

end Ps5Upload.Kraken
