import Ps5Upload.Fpkg.Kraken.BitReader

/-!
# Kraken: reading Huffman-coded arrays

`huff::decode` of `ps5upload-fpkg/src/kraken/huff.rs`, with every index, subtraction and shift
checked: the code-length table in its two forms, the decoder's table of 2048 slots, and the three
bit streams of the symbols.  A loop of the source that could run on is a recursion with a number of
turns, and panics when it needs more.

* `peek_spec`, `skip_spec` — what a stream's reader holds.
-/

namespace Ps5Upload.Kraken

open ByteFile Bits Checked

namespace Huff

def maxLen : Nat := 11

/-- The slots of the decoder's table. -/
def lutSize : Nat := 2 ^ maxLen

def getGamma (r : BitReader) : Res (Nat × BitReader) :=
  let lz := leadingZeros 32 r.bits
  if 7 < lz then fail "kraken: bad Huffman table run"
  else do
    let (v, r) ← r.get (2 * (lz + 1))
    let n ← sub v 1
    return (n, r)

/-! ## The streams of symbols -/

/-- An LSB-first reader of a stretch, forward or backward; reads past it see zeros. -/
structure LsbReader where
  src : Bytes
  next : Nat
  left : Nat
  back : Bool
  acc : Nat := 0
  n : Nat := 0
  used : Nat := 0
  deriving DecidableEq, Repr

namespace LsbReader

def new (src : Bytes) (start stop : Nat) (back : Bool) : Res LsbReader := do
  let left ← sub stop start
  return { src := src, next := if back then stop else start, left := left, back := back }

def nextByte (s : LsbReader) : Res (UInt8 × LsbReader) :=
  if s.left = 0 then return (0, s)
  else do
    let left ← sub s.left 1
    if s.back then do
      let next ← sub s.next 1
      let b ← index s.src next
      return (b, { s with left := left, next := next })
    else do
      let at_ ← sub (s.next + 1) 1
      let b ← index s.src at_
      return (b, { s with left := left, next := s.next + 1 })

def fillFor : Nat → LsbReader → Res LsbReader
  | 0, s => if s.n < maxLen then panic else return s
  | turns + 1, s =>
    if s.n < maxLen then do
      let (byte, s) ← s.nextByte
      let x ← shl 64 byte.toNat s.n
      fillFor turns { s with acc := s.acc ||| x, n := s.n + 8 }
    else return s

/-- The next eleven bits; every turn of the loop adds eight. -/
def peek (s : LsbReader) : Res (Nat × LsbReader) := do
  let s ← fillFor 2 s
  return (s.acc &&& (lutSize - 1), s)

def skip (s : LsbReader) (bits : Nat) : Res LsbReader := do
  let acc ← shr 64 s.acc bits
  let n ← sub s.n bits
  return { s with acc := acc, n := n, used := s.used + bits }

def bytesUsed (s : LsbReader) : Nat := (s.used + 7) / 8

end LsbReader

/-! ## The code-length table -/

/-- The state of the loop over the full table. -/
structure Table where
  r : BitReader
  /-- Symbols by code length, in table order. -/
  byLen : List Bytes
  sym : Nat := 0
  avg : Int := 32
  count : Nat := 0
  deriving DecidableEq, Repr

/-- `by_len[l].push(s)`. -/
def pushSymbol (byLen : List Bytes) (l : Nat) (s : UInt8) : Res (List Bytes) := do
  let syms ← index byLen l
  store byLen l (syms ++ [s])

/-- `-(v & 1) ^ (v >> 1)`: the number a zigzag code stands for. -/
def unzigzag (v : Nat) : Int := if v % 2 = 0 then (v / 2 : Nat) else -(v / 2 : Nat) - 1

/-- One code length of a run. -/
def readLen (fb limit : Nat) (t : Table) : Res Table :=
  let lz := leadingZeros 32 t.r.bits
  if limit < lz then fail "kraken: bad Huffman code length"
  else do
    let (_, r) ← t.r.get (lz + 1)
    let high ← shl 32 lz fb
    let (low, r) ← r.get fb
    let l := unzigzag (high ||| low) + (t.avg + 2) / 4
    if ¬(1 ≤ l ∧ l ≤ maxLen) then fail "kraken: bad Huffman code length"
    else do
      let byLen ← pushSymbol t.byLen l.toNat (UInt8.ofNat t.sym)
      return { t with
        r := r, byLen := byLen, avg := l + (3 * t.avg + 2) / 4, sym := t.sym + 1 }

def readRun (fb limit : Nat) : Nat → Table → Res Table
  | 0, t => return t
  | run + 1, t => do
    let t ← readLen fb limit t
    readRun fb limit run t

/-- A run of unused symbols, left out at first when the first symbol is used. -/
def readUnused (skip : Bool) (t : Table) : Res Table :=
  if skip then return t
  else do
    let (z, r) ← getGamma t.r
    return { t with r := r, sym := t.sym + z }

/-- The loop over the runs of unused and used symbols. -/
def readRuns (fb limit : Nat) : Nat → Bool → Table → Res Table
  | turns, skip, t =>
    if t.sym = 256 then return t
    else
      match turns with
      | 0 => panic
      | turns + 1 => do
        let t ← readUnused skip t
        if 256 ≤ t.sym then return t
        else do
          let (run, r) ← getGamma t.r
          if 256 < t.sym + run then fail "kraken: Huffman table overruns"
          else do
            let t ← readRun fb limit run { t with r := r, count := t.count + run }
            readRuns fb limit turns false t

def fullTable (r : BitReader) : Res Table := do
  let (fb, r) ← r.get 2
  let limit ← shr 32 20 fb
  let (first, r) ← r.get 1
  let t ← readRuns fb limit 257 (first = 1) { r := r, byLen := List.replicate (maxLen + 1) [] }
  if t.sym ≠ 256 ∨ t.count < 2 then fail "kraken: bad Huffman table"
  else return t

/-- The symbols of a sparse table with their lengths in `cb` bits. -/
def sparseSymbols (cb : Nat) : Nat → Table → Res Table
  | 0, t => return t
  | count + 1, t => do
    let (s, r) ← t.r.get 8
    let (l, r) ← r.get cb
    if maxLen < l + 1 then fail "kraken: bad Huffman code length"
    else do
      let byLen ← pushSymbol t.byLen (l + 1) (UInt8.ofNat s)
      sparseSymbols cb count { t with r := r, byLen := byLen }

/-- A sparse table of two symbols or more. -/
def sparseTable (r : BitReader) (count : Nat) : Res Table := do
  let (cb, r) ← r.get 3
  if 4 < cb then fail "kraken: bad Huffman table"
  else sparseSymbols cb count { r := r, byLen := List.replicate (maxLen + 1) [] }

/-! ## The decoder's table -/

/-- A 32-bit number with its bits in reverse. -/
def reverseBits (k : Nat) : Nat := msbNum (fun i => k.testBit i) 0 32

/-- The slots `slot`, `slot + 1`, ... of one code. -/
def fillCode (entry : UInt8 × Nat) : Nat → Nat → List (UInt8 × Nat) → Res (List (UInt8 × Nat))
  | 0, _, lut => return lut
  | step + 1, k, lut => do
    let shift ← sub 32 maxLen
    let i ← shr 32 (reverseBits k) shift
    let lut ← store lut i entry
    fillCode entry step (k + 1) lut

/-- The codes of one length. -/
def fillLen (l step : Nat) : Bytes → Nat × List (UInt8 × Nat) → Res (Nat × List (UInt8 × Nat))
  | [], p => return p
  | s :: ss, (slot, lut) =>
    if lutSize < slot + step then fail "kraken: oversubscribed Huffman code"
    else do
      let lut ← fillCode (s, l) step slot lut
      fillLen l step ss (slot + step, lut)

/-- The lengths from `l` on. -/
def fillLens : Nat → List Bytes → Nat × List (UInt8 × Nat) → Res (Nat × List (UInt8 × Nat))
  | _, [], p => return p
  | l, syms :: rest, p => do
    let k ← sub maxLen l
    let step ← shl 64 1 k
    let p ← fillLen l step syms p
    fillLens (l + 1) rest p

def buildLut (byLen : List Bytes) : Res (List (UInt8 × Nat)) := do
  let (slot, lut) ← fillLens 1 (byLen.drop 1) (0, List.replicate lutSize (0, 0))
  if slot ≠ lutSize then fail "kraken: incomplete Huffman code" else return lut

/-! ## The symbols -/

/-- The symbols from the `i`-th on, `todo` of them. -/
def readSymbols (lut : List (UInt8 × Nat)) :
    Nat → Nat → List LsbReader → Res (Bytes × List LsbReader)
  | 0, _, streams => return ([], streams)
  | todo + 1, i, streams => do
    let s ← index streams (i % 3)
    let (k, s) ← s.peek
    let (sym, l) ← index lut k
    let s ← s.skip l
    let streams ← store streams (i % 3) s
    let (out, streams) ← readSymbols lut todo (i + 1) streams
    return (sym :: out, streams)

/-- The streams behind a table, from where its reader stands. -/
def readStreams (src : Bytes) (n : Nat) (t : Table) : Res Bytes := do
  let lut ← buildLut t.byLen
  let seam ← t.r.seam
  let start := seam.toNat
  if src.length < start + 3 then fail "kraken: truncated Huffman array"
  else do
    let lo ← index src start
    let hi ← index src (start + 1)
    let split := lo.toNat + 256 * hi.toNat
    let a0 := start + 2
    if src.length < a0 + split then fail "kraken: bad Huffman split"
    else do
      let a ← LsbReader.new src a0 (a0 + split) false
      let b ← LsbReader.new src (a0 + split) src.length true
      let c ← LsbReader.new src (a0 + split) src.length false
      let (out, streams) ← readSymbols lut n 0 [a, b, c]
      let a ← index streams 0
      let b ← index streams 1
      let c ← index streams 2
      let rest ← sub src.length a0
      let rest ← sub rest split
      if a.bytesUsed ≠ split ∨ b.bytesUsed + c.bytesUsed ≠ rest then
        fail "kraken: Huffman streams do not meet"
      else return out

/-- A type-2 array body into `n` bytes. -/
def decode (src : Bytes) (n : Nat) : Res Bytes := do
  let r ← BitReader.new src 0 src.length false
  let (form, r) ← r.get 1
  if form ≠ 0 then fail "kraken: unsupported Huffman table form"
  else do
    let (full, r) ← r.get 1
    if full = 1 then do
      let t ← fullTable r
      readStreams src n t
    else do
      let (count, r) ← r.get 8
      if count = 0 then fail "kraken: empty Huffman table"
      else if count = 1 then do
        let (s, _) ← r.get 8
        return List.replicate n (UInt8.ofNat s)
      else do
        let t ← sparseTable r count
        readStreams src n t

/-! ## What a stream's reader holds -/

/-- An LSB-first reader of a stretch that has consumed `used` bits and holds the next `n`; `m` is the
number of bytes it has asked for, those past the stretch included. -/
structure LsbOver (t : Stretch) (used n : Nat) (s : LsbReader) : Prop where
  src : s.src = t.src
  back : s.back = t.back
  asked : ∃ m : Nat, 8 * m = used + n ∧ s.left = t.stop - t.start - m ∧
    s.next = if t.back then t.stop - min m (t.stop - t.start)
      else t.start + min m (t.stop - t.start)
  n_eq : s.n = n
  used_eq : s.used = used
  bit : ∀ j, s.acc.testBit j = (decide (j < n) && lsbBit t.bytes (used + j))

theorem new_lsb (t : Stretch) :
    ∃ s, LsbReader.new t.src t.start t.stop t.back = .ok s ∧ LsbOver t 0 0 s := by
  refine ⟨⟨t.src, if t.back then t.stop else t.start, t.stop - t.start, t.back, 0, 0, 0⟩, ?_,
    rfl, rfl, ⟨0, rfl, rfl, ?_⟩, rfl, rfl, ?_⟩
  · rw [LsbReader.new, sub_eq t.start_le]
    rfl
  · simp
  · intro j
    simp

variable {t : Stretch} {used n : Nat} {s : LsbReader}

theorem nextByte_lsb {m : Nat} (h : LsbOver t used n s)
    (hleft : s.left = t.stop - t.start - m)
    (hnext : s.next = if t.back then t.stop - min m (t.stop - t.start)
      else t.start + min m (t.stop - t.start)) :
    s.nextByte = .ok (t.bytes.getD m 0,
      { s with
        left := t.stop - t.start - (m + 1)
        next := if t.back then t.stop - min (m + 1) (t.stop - t.start)
          else t.start + min (m + 1) (t.stop - t.start) }) := by
  have hle := t.start_le
  rw [LsbReader.nextByte]
  by_cases hin : m < t.stop - t.start
  · have hread := t.getElem?_src hin
    have hmin : min m (t.stop - t.start) = m := by omega
    have hmin' : min (m + 1) (t.stop - t.start) = m + 1 := by omega
    rw [hmin] at hnext
    rw [if_neg (by omega), sub_eq (by omega), hmin', h.back, h.src, hnext, hleft]
    cases hb : t.back with
    | true =>
      simp only [hb, if_true, bind, Except.bind] at hread ⊢
      rw [sub_eq (by omega)]
      simp only
      rw [show t.stop - m - 1 = t.stop - 1 - m by omega, index_eq hread]
      simp only [pure, Except.pure]
      rw [show t.stop - 1 - m = t.stop - (m + 1) by omega, Nat.sub_sub (t.stop - t.start)]
    | false =>
      simp only [hb, Bool.false_eq_true, if_false, bind, Except.bind] at hread ⊢
      rw [sub_eq (by omega)]
      simp only
      rw [show t.start + m + 1 - 1 = t.start + m by omega, index_eq hread]
      simp only [pure, Except.pure]
      rw [Nat.sub_sub (t.stop - t.start), Nat.add_assoc]
  · have hmin : min m (t.stop - t.start) = t.stop - t.start := by omega
    have hmin' : min (m + 1) (t.stop - t.start) = t.stop - t.start := by omega
    rw [hmin] at hnext
    rw [if_pos (by omega), t.getD_past (by omega), hmin', ← hnext,
      show t.stop - t.start - (m + 1) = s.left by omega]
    rfl

theorem fill_lsb (h : LsbOver t used n s) (hn : n < maxLen) :
    ∃ s' byte s₁, s.nextByte = .ok (byte, s₁) ∧ s₁.n = n ∧
      s' = { s₁ with acc := s₁.acc ||| (byte.toNat <<< n) % 2 ^ 64, n := n + 8 } ∧
      LsbOver t used (n + 8) s' := by
  obtain ⟨m, hm, hleft, hnext⟩ := h.asked
  have hlt : (t.bytes.getD m 0).toNat < 2 ^ 8 := (t.bytes.getD m 0).toNat_lt
  have hmax : maxLen = 11 := rfl
  refine ⟨_, _, _, nextByte_lsb h hleft hnext, h.n_eq, rfl, h.src, h.back,
    ⟨m + 1, by omega, rfl, rfl⟩, rfl, h.used_eq, fun j => ?_⟩
  have hsmall : (t.bytes.getD m 0).toNat <<< n < 2 ^ 64 := by
    rw [Nat.shiftLeft_eq]
    calc (t.bytes.getD m 0).toNat * 2 ^ n < 2 ^ 8 * 2 ^ n :=
          (Nat.mul_lt_mul_right (Nat.two_pow_pos n)).2 hlt
      _ = 2 ^ (8 + n) := (Nat.pow_add ..).symm
      _ ≤ 2 ^ 64 := Nat.pow_le_pow_right (by omega) (by omega)
  show (s.acc ||| _).testBit j = _
  rw [Nat.mod_eq_of_lt hsmall, Nat.testBit_or, h.bit, Nat.testBit_shiftLeft]
  by_cases h₁ : j < n
  · simp [h₁, show j < n + 8 by omega, show ¬ n ≤ j by omega]
  · by_cases h₂ : j < n + 8
    · rw [lsbBit, show (used + j) / 8 = m by omega, show (used + j) % 8 = j - n by omega]
      simp [h₁, h₂, show n ≤ j by omega]
    · rw [Nat.testBit_lt_two_pow (Nat.lt_of_lt_of_le hlt
        (Nat.pow_le_pow_right (by omega) (by omega : 8 ≤ j - n)))]
      simp [h₁, h₂]

theorem fillFor_lsb (turns : Nat) (h : LsbOver t used n s) (hn : maxLen ≤ n + 8 * turns) :
    ∃ s' n', LsbReader.fillFor turns s = .ok s' ∧ maxLen ≤ n' ∧ LsbOver t used n' s' := by
  induction turns generalizing n s with
  | zero =>
    refine ⟨s, n, ?_, hn, h⟩
    rw [LsbReader.fillFor, if_neg (by rw [h.n_eq]; omega)]
    rfl
  | succ turns ih =>
    by_cases hlt : n < maxLen
    · obtain ⟨s', byte, s₁, hnext, hn₁, hs', h'⟩ := fill_lsb h hlt
      have hmax : maxLen = 11 := rfl
      obtain ⟨s'', n', hs'', hn', h''⟩ := ih h' (by omega)
      refine ⟨s'', n', ?_, hn', h''⟩
      rw [LsbReader.fillFor, if_pos (by rw [h.n_eq]; exact hlt), hnext]
      simp only [bind, Except.bind]
      rw [hn₁, shl_eq (by omega), ← hs'']
      simp only [hs']
    · refine ⟨s, n, ?_, by omega, h⟩
      rw [LsbReader.fillFor, if_neg (by rw [h.n_eq]; exact hlt)]
      rfl

/-- **A peek returns the next eleven bits.** -/
theorem peek_spec (h : LsbOver t used n s) :
    ∃ s' n', s.peek = .ok (lsbNum (lsbBit t.bytes) used maxLen, s') ∧ maxLen ≤ n' ∧
      LsbOver t used n' s' := by
  have hmax : maxLen = 11 := rfl
  obtain ⟨s', n', hs', hn', h'⟩ := fillFor_lsb 2 h (by omega)
  refine ⟨s', n', ?_, hn', h'⟩
  have hval : s'.acc &&& (lutSize - 1) = lsbNum (lsbBit t.bytes) used maxLen := by
    rw [lutSize, Nat.and_two_pow_sub_one_eq_mod]
    refine Nat.eq_of_testBit_eq fun i => ?_
    rw [Nat.testBit_mod_two_pow, h'.bit, testBit_lsbNum]
    by_cases hi : i < maxLen
    · simp [hi, show i < n' by omega]
    · simp [hi]
  rw [LsbReader.peek, hs', ← hval]
  rfl

variable {l fb limit : Nat} {r : BitReader} {byLen : List Bytes} {tb : Table}

theorem skip_spec (h : LsbOver t used n s) (hl : l ≤ n) (hl' : l < 64) :
    ∃ s', s.skip l = .ok s' ∧ LsbOver t (used + l) (n - l) s' := by
  obtain ⟨m, hm, hleft, hnext⟩ := h.asked
  refine ⟨{ s with acc := s.acc >>> l, n := n - l, used := used + l }, ?_, h.src, h.back,
    ⟨m, by omega, hleft, hnext⟩, rfl, rfl, fun j => ?_⟩
  · rw [LsbReader.skip, shr_eq hl', h.n_eq, sub_eq hl, h.used_eq]
    rfl
  · show (s.acc >>> l).testBit j = _
    rw [Nat.testBit_shiftRight, h.bit, ← Nat.add_assoc]
    simp only [show l + j < n ↔ j < n - l by omega]

/-! ## Safety -/

/-- A forward reader between two reads. -/
def Reading (src : Bytes) (r : BitReader) : Prop :=
  ∃ t c, t.back = false ∧ t.src = src ∧ t.start = 0 ∧ Reads t c r

variable {src : Bytes}

theorem get_safe (h : Reading src r) {n : Nat} (hn : n ≤ 32) :
    Safe (fun p => p.1 < 2 ^ n ∧ Reading src p.2) (r.get n) := by
  obtain ⟨t, c, hb, hsrc, hstart, h⟩ := h
  obtain ⟨r', hr', h'⟩ := get_spec h hn fun hb' => absurd hb' (by simp [hb])
  rw [hr']
  exact ⟨msbNum_lt _ _ _, t, c + n, hb, hsrc, hstart, h'⟩

/-- The length of a run with `z` zeros in front. -/
theorem getGamma_eq {t : Stretch} {c z : Nat} (h : Reads t c r)
    (hb : t.back = false) (hz : z ≤ 7) (hone : t.bit (c + z) = true)
    (hzero : ∀ j < z, t.bit (c + j) = false) :
    ∃ r', getGamma r = .ok (msbNum t.bit c (2 * (z + 1)) - 1, r') ∧
      2 ≤ msbNum t.bit c (2 * (z + 1)) ∧ Reads t (c + 2 * (z + 1)) r' := by
  have hlz : leadingZeros 32 r.bits = z := (h.leadingZeros_iff (by omega)).2 ⟨hone, hzero⟩
  obtain ⟨r', hr', h'⟩ := get_spec h (n := 2 * (z + 1)) (by omega)
    fun hb' => absurd hb' (by simp [hb])
  have hbig : 2 ≤ msbNum t.bit c (2 * (z + 1)) := by
    rw [show 2 * (z + 1) = z + (z + 1 + 1) by omega, msbNum_add]
    have hfirst := le_msbNum hone (z + 1)
    have hpow : 2 ≤ 2 ^ (z + 1) := by
      rw [Nat.pow_succ]
      have := Nat.two_pow_pos z
      omega
    omega
  refine ⟨r', ?_, hbig, h'⟩
  rw [getGamma]
  simp only [hlz]
  rw [if_neg (by omega), hr']
  simp only [bind, Except.bind]
  rw [sub_eq (by omega)]
  rfl

/-- **A run is at least one long.** -/
theorem getGamma_spec (h : Reading src r) :
    Safe (fun p => 1 ≤ p.1 ∧ Reading src p.2) (getGamma r) := by
  obtain ⟨t, c, hb, hsrc, hstart, h⟩ := h
  by_cases hlt : 7 < leadingZeros 32 r.bits
  · rw [getGamma, if_pos hlt]
    exact safe_fail _
  · obtain ⟨hone, hzero⟩ := (h.leadingZeros_iff (by omega)).1 rfl
    obtain ⟨r', hr', hbig, h'⟩ := getGamma_eq h hb (by omega) hone hzero
    rw [hr']
    exact ⟨by show 1 ≤ _ - 1; omega, t, _, hb, hsrc, hstart, h'⟩

/-- The table while it is read: the reader, and a list for every length. -/
def TableOk (src : Bytes) (tb : Table) : Prop :=
  Reading src tb.r ∧ tb.byLen.length = maxLen + 1

theorem pushSymbol_safe (hlen : byLen.length = maxLen + 1) (hl : l ≤ maxLen) (b : UInt8) :
    Safe (fun byLen' => byLen'.length = maxLen + 1) (pushSymbol byLen l b) := by
  refine Safe.bind (safe_index (by omega)) fun syms _ => ?_
  refine Safe.mono (safe_store (by omega) _) fun byLen' h => ?_
  rw [h, hlen]

theorem readLen_safe (h : TableOk src tb) (hfb : fb < 4) (hlimit : limit ≤ 20) :
    Safe (fun tb' => TableOk src tb' ∧ tb'.sym = tb.sym + 1) (readLen fb limit tb) := by
  obtain ⟨hr, hlen⟩ := h
  rw [readLen]
  by_cases hlz : limit < leadingZeros 32 tb.r.bits
  · simp only [hlz, if_true]
    exact safe_fail _
  · simp only [hlz, if_false]
    refine Safe.bind (get_safe hr (by omega)) ?_
    rintro ⟨one, r₁⟩ ⟨-, hr₁⟩
    simp only
    rw [shl_eq (by omega)]
    show Safe _ (r₁.get fb >>= _)
    refine Safe.bind (get_safe hr₁ (by omega)) ?_
    rintro ⟨low, r₂⟩ ⟨-, hr₂⟩
    split
    · exact safe_fail _
    · rename_i hl
      rw [not_not] at hl
      have hmax : maxLen = 11 := rfl
      refine Safe.bind (pushSymbol_safe hlen (by omega) _) fun byLen hbyLen => ?_
      exact ⟨⟨hr₂, hbyLen⟩, rfl⟩

theorem readRun_safe (hfb : fb < 4) (hlimit : limit ≤ 20) (run : Nat) (h : TableOk src tb) :
    Safe (fun tb' => TableOk src tb' ∧ tb'.sym = tb.sym + run) (readRun fb limit run tb) := by
  induction run generalizing tb with
  | zero => exact ⟨h, rfl⟩
  | succ run ih =>
    refine Safe.bind (readLen_safe h hfb hlimit) fun tb₁ h₁ => ?_
    refine Safe.mono (ih h₁.1) fun tb' h' => ⟨h'.1, ?_⟩
    rw [h'.2, h₁.2]
    omega

theorem readUnused_safe (skip : Bool) (h : TableOk src tb) :
    Safe (fun tb' => TableOk src tb' ∧ tb.sym ≤ tb'.sym) (readUnused skip tb) := by
  rw [readUnused]
  split
  · exact ⟨h, Nat.le_refl _⟩
  · refine Safe.bind (getGamma_spec h.1) ?_
    rintro ⟨z, r⟩ ⟨-, hr⟩
    exact ⟨⟨hr, h.2⟩, Nat.le_add_right ..⟩

theorem readRuns_safe (hfb : fb < 4) (hlimit : limit ≤ 20) (turns : Nat)
    (skip : Bool) (h : TableOk src tb) (hsym : tb.sym ≤ 256)
    (hturns : 256 ≤ turns + tb.sym) :
    Safe (TableOk src) (readRuns fb limit turns skip tb) := by
  induction turns generalizing skip tb with
  | zero =>
    rw [readRuns, if_pos (by omega)]
    exact h
  | succ turns ih =>
    rw [readRuns]
    by_cases hend : tb.sym = 256
    · rw [if_pos hend]
      exact h
    · rw [if_neg hend]
      refine Safe.bind (readUnused_safe skip h) fun tb₁ h₁ => ?_
      split
      · exact h₁.1
      · refine Safe.bind (getGamma_spec h₁.1.1) ?_
        rintro ⟨run, r⟩ ⟨hone, hr⟩
        simp only
        split
        · exact safe_fail _
        · refine Safe.bind (readRun_safe hfb hlimit run ⟨hr, h₁.1.2⟩) fun tb₂ h₂ => ?_
          have hsym₂ : tb₂.sym = tb₁.sym + run := h₂.2
          have hle := h₁.2
          simp only at hone
          exact ih false h₂.1 (by omega) (by omega)

theorem fullTable_safe (h : Reading src r) : Safe (TableOk src) (fullTable r) := by
  refine Safe.bind (get_safe h (by omega)) ?_
  rintro ⟨fb, r₁⟩ ⟨hfb, hr₁⟩
  simp only at hfb ⊢
  rw [shr_eq (by omega)]
  show Safe _ (r₁.get 1 >>= _)
  refine Safe.bind (get_safe hr₁ (by omega)) ?_
  rintro ⟨first, r₂⟩ ⟨-, hr₂⟩
  have hlimit : 20 >>> fb ≤ 20 := by
    rw [Nat.shiftRight_eq_div_pow]
    exact Nat.div_le_self ..
  have hstart : TableOk src { r := r₂, byLen := List.replicate (maxLen + 1) [] } :=
    ⟨hr₂, List.length_replicate ..⟩
  have hsym : 0 ≤ 256 ∧ 256 ≤ 257 + 0 := by omega
  refine Safe.bind (readRuns_safe hfb hlimit 257 _ hstart hsym.1 hsym.2) fun tb htb => ?_
  split
  · exact safe_fail _
  · exact htb

theorem sparseSymbols_safe {cb : Nat} (hcb : cb ≤ 4) (count : Nat)
    (h : TableOk src tb) : Safe (TableOk src) (sparseSymbols cb count tb) := by
  induction count generalizing tb with
  | zero => exact h
  | succ count ih =>
    refine Safe.bind (get_safe h.1 (by omega)) ?_
    rintro ⟨b, r₁⟩ ⟨-, hr₁⟩
    refine Safe.bind (get_safe hr₁ (by omega)) ?_
    rintro ⟨l, r₂⟩ ⟨-, hr₂⟩
    simp only
    split
    · exact safe_fail _
    · refine Safe.bind (pushSymbol_safe h.2 (by omega) _) fun byLen hbyLen => ?_
      exact ih ⟨hr₂, hbyLen⟩

theorem sparseTable_safe (h : Reading src r) (count : Nat) :
    Safe (TableOk src) (sparseTable r count) := by
  refine Safe.bind (get_safe h (by omega)) ?_
  rintro ⟨cb, r₁⟩ ⟨-, hr₁⟩
  simp only
  split
  · exact safe_fail _
  · exact sparseSymbols_safe (by omega) count ⟨hr₁, List.length_replicate ..⟩

/-- A decoder's table: every slot, with no code longer than the longest. -/
def LutOk (lut : List (UInt8 × Nat)) : Prop := lut.length = lutSize ∧ ∀ e ∈ lut, e.2 ≤ maxLen

theorem reverseBits_lt (k : Nat) : reverseBits k >>> (32 - maxLen) < lutSize := by
  rw [Nat.shiftRight_eq_div_pow]
  apply Nat.div_lt_of_lt_mul
  exact msbNum_lt _ 0 32

theorem fillCode_safe {entry : UInt8 × Nat} (he : entry.2 ≤ maxLen) (step : Nat) (k : Nat)
    {lut : List (UInt8 × Nat)} (h : LutOk lut) : Safe LutOk (fillCode entry step k lut) := by
  induction step generalizing k lut with
  | zero => exact h
  | succ step ih =>
    have hi := reverseBits_lt k
    rw [fillCode, sub_eq (by decide)]
    simp only [bind, Except.bind]
    rw [shr_eq (by decide)]
    simp only
    rw [store_eq (by rw [h.1]; exact hi)]
    apply ih
    refine ⟨by rw [List.length_set, h.1], fun e hmem => ?_⟩
    rcases List.mem_or_eq_of_mem_set hmem with hmem | rfl
    · exact h.2 e hmem
    · exact he

theorem fillLen_safe {step : Nat} (hl : l ≤ maxLen) (syms : Bytes)
    {p : Nat × List (UInt8 × Nat)} (h : LutOk p.2) :
    Safe (fun p' => LutOk p'.2) (fillLen l step syms p) := by
  induction syms generalizing p with
  | nil => exact h
  | cons b syms ih =>
    rw [fillLen]
    split
    · exact safe_fail _
    · exact Safe.bind (fillCode_safe hl step p.1 h) fun lut hlut => ih hlut

theorem fillLens_safe (hl : l + byLen.length ≤ maxLen + 1)
    {p : Nat × List (UInt8 × Nat)} (h : LutOk p.2) :
    Safe (fun p' => LutOk p'.2) (fillLens l byLen p) := by
  induction byLen generalizing l p with
  | nil => exact h
  | cons syms rest ih =>
    have hmax : maxLen = 11 := rfl
    rw [List.length_cons] at hl
    rw [fillLens, sub_eq (by omega)]
    simp only [bind, Except.bind]
    rw [shl_eq (by omega)]
    refine Safe.bind (fillLen_safe (by omega) syms h) fun p' hp' => ?_
    exact ih (by omega) hp'

theorem buildLut_safe (hlen : byLen.length = maxLen + 1) : Safe LutOk (buildLut byLen) := by
  have hempty : LutOk (List.replicate lutSize (0, 0)) := by
    refine ⟨List.length_replicate .., fun e he => ?_⟩
    rw [(List.mem_replicate.1 he).2]
    exact Nat.zero_le _
  refine Safe.bind (fillLens_safe (by rw [List.length_drop]; omega) hempty) ?_
  rintro ⟨slot, lut⟩ hlut
  simp only
  split
  · exact safe_fail _
  · exact hlut

/-- A reader of some stretch. -/
def LsbOk (s : LsbReader) : Prop := ∃ t used n, LsbOver t used n s

theorem readSymbols_safe {lut : List (UInt8 × Nat)} (hlut : LutOk lut) (todo i : Nat)
    {streams : List LsbReader} (hlen : streams.length = 3) (hok : ∀ s ∈ streams, LsbOk s) :
    Safe (fun p => p.1.length = todo ∧ p.2.length = 3) (readSymbols lut todo i streams) := by
  induction todo generalizing i streams with
  | zero => exact ⟨rfl, hlen⟩
  | succ todo ih =>
    have hi : i % 3 < streams.length := by omega
    refine Safe.bind (safe_index hi) fun s hs => ?_
    obtain ⟨t, used, n, h⟩ := hok s (List.mem_of_getElem? hs)
    obtain ⟨s', n', hs', hn', h'⟩ := peek_spec h
    rw [hs']
    have hk : lsbNum (lsbBit t.bytes) used maxLen < lut.length := by
      rw [hlut.1]
      exact lsbNum_lt _ _ _
    show Safe _ (index lut (lsbNum (lsbBit t.bytes) used maxLen) >>= _)
    refine Safe.bind (safe_index hk) ?_
    rintro ⟨sym, l⟩ he
    have hmax : maxLen = 11 := rfl
    have hel : l ≤ maxLen := hlut.2 (sym, l) (List.mem_of_getElem? he)
    obtain ⟨s'', hs'', h''⟩ := skip_spec h' (l := l) (by omega) (by omega)
    show Safe _ (s'.skip l >>= _)
    rw [hs'']
    show Safe _ (store streams (i % 3) s'' >>= _)
    rw [store_eq hi]
    have hset : ∀ u ∈ streams.set (i % 3) s'', LsbOk u := by
      intro u hu
      rcases List.mem_or_eq_of_mem_set hu with hu | rfl
      · exact hok u hu
      · exact ⟨t, _, _, h''⟩
    show Safe _ (readSymbols lut todo (i + 1) (streams.set (i % 3) s'') >>= _)
    refine Safe.bind (ih (i + 1) (by rw [List.length_set, hlen]) hset) fun p hp => ?_
    exact ⟨by rw [List.length_cons, hp.1], hp.2⟩

theorem new_safe {src : Bytes} {start stop : Nat} (back : Bool) (h : start ≤ stop)
    (hstop : stop ≤ src.length) : Safe LsbOk (LsbReader.new src start stop back) := by
  obtain ⟨s, hs, hover⟩ := new_lsb ⟨src, start, stop, back, h, hstop⟩
  rw [hs]
  exact ⟨_, _, _, hover⟩

theorem readStreams_safe {n : Nat} (h : TableOk src tb) :
    Safe (fun out => out.length = n) (readStreams src n tb) := by
  refine Safe.bind (buildLut_safe h.2) fun lut hlut => ?_
  obtain ⟨t, c, hb, hsrc, hstart, hr⟩ := h.1
  rw [seam_spec hr]
  simp only [bind, Except.bind]
  generalize (if t.back then (t.stop : Int) - ((c + 7) / 8 : Nat)
    else (t.start : Int) + ((c + 7) / 8 : Nat)).toNat = start
  by_cases hshort : src.length < start + 3
  · rw [if_pos hshort]
    exact safe_fail _
  · rw [if_neg hshort]
    refine Safe.bind (safe_index (by omega)) fun lo _ => ?_
    refine Safe.bind (safe_index (by omega)) fun hi _ => ?_
    split
    · exact safe_fail _
    · rename_i hsplit
      refine Safe.bind (new_safe false (by omega) (by omega)) fun a ha => ?_
      refine Safe.bind (new_safe true (by omega) (by omega)) fun b hb => ?_
      refine Safe.bind (new_safe false (by omega) (by omega)) fun c hc => ?_
      have hok : ∀ s ∈ [a, b, c], LsbOk s := by
        intro s hs
        rcases List.mem_cons.1 hs with rfl | hs
        · exact ha
        · rcases List.mem_cons.1 hs with rfl | hs
          · exact hb
          · rw [List.mem_singleton.1 hs]
            exact hc
      refine Safe.bind (readSymbols_safe hlut n 0 rfl hok) fun p hp => ?_
      have h3 := hp.2
      refine Safe.bind (safe_index (by omega)) fun a' _ => ?_
      refine Safe.bind (safe_index (by omega)) fun b' _ => ?_
      refine Safe.bind (safe_index (by omega)) fun c' _ => ?_
      refine Safe.bind (safe_sub (by omega)) fun rest hrest => ?_
      refine Safe.bind (safe_sub (by omega)) fun rest' _ => ?_
      split
      · exact safe_fail _
      · exact hp.1

/-- **Any bytes as a Huffman array** are refused or give exactly `n` symbols. -/
theorem decode_safe (src : Bytes) (n : Nat) : Safe (fun out => out.length = n) (decode src n) := by
  obtain ⟨r, hr, hreads⟩ := new_spec ⟨src, 0, src.length, false, Nat.zero_le _, Nat.le_refl _⟩
  have hreading : Reading src r := ⟨_, _, rfl, rfl, rfl, hreads⟩
  rw [decode, hr]
  show Safe _ (r.get 1 >>= _)
  refine Safe.bind (get_safe hreading (by omega)) ?_
  rintro ⟨form, r₁⟩ ⟨-, hr₁⟩
  simp only
  split
  · exact safe_fail _
  · refine Safe.bind (get_safe hr₁ (by omega)) ?_
    rintro ⟨full, r₂⟩ ⟨-, hr₂⟩
    simp only
    split
    · exact Safe.bind (fullTable_safe hr₂) fun tb htb => readStreams_safe htb
    · refine Safe.bind (get_safe hr₂ (by omega)) ?_
      rintro ⟨count, r₃⟩ ⟨-, hr₃⟩
      simp only
      split
      · exact safe_fail _
      · split
        · refine Safe.bind (get_safe hr₃ (by omega)) fun v _ => ?_
          exact List.length_replicate ..
        · exact Safe.bind (sparseTable_safe hr₃ count) fun tb htb => readStreams_safe htb

end Huff

end Ps5Upload.Kraken
