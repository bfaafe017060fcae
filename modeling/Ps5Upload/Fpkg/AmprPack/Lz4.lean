import Ps5Upload.Lib.Lz4
import Mathlib.Logic.Function.Basic

/-!
# AMPR packs: the LZ4-HC encoder

`compress_hc` of `ps5upload-fpkg/src/ampr_pack/lz4.rs`.  Positions with one hash are threaded into
chains; the links are kept modulo 64 KiB and overwritten, so a chain may lead anywhere.  Every index,
slice and subtraction is checked.

* `compressHc_decodes` — the encoder's output decodes to its input.
-/

namespace Ps5Upload.AmprPack

open ByteFile Checked Lz4

abbrev Res (α : Type) := Checked.Res Empty α

def minMatch : Nat := 4

def lastLiterals : Nat := 5

def mfLimit : Nat := 12

def maxDistance : Nat := 65535

def hashLog : Nat := 16

def window : Nat := 2 ^ 16

def read32 (d : Bytes) (at_ : Nat) : Res Nat := field d at_ 4

def hash4 (v : Nat) : Nat := (v * 2654435761 % 2 ^ 32) >>> (32 - hashLog)

/-! ## Chains -/

structure Chains where
  /-- Positions are stored + 1 so 0 means "none". -/
  head : Nat → Nat
  prev : Nat → Nat
  nextInsert : Nat

def Chains.new : Chains := ⟨fun _ => 0, fun _ => 0, 0⟩

/-- One position threaded into its chain. -/
def Chains.insert (d : Bytes) (c : Chains) : Res Chains := do
  let p := c.nextInsert
  let v ← read32 d p
  let last := c.head (hash4 v)
  let delta ← (if last = 0 then .ok 0 else sub (p + 1) last : Res Nat)
  return ⟨Function.update c.head (hash4 v) ((p + 1) % 2 ^ 32),
    Function.update c.prev (p &&& (window - 1)) (if maxDistance < delta then 0 else delta % 2 ^ 16),
    p + 1⟩

/-- Thread every position before `upto` into its chain. -/
def insertUntil (d : Bytes) (upto : Nat) : Nat → Chains → Res Chains
  | 0, _ => panic
  | turns + 1, c =>
    if c.nextInsert < upto then do
      let c ← c.insert d
      insertUntil d upto turns c
    else .ok c

/-- How far the bytes from `c` and from `p` on are the same, `len` of them known. -/
def extend (d : Bytes) (c p limit : Nat) : Nat → Nat → Res Nat
  | 0, _ => panic
  | turns + 1, len =>
    if p + len < limit then do
      let a ← index d (c + len)
      let b ← index d (p + len)
      if a = b then extend d c p limit turns (len + 1) else .ok len
    else .ok len

/-- A candidate tried: the best length and distance after it, and whether nothing can be longer. -/
def tryCandidate (d : Bytes) (c p limit want bestLen bestDist : Nat) : Res (Nat × Nat × Bool) := do
  let here ← read32 d c
  if here = want ∧ d[c + bestLen]? = d[p + bestLen]? then do
    let len ← extend d c p limit (limit + 1) minMatch
    if bestLen < len then do
      let dist ← sub p c
      return (len, dist, decide (limit ≤ p + len))
    else return (bestLen, bestDist, false)
  else return (bestLen, bestDist, false)

/-- The candidates of a chain, at most `tries` of them. -/
def walkChain (prev : Nat → Nat) (d : Bytes) (p limit want : Nat) :
    Nat → Nat → Nat → Nat → Res (Nat × Nat)
  | 0, _, bestLen, bestDist => .ok (bestLen, bestDist)
  | tries + 1, cand, bestLen, bestDist =>
    if cand = 0 then .ok (bestLen, bestDist)
    else do
      let c ← sub cand 1
      let far ← sub p c
      if maxDistance < far then .ok (bestLen, bestDist)
      else do
        let (bestLen, bestDist, done) ← tryCandidate d c p limit want bestLen bestDist
        if done then .ok (bestLen, bestDist)
        else do
          let delta := prev (c &&& (window - 1))
          if delta = 0 ∨ c < delta then .ok (bestLen, bestDist)
          else do
            let next ← sub (c + 1) delta
            walkChain prev d p limit want tries next bestLen bestDist

/-- The longest match for `p` (length, distance), walking at most `attempts` candidates; matches may
run up to `limit`. -/
def best (d : Bytes) (chains : Chains) (p limit attempts : Nat) : Res ((Nat × Nat) × Chains) := do
  let chains ← insertUntil d p (p + 1) chains
  let want ← read32 d p
  let found ← walkChain chains.prev d p limit want attempts (chains.head (hash4 want)) 0 0
  return (found, chains)

/-! ## The encoder -/

def putLen (extra : Nat) : Bytes :=
  if h : 255 ≤ extra then 255 :: putLen (extra - 255) else [UInt8.ofNat extra]
  termination_by extra

def emit (out literals : Bytes) (matchLen distance : Nat) : Res Bytes := do
  let ml ← sub matchLen minMatch
  let tok := UInt8.ofNat (min literals.length 15 <<< 4 ||| min ml 15)
  return out ++ [tok] ++ (if 15 ≤ literals.length then putLen (literals.length - 15) else []) ++
    literals ++ le 2 distance ++ (if 15 ≤ ml then putLen (ml - 15) else [])

def emitLast (out literals : Bytes) : Bytes :=
  out ++ [UInt8.ofNat (min literals.length 15 <<< 4)] ++
    (if 15 ≤ literals.length then putLen (literals.length - 15) else []) ++ literals

/-- One step of lazy evaluation: a longer match one byte on is worth a literal. -/
def lookAhead (d : Bytes) (chains : Chains) (p lastStart limit attempts len : Nat) :
    Res (Option (Nat × Nat) × Chains) :=
  if p + 1 < lastStart then do
    let ((nextLen, nextDist), chains) ← best d chains (p + 1) limit attempts
    return (if len + 1 < nextLen then some (nextLen, nextDist) else none, chains)
  else return (none, chains)

def compressLoop (d : Bytes) (lastStart limit attempts : Nat) :
    Nat → Chains → Nat → Nat → Bytes → Res Bytes
  | 0, _, _, _, _ => panic
  | turns + 1, chains, anchor, p, out =>
    if p < lastStart then do
      let ((len, dist), chains) ← best d chains p limit attempts
      if len < minMatch then compressLoop d lastStart limit attempts turns chains anchor (p + 1) out
      else do
        let (ahead, chains) ← lookAhead d chains p lastStart limit attempts len
        match ahead with
        | some (nextLen, nextDist) => do
          let literals ← slice d anchor (p + 1)
          let out ← emit out literals nextLen nextDist
          compressLoop d lastStart limit attempts turns chains (p + 1 + nextLen) (p + 1 + nextLen) out
        | none => do
          let literals ← slice d anchor p
          let out ← emit out literals len dist
          compressLoop d lastStart limit attempts turns chains (p + len) (p + len) out
    else do
      let literals ← slice d anchor d.length
      return emitLast out literals

def compressHc (d : Bytes) (level : Nat) : Res Bytes :=
  if d.length < mfLimit + 1 then return emitLast [] d
  else do
    let power ← sub level 1
    let attempts ← shl 64 1 power
    let lastStart ← sub d.length mfLimit
    let limit ← sub d.length lastLiterals
    compressLoop d lastStart limit attempts (lastStart + 1) Chains.new 0 0 []

/-! ## Matches -/

/-- A match of `d` at `p` that ends by `limit`. -/
structure IsMatch (d : Bytes) (p limit len dist : Nat) : Prop where
  len_ge : minMatch ≤ len
  end_le : p + len ≤ limit
  dist_pos : 1 ≤ dist
  dist_le : dist ≤ maxDistance
  inside : dist ≤ p
  same : ∀ i < len, d[p - dist + i]? = d[p + i]?

/-- Nothing found, or a match. -/
def Found (d : Bytes) (p limit : Nat) (q : Nat × Nat) : Prop := q.1 = 0 ∨ IsMatch d p limit q.1 q.2

theorem fromLe_inj {a b : Bytes} (hlen : a.length = b.length) (h : fromLe a = fromLe b) : a = b := by
  induction a generalizing b with
  | nil => exact (List.length_eq_zero_iff.1 hlen.symm).symm
  | cons x a ih =>
    obtain ⟨y, b, rfl⟩ := List.exists_cons_of_length_eq_add_one hlen.symm
    have hx := x.toNat_lt
    have hy := y.toNat_lt
    rw [fromLe, fromLe] at h
    have hxy : x = y := UInt8.toNat_inj.1 (by omega)
    rw [hxy, ih (Nat.succ.inj hlen) (by omega)]

/-- Equal four-byte numbers are equal bytes. -/
theorem same_of_leAt {d : Bytes} {c p : Nat} (hc : c + 4 ≤ d.length) (hp : p + 4 ≤ d.length)
    (h : leAt d c 4 = leAt d p 4) : ∀ i < 4, d[c + i]? = d[p + i]? := fun i hi => by
  have hbytes : (d.drop c).take 4 = (d.drop p).take 4 := fromLe_inj (by
    rw [List.length_take, List.length_take, List.length_drop, List.length_drop]
    omega) h
  have := congrArg (·[i]?) hbytes
  simpa only [List.getElem?_take_of_lt hi, List.getElem?_drop] using this

theorem extend_spec {d : Bytes} {c p limit : Nat} (hlimit : limit ≤ d.length) (hc : c < p) {turns len : Nat}
    (hend : p + len ≤ limit) (hturns : limit < p + len + turns) (hsame : ∀ i < len, d[c + i]? = d[p + i]?) :
    Safe (fun n => len ≤ n ∧ p + n ≤ limit ∧ ∀ i < n, d[c + i]? = d[p + i]?)
      (extend d c p limit turns len) := by
  induction turns generalizing len with
  | zero => omega
  | succ turns ih =>
    rw [extend]
    split
    · refine Safe.bind (safe_index (by omega)) fun a ha => ?_
      refine Safe.bind (safe_index (by omega)) fun b hb => ?_
      split
      · rename_i hab
        refine Safe.mono (ih (by omega) (by omega) fun i hi => ?_) fun n hn => ⟨by omega, hn.2⟩
        rcases Nat.lt_succ_iff_lt_or_eq.1 hi with hi | rfl
        · exact hsame i hi
        · rw [ha, hb, hab]
      · exact ⟨Nat.le_refl len, hend, hsame⟩
    · exact ⟨Nat.le_refl len, hend, hsame⟩

section Best

variable {d : Bytes} {p limit : Nat} (hlimit : limit ≤ d.length) (hp : p + minMatch ≤ limit)
include hlimit hp

theorem tryCandidate_spec {c bestLen bestDist : Nat} (hc : c < p) (hfar : p - c ≤ maxDistance)
    (hbest : Found d p limit (bestLen, bestDist)) :
    Safe (fun q => Found d p limit (q.1, q.2.1))
      (tryCandidate d c p limit (leAt d p 4) bestLen bestDist) := by
  have hmin : minMatch = 4 := rfl
  refine Safe.bind (safe_field (by omega)) fun here hhere => ?_
  subst hhere
  split
  · rename_i hsame
    have hfour := same_of_leAt (by omega) (by omega) hsame.1
    refine Safe.bind (extend_spec hlimit hc hp (by omega) hfour) fun len ⟨hge, hend, hall⟩ => ?_
    split
    · refine Safe.bind (safe_sub hc.le) fun dist hdist => ?_
      subst hdist
      have hback : p - (p - c) = c := by omega
      exact .inr ⟨hge, hend, Nat.sub_pos_of_lt hc, hfar, Nat.sub_le p c, fun i hi => by
        rw [hback]
        exact hall i hi⟩
    · exact hbest
  · exact hbest

/-- **A chain of any links** leads to a match or to nothing. -/
theorem walkChain_spec (prev : Nat → Nat) {tries cand bestLen bestDist : Nat} (hcand : cand ≤ p)
    (hbest : Found d p limit (bestLen, bestDist)) :
    Safe (Found d p limit) (walkChain prev d p limit (leAt d p 4) tries cand bestLen bestDist) := by
  induction tries generalizing cand bestLen bestDist with
  | zero => exact hbest
  | succ tries ih =>
    rw [walkChain]
    split
    · exact hbest
    · refine Safe.bind (safe_sub (by omega)) fun c hc => ?_
      refine Safe.bind (safe_sub (by omega)) fun far hfar => ?_
      split
      · exact hbest
      · refine Safe.bind (tryCandidate_spec hlimit hp (by omega) (by omega) hbest) fun q hq => ?_
        obtain ⟨len, dist, done⟩ := q
        dsimp only
        split
        · exact hq
        · split
          · exact hq
          · rename_i hlink
            rw [not_or, Nat.not_lt] at hlink
            refine Safe.bind (safe_sub (by omega)) fun next hnext => ih (by omega) hq

end Best

/-- Every head is of a position threaded already. -/
def Chains.Behind (c : Chains) : Prop := ∀ h, c.head h ≤ c.nextInsert

theorem behind_new : Chains.new.Behind := fun _ => Nat.le_refl 0

theorem insert_spec {d : Bytes} {c : Chains} (hc : c.Behind) (hlen : c.nextInsert + 4 ≤ d.length) :
    Safe (fun c' => c'.Behind ∧ c'.nextInsert = c.nextInsert + 1) (c.insert d) := by
  refine Safe.bind (safe_field hlen) fun v _ => ?_
  have hlast := hc (hash4 v)
  have hdelta : Safe (fun _ => True)
      (if c.head (hash4 v) = 0 then .ok 0 else sub (c.nextInsert + 1) (c.head (hash4 v)) : Res Nat) := by
    split
    · trivial
    · exact (safe_sub (by omega)).mono fun _ _ => trivial
  refine Safe.bind hdelta fun delta _ => safe_pure ?_
  refine ⟨fun h => ?_, rfl⟩
  dsimp only
  rw [Function.update_apply]
  split
  · exact Nat.mod_le _ _
  · exact Nat.le_succ_of_le (hc h)

theorem insertUntil_spec {d : Bytes} {upto : Nat} (hupto : upto + 3 ≤ d.length) {turns : Nat} {c : Chains}
    (hc : c.Behind) (hpos : 0 < turns) (hturns : upto < c.nextInsert + turns) :
    Safe (fun c' => c'.Behind ∧ c'.nextInsert = max c.nextInsert upto) (insertUntil d upto turns c) := by
  induction turns generalizing c with
  | zero => omega
  | succ turns ih =>
    rw [insertUntil]
    split
    · refine Safe.bind (insert_spec hc (by omega)) fun c' hc' => ?_
      refine Safe.mono (ih hc'.1 (by omega) (by omega)) fun c'' hc'' => ⟨hc''.1, by omega⟩
    · exact ⟨hc, by omega⟩

/-- **A match or nothing**, whatever links the chains hold. -/
theorem best_spec {d : Bytes} {p limit : Nat} (hlimit : limit ≤ d.length) (hp : p + minMatch ≤ limit)
    {chains : Chains} (hc : chains.Behind) (hnext : chains.nextInsert ≤ p) (attempts : Nat) :
    Safe (fun q => Found d p limit q.1 ∧ q.2.Behind ∧ q.2.nextInsert = p)
      (best d chains p limit attempts) := by
  have hmin : minMatch = 4 := rfl
  refine Safe.bind (insertUntil_spec (by omega) hc (Nat.succ_pos p) (by omega)) fun c hc' => ?_
  refine Safe.bind (safe_field (by omega)) fun want hwant => ?_
  subst hwant
  have hnext' : c.nextInsert = p := by omega
  refine Safe.bind (walkChain_spec hlimit hp c.prev (hnext' ▸ hc'.1 _) (.inl rfl)) fun q hq => ?_
  exact ⟨hq, hc'.1, hnext'⟩

/-! ## What is written -/

theorem putLen_eq (n : Nat) : putLen n = extension n := by
  induction n using Nat.strongRecOn with
  | ind n ih =>
    rw [putLen]
    split
    · rename_i hn
      have hdiv : n / 255 = (n - 255) / 255 + 1 := by omega
      have hmod : n % 255 = (n - 255) % 255 := by omega
      rw [ih (n - 255) (by omega), extension, extension, hdiv, hmod, List.replicate_succ]
      rfl
    · rename_i hn
      rw [extension, Nat.div_eq_of_lt (by omega), Nat.mod_eq_of_lt (by omega)]
      rfl

theorem putLen_lengthBytes (n : Nat) :
    (if 15 ≤ n then putLen (n - 15) else []) = lengthBytes n := by
  rw [lengthBytes, putLen_eq]
  split
  · rw [if_neg (by omega)]
  · rw [if_pos (by omega)]

theorem token_eq (lit more : Nat) : UInt8.ofNat (min lit 15 <<< 4 ||| min more 15) = token lit more := by
  rw [token, ← Nat.shiftLeft_add_eq_or_of_lt (show min more 15 < 2 ^ 4 by omega), Nat.shiftLeft_eq]

theorem emit_eq (out literals : Bytes) {len dist : Nat} (hlen : minMatch ≤ len) :
    emit out literals len dist = .ok (out ++ sequenceBytes ⟨literals, len, dist⟩) := by
  rw [emit, sub_eq hlen, ok_bind, putLen_lengthBytes, putLen_lengthBytes, token_eq, sequenceBytes]
  simp only [List.append_assoc, List.singleton_append]
  rfl

theorem emitLast_eq (out literals : Bytes) : emitLast out literals = out ++ lastBytes literals := by
  have htoken := token_eq literals.length 0
  rw [Nat.zero_min, Nat.or_zero] at htoken
  rw [emitLast, putLen_lengthBytes, htoken, lastBytes]
  simp only [List.append_assoc, List.cons_append, List.nil_append]

/-! ## The encoder's output -/

/-- Sequences and last literals that decode to the rest of `d` from `anchor` on, by the block format's
end rules. -/
structure Encodes (d : Bytes) (anchor : Nat) (seqs : List Sequence) (last : Bytes) : Prop where
  sound : ∀ s ∈ seqs, s.Sound
  decodes : expand seqs last (d.take anchor) = some d
  starts : ∀ m ∈ matchStarts seqs anchor, m + mfLimit < d.length
  last_ge : lastLiterals ≤ last.length

/-- A match in front of what encodes the rest. -/
theorem Encodes.cons {d : Bytes} {anchor p len dist : Nat} {seqs : List Sequence} {last : Bytes}
    (hm : IsMatch d p (d.length - lastLiterals) len dist) (hanchor : anchor ≤ p)
    (hp : p + mfLimit < d.length) (h : Encodes d (p + len) seqs last) :
    Encodes d anchor (⟨(d.drop anchor).take (p - anchor), len, dist⟩ :: seqs) last := by
  have hend := hm.end_le
  have hlits : ((d.drop anchor).take (p - anchor)).length = p - anchor := by
    rw [List.length_take, List.length_drop]
    omega
  have hprefix : d.take anchor ++ (d.drop anchor).take (p - anchor) = d.take p := by
    rw [← List.take_add, Nat.add_sub_of_le hanchor]
  refine ⟨fun s hs => ?_, ?_, fun m hm' => ?_, h.last_ge⟩
  · rcases List.mem_cons.1 hs with rfl | hs
    · exact ⟨hm.len_ge, hm.dist_pos, hm.dist_le⟩
    · exact h.sound s hs
  · rw [expand, hprefix, copyMatch_take hm.dist_pos hm.inside (by omega) hm.same, Option.bind_some]
    exact h.decodes
  · rw [matchStarts, hlits, Nat.add_sub_of_le hanchor] at hm'
    rcases List.mem_cons.1 hm' with rfl | hm'
    · exact hp
    · exact h.starts m hm'

/-- Literals behind the last match. -/
theorem encodes_last {d : Bytes} {anchor : Nat} (h : anchor + lastLiterals ≤ d.length) :
    Encodes d anchor [] (d.drop anchor) := by
  refine ⟨nofun, ?_, nofun, ?_⟩
  · rw [expand, List.take_append_drop]
  · rw [List.length_drop]
    omega

section Loop

variable {d : Bytes} (hlen : mfLimit < d.length)
include hlen

theorem lookAhead_spec {chains : Chains} (hc : chains.Behind) {p : Nat} (hnext : chains.nextInsert ≤ p + 1)
    (attempts : Nat) {len : Nat} (hge : minMatch ≤ len) :
    Safe (fun q => q.2.Behind ∧ q.2.nextInsert ≤ p + 1 ∧ ∀ r, q.1 = some r →
        p + 1 + mfLimit < d.length ∧ IsMatch d (p + 1) (d.length - lastLiterals) r.1 r.2)
      (lookAhead d chains p (d.length - mfLimit) (d.length - lastLiterals) attempts len) := by
  have hmin : minMatch = 4 := rfl
  have hmf : mfLimit = 12 := rfl
  have hlits : lastLiterals = 5 := rfl
  unfold lookAhead
  split
  · refine Safe.bind (best_spec (Nat.sub_le _ _) (by omega) hc hnext attempts) fun q hq => ?_
    obtain ⟨⟨nextLen, nextDist⟩, chains'⟩ := q
    obtain ⟨hfound, hc', hnext'⟩ := hq
    refine safe_pure ⟨hc', hnext'.le, fun r hr => ?_⟩
    dsimp only at hr
    split at hr
    · cases hr
      refine ⟨by omega, hfound.resolve_left fun h0 => ?_⟩
      have hnone : nextLen = 0 := h0
      omega
    · cases hr
  · exact safe_pure ⟨hc, hnext, nofun⟩

/-- **What the loop writes** decodes to the rest of the input. -/
theorem compressLoop_spec (attempts : Nat) {turns : Nat} {chains : Chains} (hc : chains.Behind)
    {anchor p : Nat} (hnext : chains.nextInsert ≤ p) (hanchor : anchor ≤ p)
    (hlast : anchor + lastLiterals ≤ d.length) (hpos : 0 < turns)
    (hturns : d.length - mfLimit < p + turns) (out : Bytes) :
    Safe (fun r => ∃ seqs last, r = out ++ blockBytes seqs last ∧ Encodes d anchor seqs last)
      (compressLoop d (d.length - mfLimit) (d.length - lastLiterals) attempts turns chains anchor p out) := by
  have hmin : minMatch = 4 := rfl
  have hmf : mfLimit = 12 := rfl
  have hlits : lastLiterals = 5 := rfl
  induction turns generalizing chains anchor p out with
  | zero => omega
  | succ turns ih =>
    rw [compressLoop]
    split
    · rename_i hp
      refine Safe.bind (best_spec (Nat.sub_le _ _) (by omega) hc hnext attempts) fun q hq => ?_
      obtain ⟨⟨len, dist⟩, chains⟩ := q
      obtain ⟨hfound, hc, hnext⟩ := hq
      dsimp only at hc hnext ⊢
      split
      · exact ih hc (by omega) (by omega) hlast (by omega) (by omega) out
      · rename_i hshort
        have hm : IsMatch d p (d.length - lastLiterals) len dist :=
          hfound.resolve_left fun h0 => hshort (by rw [show len = 0 from h0, hmin]; omega)
        refine Safe.bind (lookAhead_spec hlen hc (by omega) attempts hm.len_ge) fun q hq => ?_
        obtain ⟨ahead, chains⟩ := q
        dsimp only at hq ⊢
        obtain ⟨hc, hnext, hahead⟩ := hq
        -- a match written, and what the loop writes behind it
        have hwrite : ∀ {p len dist}, IsMatch d p (d.length - lastLiterals) len dist →
            p + mfLimit < d.length → anchor ≤ p → chains.nextInsert ≤ p + len →
            d.length - mfLimit < p + len + turns →
            Safe (fun r => ∃ seqs last, r = out ++ blockBytes seqs last ∧ Encodes d anchor seqs last)
              (slice d anchor p >>= fun literals => emit out literals len dist >>= fun out =>
                compressLoop d (d.length - mfLimit) (d.length - lastLiterals) attempts turns chains (p + len)
                  (p + len) out) := by
          intro p len dist hm hp hanchor hnext hturns
          have hend := hm.end_le
          rw [slice_eq hanchor (by omega), ok_bind, emit_eq _ _ hm.len_ge, ok_bind]
          refine Safe.mono (ih hc hnext (Nat.le_refl _) (by omega) (by omega) hturns _) fun r hr => ?_
          obtain ⟨seqs, last, rfl, henc⟩ := hr
          refine ⟨_, last, ?_, henc.cons hm hanchor hp⟩
          rw [blockBytes, blockBytes, List.flatMap_cons]
          simp only [List.append_assoc]
        have hge := hm.len_ge
        cases ahead with
        | none => exact hwrite hm (by omega) hanchor (by omega) (by omega)
        | some r =>
          obtain ⟨nextLen, nextDist⟩ := r
          obtain ⟨hp', hm'⟩ := hahead _ rfl
          have hge' := hm'.len_ge
          exact hwrite hm' hp' (by omega) (by omega) (by omega)
    · rw [slice_eq (by omega) (Nat.le_refl _), ok_bind]
      refine safe_pure ⟨[], d.drop anchor, ?_, encodes_last hlast⟩
      rw [emitLast_eq, List.take_of_length_le (by rw [List.length_drop])]
      rfl

end Loop

/-- A level's number of candidates can be computed, and what is written for a long input encodes it. -/
theorem compressHc_spec {d : Bytes} (hlen : mfLimit < d.length) {level : Nat} (hlevel : 1 ≤ level)
    (hle : level ≤ 12) :
    Safe (fun r => ∃ seqs last, r = blockBytes seqs last ∧ Encodes d 0 seqs last)
      (compressHc d level) := by
  have hmf : mfLimit = 12 := rfl
  have hlits : lastLiterals = 5 := rfl
  rw [compressHc, if_neg (by omega), sub_eq hlevel, ok_bind, shl_eq (by omega), ok_bind,
    sub_eq (by omega), ok_bind, sub_eq (by omega), ok_bind]
  refine Safe.mono (compressLoop_spec hlen _ behind_new (Nat.le_refl 0) (Nat.le_refl 0) (by omega)
    (Nat.succ_pos _) (by omega) []) fun r hr => ?_
  simpa only [List.nil_append] using hr

/-- **The encoder's output decodes to its input.**  At every level the output is a block of the format;
its matches are at least four bytes long and at most 65535 bytes back, none starts in the last twelve
bytes, and the last five bytes are literals. -/
theorem compressHc_decodes (d : Bytes) {level : Nat} (hlevel : 1 ≤ level) (hle : level ≤ 12) :
    ∃ out seqs last, compressHc d level = .ok out ∧ parse out.length out = some (seqs, last) ∧
      decode out = some d ∧ (∀ s ∈ seqs, s.Sound) ∧ (∀ m ∈ matchStarts seqs 0, m + mfLimit < d.length) ∧
      min lastLiterals d.length ≤ last.length ∧ (d.length < mfLimit + 1 → seqs = []) := by
  by_cases hlen : d.length < mfLimit + 1
  · have hparse : parse (lastBytes d).length (lastBytes d) = some ([], d) := parse_last _ d
    refine ⟨lastBytes d, [], d, ?_, hparse, ?_, nofun, nofun, Nat.min_le_right _ _, fun _ => rfl⟩
    · rw [compressHc, if_pos hlen, emitLast_eq]
      rfl
    · rw [decode, hparse]
      rfl
  · have hspec := compressHc_spec (Nat.lt_of_succ_le (Nat.le_of_not_lt hlen)) hlevel hle
    cases hr : compressHc d level with
    | error e =>
      rw [hr] at hspec
      cases e with
      | error e => exact e.elim
      | panic => exact hspec.elim
    | ok out =>
      obtain ⟨seqs, last, rfl, henc⟩ := hspec.of_ok hr
      have hparse := parse_blockBytes henc.sound last (length_lt_blockBytes seqs last)
      refine ⟨_, seqs, last, rfl, hparse, ?_, henc.sound, henc.starts,
        (Nat.min_le_left _ _).trans henc.last_ge, fun h => absurd h hlen⟩
      rw [decode, hparse]
      exact henc.decodes

theorem compressHc_decodes_sevens :
    ∃ out seqs last, compressHc (List.replicate 20 7) 3 = .ok out ∧
      parse out.length out = some (seqs, last) ∧ decode out = some (List.replicate 20 7) ∧
      (∀ s ∈ seqs, s.Sound) ∧
      (∀ m ∈ matchStarts seqs 0, m + mfLimit < (List.replicate 20 (7 : UInt8)).length) ∧
      min lastLiterals (List.replicate 20 (7 : UInt8)).length ≤ last.length ∧
      ((List.replicate 20 (7 : UInt8)).length < mfLimit + 1 → seqs = []) :=
  compressHc_decodes (List.replicate 20 7) (by decide) (by decide)

example : (compressHc (List.replicate 20 7) 1).toOption =
    some [0x1A, 7, 1, 0, 0x50, 7, 7, 7, 7, 7] := by decide +kernel

end Ps5Upload.AmprPack
