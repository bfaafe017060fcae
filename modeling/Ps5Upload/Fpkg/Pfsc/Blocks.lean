import Ps5Upload.Fpkg.Pfsc.Container

/-!
# The blocks of a PFSC container

What the writer's loop leaves in the tables and in the payload area, and what the reader makes of a
boundary entry: the offset is in the low bits of a word, below the flags or the hint.

* `Piece` — a block and how it was encoded;
* `entryWords`, `infos` — the boundary entries and the reported geometry of pieces in a row;
* `low44_or`, `flags_or`, `hint_or` — a word taken apart.
-/

namespace Ps5Upload.Pfsc

open ByteFile Checked Stamps

/-! ## Words -/

/-- Both parts of a word stand beside one another. -/
theorem or_shift {lo hi n : Nat} (h : lo < 2 ^ n) : lo ||| hi <<< n = hi * 2 ^ n + lo := by
  rw [Nat.or_comm, ← Nat.shiftLeft_add_eq_or_of_lt h, Nat.shiftLeft_eq]

theorem low44_eq (n : Nat) : low44 n = n % 2 ^ 44 := Nat.and_two_pow_sub_one_eq_mod n 44

theorem low44_first {comp flags : Nat} (h : comp < 2 ^ 48) :
    low44 (comp ||| flags <<< 48) = comp % 2 ^ 44 := by
  rw [low44_eq, or_shift h]
  omega

theorem low44_second {uncomp hint : Nat} (h : uncomp < 2 ^ 44) :
    low44 (uncomp ||| hint <<< 44) = uncomp := by
  rw [low44_eq, or_shift h]
  omega

theorem flags_first {comp flags : Nat} (h : comp < 2 ^ 48) : (comp ||| flags <<< 48) >>> 48 = flags := by
  rw [or_shift h, Nat.shiftRight_eq_div_pow]
  omega

theorem hint_second {uncomp hint : Nat} (h : uncomp < 2 ^ 44) (hh : hint < 2 ^ 17) :
    ((uncomp ||| hint <<< 44) >>> 44) &&& 0x1FFFF = hint := by
  rw [or_shift h, Nat.shiftRight_eq_div_pow, show (0x1FFFF : Nat) = 2 ^ 17 - 1 from rfl,
    Nat.and_two_pow_sub_one_eq_mod]
  omega

/-! ## Pieces -/

/-- A block, and its deflated bytes where they are kept. -/
abbrev Piece := Bytes × Option Bytes

namespace Piece

def stored (p : Piece) : Bytes := storedBytes p.1 p.2

def flags (p : Piece) : Nat := flagsOf p.1 p.2

def firstChunk (p : Piece) : Nat := firstChunkOf p.1 p.2

def hint (p : Piece) : Nat := hintOf p.1 p.2

end Piece

/-- The bytes that are stored of pieces in a row, and those they stand for. -/
def storedAll (ps : List Piece) : Bytes := ps.flatMap Piece.stored

def logicalAll (ps : List Piece) : Bytes := ps.flatMap Prod.fst

/-- The boundary entries of pieces from two offsets on. -/
def entryWords : List Piece → Nat → Nat → List (Nat × Nat)
  | [], _, _ => []
  | p :: ps, comp, uncomp =>
    (comp ||| p.flags <<< 48, uncomp ||| p.hint <<< 44) ::
      entryWords ps (comp + p.stored.length) (uncomp + p.1.length)

def wordBytes (w : Nat × Nat) : Bytes := le 8 w.1 ++ le 8 w.2

/-- The geometry that the writer reports of pieces from an offset on. -/
def infos : List Piece → Nat → List BlockInfo
  | [], _ => []
  | p :: ps, comp =>
    ⟨comp, p.stored.length, p.firstChunk, p.1.length, p.2.isSome⟩ :: infos ps (comp + p.stored.length)

theorem length_entryWords (ps : List Piece) (comp uncomp : Nat) :
    (entryWords ps comp uncomp).length = ps.length := by
  induction ps generalizing comp uncomp with
  | nil => rfl
  | cons p ps ih => rw [entryWords, List.length_cons, ih, List.length_cons]

theorem getElem?_entryWords {ps : List Piece} {i : Nat} {p : Piece} (h : ps[i]? = some p)
    (comp uncomp : Nat) : (entryWords ps comp uncomp)[i]? =
      some ((comp + (storedAll (ps.take i)).length) ||| p.flags <<< 48,
        (uncomp + (logicalAll (ps.take i)).length) ||| p.hint <<< 44) := by
  induction ps generalizing i comp uncomp with
  | nil => cases h
  | cons q ps ih =>
    cases i with
    | zero =>
      cases h
      rfl
    | succ i =>
      rw [entryWords, List.getElem?_cons_succ, ih h]
      simp only [storedAll, logicalAll, List.take_succ_cons, List.flatMap_cons, List.length_append,
        Nat.add_assoc]

theorem map_infos {β : Type} (f : BlockInfo → β) (g : Piece → β)
    (hfg : ∀ p comp, f ⟨comp, p.stored.length, p.firstChunk, p.1.length, p.2.isSome⟩ = g p)
    (ps : List Piece) (comp : Nat) : (infos ps comp).map f = ps.map g := by
  induction ps generalizing comp with
  | nil => rfl
  | cons p ps ih => rw [infos, List.map_cons, List.map_cons, ih, hfg]

/-! ## The loop over the blocks -/

section Loop

variable (sha3 : Bytes → Digest) (deflate : Bytes → Except String Bytes) {codec : Codec} {off7 : Nat}

/-- What the encoder can make of a block. -/
structure Encoded (codec : Codec) (p : Piece) : Prop where
  encode_eq : encode deflate codec p.1 = .ok p.2

variable {deflate}

/-- A block is kept deflated only where that is shorter. -/
theorem Encoded.cases {p : Piece} (h : Encoded deflate codec p) :
    p.2 = none ∨ ∃ z, p.2 = some z ∧ codec = .zlib ∧ deflate p.1 = .ok z ∧ z.length < p.1.length := by
  have he := h.encode_eq
  unfold encode at he
  cases codec with
  | stored => exact .inl (Except.ok.inj he).symm
  | zlib =>
    dsimp only at he
    split at he
    · rename_i z hz
      rw [Except.ok.injEq] at he
      split at he
      · rename_i hlt
        exact .inr ⟨z, he.symm, rfl, hz, hlt⟩
      · exact .inl he.symm
    · cases he

theorem Encoded.stored_le {p : Piece} (h : Encoded deflate codec p) : p.stored.length ≤ p.1.length := by
  unfold Piece.stored storedBytes
  rcases h.cases with hn | ⟨z, hz, -, -, hlt⟩
  · rw [hn]
    exact Nat.le_refl _
  · rw [hz]
    exact Nat.le_of_lt hlt

theorem length_blockSignature (block : Bytes) : (blockSignature block).length = 16 := by
  simp only [blockSignature, List.length_append, length_le]

variable (off7) in
/-- The loop fills the tables with an entry for each piece and the payload area with what is stored. -/
theorem writeBlocks_ok {ps : List Piece} (henc : ∀ p ∈ ps, Encoded deflate codec p) {s : Writing}
    (hroom : off7 + s.comp + (logicalAll ps).length ≤ s.out.length) :
    ∃ s', writeBlocks sha3 deflate codec off7 (ps.map Prod.fst) s = .ok s' ∧
      s'.boundaries = s.boundaries ++ (entryWords ps s.comp s.uncomp).flatMap wordBytes ∧
      s'.digests = s.digests ++ ps.flatMap (fun p => (sha3 p.1).1) ∧
      s'.signatures.length = s.signatures.length + ps.length * 16 ∧
      s'.comp = s.comp + (storedAll ps).length ∧
      s'.blocks = s.blocks ++ infos ps s.comp ∧
      s'.out.length = s.out.length ∧
      (∀ i < (storedAll ps).length, s'.out[off7 + s.comp + i]? = (storedAll ps)[i]?) ∧
      ∀ i < off7 + s.comp, s'.out[i]? = s.out[i]? := by
  induction ps generalizing s with
  | nil =>
    refine ⟨s, rfl, ?_, ?_, rfl, rfl, ?_, rfl, fun i hi => absurd hi (Nat.not_lt_zero i), fun _ _ => rfl⟩
    · exact (List.append_nil _).symm
    · exact (List.append_nil _).symm
    · exact (List.append_nil _).symm
  | cons p ps ih =>
    have hp := henc p List.mem_cons_self
    have hle := hp.stored_le
    simp only [logicalAll, List.flatMap_cons, List.length_append] at hroom
    obtain ⟨out, hout, hlen, hkeep, hpiece⟩ := blit_piece (ε := String) (d := s.out) (w := p.stored)
      (i := off7 + s.comp) (by omega)
    let s₁ : Writing := {
      out
      boundaries := s.boundaries ++ entryBytes s.comp s.uncomp p.flags p.hint
      digests := s.digests ++ (sha3 p.1).1
      signatures := s.signatures ++ blockSignature p.1
      comp := s.comp + p.stored.length
      uncomp := s.uncomp + p.1.length
      blocks := s.blocks ++ [⟨s.comp, p.stored.length, p.firstChunk, p.1.length, p.2.isSome⟩] }
    have hone : writeBlock sha3 deflate codec off7 s p.1 = .ok s₁ := by
      unfold writeBlock
      rw [hp.encode_eq]
      show (blit s.out (off7 + s.comp) p.stored >>= _) = _
      rw [hout]
      rfl
    obtain ⟨s', hs', hb, hd, hsig, hcomp, hblocks, hout', hstored, hfront⟩ := ih
      (fun q hq => henc q (List.mem_cons_of_mem _ hq)) (s := s₁)
      (by simp only [s₁, hlen, logicalAll]; omega)
    refine ⟨s', ?_, ?_, ?_, ?_, ?_, ?_, hout'.trans hlen, fun i hi => ?_, fun i hi => ?_⟩
    · rw [List.map_cons, writeBlocks, hone]
      exact hs'
    · rw [hb, List.append_assoc]
      rfl
    · rw [hd, List.append_assoc]
      rfl
    · rw [hsig, List.length_cons]
      simp only [s₁, List.length_append, length_blockSignature]
      omega
    · rw [hcomp]
      simp only [s₁, storedAll, List.flatMap_cons, List.length_append]
      omega
    · rw [hblocks, List.append_assoc]
      rfl
    · simp only [storedAll, List.flatMap_cons] at hi ⊢
      simp only [s₁] at hfront hstored
      rcases Nat.lt_or_ge i p.stored.length with hlt | hge
      · rw [hfront _ (by omega), hpiece i hlt, List.getElem?_append_left hlt]
      · rw [List.length_append] at hi
        have hrest := hstored (i - p.stored.length) (by simp only [storedAll]; omega)
        rw [List.getElem?_append_right hge, show off7 + s.comp + i =
          off7 + (s.comp + p.stored.length) + (i - p.stored.length) by omega]
        exact hrest
    · rw [hfront i (by simp only [s₁]; omega)]
      exact hkeep i (.inl hi)

end Loop

end Ps5Upload.Pfsc
