import Ps5Upload.Fpkg.Pfsc.Blocks

/-!
# A PFSC container as it is written

The blocks of a payload are the payload, cut; the header and the tables are written over the front of the
payload area, each at its own place.
-/

namespace Ps5Upload.Pfsc

open Blocks ByteFile Checked Stamps

/-! ## Blocks of a payload -/

/-- Cut into pieces of `n` bytes, a list is taken from its front. -/
theorem flatten_cuts (l : Bytes) (n k : Nat) :
    ((List.range k).map fun i => (l.drop (i * n)).take n).flatten = l.take (k * n) := by
  induction k with
  | zero => rw [Nat.zero_mul]; rfl
  | succ k ih =>
    rw [List.range_succ, List.map_append, List.flatten_append, ih, Nat.succ_mul, List.take_add]
    simp

theorem blockLen_pos : 0 < blockLen := by decide

theorem le_blockCount (len : Nat) : len ≤ blockCount len * blockLen := by
  have h := le_alignUp blockLen_pos len
  have hm : (len + (blockLen - 1)) / blockLen * blockLen ≤ blockCount len * blockLen :=
    Nat.mul_le_mul_right _ (Nat.le_max_left _ _)
  exact Nat.le_trans h hm

theorem flatten_payloadBlocks (payload : Bytes) : (payloadBlocks payload).flatten = payload := by
  rw [payloadBlocks, flatten_cuts, List.take_of_length_le (le_blockCount _)]

theorem blockCount_lt (len : Nat) : blockCount len * blockLen < len + blockLen ∨ blockCount len = 1 := by
  unfold blockCount
  rcases Nat.le_total ((len + (blockLen - 1)) / blockLen) 1 with h | h
  · exact .inr (Nat.max_eq_right h)
  · rw [Nat.max_eq_left h]
    exact .inl (alignUp_lt blockLen_pos len)

/-- Every block of a payload that is not empty has bytes. -/
theorem payloadBlocks_ne_nil {payload : Bytes} (hne : payload ≠ []) :
    ∀ b ∈ payloadBlocks payload, b ≠ [] := by
  intro b hb
  obtain ⟨i, hi, rfl⟩ := List.mem_map.1 hb
  have hpos := List.length_pos_iff.2 hne
  have hlt : i * blockLen < payload.length := by
    have hi := List.mem_range.1 hi
    have hmul : i * blockLen ≤ (blockCount payload.length - 1) * blockLen :=
      Nat.mul_le_mul_right _ (by omega)
    rw [Nat.sub_mul, Nat.one_mul] at hmul
    rcases blockCount_lt payload.length with h | h
    · omega
    · have h0 : i = 0 := by omega
      rwa [h0, Nat.zero_mul]
  intro hnil
  have hlen := congrArg List.length hnil
  rw [List.length_take, List.length_drop, List.length_nil] at hlen
  have := blockLen_pos
  omega

section Writer

variable (sha3 : Bytes → Digest) (deflate : Bytes → Except String Bytes)

/-- The pieces of a payload. -/
def piecesOf (codec : Codec) (payload : Bytes) : List Piece :=
  (payloadBlocks payload).map fun b => (b, match encode deflate codec b with
    | .ok e => e
    | .error _ => none)

/-- The header and the tables, in the order they are copied. -/
def headerPieces (codec : Codec) (len count comp : Nat) (boundaries digests signatures digest : Bytes) :
    List (Nat × Bytes) :=
  let o := offsets count
  headerFields codec len (o.off7 + comp) ++
    ((directory count comp).mapIdx fun i e => dirEntry i e.1 e.2.1 e.2.2).flatten ++
    [(off1, gitHash), (o.off2, shuffleTable), (o.off3, boundaries), (o.off4, digests),
      (o.off5, signatures), (0x28, digest)]

theorem offsets_le (count : Nat) :
    off1 + gitHash.length ≤ (offsets count).off2 ∧
      (offsets count).off2 + shuffleTable.length ≤ (offsets count).off3 ∧
      (offsets count).off3 + (count + 1) * 16 ≤ (offsets count).off4 ∧
      (offsets count).off4 + count * 32 ≤ (offsets count).off5 ∧
      (offsets count).off5 + count * 16 ≤ (offsets count).off7 :=
  ⟨le_alignUp (by decide) _, le_alignUp (by decide) _, le_alignUp (by decide) _,
    le_alignUp (by decide) _, Nat.le_trans (le_alignUp (by decide) _) (le_alignUp (by decide) _)⟩

theorem off7_lt (count : Nat) : (offsets count).off7 < count * 64 + 2048 := by
  have h2 := alignUp_lt (n := 8) (by decide) (off1 + gitHash.length)
  have h3 := alignUp_lt (n := 8) (by decide) ((offsets count).off2 + shuffleTable.length)
  have h4 := alignUp_lt (n := 8) (by decide) ((offsets count).off3 + (count + 1) * 16)
  have h5 := alignUp_lt (n := 8) (by decide) ((offsets count).off4 + count * 32)
  have h6 := alignUp_lt (n := 8) (by decide) ((offsets count).off5 + count * 16)
  have h7 := alignUp_lt (n := 0x400) (by decide) (offsets count).off6
  have hg : gitHash.length = 20 := rfl
  have hs : shuffleTable.length = 64 := rfl
  have h1 : off1 = 184 := rfl
  simp only [offsets] at h2 h3 h4 h5 h6 h7 ⊢
  omega

/-- In another order, they come one behind the other. -/
theorem ascending_headerPieces (codec : Codec) (len comp count : Nat)
    (boundaries digests signatures digest : Bytes) (hb : boundaries.length = (count + 1) * 16)
    (hd : digests.length = count * 32) (hs : signatures.length = count * 16) (hdig : digest.length = 32) :
    ∃ ps, (headerPieces codec len count comp boundaries digests signatures digest).Perm ps ∧
      Ascending 0 ps (offsets count).off7 := by
  obtain ⟨h2, h3, h4, h5, h7⟩ := offsets_le count
  refine ⟨headerFields codec len ((offsets count).off7 + comp) ++ ([(0x28, digest)] ++
    (((directory count comp).mapIdx fun i e => dirEntry i e.1 e.2.1 e.2.2).flatten ++
    [(off1, gitHash), ((offsets count).off2, shuffleTable), ((offsets count).off3, boundaries),
      ((offsets count).off4, digests), ((offsets count).off5, signatures)])), ?_, ?_⟩
  · unfold headerPieces
    rw [List.append_assoc]
    refine List.Perm.append_left _ ?_
    exact (List.Perm.append_left _ (@List.perm_append_comm _ [(off1, gitHash),
      ((offsets count).off2, shuffleTable), ((offsets count).off3, boundaries),
      ((offsets count).off4, digests), ((offsets count).off5, signatures)] [(0x28, digest)])).trans
      (by rw [← List.append_assoc, ← List.append_assoc]; exact List.Perm.append_right _ List.perm_append_comm)
  · have hfields : Ascending 0 (headerFields codec len ((offsets count).off7 + comp)) 0x28 := by
      simp only [headerFields, Ascending, length_le]
      decide
    have hdir := ascending_mapIdx (p := fun i => 0x48 + i * 16) (l := directory count comp)
      (f := fun i e => dirEntry i e.1 e.2.1 e.2.2) fun i e _ => by
        simp only [dirEntry, Ascending, length_le]
        omega
    refine hfields.append (Ascending.append (m := 0x48) ⟨Nat.le_refl _, ?_⟩ (hdir.append ?_))
    · rw [hdig]
      exact Nat.le_refl _
    · simp only [Ascending, hb, hd, hs]
      exact ⟨Nat.le_refl _, h2, h3, h4, h5, h7⟩

variable {deflate} {codec : Codec} {payload : Bytes}

theorem encoded_piecesOf (henc : codec = .zlib → ∀ b, ∃ z, deflate b = .ok z) :
    ∀ p ∈ piecesOf deflate codec payload, Encoded deflate codec p := by
  intro p hp
  obtain ⟨b, -, rfl⟩ := List.mem_map.1 hp
  constructor
  cases codec with
  | stored => rfl
  | zlib =>
    obtain ⟨z, hz⟩ := henc rfl b
    simp only [encode, hz]

theorem blocks_piecesOf : (piecesOf deflate codec payload).map Prod.fst = payloadBlocks payload := by
  rw [piecesOf, List.map_map]
  exact List.map_id _

theorem logicalAll_piecesOf : logicalAll (piecesOf deflate codec payload) = payload := by
  rw [logicalAll, List.flatMap_def, blocks_piecesOf, flatten_payloadBlocks]

theorem length_piecesOf : (piecesOf deflate codec payload).length = blockCount payload.length := by
  rw [piecesOf, List.length_map, payloadBlocks, List.length_map, List.length_range]

theorem stored_le (ps : List Piece) (henc : ∀ p ∈ ps, Encoded deflate codec p) :
    (storedAll ps).length ≤ (logicalAll ps).length := by
  induction ps with
  | nil => exact Nat.le_refl _
  | cons p ps ih =>
    have hp := (henc p List.mem_cons_self).stored_le
    have hps := ih fun q hq => henc q (List.mem_cons_of_mem _ hq)
    simp only [storedAll, logicalAll, List.flatMap_cons, List.length_append] at hps ⊢
    omega

/-- The entries of the boundary table, with the totals at its end. -/
def boundaryWords (ps : List Piece) : List (Nat × Nat) :=
  entryWords ps 0 0 ++ [((storedAll ps).length, (logicalAll ps).length)]

/-- The blocks written into a buffer of zeros. -/
theorem writeBlocks_start {ps : List Piece} (off7 : Nat) (henc : ∀ p ∈ ps, Encoded deflate codec p) {n : Nat}
    (hroom : off7 + (logicalAll ps).length ≤ n) :
    ∃ s, writeBlocks sha3 deflate codec off7 (ps.map Prod.fst) ⟨List.replicate n 0, [], [], [], 0, 0, []⟩ = .ok s ∧
      s.boundaries = (entryWords ps 0 0).flatMap wordBytes ∧
      s.digests = ps.flatMap (fun p => (sha3 p.1).1) ∧
      s.signatures.length = ps.length * 16 ∧
      s.comp = (storedAll ps).length ∧
      s.blocks = infos ps 0 ∧
      s.out.length = n ∧
      ∀ i < (storedAll ps).length, s.out[off7 + i]? = (storedAll ps)[i]? := by
  obtain ⟨s, hs, hb, hd, hsig, hcomp, hblocks, hout, hstored, -⟩ := writeBlocks_ok sha3 off7 henc
    (s := ⟨List.replicate n 0, [], [], [], 0, 0, []⟩) (by rw [List.length_replicate]; exact hroom)
  rw [List.length_replicate] at hout
  exact ⟨s, hs, hb, hd, by rw [hsig, List.length_nil, Nat.zero_add], by rw [hcomp, Nat.zero_add], hblocks, hout,
    hstored⟩

variable (codec payload) in
/-- What the writer leaves: the header and the tables at their places, and behind them what is stored. -/
theorem write_ok (henc : codec = .zlib → ∀ b, ∃ z, deflate b = .ok z) :
    ∃ c signatures, write sha3 deflate payload codec = .ok ⟨c, infos (piecesOf deflate codec payload) 0⟩ ∧
      c.drop (offsets (blockCount payload.length)).off7 = storedAll (piecesOf deflate codec payload) ∧
      ∀ q ∈ headerPieces codec payload.length (blockCount payload.length)
        (storedAll (piecesOf deflate codec payload)).length
        ((boundaryWords (piecesOf deflate codec payload)).flatMap wordBytes)
        ((piecesOf deflate codec payload).flatMap fun p => (sha3 p.1).1) signatures
        (fileDigest sha3 blockLen encodeParam (param10 codec) payload.length shuffleTable
          ((boundaryWords (piecesOf deflate codec payload)).flatMap wordBytes)
          ((piecesOf deflate codec payload).flatMap fun p => (sha3 p.1).1)).1,
        (c.drop q.1).take q.2.length = q.2 := by
  set ps := piecesOf deflate codec payload with hps
  have hencp : ∀ p ∈ ps, Encoded deflate codec p := encoded_piecesOf henc
  have hlog : logicalAll ps = payload := logicalAll_piecesOf
  have hcount : ps.length = blockCount payload.length := length_piecesOf
  set o := offsets (blockCount payload.length)
  obtain ⟨s, hs, hb, hd, hsig, hcomp, hblocks, hout, hstored⟩ := writeBlocks_start sha3 o.off7 hencp
    (n := o.off7 + max payload.length 1) (by rw [hlog]; omega)
  rw [show ps.map Prod.fst = payloadBlocks payload from blocks_piecesOf] at hs
  have hle : s.comp ≤ payload.length := by
    rw [hcomp, ← hlog]
    exact stored_le ps hencp
  have hboundaries : s.boundaries ++ (le 8 s.comp ++ le 8 payload.length) =
      (boundaryWords ps).flatMap wordBytes := by
    rw [boundaryWords, List.flatMap_append, List.flatMap_singleton, hb, hcomp, hlog, wordBytes]
  set digest := fileDigest sha3 blockLen encodeParam (param10 codec) payload.length shuffleTable
    ((boundaryWords ps).flatMap wordBytes) (ps.flatMap fun p => (sha3 p.1).1)
  obtain ⟨qs, hperm, hasc⟩ := ascending_headerPieces codec payload.length s.comp
    (blockCount payload.length) ((boundaryWords ps).flatMap wordBytes) s.digests s.signatures digest.1
    (by
      rw [length_flatMap_const (c := 16) fun w _ => by simp [wordBytes], boundaryWords,
        List.length_append, length_entryWords, hcount]
      rfl)
    (by rw [hd, length_flatMap_const fun p _ => (sha3 p.1).2, hcount])
    (by rw [hsig, hcount]) digest.2
  have hbase : (s.out.take (o.off7 + s.comp)).length = o.off7 + s.comp :=
    List.length_take_of_le (by omega)
  obtain ⟨c, hc, hclen, hbehind, hall⟩ := stamp_perm (ε := String) hperm hasc
    (d := s.out.take (o.off7 + s.comp)) (by rw [hbase]; exact Nat.le_add_right _ _)
  refine ⟨c, s.signatures, ?_, ?_, ?_⟩
  · unfold write
    refine bind_eq_ok.2 ⟨s, hs, bind_eq_ok.2 ⟨c, ?_, ?_⟩⟩
    · rw [hboundaries, hd]
      rw [hd] at hc
      exact hc
    · rw [hblocks]
      rfl
  · refine List.ext_getElem? fun i => ?_
    rw [List.getElem?_drop]
    rcases Nat.lt_or_ge i s.comp with hi | hi
    · rw [hbehind _ (Nat.le_add_right _ _), List.getElem?_take_of_lt (Nat.add_lt_add_left hi _)]
      exact hstored i (hcomp ▸ hi)
    · rw [List.getElem?_eq_none (by rw [hclen, hbase]; exact Nat.add_le_add_left hi _),
        List.getElem?_eq_none (hcomp ▸ hi)]
  · rw [← hcomp, ← hd]
    exact hall

end Writer

end Ps5Upload.Pfsc
