import Ps5Upload.Fpkg.Pfsc.Written

/-!
# PFSC containers round trip

The reader finds the header, the tables and the payloads of a written container again.  The words of a
boundary entry have room for an offset below `2 ^ 44`, and for a first chunk of one byte or more.

* `decompress_ok` — the payload again;
* `parse_write` — a written container is read back.
-/

namespace Ps5Upload.Pfsc

open Blocks ByteFile Checked Stamps

/-! ## Fields of what was stamped -/

section Fields

variable {c : Bytes} {ps : List (Nat × Bytes)} (hall : ∀ q ∈ ps, (c.drop q.1).take q.2.length = q.2)

include hall

theorem length_of_piece {o : Nat} {d : Bytes} (h : (o, d) ∈ ps) (hd : d ≠ []) :
    o + d.length ≤ c.length := by
  have hlen := congrArg List.length (hall _ h)
  have hpos := List.length_pos_iff.2 hd
  rw [List.length_take, List.length_drop] at hlen
  dsimp only at hlen
  omega

theorem leField_inside {o j w : Nat} {d : Bytes} (h : (o, d) ∈ ps) (hj : j + w ≤ d.length) (hw : 0 < w) :
    leField c (o + j) w = .ok (leAt d j w) := by
  have hd : d ≠ [] := fun hnil => by
    rw [hnil, List.length_nil] at hj
    omega
  have hle := length_of_piece hall h hd
  rw [leField, if_pos (by omega)]
  have hslice : (c.drop (o + j)).take w = (d.drop j).take w := by
    have hpiece : (c.drop o).take d.length = d := hall _ h
    conv_rhs => rw [← hpiece]
    rw [List.drop_take, List.take_take, Nat.min_eq_left (by omega), List.drop_drop]
  rw [leAt, leAt, hslice]

theorem leField_mod {o w v : Nat} (h : (o, le w v) ∈ ps) (hw : 0 < w) :
    leField c o w = .ok (v % 256 ^ w) := by
  have hin := leField_inside hall h (j := 0) (w := w) (by rw [length_le]; omega) hw
  have hle := leAt_le w v []
  rw [List.append_nil] at hle
  rwa [hle, Nat.add_zero] at hin

theorem leField_piece {o w v : Nat} (h : (o, le w v) ∈ ps) (hw : 0 < w) (hv : v < 256 ^ w) :
    leField c o w = .ok v := by
  rw [leField_mod hall h hw, Nat.mod_eq_of_lt hv]

theorem slice_piece {o : Nat} {d : Bytes} (h : (o, d) ∈ ps) (hd : d ≠ []) :
    (slice c o (o + d.length) : Res String _) = .ok d := by
  have hpiece : (c.drop o).take d.length = d := hall _ h
  rw [slice_eq (Nat.le_add_right _ _) (length_of_piece hall h hd), Nat.add_sub_cancel_left, hpiece]

end Fields

/-! ## The header -/

/-- The two halves of a 48-bit field. -/
theorem halves {n : Nat} (h : n < 2 ^ 48) : n % 256 ^ 4 ||| (n >>> 32 % 256 ^ 2) <<< 32 = n := by
  rw [show (256 : Nat) ^ 4 = 2 ^ 32 by decide, show (256 : Nat) ^ 2 = 2 ^ 16 by decide,
    or_shift (Nat.mod_lt _ (by decide)), Nat.shiftRight_eq_div_pow]
  omega

section Header

variable {c : Bytes} {codec : Codec} {len count comp : Nat} {boundaries digests signatures digest : Bytes}
  (hall : ∀ q ∈ headerPieces codec len count comp boundaries digests signatures digest,
    (c.drop q.1).take q.2.length = q.2)

theorem mem_field {q : Nat × Bytes} (h : q ∈ headerFields codec len ((offsets count).off7 + comp)) :
    q ∈ headerPieces codec len count comp boundaries digests signatures digest :=
  List.mem_append_left _ (List.mem_append_left _ h)

theorem mem_section {q : Nat × Bytes} (h : q ∈ [(off1, gitHash), ((offsets count).off2, shuffleTable),
      ((offsets count).off3, boundaries), ((offsets count).off4, digests), ((offsets count).off5, signatures),
      (0x28, digest)]) :
    q ∈ headerPieces codec len count comp boundaries digests signatures digest :=
  List.mem_append_right _ h

theorem mem_directory {q : Nat × Bytes}
    (h : q ∈ ((directory count comp).mapIdx fun i e => dirEntry i e.1 e.2.1 e.2.2).flatten) :
    q ∈ headerPieces codec len count comp boundaries digests signatures digest := by
  unfold headerPieces
  exact List.mem_append_left _ (List.mem_append_right _ h)

include hall

/-- An entry of the directory is read back. -/
theorem readDirEntry_ok {i : Nat} {e : Nat × Nat × Nat} (h : (directory count comp)[i]? = some e)
    (hid : e.1 < 2 ^ 16) (hoff : e.2.1 < 2 ^ 48) (hsize : e.2.2 < 2 ^ 48) :
    readDirEntry c i = .ok e := by
  have hin : ∀ q ∈ dirEntry i e.1 e.2.1 e.2.2,
      q ∈ headerPieces codec len count comp boundaries digests signatures digest := fun q hq =>
    mem_directory (mem_records h hq)
  have m₀ : (0x48 + i * 16, le 2 e.1) ∈ dirEntry i e.1 e.2.1 e.2.2 := List.mem_cons_self
  have m₁ : (0x48 + i * 16 + 2, le 4 e.2.1) ∈ dirEntry i e.1 e.2.1 e.2.2 :=
    List.mem_cons_of_mem _ List.mem_cons_self
  have m₂ : (0x48 + i * 16 + 6, le 2 (e.2.1 >>> 32)) ∈ dirEntry i e.1 e.2.1 e.2.2 :=
    List.mem_cons_of_mem _ (List.mem_cons_of_mem _ List.mem_cons_self)
  have m₃ : (0x48 + i * 16 + 10, le 4 e.2.2) ∈ dirEntry i e.1 e.2.1 e.2.2 :=
    List.mem_cons_of_mem _ (List.mem_cons_of_mem _ (List.mem_cons_of_mem _ List.mem_cons_self))
  have m₄ : (0x48 + i * 16 + 14, le 2 (e.2.2 >>> 32)) ∈ dirEntry i e.1 e.2.1 e.2.2 :=
    List.mem_cons_of_mem _ (List.mem_cons_of_mem _ (List.mem_cons_of_mem _ (List.mem_cons_of_mem _
      List.mem_cons_self)))
  have hid : e.1 < 256 ^ 2 := hid
  have h₀ := leField_piece hall (hin _ m₀) (by decide) hid
  have h₁ := leField_mod hall (hin _ m₁) (by decide)
  have h₂ := leField_mod hall (hin _ m₂) (by decide)
  have h₃ := leField_mod hall (hin _ m₃) (by decide)
  have h₄ := leField_mod hall (hin _ m₄) (by decide)
  unfold readDirEntry
  dsimp only
  rw [h₀, ok_bind, h₁, ok_bind, h₂, ok_bind, h₃, ok_bind, h₄, ok_bind, halves hoff, halves hsize]
  rfl

/-- The whole directory. -/
theorem readDir_ok (hfit : (offsets count).off7 + comp < 2 ^ 48) :
    collect (readDirEntry c) (List.range 7) = .ok (directory count comp) := by
  obtain ⟨h2, h3, h4, h5, h7⟩ := offsets_le count
  have hg : gitHash.length = 20 := rfl
  have hs : shuffleTable.length = 64 := rfl
  have h1 : off1 = 184 := rfl
  have h6 : (offsets count).off6 ≤ (offsets count).off7 := le_alignUp (by decide) _
  have hfits : ∀ e ∈ directory count comp, e.1 < 2 ^ 16 ∧ e.2.1 < 2 ^ 48 ∧ e.2.2 < 2 ^ 48 := by
    intro e he
    simp only [directory, List.mem_cons, List.not_mem_nil, or_false] at he
    rcases he with rfl | rfl | rfl | rfl | rfl | rfl | rfl <;> dsimp only <;> omega
  have hone : ∀ i ∈ List.range 7, readDirEntry c i = .ok ((directory count comp)[i]?.getD (0, 0, 0)) := by
    intro i hi
    have hlt : i < (directory count comp).length := List.mem_range.1 hi
    have hget := List.getElem?_eq_getElem hlt
    obtain ⟨hid, hoff, hsize⟩ := hfits _ (List.getElem_mem hlt)
    rw [hget]
    exact readDirEntry_ok hall hget hid hoff hsize
  rw [collect_eq hone]
  rfl

end Header

section Parse

variable {sha3 : Bytes → Digest} {c : Bytes} {codec : Codec} {len count comp : Nat}
  {boundaries digests signatures : Bytes}

/-- The reader takes the fields and the sections as they were written, and goes on to the blocks. -/
theorem parse_eq (hall : ∀ q ∈ headerPieces codec len count comp boundaries digests signatures
      (fileDigest sha3 blockLen encodeParam (param10 codec) len shuffleTable boundaries digests).1,
      (c.drop q.1).take q.2.length = q.2)
    (hb : boundaries.length = (count + 1) * 16) (hd : digests.length = count * 32) (hcount : 0 < count)
    (hlen : len < 2 ^ 64) (hfit : (offsets count).off7 + comp < 2 ^ 48) :
    parse sha3 c = (do
      let found ← collect (readBlock c (offsets count).off3 (offsets count).off7) (List.range count)
      return {
        version := 3, algorithm := codec.algorithm, blockSize := blockLen, logicalSize := len
        blocks := found.map Prod.fst
        payloads := found.map Prod.snd
        allStored := (found.map Prod.fst).all fun b => b.1 &&& 0x0C ≠ 0
        digestOk := true }) := by
  have field : ∀ {o w v : Nat}, (o, le w v) ∈ headerFields codec len ((offsets count).off7 + comp) →
      0 < w → v < 256 ^ w → leField c o w = .ok v := fun h hw hv => leField_piece hall (mem_field h) hw hv
  have hmagic : leField c 0 4 = .ok magic := field (by unfold headerFields; exact List.mem_cons_self)
    (by decide) (by decide)
  have hparam : (16, le 8 (param10 codec)) ∈ headerFields codec len ((offsets count).off7 + comp) := by
    unfold headerFields
    simp only [List.mem_cons, true_or, or_true]
  have hparamLt : param10 codec < 256 ^ 8 := by cases codec <;> decide
  have hversion : leField c 4 2 = .ok 3 := field (by
    unfold headerFields; simp only [List.mem_cons, true_or, or_true]) (by decide) (by decide)
  have hsections : leField c 6 2 = .ok 7 := field (by
    unfold headerFields; simp only [List.mem_cons, true_or, or_true]) (by decide) (by decide)
  have hblock : leField c 8 4 = .ok blockLen := field (by
    unfold headerFields; simp only [List.mem_cons, true_or, or_true]) (by decide) (by decide)
  have hparam0c : leField c 0x0C 4 = .ok encodeParam := field (by
    unfold headerFields; simp only [List.mem_cons, true_or, or_true]) (by decide) (by decide)
  have hsize : leField c 0x18 8 = .ok len := field (by
    unfold headerFields; simp only [List.mem_cons, true_or, or_true]) (by decide) hlen
  have halg : leField c 0x10 1 = .ok codec.algorithm := by
    have h := leField_inside hall (mem_field hparam) (j := 0) (w := 1) (by rw [length_le]; decide)
      (by decide)
    rw [show leAt (le 8 (param10 codec)) 0 1 = codec.algorithm by cases codec <;> decide] at h
    exact h
  have hfront : ¬ (c.length < off1 ∨ leAt c 0 4 ≠ magic) := by
    have hgit := length_of_piece hall (mem_section List.mem_cons_self) (List.cons_ne_nil _ _)
    unfold leField at hmagic
    split at hmagic
    · rw [Except.ok.injEq] at hmagic
      rintro (h | h)
      · omega
      · exact h hmagic
    · cases hmagic
  have h2 : findSection (directory count comp) 2 = some ((offsets count).off2, shuffleTable.length) := rfl
  have h3 : findSection (directory count comp) 3 = some ((offsets count).off3, (count + 1) * 16) := rfl
  have h4 : findSection (directory count comp) 4 = some ((offsets count).off4, count * 32) := rfl
  have h7 : findSection (directory count comp) 7 = some ((offsets count).off7, comp) := rfl
  have hsub : (sub ((count + 1) * 16 / 16) 1 : Res String Nat) = .ok count := by
    rw [Nat.mul_div_cancel _ (by decide)]
    exact sub_eq (Nat.le_add_left _ _)
  have hstated : (slice c 0x28 0x48 : Res String Bytes) = .ok
      (fileDigest sha3 blockLen encodeParam (param10 codec) len shuffleTable boundaries digests).1 := by
    have h32 := (fileDigest sha3 blockLen encodeParam (param10 codec) len shuffleTable boundaries digests).2
    have hmem : ((0x28 : Nat), (fileDigest sha3 blockLen encodeParam (param10 codec) len shuffleTable
        boundaries digests).1) ∈ headerPieces codec len count comp boundaries digests signatures
        (fileDigest sha3 blockLen encodeParam (param10 codec) len shuffleTable boundaries digests).1 :=
      mem_section (by simp only [List.mem_cons, true_or, or_true])
    have h := slice_piece hall hmem (List.length_pos_iff.1 (by rw [h32]; decide))
    rwa [h32] at h
  have hshuffle := slice_piece hall (mem_section (q := ((offsets count).off2, shuffleTable))
    (by simp only [List.mem_cons, true_or, or_true])) (List.cons_ne_nil _ _)
  have hbounds := slice_piece hall (mem_section (q := ((offsets count).off3, boundaries))
    (by simp only [List.mem_cons, true_or, or_true])) (List.length_pos_iff.1 (by rw [hb]; omega))
  have hdigests := slice_piece hall (mem_section (q := ((offsets count).off4, digests))
    (by simp only [List.mem_cons, true_or, or_true])) (List.length_pos_iff.1 (by rw [hd]; omega))
  rw [hb] at hbounds
  rw [hd] at hdigests
  unfold parse
  rw [if_neg hfront, hversion, ok_bind, hsections, ok_bind, hblock, ok_bind, halg, ok_bind, hparam0c,
    ok_bind, leField_piece hall (mem_field hparam) (by decide) hparamLt, ok_bind, hsize, ok_bind,
    readDir_ok hall hfit, ok_bind, h3, h4, h7, h2]
  dsimp only [Option.getD_some]
  rw [hsub, ok_bind]
  refine congrArg (_ >>= ·) (funext fun found => ?_)
  rw [if_neg (by decide : ¬ shuffleTable.length = 0), hstated, ok_bind, hshuffle, ok_bind, hbounds, ok_bind,
    hdigests, ok_bind]
  simp only [beq_self_eq_true]
  rfl

end Parse

/-! ## The boundary table -/

theorem flagsOf_lt (b : Bytes) (e : Option Bytes) : flagsOf b e < 2 ^ 16 := by
  unfold flagsOf
  split
  · decide
  · split <;> decide

theorem firstChunkOf_le (b : Bytes) (e : Option Bytes) : firstChunkOf b e ≤ 2 ^ 17 := by
  unfold firstChunkOf
  split
  · exact Nat.min_le_right _ _
  · rename_i h
    have hsub : subChunk = 2 ^ 17 := rfl
    omega

/-- The hint is the length of the first chunk less one. -/
theorem hintOf_eq (b : Bytes) (e : Option Bytes) : hintOf b e = firstChunkOf b e - 1 := by
  have hle := firstChunkOf_le b e
  rw [hintOf, show (0x1FFFF : Nat) = 2 ^ 17 - 1 from rfl, Nat.and_two_pow_sub_one_eq_mod,
    Nat.mod_eq_of_lt (by omega)]

variable {i off3 : Nat} {qs : List (Nat × Bytes)} {p : Piece}

/-- The `i`-th boundary: the bytes in front of it, below the flags and the hint of the block it opens. -/
theorem boundaryWords_at (ps : List Piece) (hi : i ≤ ps.length) :
    ∃ flags hint, (boundaryWords ps)[i]? = some ((storedAll (ps.take i)).length ||| flags <<< 48,
        (logicalAll (ps.take i)).length ||| hint <<< 44) ∧
      flags < 2 ^ 16 ∧ hint < 2 ^ 17 ∧ ∀ p, ps[i]? = some p → flags = p.flags ∧ hint = p.hint := by
  rcases Nat.lt_or_eq_of_le hi with hlt | rfl
  · have hp := List.getElem?_eq_getElem hlt
    refine ⟨ps[i].flags, ps[i].hint, ?_, flagsOf_lt _ _, ?_, fun p hp' => ?_⟩
    · rw [boundaryWords, List.getElem?_append_left (by rw [length_entryWords]; exact hlt),
        getElem?_entryWords hp]
      simp only [Nat.zero_add]
    · have hle := firstChunkOf_le ps[i].1 ps[i].2
      rw [Piece.hint, hintOf_eq]
      omega
    · rw [hp] at hp'
      cases hp'
      exact ⟨rfl, rfl⟩
  · refine ⟨0, 0, ?_, by decide, by decide, fun p hp => ?_⟩
    · rw [boundaryWords, List.getElem?_append_right (by rw [length_entryWords])]
      simp only [length_entryWords, Nat.sub_self, List.getElem?_cons_zero, List.take_length,
        Nat.zero_shiftLeft, Nat.or_zero]
    · rw [List.getElem?_eq_none (Nat.le_refl _)] at hp
      cases hp

theorem length_wordBytes (w : Nat × Nat) : (wordBytes w).length = 16 := by
  simp only [wordBytes, List.length_append, length_le]

theorem length_boundaryBytes (ps : List Piece) :
    ((boundaryWords ps).flatMap wordBytes).length = (ps.length + 1) * 16 := by
  rw [length_flatMap_const fun w _ => length_wordBytes w, boundaryWords, List.length_append,
    length_entryWords]
  rfl

/-- An entry of the table, from the bytes of the container. -/
theorem leField_boundary {c : Bytes} {ps : List Piece}
    (hall : ∀ q ∈ qs, (c.drop q.1).take q.2.length = q.2)
    (hmem : (off3, (boundaryWords ps).flatMap wordBytes) ∈ qs) {a b : Nat}
    (hw : (boundaryWords ps)[i]? = some (a, b)) :
    leField c (off3 + i * 16) 8 = .ok (a % 2 ^ 64) ∧ leField c (off3 + i * 16 + 8) 8 = .ok (b % 2 ^ 64) := by
  have hlt : i < ps.length + 1 := by
    have h := (List.getElem?_eq_some_iff.1 hw).1
    rwa [boundaryWords, List.length_append, length_entryWords] at h
  have hroom : i * 16 + 16 ≤ ((boundaryWords ps).flatMap wordBytes).length := by
    rw [length_boundaryBytes]
    omega
  have hrec := take_drop_records [] length_wordBytes hw
  rw [List.nil_append, List.length_nil, Nat.zero_add] at hrec
  have hin : ∀ {j}, j + 8 ≤ 16 → leAt ((boundaryWords ps).flatMap wordBytes) (i * 16 + j) 8 =
      leAt (wordBytes (a, b)) j 8 := by
    intro j hj
    rw [← hrec, leAt, leAt, List.drop_take, List.take_take, Nat.min_eq_left (by omega), List.drop_drop]
  have hfirst := leField_inside hall hmem (j := i * 16) (w := 8) (by omega) (by decide)
  have hsecond := leField_inside hall hmem (j := i * 16 + 8) (w := 8) (by omega) (by decide)
  have hzero := hin (j := 0) (by decide)
  rw [Nat.add_zero] at hzero
  rw [hzero, wordBytes, leAt_le] at hfirst
  rw [hin (by decide), wordBytes, leAt_le_append _ _ (Nat.le_refl 8), Nat.sub_self, ← List.append_nil (le 8 _),
    leAt_le, ← Nat.add_assoc] at hsecond
  exact ⟨hfirst, hsecond⟩

theorem storedAll_take_succ {ps : List Piece} (h : ps[i]? = some p) :
    storedAll (ps.take (i + 1)) = storedAll (ps.take i) ++ p.stored := by
  rw [List.take_add_one, h]
  simp [storedAll]

theorem logicalAll_take_succ {ps : List Piece} (h : ps[i]? = some p) :
    logicalAll (ps.take (i + 1)) = logicalAll (ps.take i) ++ p.1 := by
  rw [List.take_add_one, h]
  simp [logicalAll]

theorem length_storedAll_take_le (ps : List Piece) (i : Nat) :
    (storedAll (ps.take i)).length ≤ (storedAll ps).length := by
  conv_rhs => rw [← List.take_append_drop i ps, storedAll, List.flatMap_append, List.length_append]
  exact Nat.le_add_right _ _

theorem length_logicalAll_take_le (ps : List Piece) (i : Nat) :
    (logicalAll (ps.take i)).length ≤ (logicalAll ps).length := by
  conv_rhs => rw [← List.take_append_drop i ps, logicalAll, List.flatMap_append, List.length_append]
  exact Nat.le_add_right _ _

/-- What is stored of one piece, out of what is stored of them all. -/
theorem piece_of_storedAll {ps : List Piece} (h : ps[i]? = some p) :
    ((storedAll ps).drop (storedAll (ps.take i)).length).take p.stored.length = p.stored := by
  obtain ⟨hlt, rfl⟩ := List.getElem?_eq_some_iff.1 h
  have hsplit : storedAll ps = storedAll (ps.take i) ++ (ps[i].stored ++ storedAll (ps.drop (i + 1))) := by
    conv_lhs => rw [← List.take_append_drop i ps, List.drop_eq_getElem_cons hlt]
    rw [storedAll, List.flatMap_append, List.flatMap_cons]
    rfl
  rw [hsplit, List.drop_left, List.take_left]

/-- The two words of an entry, with the offsets they hold. -/
theorem words_at {c : Bytes} {ps : List Piece} (hall : ∀ q ∈ qs, (c.drop q.1).take q.2.length = q.2)
    (hmem : (off3, (boundaryWords ps).flatMap wordBytes) ∈ qs) (hstored : (storedAll ps).length < 2 ^ 44)
    (hlogical : (logicalAll ps).length < 2 ^ 44) (hi : i ≤ ps.length) :
    ∃ a b, leField c (off3 + i * 16) 8 = .ok a ∧ leField c (off3 + i * 16 + 8) 8 = .ok b ∧
      low44 a = (storedAll (ps.take i)).length ∧ low44 b = (logicalAll (ps.take i)).length ∧
      ∀ p, ps[i]? = some p → a >>> 48 = p.flags ∧ (b >>> 44) &&& 0x1FFFF = p.hint := by
  obtain ⟨flags, hint, hw, hflags, hhint, hp⟩ := boundaryWords_at ps hi
  obtain ⟨ha, hb⟩ := leField_boundary hall hmem hw
  have hs := Nat.lt_of_le_of_lt (length_storedAll_take_le ps i) hstored
  have hl := Nat.lt_of_le_of_lt (length_logicalAll_take_le ps i) hlogical
  have hs48 : (storedAll (ps.take i)).length < 2 ^ 48 := by omega
  rw [Nat.mod_eq_of_lt (by rw [or_shift hs48]; omega)] at ha
  rw [Nat.mod_eq_of_lt (by rw [or_shift hl]; omega)] at hb
  refine ⟨_, _, ha, hb, ?_, low44_second hl, fun p hp' => ?_⟩
  · rw [low44_first hs48, Nat.mod_eq_of_lt hs]
  · obtain ⟨rfl, rfl⟩ := hp p hp'
    exact ⟨flags_first hs48, hint_second hl hhint⟩

/-! ## Blocks -/

/-- What a reader reports of a piece. -/
def Piece.reported (p : Piece) : Nat × Nat × Nat × Nat :=
  (p.flags, max 1 p.firstChunk, p.stored.length, p.1.length)

/-- A block is read with the flags, the lengths and the bytes it was stored with. -/
theorem readBlock_ok {c : Bytes} {off7 : Nat} {ps : List Piece}
    (hall : ∀ q ∈ qs, (c.drop q.1).take q.2.length = q.2)
    (hmem : (off3, (boundaryWords ps).flatMap wordBytes) ∈ qs) (hbehind : c.drop off7 = storedAll ps)
    (hstored : (storedAll ps).length < 2 ^ 44) (hlogical : (logicalAll ps).length < 2 ^ 44) (h : ps[i]? = some p) :
    readBlock c off3 off7 i = .ok (p.reported, p.stored) := by
  have hlt := (List.getElem?_eq_some_iff.1 h).1
  obtain ⟨a, b, ha, hb, hla, hlb, hp⟩ := words_at hall hmem hstored hlogical (Nat.le_of_lt hlt)
  obtain ⟨a', b', ha', hb', hla', hlb', -⟩ := words_at hall hmem hstored hlogical hlt
  obtain ⟨hflags, hhint⟩ := hp p h
  have hone : p.hint + 1 = max 1 p.firstChunk := by
    rw [Piece.hint, hintOf_eq, Piece.firstChunk]
    omega
  unfold readBlock
  rw [ha, ok_bind, hb, ok_bind, ha', ok_bind, hb', ok_bind, hla, hlb, hla', hlb', storedAll_take_succ h,
    logicalAll_take_succ h, List.length_append, List.length_append, sub_eq (Nat.le_add_right _ _), ok_bind,
    sub_eq (Nat.le_add_right _ _), ok_bind, Nat.add_sub_cancel_left, Nat.add_sub_cancel_left, hflags, hhint,
    hone]
  dsimp only
  rw [← List.drop_drop, hbehind, piece_of_storedAll h]
  rfl

/-! ## The payload again -/

/-- zlib: a block is deflated to a stream, which starts with a header, and the stream holds the block. -/
structure Zlib (deflate : Bytes → Except String Bytes) (readExact : Bytes → Nat → Except String Bytes) :
    Prop where
  deflate_ok : ∀ b, ∃ z, deflate b = .ok z
  deflate_ne_nil : ∀ {b z}, deflate b = .ok z → z ≠ []
  readExact_deflate : ∀ {b z}, deflate b = .ok z → readExact z b.length = .ok b

def sampleDigest (_ : Bytes) : Digest := ⟨List.replicate 32 0, rfl⟩

/-- zlib's stream for sixty-four zeros. -/
def sampleStream : Bytes := [0x78, 0xDA, 0x63, 0x60, 0xA0, 0x0C, 0x00, 0x00, 0x00, 0x40, 0x00, 0x01]

/-- A deflater that shortens one block and puts a header in front of the others. -/
def sampleDeflate (b : Bytes) : Except String Bytes :=
  .ok (if b = List.replicate 64 0 then sampleStream else 0x78 :: 0x01 :: b)

def sampleInflate (z : Bytes) (_ : Nat) : Except String Bytes :=
  .ok (if z = sampleStream then List.replicate 64 0 else z.drop 2)

/-- The sample behaves like zlib. -/
theorem zlib_sample : Zlib sampleDeflate sampleInflate where
  deflate_ok _ := ⟨_, rfl⟩
  deflate_ne_nil := by
    rintro b z h
    cases h
    split
    · exact List.cons_ne_nil _ _
    · exact List.cons_ne_nil _ _
  readExact_deflate := by
    rintro b z h
    cases h
    by_cases hb : b = List.replicate 64 0
    · rw [if_pos hb, hb]
      rfl
    · rw [if_neg hb, sampleInflate, if_neg (by unfold sampleStream; simp)]
      rfl

section Decompress

variable {deflate : Bytes → Except String Bytes} {readExact : Bytes → Nat → Except String Bytes}
  {codec : Codec}

/-- Pieces are expanded whichever of them are deflated: a deflated one is shorter than its block. -/
theorem expand_ok (hz : Zlib deflate readExact) {ps : List Piece} (henc : ∀ p ∈ ps, Encoded deflate codec p)
    (out : Bytes) :
    expand readExact (ps.map fun p => (p.reported, p.stored)) out = .ok (out ++ logicalAll ps) := by
  induction ps generalizing out with
  | nil =>
    rw [logicalAll, List.flatMap_nil, List.append_nil]
    rfl
  | cons p ps ih =>
    have hrest := fun out => ih (fun q hq => henc q (List.mem_cons_of_mem _ hq)) out
    have hall : logicalAll (p :: ps) = p.1 ++ logicalAll ps := List.flatMap_cons ..
    rw [List.map_cons, Piece.reported, expand, if_neg (fun h => h rfl), hall, ← List.append_assoc]
    rcases (henc p List.mem_cons_self).cases with hn | ⟨z, hs, -, hdef, hlt⟩
    · have hst : p.stored = p.1 := by rw [Piece.stored, storedBytes, hn]; rfl
      rw [hst, if_pos rfl, hrest]
    · have hst : p.stored = z := by rw [Piece.stored, storedBytes, hs]; rfl
      rw [hst, if_neg (Nat.ne_of_lt hlt), hz.readExact_deflate hdef]
      exact hrest _

end Decompress

/-! ## The round trip -/

/-- The flags of a block, from its report. -/
def BlockInfo.flags (b : BlockInfo) : Nat :=
  if b.compressed then 0 else 0x0C ||| if subChunk < b.uncompressedLen then 0xC0 else 0

/-- The geometry of a block, as the writer reports it. -/
def BlockInfo.geometry (b : BlockInfo) : Nat × Nat × Nat × Nat :=
  (b.flags, b.firstChunkLen, b.payloadLen, b.uncompressedLen)

/-- The geometry of a block as its boundary entry has it, where a first chunk has at least one byte. -/
def BlockInfo.entry (b : BlockInfo) : Nat × Nat × Nat × Nat :=
  (b.flags, max 1 b.firstChunkLen, b.payloadLen, b.uncompressedLen)

section Main

variable (sha3 : Bytes → Digest) (deflate : Bytes → Except String Bytes)
  (readExact : Bytes → Nat → Except String Bytes)

/-- What is written of a payload is read back: the digest, the length, the blocks, the stored bytes, and
the payload itself. -/
def RoundTrips (geometry : BlockInfo → Nat × Nat × Nat × Nat) (payload : Bytes) (codec : Codec) : Prop :=
  ∃ w c, write sha3 deflate payload codec = .ok w ∧ parse sha3 w.container = .ok c ∧
    c.digestOk = true ∧ c.logicalSize = payload.length ∧ c.blocks = w.blocks.map geometry ∧
    c.payloads.flatten = w.container.drop (offsets (blockCount payload.length)).off7 ∧
    c.payloads.map List.length = w.blocks.map BlockInfo.payloadLen ∧
    (codec = .stored → c.payloads.flatten = payload) ∧
    (codec = .zlib → c.decompress readExact = .ok payload)

variable {sha3 deflate readExact} {payload : Bytes} {codec : Codec}

/-- Both codecs, up to the room that the boundary table has for an offset. -/
theorem roundTrips_entry (hz : Zlib deflate readExact) (hlen : payload.length < 2 ^ 44) (codec : Codec) :
    RoundTrips sha3 deflate readExact BlockInfo.entry payload codec := by
  obtain ⟨c, signatures, hw, hbehind, hall⟩ := write_ok sha3 codec payload
    fun _ => hz.deflate_ok
  set ps := piecesOf deflate codec payload with hps
  have henc : ∀ p ∈ ps, Encoded deflate codec p := encoded_piecesOf fun _ => hz.deflate_ok
  have hlog : logicalAll ps = payload := logicalAll_piecesOf
  have hcount : ps.length = blockCount payload.length := length_piecesOf
  have hpos : 0 < blockCount payload.length := Nat.lt_of_lt_of_le Nat.one_pos (Nat.le_max_right _ _)
  have hle := stored_le ps henc
  rw [hlog] at hle
  have hoff := off7_lt (blockCount payload.length)
  have hblocks := blockCount_lt payload.length
  rw [show blockLen = 2 ^ 18 from rfl] at hblocks
  have hparse := parse_eq hall
    (by rw [length_boundaryBytes, hcount]) (by rw [length_flatMap_const fun p _ => (sha3 p.1).2, hcount]) hpos (by omega) (by omega)
  have hfound : collect (readBlock c (offsets (blockCount payload.length)).off3
      (offsets (blockCount payload.length)).off7) (List.range (blockCount payload.length)) =
      .ok (ps.map fun p => (p.reported, p.stored)) := by
    have hone : ∀ i ∈ List.range (blockCount payload.length),
        readBlock c (offsets (blockCount payload.length)).off3 (offsets (blockCount payload.length)).off7 i =
          .ok ((ps.map fun p => (p.reported, p.stored))[i]?.getD ((0, 0, 0, 0), [])) := by
      intro i hi
      have hlt : i < ps.length := hcount ▸ List.mem_range.1 hi
      have hget := List.getElem?_eq_getElem hlt
      rw [List.getElem?_map, hget]
      exact readBlock_ok hall (mem_section (by simp only [List.mem_cons, true_or, or_true])) hbehind
        (by omega) (by rw [hlog]; exact hlen) hget
    rw [collect_eq hone, ← hcount]
    refine congrArg Except.ok (List.ext_getElem (by simp) fun i h₁ h₂ => ?_)
    simp only [List.getElem_map, List.getElem_range]
    rw [List.getElem?_eq_getElem h₂]
    simp
  have hreported : (ps.map fun p => (p.reported, p.stored)).map Prod.fst = ps.map Piece.reported :=
    List.map_map
  have hstored : (ps.map fun p => (p.reported, p.stored)).map Prod.snd = ps.map Piece.stored := List.map_map
  rw [hfound, ok_bind, hreported, hstored] at hparse
  refine ⟨_, _, hw, hparse, rfl, rfl, ?_, ?_, ?_, fun hc => ?_, fun hc => ?_⟩
  · exact (map_infos BlockInfo.entry Piece.reported (fun _ _ => rfl) ps 0).symm
  · rw [hbehind, storedAll, List.flatMap_def]
  · rw [map_infos BlockInfo.payloadLen (fun p => p.stored.length) fun _ _ => rfl]
    exact List.map_map
  · subst hc
    have hnone : ∀ p ∈ ps, p.stored = p.1 := fun p hp => by
      rcases (henc p hp).cases with hn | ⟨_, -, hc, -⟩
      · rw [Piece.stored, storedBytes, hn]
        rfl
      · cases hc
    conv_rhs => rw [← hlog, logicalAll, List.flatMap_def]
    exact congrArg List.flatten (List.map_congr_left hnone)
  · subst hc
    unfold Container.decompress
    rw [if_neg (fun h => h rfl)]
    dsimp only
    rw [List.zip_map', expand_ok hz henc, ok_bind, List.nil_append, hlog, if_neg (fun h => h rfl)]
    rfl

/-- What the writer returns of a payload's pieces. -/
theorem blocks_of_write (hz : Zlib deflate readExact) {w : Written}
    (hw : write sha3 deflate payload codec = .ok w) :
    w.blocks = infos (piecesOf deflate codec payload) 0 := by
  obtain ⟨c, signatures, hw', -⟩ := write_ok sha3 codec payload
    fun _ => hz.deflate_ok
  rw [hw'] at hw
  cases hw
  rfl

/-- A block with bytes has a first chunk with bytes. -/
theorem firstChunk_pos (hz : Zlib deflate readExact) {p : Piece} (h : Encoded deflate codec p)
    (hne : p.1 ≠ []) : 0 < p.firstChunk := by
  have hpos := List.length_pos_iff.2 hne
  have hsub : 0 < subChunk := by decide
  have hstored : 0 < p.stored.length := by
    rcases h.cases with hn | ⟨z, hs, -, hdef, -⟩
    · rw [Piece.stored, storedBytes, hn]
      exact hpos
    · rw [Piece.stored, storedBytes, hs]
      exact List.length_pos_iff.2 (hz.deflate_ne_nil hdef)
  unfold Piece.firstChunk firstChunkOf
  split
  · exact lt_min hstored hsub
  · exact hpos

theorem map_entry (hz : Zlib deflate readExact) (hne : payload ≠ []) :
    (infos (piecesOf deflate codec payload) 0).map BlockInfo.entry =
      (infos (piecesOf deflate codec payload) 0).map BlockInfo.geometry := by
  rw [map_infos BlockInfo.entry Piece.reported fun _ _ => rfl,
    map_infos BlockInfo.geometry (fun p => (p.flags, p.firstChunk, p.stored.length, p.1.length))
      fun _ _ => rfl]
  refine List.map_congr_left fun p hp => ?_
  have hblock : p.1 ∈ payloadBlocks payload := blocks_piecesOf ▸ List.mem_map_of_mem hp
  have hpos := firstChunk_pos hz (encoded_piecesOf (fun _ => hz.deflate_ok) p hp)
    (payloadBlocks_ne_nil hne _ hblock)
  rw [Piece.reported, Nat.max_eq_right hpos]

/-- The only block of an empty payload is reported without a first chunk, and read with one byte of it. -/
theorem not_geometry_nil (hz : Zlib deflate readExact) :
    ¬ RoundTrips sha3 deflate readExact BlockInfo.geometry [] .stored := by
  rintro ⟨w, c, hw, hc, -, -, hblocks, -⟩
  obtain ⟨w', c', hw', hc', -, -, hentry, -⟩ : RoundTrips sha3 deflate readExact BlockInfo.entry [] .stored :=
    roundTrips_entry hz (by decide) .stored
  rw [hw] at hw'
  cases hw'
  rw [hc] at hc'
  cases hc'
  have hone : infos (piecesOf deflate .stored []) 0 = [⟨0, 0, 0, 0, false⟩] := rfl
  rw [hblocks, blocks_of_write hz hw, hone] at hentry
  exact absurd hentry (by decide)

theorem stored_piecesOf : ∀ p ∈ piecesOf deflate .stored payload, p.stored = p.1 := by
  intro p hp
  obtain ⟨b, -, rfl⟩ := List.mem_map.1 hp
  rfl

/-- At `2 ^ 44` bytes the total at the end of the boundary table has lost its only bit, and the last block
would be of a negative length. -/
theorem not_parse_long (hz : Zlib deflate readExact) (hlen : payload.length = 2 ^ 44) :
    ¬ RoundTrips sha3 deflate readExact BlockInfo.geometry payload .stored := by
  rintro ⟨w, c', hw', hc', -⟩
  obtain ⟨c, signatures, hw, hbehind, hall⟩ := write_ok sha3 .stored payload
    fun _ => hz.deflate_ok
  rw [hw'] at hw
  cases hw
  set ps := piecesOf deflate .stored payload with hps
  have hcount : ps.length = blockCount payload.length := length_piecesOf
  have hblocks : blockCount payload.length = 2 ^ 26 := by rw [hlen]; decide
  have hstored : storedAll ps = payload := by
    rw [storedAll, List.flatMap_def, List.map_congr_left stored_piecesOf, ← List.flatMap_def]
    exact logicalAll_piecesOf
  have hoff := off7_lt (blockCount payload.length)
  have hparse := parse_eq hall
    (by rw [length_boundaryBytes, hcount]) (by rw [length_flatMap_const fun p _ => (sha3 p.1).2, hcount]) (by omega) (by omega)
    (by rw [hstored]; omega)
  rw [hparse] at hc'
  obtain ⟨found, hfound, -⟩ := bind_eq_ok.1 hc'
  -- The last block.
  have hlast : 2 ^ 26 - 1 < ps.length := by omega
  have hp := List.getElem?_eq_getElem hlast
  obtain ⟨r, hr⟩ := collect_ok hfound (2 ^ 26 - 1) (List.mem_range.2 (by omega))
  obtain ⟨f, h, hfirst, hf, hh, -⟩ := boundaryWords_at ps (Nat.le_of_lt hlast)
  obtain ⟨f', h', hnext, hf', hh', -⟩ := boundaryWords_at ps hlast
  have hmem : ((offsets (blockCount payload.length)).off3, (boundaryWords ps).flatMap wordBytes) ∈
      headerPieces .stored payload.length (blockCount payload.length) (storedAll ps).length
        ((boundaryWords ps).flatMap wordBytes) (ps.flatMap fun p => (sha3 p.1).1) signatures
        (fileDigest sha3 blockLen encodeParam (param10 .stored) payload.length shuffleTable
          ((boundaryWords ps).flatMap wordBytes) (ps.flatMap fun p => (sha3 p.1).1)).1 :=
    mem_section (by simp only [List.mem_cons, true_or, or_true])
  obtain ⟨ha, hb⟩ := leField_boundary hall hmem hfirst
  obtain ⟨ha', hb'⟩ := leField_boundary hall hmem hnext
  have hsplit := storedAll_take_succ hp
  have htake : ps.take (2 ^ 26 - 1 + 1) = ps := List.take_of_length_le (by omega)
  have hblock : ps[2 ^ 26 - 1].1 ∈ payloadBlocks payload :=
    blocks_piecesOf ▸ List.mem_map_of_mem (List.getElem_mem hlast)
  have hne := List.length_pos_iff.2 (payloadBlocks_ne_nil (List.length_pos_iff.1 (by omega)) _ hblock)
  have hle : ps[2 ^ 26 - 1].1.length ≤ blockLen := by
    obtain ⟨i, -, hi⟩ := List.mem_map.1 hblock
    rw [← hi]
    exact List.length_take_le _ _
  rw [htake, hstored, stored_piecesOf _ (List.getElem_mem hlast)] at hsplit
  have hsum := congrArg List.length hsplit
  rw [List.length_append, hlen] at hsum
  rw [show blockLen = 2 ^ 18 from rfl] at hle
  have hword : low44 ((storedAll (ps.take (2 ^ 26 - 1))).length ||| f <<< 48) =
      (storedAll (ps.take (2 ^ 26 - 1))).length := by
    rw [low44_first (by omega), Nat.mod_eq_of_lt (by omega)]
  have htotal : low44 ((storedAll (ps.take (2 ^ 26 - 1 + 1))).length ||| f' <<< 48) = 0 := by
    rw [htake, hstored, hlen, low44_first (by decide), Nat.mod_self]
  rw [Nat.mod_eq_of_lt (by rw [or_shift (n := 48) (by omega)]; omega)] at ha
  rw [Nat.mod_eq_of_lt (by rw [htake, hstored, hlen, or_shift (n := 48) (by decide)]; omega)] at ha'
  unfold readBlock at hr
  rw [ha, ok_bind, hb, ok_bind, ha', ok_bind, hb', ok_bind, hword, htotal, sub, if_neg (by omega)] at hr
  cases hr

/-- PFSC containers round trip below the `2 ^ 44` bytes that an offset of the boundary table can name; the
only block of an empty payload comes back with a first chunk of one byte, and every other one as it was
reported. -/
theorem parse_write (hz : Zlib deflate readExact) (hlen : payload.length < 2 ^ 44) (codec : Codec) :
    RoundTrips sha3 deflate readExact BlockInfo.entry payload codec ∧
      (payload ≠ [] → RoundTrips sha3 deflate readExact BlockInfo.geometry payload codec) := by
  have h : RoundTrips sha3 deflate readExact BlockInfo.entry payload codec := roundTrips_entry hz hlen codec
  refine ⟨h, fun hne => ?_⟩
  obtain ⟨w, c, hw, hc, hdigest, hsize, hblocks, hrest⟩ := h
  refine ⟨w, c, hw, hc, hdigest, hsize, ?_, hrest⟩
  rw [hblocks, blocks_of_write hz hw, map_entry hz hne]

end Main


theorem parse_write_zeros :
    RoundTrips sampleDigest sampleDeflate sampleInflate BlockInfo.entry (List.replicate 64 0) .zlib ∧
      RoundTrips sampleDigest sampleDeflate sampleInflate BlockInfo.geometry (List.replicate 64 0) .zlib :=
  have h := @parse_write sampleDigest sampleDeflate sampleInflate (List.replicate 64 0) zlib_sample (by decide) .zlib
  ⟨h.1, h.2 (List.cons_ne_nil _ _)⟩

/-- An empty payload, and one as long as an offset has room. -/
theorem not_roundTrips_geometry :
    ¬ RoundTrips sampleDigest sampleDeflate sampleInflate BlockInfo.geometry [] .stored ∧
      ¬ RoundTrips sampleDigest sampleDeflate sampleInflate BlockInfo.geometry
        (List.replicate (2 ^ 44) 0) .stored :=
  ⟨not_geometry_nil zlib_sample, not_parse_long zlib_sample List.length_replicate⟩

end Ps5Upload.Pfsc
