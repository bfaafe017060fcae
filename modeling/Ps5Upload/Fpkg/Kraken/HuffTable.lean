import Mathlib.Data.List.TakeWhile
import Ps5Upload.Fpkg.Kraken.BitWriter
import Ps5Upload.Fpkg.Kraken.HuffCanonical

/-!
# Kraken: the table of code lengths

`table` of `ps5upload-fpkg/src/kraken/huff.rs` writes the lengths of a code as runs of unused and used symbols,
every length as its distance from a running average, and the decoder reads them back.

* `huffman_codes` — the lengths, the table and the codes together.
-/

namespace Ps5Upload.Kraken

open ByteFile Bits Checked

namespace Huff

/-! ## Writing -/

/-- `put_gamma` -/
def putGamma (w : BitWriter) (run : Nat) : Res BitWriter := do
  let v := run + 1
  let b ← sub 32 (leadingZeros 32 v)
  let zeros ← sub b 2
  return (w.put 0 zeros).put v b

/-- A length's distance from the average, its sign in the lowest bit. -/
def zigzag (delta : Int) : Nat := if 0 ≤ delta then (2 * delta).toNat else (-2 * delta - 1).toNat

/-- The average before a length, rounded. -/
def expected (avg : Int) : Int := (avg + 2) / 4

/-- The average behind a length. -/
def nextAvg (avg : Int) (l : Nat) : Int := l + (3 * avg + 2) / 4

/-- The lengths of a run; none where a distance has too many zeros in front. -/
def putLens (fb limit : Nat) : List Nat → Int → BitWriter → Option (Int × BitWriter)
  | [], avg, w => some (avg, w)
  | l :: ls, avg, w =>
    let v := zigzag (l - expected avg)
    let lz := v >>> fb
    if limit < lz then none
    else putLens fb limit ls (nextAvg avg l) (((w.put 0 lz).put 1 1).put (v &&& (2 ^ fb - 1)) fb)

/-- The symbols from `sym` on that have no length. -/
def unusedFrom (lens : List Nat) (sym : Nat) : Nat := ((lens.drop sym).takeWhile (· = 0)).length

/-- The lengths from `sym` on, as far as there are any. -/
def usedFrom (lens : List Nat) (sym : Nat) : List Nat := (lens.drop sym).takeWhile (· ≠ 0)

/-- A run of unused symbols; it is left out at first when the first symbol is used. -/
def putUnused (lens : List Nat) (skip : Bool) (sym : Nat) (w : BitWriter) : Res (Nat × BitWriter) :=
  if skip then return (sym, w)
  else do
    let w ← putGamma w (unusedFrom lens sym)
    return (sym + unusedFrom lens sym, w)

/-- The loop of `table`; `skip` in its first turn only. -/
def tableLoop (lens : List Nat) (fb limit : Nat) : Nat → Bool → Nat → Int → BitWriter → Res (Option BitWriter)
  | 0, _, _, _, _ => panic
  | turns + 1, skip, sym, avg, w => do
    let (sym, w) ← putUnused lens skip sym w
    if 256 ≤ sym then return some w
    else do
      let run := usedFrom lens sym
      let w ← putGamma w run.length
      match putLens fb limit run avg w with
      | none => return none
      | some (avg, w) =>
        if sym + run.length = 256 then return some w
        else tableLoop lens fb limit turns false (sym + run.length) avg w

/-- `table` -/
def table (lens : List Nat) (fb : Nat) : Res (Option Bytes) := do
  let first ← index lens 0
  let w := ((({} : BitWriter).put 0 1).put 1 1).put fb 2
  let w := w.put (if first ≠ 0 then 1 else 0) 1
  let limit ← shr 32 20 fb
  let done ← tableLoop lens fb limit 257 (first ≠ 0) 0 32 w
  return done.map BitWriter.finish

/-! ## Runs -/

/-- The bits of a run's length. -/
def gammaBits (run : Nat) : List Bool := msb (run + 1) (2 * (run + 1).log2)

theorem putGamma_spec {w : BitWriter} {bs : List Bool} (h : Wrote w bs) {run : Nat} (hrun : 1 ≤ run)
    (hle : run ≤ 256) : ∃ w', putGamma w run = .ok w' ∧ Wrote w' (bs ++ gammaBits run) := by
  have hne : run + 1 ≠ 0 := by omega
  have hlog : (run + 1).log2 < 9 := (Nat.log2_lt hne).2 (by omega)
  have hpos : 1 ≤ (run + 1).log2 := (Nat.le_log2 hne).2 (by omega)
  have hlt : run + 1 < 2 ^ ((run + 1).log2 + 1) := Nat.lt_log2_self
  have hlz : leadingZeros 32 (run + 1) = 31 - (run + 1).log2 := by
    rw [leadingZeros, if_neg hne]
  have hbits : gammaBits run = msb 0 ((run + 1).log2 - 1) ++ msb (run + 1) ((run + 1).log2 + 1) := by
    rw [gammaBits, ← msb_wide hlt]
    congr 1
    omega
  have hb : 32 - (31 - (run + 1).log2) = (run + 1).log2 + 1 := by omega
  have hz : (run + 1).log2 + 1 - 2 = (run + 1).log2 - 1 := by omega
  refine ⟨(w.put 0 ((run + 1).log2 - 1)).put (run + 1) ((run + 1).log2 + 1), ?_, ?_⟩
  · rw [putGamma, hlz, sub_eq (by omega), ok_bind, hb, sub_eq (by omega), ok_bind, hz]
    rfl
  · rw [hbits, ← List.append_assoc]
    exact put_wrote (put_wrote h (by omega) 0) (by omega) (run + 1)

variable {t : Stretch} {c : Nat} {r : BitReader}

/-- **A run's length is read as it was written.** -/
theorem getGamma_read (h : Reads t c r) (hb : t.back = false) {run : Nat} (hrun : 1 ≤ run) (hle : run ≤ 256)
    (hbits : Spells t.bit c (gammaBits run)) :
    ∃ r', getGamma r = .ok (run, r') ∧ Reads t (c + (gammaBits run).length) r' := by
  have hne : run + 1 ≠ 0 := by omega
  have hlog : (run + 1).log2 < 9 := (Nat.log2_lt hne).2 (by omega)
  have hpos : 1 ≤ (run + 1).log2 := (Nat.le_log2 hne).2 (by omega)
  have hlow := Nat.log2_self_le hne
  have hlt : run + 1 < 2 ^ ((run + 1).log2 + 1) := Nat.lt_log2_self
  generalize hk : (run + 1).log2 = k at *
  have hbits' : gammaBits run = msb (run + 1) (2 * k) := by rw [gammaBits, hk]
  rw [hbits'] at hbits ⊢
  have hval : msbNum t.bit c (2 * k) = run + 1 :=
    spells_msb hbits (Nat.lt_of_lt_of_le hlt (Nat.pow_le_pow_right (by decide) (by omega)))
  have hbit : ∀ j < 2 * k, t.bit (c + j) = (run + 1).testBit (2 * k - 1 - j) := fun j hj => by
    rw [hbits j (by rw [length_msb]; exact hj), getD_msb hj]
  have hone : t.bit (c + (k - 1)) = true := by
    rw [hbit _ (by omega), show 2 * k - 1 - (k - 1) = k by omega]
    exact Nat.testBit_of_two_pow_le_and_two_pow_add_one_gt hlow hlt
  have hzero : ∀ j < k - 1, t.bit (c + j) = false := fun j hj => by
    rw [hbit _ (by omega)]
    exact Nat.testBit_lt_two_pow (Nat.lt_of_lt_of_le hlt (Nat.pow_le_pow_right (by decide) (by omega)))
  obtain ⟨r', hr', -, h'⟩ := getGamma_eq h hb (by omega) hone hzero
  have hk' : 2 * (k - 1 + 1) = 2 * k := by omega
  rw [hk', hval] at hr'
  rw [hk'] at h'
  refine ⟨r', hr', ?_⟩
  rw [length_msb]
  exact h'

/-! ## Lengths -/

theorem unzigzag_zigzag (d : Int) : unzigzag (zigzag d) = d := by
  rw [zigzag, unzigzag]
  split
  · rw [if_pos (by omega)]
    omega
  · rw [if_neg (by omega)]
    omega

/-- The bits of a length behind an average. -/
def lenBits (fb v : Nat) : List Bool := msb 0 (v >>> fb) ++ (msb 1 1 ++ msb (v &&& (2 ^ fb - 1)) fb)

/-- The symbols of a length below `n`. -/
def symbolsTo (lens : List Nat) (n l : Nat) : Bytes :=
  if l = 0 then [] else ((List.range n).filter fun s => lens[s]? = some l).map UInt8.ofNat

/-- The decoder's lists when it has read `n` symbols. -/
def listsTo (lens : List Nat) (n : Nat) : List Bytes := (List.range (maxLen + 1)).map (symbolsTo lens n)

theorem listsTo_all (lens : List Nat) : listsTo lens 256 = symbolsByLen lens := by
  rw [listsTo, List.range_succ_eq_map, List.map_cons, symbolsByLen]
  refine congrArg (symbolsTo lens 256 0 :: ·) ?_
  rw [List.range'_eq_map_range, List.map_map, List.map_map]
  refine List.map_congr_left fun l _ => ?_
  rw [Function.comp_apply, Function.comp_apply, symbolsTo, if_neg (Nat.succ_ne_zero l), symbolsOf, Nat.add_comm 1 l]

theorem listsTo_zero (lens : List Nat) : listsTo lens 0 = List.replicate (maxLen + 1) [] := by
  have hnone : ∀ l, symbolsTo lens 0 l = [] := fun l => by
    rw [symbolsTo]
    split <;> rfl
  rw [listsTo, List.map_congr_left fun l _ => hnone l, List.map_const', List.length_range]

variable {lens : List Nat} {n l : Nat}

theorem symbolsTo_succ (h : lens[n]? = some l) (m : Nat) :
    symbolsTo lens (n + 1) m = if m ≠ 0 ∧ m = l then symbolsTo lens n m ++ [UInt8.ofNat n] else symbolsTo lens n m := by
  rw [symbolsTo, symbolsTo]
  by_cases hz : m = 0
  · rw [if_pos hz, if_pos hz, if_neg (fun h => h.1 hz)]
  · rw [if_neg hz, if_neg hz, List.range_succ, List.filter_append, List.map_append, List.filter_cons, h]
    by_cases hm : m = l
    · subst hm
      rw [if_pos (decide_eq_true rfl), if_pos ⟨hz, rfl⟩]
      rfl
    · have hne : ¬some l = some m := fun heq => hm (Option.some.inj heq).symm
      rw [if_neg (by simpa using fun heq : l = m => hm heq.symm), if_neg (fun h => hm h.2)]
      exact List.append_nil _

/-- An unused symbol is in no list. -/
theorem listsTo_unused (h : lens[n]? = some 0) : listsTo lens (n + 1) = listsTo lens n :=
  List.map_congr_left fun m _ => by rw [symbolsTo_succ h, if_neg (fun h => h.1 h.2)]

theorem listsTo_unused_run : ∀ z : Nat, (∀ i < z, lens[n + i]? = some 0) → listsTo lens (n + z) = listsTo lens n
  | 0, _ => rfl
  | z + 1, h => by
    rw [← Nat.add_assoc, listsTo_unused (h z (Nat.lt_succ_self z))]
    exact listsTo_unused_run z fun i hi => h i (Nat.lt_succ_of_lt hi)

theorem length_listsTo (lens : List Nat) (n : Nat) : (listsTo lens n).length = maxLen + 1 := by
  rw [listsTo, List.length_map, List.length_range]

theorem getElem?_listsTo (lens : List Nat) (n : Nat) {m : Nat} (hm : m ≤ maxLen) :
    (listsTo lens n)[m]? = some (symbolsTo lens n m) := by
  rw [listsTo, List.getElem?_map, List.getElem?_range (Nat.lt_succ_of_le hm)]
  rfl

/-- A used symbol goes to the end of its list. -/
theorem pushSymbol_listsTo (h : lens[n]? = some l) (hl : 1 ≤ l ∧ l ≤ maxLen) :
    pushSymbol (listsTo lens n) l (UInt8.ofNat n) = .ok (listsTo lens (n + 1)) := by
  have hlen := length_listsTo lens n
  have hlen' := length_listsTo lens (n + 1)
  rw [pushSymbol, index_eq (getElem?_listsTo lens n hl.2), ok_bind, store_eq (by omega)]
  refine congrArg Except.ok (List.ext_getElem? fun m => ?_)
  by_cases hm : m ≤ maxLen
  · rw [getElem?_listsTo lens (n + 1) hm, symbolsTo_succ h]
    by_cases hml : m = l
    · subst hml
      rw [List.getElem?_set_self (by omega), if_pos ⟨by omega, rfl⟩]
    · rw [List.getElem?_set_ne (Ne.symm hml), getElem?_listsTo lens n hm, if_neg (fun h => hml h.2)]
  · rw [List.getElem?_eq_none (by rw [List.length_set]; omega), List.getElem?_eq_none (by omega)]

/-! ## In step -/

/-- How far a table is: the next symbol, the symbols used so far and the running average. -/
structure Place where
  sym : Nat
  count : Nat
  avg : Int

/-- A decoder that has read the lengths of the symbols below `p.sym`. -/
structure At (t : Stretch) (lens : List Nat) (c : Nat) (p : Place) (tb : Table) : Prop where
  reads : Reads t c tb.r
  sym_eq : tb.sym = p.sym
  avg_eq : tb.avg = p.avg
  count_eq : tb.count = p.count
  byLen_eq : tb.byLen = listsTo lens p.sym

/-- Reading the bits `more` takes a decoder from `p` to `q`. -/
def InStep (lens : List Nat) (more : List Bool) (p q : Place) (read : Table → Res Table) : Prop :=
  ∀ ⦃t : Stretch⦄ ⦃c : Nat⦄ ⦃tb : Table⦄, t.back = false → Spells t.bit c more → At t lens c p tb →
    ∃ tb', read tb = .ok tb' ∧ At t lens (c + more.length) q tb'

theorem InStep.trans {more more' : List Bool} {p q q' : Place} {read read' : Table → Res Table}
    (h : InStep lens more p q read) (h' : InStep lens more' q q' read') :
    InStep lens (more ++ more') p q' (fun tb => read tb >>= read') := by
  intro t c tb hb hbits hat
  obtain ⟨hfirst, hrest⟩ := spells_append.1 hbits
  obtain ⟨tb₁, hrun₁, h₁⟩ := h hb hfirst hat
  obtain ⟨tb₂, hrun₂, h₂⟩ := h' hb hrest h₁
  refine ⟨tb₂, ?_, ?_⟩
  · dsimp only
    rw [hrun₁, ok_bind, hrun₂]
  · rw [List.length_append, ← Nat.add_assoc]
    exact h₂

/-- **A length is read as it was written.** -/
theorem readLen_read {fb sym count : Nat} {avg : Int} (hfb : fb < 4) (hl : 1 ≤ l ∧ l ≤ maxLen)
    (hsym : lens[sym]? = some l) (hlimit : zigzag (l - expected avg) >>> fb ≤ 20 >>> fb) :
    InStep lens (lenBits fb (zigzag (l - expected avg))) ⟨sym, count, avg⟩ ⟨sym + 1, count, nextAvg avg l⟩
      (readLen fb (20 >>> fb)) := by
  intro t c tb hb hbits h
  have hdelta := unzigzag_zigzag (l - expected avg)
  generalize zigzag (l - expected avg) = v at *
  have hle : 20 >>> fb ≤ 20 := by
    rw [Nat.shiftRight_eq_div_pow]
    exact Nat.div_le_self ..
  have hlow : v &&& (2 ^ fb - 1) = v % 2 ^ fb := Nat.and_two_pow_sub_one_eq_mod v fb
  have hlowlt : v % 2 ^ fb < 2 ^ fb := Nat.mod_lt _ (Nat.two_pow_pos fb)
  rw [lenBits, hlow] at hbits ⊢
  generalize hlz : v >>> fb = lz at *
  have hwide : msb 0 lz ++ msb 1 1 = msb 1 (lz + 1) := (msb_wide (by decide) lz).symm
  have hzeros := zeros_one h.reads (by omega) hbits
  rw [← List.append_assoc, hwide] at hbits ⊢
  obtain ⟨hone, hlowbits⟩ := spells_append.1 hbits
  rw [length_msb] at hlowbits
  have hpow : 1 < 2 ^ (lz + 1) := Nat.one_lt_two_pow (Nat.succ_ne_zero lz)
  obtain ⟨r₁, hr₁, h₁⟩ := get_msb h.reads hb (by omega) hpow hone
  obtain ⟨r₂, hr₂, h₂⟩ := get_msb h₁ hb (by omega) hlowlt hlowbits
  have hhigh : (lz <<< fb) % 2 ^ 32 ||| v % 2 ^ fb = v := by
    have hsmall : lz < 2 ^ (32 - fb) :=
      Nat.lt_of_lt_of_le (show lz < 2 ^ 5 by omega) (Nat.pow_le_pow_right (by decide) (by omega))
    rw [shl_or hsmall (by omega) hlowlt, ← hlz, Nat.shiftRight_eq_div_pow]
    exact Nat.div_add_mod' v (2 ^ fb)
  have hval : unzigzag v + (tb.avg + 2) / 4 = l := by
    rw [hdelta, h.avg_eq, expected]
    dsimp only
    omega
  have hpush := pushSymbol_listsTo hsym hl
  refine ⟨{ tb with
    r := r₂, byLen := listsTo lens (sym + 1), avg := l + (3 * tb.avg + 2) / 4, sym := tb.sym + 1 },
    ?_, ⟨?_, ?_, ?_, ?_, ?_⟩⟩
  · rw [readLen, hzeros, if_neg (by omega), hr₁, ok_bind]
    dsimp only
    rw [shl_eq (by omega), ok_bind, hr₂, ok_bind]
    dsimp only
    rw [hhigh, hval, if_neg (by omega), h.byLen_eq, h.sym_eq, Int.toNat_natCast, hpush, ok_bind]
    rfl
  · rw [List.length_append, length_msb, length_msb, ← Nat.add_assoc]
    exact h₂
  · exact congrArg (· + 1) h.sym_eq
  · dsimp only
    rw [h.avg_eq, nextAvg]
  · exact h.count_eq
  · rfl

/-- **Encoder and decoder stay in step over a run of lengths.** -/
theorem putLens_spec {fb : Nat} (hfb : fb < 4) (count : Nat) : ∀ (ls : List Nat) {sym : Nat} {avg avg' : Int}
    {w w' : BitWriter} {bs : List Bool}, (∀ l ∈ ls, 1 ≤ l ∧ l ≤ maxLen) →
    (∀ i, i < ls.length → lens[sym + i]? = ls[i]?) → Wrote w bs →
    putLens fb (20 >>> fb) ls avg w = some (avg', w') →
    ∃ more, Wrote w' (bs ++ more) ∧
      InStep lens more ⟨sym, count, avg⟩ ⟨sym + ls.length, count, avg'⟩ (readRun fb (20 >>> fb) ls.length) := by
  intro ls
  induction ls with
  | nil =>
    intro sym avg avg' w w' bs _ _ hw h
    cases h
    exact ⟨[], by rw [List.append_nil]; exact hw, fun _ _ _ _ _ hat => ⟨_, rfl, hat⟩⟩
  | cons l ls ih =>
    intro sym avg avg' w w' bs hls hlens hw h
    rw [putLens] at h
    split at h
    · cases h
    · rename_i hlimit
      have hle : 20 >>> fb ≤ 20 := by
        rw [Nat.shiftRight_eq_div_pow]
        exact Nat.div_le_self ..
      have hput : Wrote (((w.put 0 (zigzag (l - expected avg) >>> fb)).put 1 1).put
          (zigzag (l - expected avg) &&& (2 ^ fb - 1)) fb) (bs ++ lenBits fb (zigzag (l - expected avg))) := by
        rw [lenBits, ← List.append_assoc, ← List.append_assoc]
        exact put_wrote (put_wrote (put_wrote hw (by omega) 0) (by decide) 1) (by omega) _
      have hget : lens[sym]? = some l := hlens 0 (Nat.zero_lt_succ _)
      have htail : ∀ i, i < ls.length → lens[sym + 1 + i]? = ls[i]? := fun i hi => by
        have hnext := hlens (i + 1) (Nat.succ_lt_succ hi)
        rw [List.getElem?_cons_succ] at hnext
        rw [Nat.add_assoc, Nat.add_comm 1 i, hnext]
      obtain ⟨more, hmore, hread⟩ := ih (fun m hm => hls m (List.mem_cons_of_mem l hm)) htail hput h
      have hfirst : InStep lens (lenBits fb (zigzag (l - expected avg))) ⟨sym, count, avg⟩
          ⟨sym + 1, count, nextAvg avg l⟩ (readLen fb (20 >>> fb)) :=
        readLen_read hfb (hls l List.mem_cons_self) hget (Nat.le_of_not_lt hlimit)
      refine ⟨lenBits fb (zigzag (l - expected avg)) ++ more, ?_, ?_⟩
      · rw [← List.append_assoc]
        exact hmore
      · have hboth := hfirst.trans hread
        rw [Nat.add_assoc, Nat.add_comm 1 ls.length] at hboth
        exact hboth

/-! ## Runs of symbols -/

section Run

variable (p : Nat → Bool) (lens : List Nat) (sym : Nat)

theorem take_run : lens.take (sym + ((lens.drop sym).takeWhile p).length) =
    lens.take sym ++ (lens.drop sym).takeWhile p := by
  rw [List.take_add, ← List.prefix_iff_eq_take.1 (List.takeWhile_prefix p)]

theorem getElem?_run {i : Nat} (hi : i < ((lens.drop sym).takeWhile p).length) :
    lens[sym + i]? = ((lens.drop sym).takeWhile p)[i]? := by
  rw [← List.getElem?_drop, List.getElem?_eq_getElem hi]
  exact List.prefix_iff_getElem?.1 (List.takeWhile_prefix p) i hi

theorem run_stops : ∀ {l : List Nat} {x : Nat}, l[(l.takeWhile p).length]? = some x → p x = false
  | [], _, h => by cases h
  | y :: l, x, h => by
    rw [List.takeWhile_cons] at h
    cases hy : p y with
    | true =>
      rw [hy] at h
      exact run_stops h
    | false =>
      rw [hy] at h
      cases h
      exact hy

variable {lens sym}

theorem length_run (h : sym ≤ lens.length) : sym + ((lens.drop sym).takeWhile p).length ≤ lens.length := by
  have hle := (List.takeWhile_prefix (l := lens.drop sym) p).length_le
  rw [List.length_drop] at hle
  omega

end Run

theorem all_unused (lens : List Nat) (sym : Nat) : used ((lens.drop sym).takeWhile (· = 0)) = [] := by
  rw [used, List.filter_eq_nil_iff]
  intro x hx
  have hzero := List.mem_takeWhile_imp hx
  simp only [decide_eq_true_eq] at hzero ⊢
  omega

theorem all_used (lens : List Nat) (sym : Nat) : used (usedFrom lens sym) = usedFrom lens sym := by
  rw [used, List.filter_eq_self]
  intro x hx
  have hne := List.mem_takeWhile_imp hx
  simp only [ne_eq, decide_eq_true_eq] at hne ⊢
  omega

/-- **Encoder and decoder stay in step over a run of unused symbols**, which ends at a used one. -/
theorem putUnused_spec {skip : Bool} {sym : Nat} {w : BitWriter} {bs : List Bool} (hlen : lens.length = 256)
    (hget : lens[sym]? = some l) (hskip : skip = decide (l ≠ 0)) (hw : Wrote w bs) :
    ∃ sym' w' more, putUnused lens skip sym w = .ok (sym', w') ∧ sym ≤ sym' ∧ sym' ≤ 256 ∧
      (∀ x, lens[sym']? = some x → x ≠ 0) ∧ used (lens.take sym') = used (lens.take sym) ∧ Wrote w' (bs ++ more) ∧
      ∀ count avg, InStep lens more ⟨sym, count, avg⟩ ⟨sym', count, avg⟩ (readUnused skip) := by
  have hsym : sym < 256 := by
    rw [← hlen]
    exact (List.getElem?_eq_some_iff.1 hget).1
  cases skip with
  | true =>
    refine ⟨sym, w, [], rfl, Nat.le_refl _, Nat.le_of_lt hsym, fun x hx => ?_, rfl, ?_, fun count avg => ?_⟩
    · rw [hget] at hx
      cases hx
      exact of_decide_eq_true hskip.symm
    · rw [List.append_nil]
      exact hw
    · exact fun t c tb _ _ hat => ⟨tb, rfl, hat⟩
  | false =>
    have hzero : l = 0 := by simpa using hskip
    subst hzero
    have hend := length_run (· = 0) (show sym ≤ lens.length by omega)
    have htake := take_run (· = 0) lens sym
    have hpos : 1 ≤ ((lens.drop sym).takeWhile (· = 0)).length := by
      obtain ⟨hlt, h0⟩ := List.getElem?_eq_some_iff.1 hget
      rw [List.drop_eq_getElem_cons hlt, h0, List.takeWhile_cons, if_pos (by decide)]
      exact Nat.succ_pos _
    have hzeros : ∀ i < unusedFrom lens sym, lens[sym + i]? = some 0 := fun i hi => by
      rw [getElem?_run (· = 0) lens sym hi, List.getElem?_eq_getElem hi]
      have := List.mem_takeWhile_imp (List.getElem_mem hi)
      simpa using this
    obtain ⟨w', hput, hw'⟩ := putGamma_spec hw hpos (by omega)
    refine ⟨sym + unusedFrom lens sym, w', gammaBits (unusedFrom lens sym), ?_, Nat.le_add_right _ _, ?_,
      fun x hx => ?_, ?_, hw', fun count avg t c tb hb hbits hat => ?_⟩
    · rw [putUnused, if_neg (by decide), unusedFrom, hput, ok_bind]
      rfl
    · rw [unusedFrom]
      omega
    · rw [← List.getElem?_drop] at hx
      simpa using run_stops (· = 0) hx
    · rw [unusedFrom, htake, used, used, List.filter_append]
      have := all_unused lens sym
      rw [used] at this
      rw [this, List.append_nil]
    · obtain ⟨r', hread, h'⟩ := getGamma_read hat.reads hb hpos (by omega) hbits
      refine ⟨{ tb with r := r', sym := tb.sym + unusedFrom lens sym }, ?_, ⟨h', ?_, hat.avg_eq, hat.count_eq, ?_⟩⟩
      · rw [readUnused, if_neg (by decide), hread, ok_bind]
        rfl
      · exact congrArg (· + unusedFrom lens sym) hat.sym_eq
      · exact hat.byLen_eq.trans (listsTo_unused_run _ hzeros).symm

/-! ## The whole table -/

section Turn

variable {fb limit sym sym' n dturns count : Nat} {avg avg' : Int} {skip : Bool} {as bs cs : List Bool} {q : Place}

/-- The decoder stops where the symbols end. -/
theorem readRuns_end : InStep lens [] ⟨256, count, avg⟩ ⟨256, count, avg⟩ (readRuns fb limit dturns false) := by
  intro t c tb _ _ hat
  refine ⟨tb, ?_, hat⟩
  rw [readRuns.eq_def]
  exact if_pos hat.sym_eq

/-- The last run is one of unused symbols. -/
theorem readRuns_last (hsym : sym < 256)
    (h : InStep lens as ⟨sym, count, avg⟩ ⟨256, count, avg⟩ (readUnused skip)) :
    InStep lens as ⟨sym, count, avg⟩ ⟨256, count, avg⟩ (readRuns fb limit (dturns + 1) skip) := by
  intro t c tb hb hbits hat
  have hne : tb.sym ≠ 256 := by
    rw [hat.sym_eq]
    exact Nat.ne_of_lt hsym
  obtain ⟨tb', hread, h'⟩ := h hb hbits hat
  refine ⟨tb', ?_, h'⟩
  rw [readRuns, if_neg hne]
  dsimp only
  rw [hread, ok_bind, if_pos (Nat.le_of_eq h'.sym_eq.symm)]
  rfl

/-- A run of unused symbols, one of used symbols and what follows. -/
theorem readRuns_turn (hsym : sym < 256) (hn : 1 ≤ n) (hend : sym' + n ≤ 256)
    (hunused : InStep lens as ⟨sym, count, avg⟩ ⟨sym', count, avg⟩ (readUnused skip))
    (hrun : InStep lens bs ⟨sym', count + n, avg⟩ ⟨sym' + n, count + n, avg'⟩ (readRun fb limit n))
    (hrest : InStep lens cs ⟨sym' + n, count + n, avg'⟩ q (readRuns fb limit dturns false)) :
    InStep lens (as ++ (gammaBits n ++ (bs ++ cs))) ⟨sym, count, avg⟩ q (readRuns fb limit (dturns + 1) skip) := by
  intro t c tb hb hbits hat
  obtain ⟨has, hbits⟩ := spells_append.1 hbits
  obtain ⟨hgamma, hbits⟩ := spells_append.1 hbits
  have hne : tb.sym ≠ 256 := by
    rw [hat.sym_eq]
    exact Nat.ne_of_lt hsym
  obtain ⟨tb₁, hread₁, h₁⟩ := hunused hb has hat
  have hsym₁ : tb₁.sym = sym' := h₁.sym_eq
  obtain ⟨r₂, hread₂, h₂⟩ := getGamma_read h₁.reads hb hn (by omega) hgamma
  have hat₂ : At t lens (c + as.length + (gammaBits n).length) ⟨sym', count + n, avg⟩
      { tb₁ with r := r₂, count := tb₁.count + n } :=
    ⟨h₂, h₁.sym_eq, h₁.avg_eq, congrArg (· + n) h₁.count_eq, h₁.byLen_eq⟩
  obtain ⟨tb', hread', h'⟩ := (hrun.trans hrest) hb hbits hat₂
  refine ⟨tb', ?_, ?_⟩
  · rw [readRuns, if_neg hne]
    dsimp only
    rw [hread₁, ok_bind, if_neg (by omega), hread₂, ok_bind]
    dsimp only
    rw [if_neg (by omega)]
    exact hread'
  · rw [List.length_append, List.length_append, ← Nat.add_assoc, ← Nat.add_assoc]
    exact h'

end Turn

/-- **Encoder and decoder stay in step over the table**, from a symbol where a turn of the loop begins. -/
theorem tableLoop_spec (code : Lengths) {fb : Nat} (hfb : fb < 4) : ∀ (turns : Nat) (avg : Int) {skip : Bool}
    {sym l : Nat} {w : BitWriter} {bs : List Bool}, code.lens[sym]? = some l → skip = decide (l ≠ 0) →
    256 ≤ turns + sym → Wrote w bs →
    ∃ o, tableLoop code.lens fb (20 >>> fb) turns skip sym avg w = .ok o ∧ ∀ w', o = some w' →
      ∃ more avg', Wrote w' (bs ++ more) ∧ ∀ dturns, 256 ≤ dturns + sym →
        InStep code.lens more ⟨sym, (used (code.lens.take sym)).length, avg⟩ ⟨256, (used code.lens).length, avg'⟩
          (readRuns fb (20 >>> fb) dturns skip) := by
  have hlength := code.length_eq
  have hall : code.lens.take 256 = code.lens := List.take_of_length_le (Nat.le_of_eq hlength)
  intro turns
  induction turns with
  | zero =>
    intro avg skip sym l w bs hget _ hturns _
    have hlt := (List.getElem?_eq_some_iff.1 hget).1
    omega
  | succ turns ih =>
    intro avg skip sym l w bs hget hskip hturns hw
    have hsym : sym < 256 := by
      rw [← hlength]
      exact (List.getElem?_eq_some_iff.1 hget).1
    obtain ⟨sym', w₁, as, hput, hle, hle', hne, hused, hw₁, hunused⟩ := putUnused_spec hlength hget hskip hw
    rw [tableLoop, hput, ok_bind]
    dsimp only
    by_cases hlast : 256 ≤ sym'
    · have heq : sym' = 256 := Nat.le_antisymm hle' hlast
      subst heq
      rw [hall] at hused
      refine ⟨some w₁, by rw [if_pos (Nat.le_refl _)]; rfl, fun w' hw' => ?_⟩
      cases hw'
      refine ⟨as, avg, hw₁, fun dturns hd => ?_⟩
      obtain ⟨d, rfl⟩ : ∃ d, dturns = d + 1 := ⟨dturns - 1, by omega⟩
      rw [hused]
      exact readRuns_last hsym (hunused _ _)
    · have hlt : sym' < code.lens.length := by omega
      have hget' := List.getElem?_eq_getElem hlt
      have hne' := hne _ hget'
      have hend := length_run (· ≠ 0) (Nat.le_of_lt hlt)
      have htake := take_run (· ≠ 0) code.lens sym'
      have hrun : ∀ i < (usedFrom code.lens sym').length, code.lens[sym' + i]? = (usedFrom code.lens sym')[i]? :=
        fun i hi => getElem?_run (· ≠ 0) code.lens sym' hi
      have hstop : ∀ x, code.lens[sym' + (usedFrom code.lens sym').length]? = some x → x = 0 := fun x hx => by
        rw [← List.getElem?_drop] at hx
        simpa using run_stops (· ≠ 0) hx
      have hpos : 1 ≤ (usedFrom code.lens sym').length := by
        rw [usedFrom, List.drop_eq_getElem_cons hlt, List.takeWhile_cons, if_pos (decide_eq_true hne')]
        exact Nat.succ_pos _
      have hall_used := all_used code.lens sym'
      have hwide : ∀ x ∈ usedFrom code.lens sym', 1 ≤ x ∧ x ≤ maxLen := fun x hx => by
        have hx0 : x ≠ 0 := by simpa using List.mem_takeWhile_imp hx
        have hmem := List.mem_of_mem_drop ((List.takeWhile_prefix _).subset hx)
        exact ⟨Nat.pos_of_ne_zero hx0, code.le_maxLen x hmem⟩
      rw [← usedFrom] at hend htake
      generalize usedFrom code.lens sym' = run at *
      have hcount : (used (code.lens.take (sym' + run.length))).length =
          (used (code.lens.take sym)).length + run.length := by
        rw [htake, used, List.filter_append, List.length_append, ← used, ← used, hall_used, hused]
      obtain ⟨w₂, hgamma, hw₂⟩ := putGamma_spec hw₁ hpos (by omega)
      rw [if_neg hlast, hgamma, ok_bind]
      cases hlens : putLens fb (20 >>> fb) run avg w₂ with
      | none => exact ⟨none, rfl, fun w' hw' => by cases hw'⟩
      | some p =>
        obtain ⟨avg₂, w₃⟩ := p
        obtain ⟨more, hw₃, hread⟩ := putLens_spec hfb ((used (code.lens.take sym)).length + run.length) run hwide hrun
          hw₂ hlens
        dsimp only
        by_cases hdone : sym' + run.length = 256
        · refine ⟨some w₃, by rw [if_pos hdone]; rfl, fun w' hw' => ?_⟩
          cases hw'
          refine ⟨as ++ (gammaBits run.length ++ (more ++ [])), avg₂, ?_, fun dturns hd => ?_⟩
          · rw [List.append_nil, ← List.append_assoc, ← List.append_assoc]
            exact hw₃
          · obtain ⟨d, rfl⟩ : ∃ d, dturns = d + 1 := ⟨dturns - 1, by omega⟩
            rw [hdone, hall] at hcount
            refine readRuns_turn hsym hpos (Nat.le_of_eq hdone) (hunused _ _) hread ?_
            rw [hdone, hcount]
            exact readRuns_end
        · rw [if_neg hdone]
          have hlt₂ : sym' + run.length < code.lens.length := by omega
          have hget₂ := List.getElem?_eq_getElem hlt₂
          have hzero := hstop _ hget₂
          rw [hzero] at hget₂
          obtain ⟨o, hloop, ho⟩ := ih avg₂ hget₂ rfl (by omega) hw₃
          refine ⟨o, hloop, fun w' hw' => ?_⟩
          obtain ⟨rest, avg₃, hw₄, hrest⟩ := ho w' hw'
          refine ⟨as ++ (gammaBits run.length ++ (more ++ rest)), avg₃, ?_, fun dturns hd => ?_⟩
          · rw [← List.append_assoc, ← List.append_assoc, ← List.append_assoc]
            exact hw₄
          · obtain ⟨d, rfl⟩ : ∃ d, dturns = d + 1 := ⟨dturns - 1, by omega⟩
            have hafter := hrest d (by omega)
            rw [hcount] at hafter
            exact readRuns_turn hsym hpos (by omega) (hunused _ _) hread hafter

/-- A complete code has two symbols at least. -/
theorem two_used (code : Lengths) : 2 ≤ (used code.lens).length := by
  have hcomplete := code.complete
  have hpos : ∀ l ∈ used code.lens, 1 ≤ l := fun l hl =>
    of_decide_eq_true (List.mem_filter.1 hl).2
  rcases hused : used code.lens with _ | ⟨l, _ | ⟨l', ls⟩⟩
  · rw [hused] at hcomplete
    cases hcomplete
  · have hl := hpos l (by rw [hused]; exact List.mem_cons_self)
    have hle : 2 ^ (maxLen - l) ≤ 2 ^ 10 := Nat.pow_le_pow_right (by decide) (by rw [maxLen]; omega)
    rw [hused, List.map_cons, List.map_nil, List.sum_singleton] at hcomplete
    rw [hcomplete] at hle
    exact absurd hle (by decide)
  · exact Nat.le_add_left 2 ls.length

/-- The bits in front of the runs. -/
def headBits (fb first : Nat) : List Bool := msb 0 1 ++ (msb 1 1 ++ (msb fb 2 ++ msb first 1))

theorem headBits_wrote (fb first : Nat) :
    Wrote ((((({} : BitWriter).put 0 1).put 1 1).put fb 2).put first 1) (headBits fb first) := by
  have hform := put_wrote wrote_empty (show 1 ≤ 32 by decide) 0
  have hfull := put_wrote hform (show 1 ≤ 32 by decide) 1
  have hforced := put_wrote hfull (show 2 ≤ 32 by decide) fb
  have h := put_wrote hforced (show 1 ≤ 32 by decide) first
  rw [List.nil_append, List.append_assoc, List.append_assoc] at h
  exact h

/-- **A table the encoder writes is read back.** -/
theorem fullTable_read (code : Lengths) {fb first : Nat} (hfb : fb < 4) {more : List Bool} {avg : Int} {t : Stretch}
    (hb : t.back = false) (hfirst : first < 2) (hbits : Spells t.bit 0 (headBits fb first ++ more))
    (hruns : InStep code.lens more ⟨0, 0, 32⟩ ⟨256, (used code.lens).length, avg⟩
      (readRuns fb (20 >>> fb) 257 (first = 1))) :
    ∃ r r₁ r₂ tb, BitReader.new t.src t.start t.stop t.back = .ok r ∧ r.get 1 = .ok (0, r₁) ∧
      r₁.get 1 = .ok (1, r₂) ∧ fullTable r₂ = .ok tb ∧ tb.byLen = symbolsByLen code.lens ∧
      Reads t ((headBits fb first).length + more.length) tb.r := by
  obtain ⟨hhead, hrest⟩ := spells_append.1 hbits
  obtain ⟨h0, hhead⟩ := spells_append.1 hhead
  obtain ⟨h1, hhead⟩ := spells_append.1 hhead
  obtain ⟨h2, h3⟩ := spells_append.1 hhead
  obtain ⟨r, hnew, hr⟩ := new_spec t
  obtain ⟨r₁, hget₁, hr₁⟩ := get_msb hr hb (by decide) (by decide) h0
  obtain ⟨r₂, hget₂, hr₂⟩ := get_msb hr₁ hb (by decide) (by decide) h1
  obtain ⟨r₃, hget₃, hr₃⟩ := get_msb hr₂ hb (by decide) hfb h2
  obtain ⟨r₄, hget₄, hr₄⟩ := get_msb hr₃ hb (by decide) hfirst h3
  have hat : At t code.lens (0 + (headBits fb first).length) ⟨0, 0, 32⟩
      { r := r₄, byLen := List.replicate (maxLen + 1) [] } :=
    ⟨hr₄, rfl, rfl, rfl, (listsTo_zero code.lens).symm⟩
  obtain ⟨tb, hread, h'⟩ := hruns hb hrest hat
  have hcount := h'.count_eq
  have htwo := two_used code
  refine ⟨r, r₁, r₂, tb, hnew, hget₁, hget₂, ?_, ?_, ?_⟩
  · rw [fullTable, hget₃, ok_bind]
    dsimp only
    rw [shr_eq (by omega), ok_bind, hget₄, ok_bind]
    dsimp only
    rw [hread, ok_bind, if_neg]
    · rfl
    · rw [h'.sym_eq, hcount]
      dsimp only
      omega
  · rw [h'.byLen_eq, listsTo_all]
  · rw [Nat.zero_add] at h'
    exact h'.reads

/-- **The decoder reads the lengths of a table that was written**, whatever follows, and stops behind it. -/
theorem table_read (code : Lengths) {fb : Nat} (hfb : fb < 4) : ∃ o, table code.lens fb = .ok o ∧
    ∀ bytes, o = some bytes → ∀ rest n, ∃ tb, decode (bytes ++ rest) n = readStreams (bytes ++ rest) n tb ∧
      tb.byLen = symbolsByLen code.lens ∧ tb.r.seam = .ok bytes.length := by
  have hlt : 0 < code.lens.length := by
    rw [code.length_eq]
    decide
  have hget := List.getElem?_eq_getElem hlt
  have hhead := headBits_wrote fb (if code.lens[0] ≠ 0 then 1 else 0)
  obtain ⟨o, hloop, ho⟩ := tableLoop_spec code hfb 257 32 hget rfl (by decide) hhead
  refine ⟨o.map BitWriter.finish, ?_, fun bytes hbytes rest n => ?_⟩
  · rw [table, index_eq hget, ok_bind]
    dsimp only
    rw [shr_eq (by omega), ok_bind, hloop, ok_bind]
    rfl
  · obtain ⟨w', rfl, rfl⟩ := Option.map_eq_some_iff.1 hbytes
    obtain ⟨more, avg, hw, hruns⟩ := ho w' rfl
    obtain ⟨hlength, hfinish⟩ := finish_wrote hw
    have hruns' := hruns 257 (by decide)
    have hskip : decide (code.lens[0] ≠ 0) = decide ((if code.lens[0] ≠ 0 then 1 else 0) = 1) := by
      split <;> rename_i h <;> simp [h]
    rw [hskip] at hruns'
    generalize hfirst : (if code.lens[0] ≠ 0 then 1 else 0) = first at *
    have hfirst_lt : first < 2 := by
      rw [← hfirst]
      split <;> decide
    let t : Stretch := ⟨w'.finish ++ rest, 0, (w'.finish ++ rest).length, false, Nat.zero_le _, Nat.le_refl _⟩
    have hspells : Spells t.bit 0 (headBits fb first ++ more) := fun i hi => by
      rw [Nat.zero_add, ← hfinish i]
      have hin : i / 8 < w'.finish.length := by omega
      change msbBit ((w'.finish ++ rest).take (w'.finish ++ rest).length) i = msbBit w'.finish i
      rw [List.take_length, msbBit, msbBit, List.getD_append _ _ _ _ hin]
    obtain ⟨r, r₁, r₂, tb, hnew, hget₁, hget₂, htable, hlists, hreads⟩ :=
      fullTable_read code hfb (t := t) rfl hfirst_lt hspells hruns'
    refine ⟨tb, ?_, hlists, ?_⟩
    · have hnew' : BitReader.new (w'.finish ++ rest) 0 (w'.finish ++ rest).length false = .ok r := hnew
      rw [decode, hnew', ok_bind, hget₁, ok_bind]
      dsimp only
      rw [if_neg (by decide), hget₂, ok_bind]
      dsimp only
      rw [if_pos rfl, htable, ok_bind]
    · rw [seam_spec hreads, if_neg Bool.false_ne_true, hlength, List.length_append]
      refine congrArg Except.ok ?_
      change ((0 : Nat) : Int) + _ = _
      omega

/-- **Lengths, table and codes.**  Frequencies of two symbols or more give every symbol that has one a length of
1 to 11 and the others 0, and the code is complete.  For every such code the decoder reads the lengths of its table
back and maps to a symbol the code that `canonical` gives it, and no other. -/
theorem huffman_codes :
    (∀ f : List Nat, f.length = 256 → (∀ x ∈ f, x < 2 ^ 32) → 2 ≤ (used f).length →
      ∃ code : Lengths, codeLengths f = .ok code.lens ∧ List.Forall₂ Coded f code.lens ∧
        ((used code.lens).map fun l => 2 ^ (11 - l)).sum = 2048) ∧
    ∀ code : Lengths, ∃ codes lut, canonical code.lens = .ok codes ∧ buildLut (symbolsByLen code.lens) = .ok lut ∧
      (∀ s l, code.lens[s]? = some l → 1 ≤ l → ∃ c, codes[s]? = some (c, l) ∧
        ∀ j < 2048, lut[j]? = some (UInt8.ofNat s, l) ↔ j % 2 ^ l = c) ∧
      ∀ fb < 4, ∃ o, table code.lens fb = .ok o ∧ ∀ bytes, o = some bytes → ∀ rest n, ∃ tb,
        decode (bytes ++ rest) n = readStreams (bytes ++ rest) n tb ∧ tb.byLen = symbolsByLen code.lens ∧
        tb.r.seam = .ok bytes.length := by
  refine ⟨fun f hlen hsmall htwo => ?_, fun code => ?_⟩
  · obtain ⟨code, hrun, hcoded⟩ := codeLengths_complete hlen hsmall htwo
    exact ⟨code, hrun, hcoded, code.complete⟩
  · obtain ⟨codes, lut, hcanon, hbuild, hlut⟩ := lut_canonical code
    exact ⟨codes, lut, hcanon, hbuild, hlut, fun fb hfb => table_read code hfb⟩

/-- Two symbols: a bit for each, and a table of four bytes. -/
theorem huffman_codes_two :
    (∃ code : Lengths, codeLengths (3 :: 1 :: List.replicate 254 0) = .ok code.lens ∧
      List.Forall₂ Coded (3 :: 1 :: List.replicate 254 0) code.lens ∧
      ((used code.lens).map fun l => 2 ^ (11 - l)).sum = 2048) ∧
    ∀ rest n, ∃ tb, decode ([110, 41, 64, 255] ++ rest) n = readStreams ([110, 41, 64, 255] ++ rest) n tb ∧
      tb.byLen = symbolsByLen (1 :: 1 :: List.replicate 254 0) ∧ tb.r.seam = .ok (4 : Nat) := by
  refine ⟨huffman_codes.1 _ (by decide +kernel) (fun x hx => ?_) (by decide +kernel), ?_⟩
  · simp only [List.mem_cons, List.mem_replicate] at hx
    omega
  · have hle : ∀ l ∈ (1 :: 1 :: List.replicate 254 0 : List Nat), l ≤ maxLen := fun l hl => by
      simp only [List.mem_cons, List.mem_replicate] at hl
      rw [maxLen]
      omega
    obtain ⟨_, _, _, _, _, htable⟩ := huffman_codes.2
      { lens := 1 :: 1 :: List.replicate 254 0, length_eq := by decide +kernel, le_maxLen := hle, complete := by decide +kernel }
    obtain ⟨o, ho, hread⟩ := htable 2 (by decide)
    have hbytes : table (1 :: 1 :: List.replicate 254 0) 2 = .ok (some [110, 41, 64, 255]) := by decide +kernel
    rw [hbytes] at ho
    exact hread _ (Except.ok.inj ho).symm

end Huff
end Ps5Upload.Kraken
