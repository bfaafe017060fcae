import Ps5Upload.Fpkg.Kraken.HuffLengths
import Ps5Upload.Lib.Tiles

/-!
# Kraken: canonical Huffman codes

`canonical` of `ps5upload-fpkg/src/kraken/huff.rs` and the decoder's table of 2048 slots: both go through the
symbols by length, then by number, and give every one the next `2 ^ (11 - length)` slots.

* `canonical_spec`, `buildLut_spec` — what the encoder and the decoder make of them.
-/

namespace Ps5Upload.Kraken

open ByteFile Bits Checked

namespace Huff

/-! ## The order of the symbols -/

/-- The symbols of one length, in table order. -/
def symbolsOf (lens : List Nat) (l : Nat) : List Nat := (List.range 256).filter fun s => lens[s]? = some l

/-- Every symbol with its length, from length `l` on. -/
def entriesFrom (lens : List Nat) (l n : Nat) : List (Nat × Nat) :=
  (List.range' l n).flatMap fun l => (symbolsOf lens l).map fun s => (s, l)

def entries (lens : List Nat) : List (Nat × Nat) := entriesFrom lens 1 maxLen

/-- The slots of a code. -/
def width (e : Nat × Nat) : Nat := 2 ^ (maxLen - e.2)

/-- The first slot of every symbol, from slot `a` on. -/
def placed : Nat → List (Nat × Nat) → List (Nat × Nat × Nat)
  | _, [] => []
  | a, e :: es => (e.1, e.2, a) :: placed (a + width e) es

/-- The slots that all take. -/
def slots (es : List (Nat × Nat)) : Nat := (es.map width).sum

theorem slots_cons (e : Nat × Nat) (es : List (Nat × Nat)) : slots (e :: es) = width e + slots es := by
  rw [slots, slots, List.map_cons, List.sum_cons]

theorem width_pos (e : Nat × Nat) : 0 < width e := Nat.two_pow_pos _

/-- The slots of a placed symbol. -/
def span (p : Nat × Nat × Nat) : Nat × Nat := (p.2.2, 2 ^ (maxLen - p.2.1))

/-- **The slots follow one another.** -/
theorem placed_tiles (es : List (Nat × Nat)) (a : Nat) : Tiles a ((placed a es).map span) (a + slots es) := by
  induction es generalizing a with
  | nil => rfl
  | cons e es ih =>
    rw [slots_cons, ← Nat.add_assoc]
    exact ⟨rfl, ih (a + width e)⟩

variable {es : List (Nat × Nat)} {a l : Nat} {e : Nat × Nat}

theorem mem_placed {p : Nat × Nat × Nat} (h : p ∈ placed a es) : (p.1, p.2.1) ∈ es := by
  induction es generalizing a with
  | nil => cases h
  | cons e es ih =>
    rcases List.mem_cons.1 h with rfl | h
    · exact List.mem_cons_self
    · exact List.mem_cons_of_mem e (ih h)

theorem exists_placed (h : e ∈ es) (a : Nat) : ∃ b, (e.1, e.2, b) ∈ placed a es := by
  induction es generalizing a with
  | nil => cases h
  | cons e' es ih =>
    rcases List.mem_cons.1 h with rfl | h
    · exact ⟨a, List.mem_cons_self⟩
    · obtain ⟨b, hb⟩ := ih h (a + width e')
      exact ⟨b, List.mem_cons_of_mem _ hb⟩

/-- Shorter codes first, so every code starts at a multiple of its width. -/
theorem placed_dvd (hsorted : es.Pairwise fun e e' => e.2 ≤ e'.2)
    (ha : ∀ e ∈ es, width e ∣ a) : ∀ p ∈ placed a es, 2 ^ (maxLen - p.2.1) ∣ p.2.2 := by
  induction es generalizing a with
  | nil => exact nofun
  | cons e es ih =>
    obtain ⟨hfirst, hrest⟩ := List.pairwise_cons.1 hsorted
    intro p hp
    rcases List.mem_cons.1 hp with rfl | hp
    · exact ha e List.mem_cons_self
    · refine ih hrest (fun e' he' => ?_) p hp
      have hle := hfirst e' he'
      exact Nat.dvd_add (ha e' (List.mem_cons_of_mem e he')) (Nat.pow_dvd_pow 2 (by omega))

/-! ## Codes -/

/-- The code whose first slot is `a`: its top bits, in reverse. -/
def codeAt (a l : Nat) : Nat := reverseBits (a >>> (maxLen - l)) >>> (32 - l)

/-- The slot of a table index, and the other way round. -/
def flip (j : Nat) : Nat := reverseBits j >>> (32 - maxLen)

theorem testBit_flip (j i : Nat) : (flip j).testBit i = (decide (i < 11) && j.testBit (10 - i)) := by
  have hmax : maxLen = 11 := rfl
  rw [flip, Nat.testBit_shiftRight, reverseBits, testBit_msbNum, hmax]
  by_cases h : i < 11
  · rw [decide_eq_true (by omega : 32 - 11 + i < 32), decide_eq_true h, Bool.true_and, Bool.true_and]
    congr 1
    omega
  · rw [decide_eq_false (by omega : ¬32 - 11 + i < 32), decide_eq_false h, Bool.false_and, Bool.false_and]

theorem flip_lt (j : Nat) : flip j < lutSize := reverseBits_lt j

theorem testBit_codeAt (hl : l ≤ maxLen) (i : Nat) :
    (codeAt a l).testBit i = (decide (i < l) && a.testBit (10 - i)) := by
  have hmax : maxLen = 11 := rfl
  rw [codeAt, Nat.testBit_shiftRight, reverseBits, testBit_msbNum, hmax]
  by_cases h : i < l
  · rw [decide_eq_true (by omega : 32 - l + i < 32), decide_eq_true h, Bool.true_and, Bool.true_and,
      Nat.testBit_shiftRight]
    congr 1
    omega
  · rw [decide_eq_false (by omega : ¬32 - l + i < 32), decide_eq_false h, Bool.false_and, Bool.false_and]

theorem flip_flip {j : Nat} (hj : j < lutSize) : flip (flip j) = j := by
  refine Nat.eq_of_testBit_eq fun i => ?_
  rw [testBit_flip, testBit_flip]
  by_cases hi : i < 11
  · rw [decide_eq_true hi, decide_eq_true (by omega : 10 - i < 11), Bool.true_and, Bool.true_and]
    congr 1
    omega
  · rw [decide_eq_false hi, Bool.false_and, Nat.testBit_lt_two_pow (Nat.lt_of_lt_of_le hj
      (Nat.pow_le_pow_right (by decide) (by rw [maxLen]; omega)))]

/-- A block of slots is what shares their top bits. -/
theorem in_block {w r : Nat} (hw : 0 < w) (hdvd : w ∣ a) : r / w = a / w ↔ a ≤ r ∧ r < a + w := by
  obtain ⟨q, rfl⟩ := hdvd
  rw [Nat.mul_div_cancel_left q hw, Nat.div_eq_iff hw]
  rw [Nat.mul_comm w q]
  omega

/-- The low bits of an index, against a first slot. -/
theorem mod_codeAt (hl : l ≤ maxLen) (j : Nat) :
    j % 2 ^ l = codeAt a l ↔ ∀ i < l, j.testBit i = a.testBit (10 - i) := by
  constructor
  · intro h i hi
    have hbit : (j % 2 ^ l).testBit i = (codeAt a l).testBit i := by rw [h]
    rw [Nat.testBit_mod_two_pow, testBit_codeAt hl, decide_eq_true hi, Bool.true_and, Bool.true_and] at hbit
    exact hbit
  · intro h
    refine Nat.eq_of_testBit_eq fun i => ?_
    rw [Nat.testBit_mod_two_pow, testBit_codeAt hl]
    by_cases hi : i < l
    · rw [h i hi]
    · rw [decide_eq_false hi, Bool.false_and, Bool.false_and]

/-- The top bits of a slot, against a first slot. -/
theorem div_flip (hl : l ≤ maxLen) (ha : a < lutSize) (j : Nat) :
    flip j / 2 ^ (maxLen - l) = a / 2 ^ (maxLen - l) ↔ ∀ i < l, j.testBit i = a.testBit (10 - i) := by
  have hmax : maxLen = 11 := rfl
  constructor
  · intro h i hi
    have hbit : (flip j / 2 ^ (maxLen - l)).testBit (l - 1 - i) = (a / 2 ^ (maxLen - l)).testBit (l - 1 - i) := by
      rw [h]
    rw [Nat.testBit_div_two_pow, Nat.testBit_div_two_pow, testBit_flip, decide_eq_true (by omega), Bool.true_and] at hbit
    have h₁ : 10 - (l - 1 - i + (maxLen - l)) = i := by omega
    have h₂ : l - 1 - i + (maxLen - l) = 10 - i := by omega
    rw [h₁, h₂] at hbit
    exact hbit
  · intro h
    refine Nat.eq_of_testBit_eq fun i => ?_
    rw [Nat.testBit_div_two_pow, Nat.testBit_div_two_pow, testBit_flip]
    by_cases hi : i + (maxLen - l) < 11
    · rw [decide_eq_true hi, Bool.true_and, h _ (by omega)]
      congr 1
      omega
    · rw [decide_eq_false hi, Bool.false_and, Nat.testBit_lt_two_pow (Nat.lt_of_lt_of_le ha
        (Nat.pow_le_pow_right (by decide) (by omega)))]

/-- **The slots of a symbol are those whose low bits are its code.** -/
theorem codeAt_iff {j : Nat} (hl : l ≤ maxLen) (hdvd : 2 ^ (maxLen - l) ∣ a) (ha : a < lutSize) :
    j % 2 ^ l = codeAt a l ↔ a ≤ flip j ∧ flip j < a + 2 ^ (maxLen - l) := by
  rw [← in_block (Nat.two_pow_pos _) hdvd, mod_codeAt hl, div_flip hl ha]

/-! ## The encoder's codes -/

/-- One symbol in the loop of `canonical`. -/
def canonStep (l : Nat) (p : Nat × List (Nat × Nat)) (s : Nat) : Res (Nat × List (Nat × Nat)) := do
  let k ← sub maxLen l
  let code ← shr 32 p.1 k
  let shift ← sub 32 l
  let rev ← shr 32 (reverseBits code) shift
  let codes ← store p.2 s (rev, l)
  let step ← shl 32 1 k
  let slot ← add 32 p.1 step
  return (slot, codes)

/-- `canonical`: the code and the length of every symbol. -/
def canonical (lens : List Nat) : Res (List (Nat × Nat)) := do
  let p ← fold (fun p l => fold (canonStep l) p (symbolsOf lens l)) (0, List.replicate 256 (0, 0)) (List.range' 1 maxLen)
  if p.1 ≠ lutSize then panic else return p.2

/-- A loop in a loop is a loop over both. -/
theorem fold_nested {α β γ : Type} {g : α → β → γ → Res β} {h : α → List γ} (as : List α) (b : β) :
    fold (fun b a => fold (g a) b (h a)) b as =
      fold (fun b (e : γ × α) => g e.2 b e.1) b (as.flatMap fun a => (h a).map fun c => (c, a)) := by
  induction as generalizing b with
  | nil => rfl
  | cons a as ih =>
    rw [fold, List.flatMap_cons]
    generalize (as.flatMap fun a => (h a).map fun c => (c, a)) = rest at ih ⊢
    generalize h a = cs
    induction cs generalizing b with
    | nil => exact ih b
    | cons c cs ihc =>
      rw [fold, List.map_cons, List.cons_append, fold]
      cases hg : g a b c with
      | error e => rfl
      | ok b' =>
        rw [ok_bind]
        exact ihc b'

/-- Symbols and lengths of a table. -/
structure Listed (es : List (Nat × Nat)) : Prop where
  symbol : ∀ e ∈ es, e.1 < 256
  length : ∀ e ∈ es, 1 ≤ e.2 ∧ e.2 ≤ maxLen
  nodup : (es.map Prod.fst).Nodup

theorem Listed.tail (h : Listed (e :: es)) : Listed es where
  symbol e' he' := h.symbol e' (List.mem_cons_of_mem e he')
  length e' he' := h.length e' (List.mem_cons_of_mem e he')
  nodup := (List.nodup_cons.1 h.nodup).2

theorem canonStep_eq {codes : List (Nat × Nat)} (hl : 1 ≤ e.2 ∧ e.2 ≤ maxLen)
    (hs : e.1 < codes.length) (hroom : a + width e ≤ lutSize) :
    canonStep e.2 (a, codes) e.1 = .ok (a + width e, codes.set e.1 (codeAt a e.2, e.2)) := by
  have hmax : maxLen = 11 := rfl
  have hsize : lutSize = 2048 := rfl
  have hstep : 1 <<< (maxLen - e.2) % 2 ^ 32 = width e := by
    rw [Nat.one_shiftLeft, Nat.mod_eq_of_lt (Nat.pow_lt_pow_right (by decide) (by omega))]
    rfl
  rw [canonStep, sub_eq hl.2, ok_bind, shr_eq (by omega), ok_bind, sub_eq (by omega), ok_bind, shr_eq (by omega),
    ok_bind, store_eq hs, ok_bind, shl_eq (by omega), ok_bind, hstep, add_eq (by omega)]
  rfl

/-- **Every symbol gets the code of its first slot.** -/
theorem canonical_run : ∀ {es : List (Nat × Nat)} (a : Nat) {codes : List (Nat × Nat)}, Listed es →
    codes.length = 256 → a + slots es ≤ lutSize →
    ∃ codes', fold (fun p (e : Nat × Nat) => canonStep e.2 p e.1) (a, codes) es = .ok (a + slots es, codes') ∧
      (∀ p ∈ placed a es, codes'[p.1]? = some (codeAt p.2.2 p.2.1, p.2.1)) ∧
      ∀ s, s ∉ es.map Prod.fst → codes'[s]? = codes[s]? := by
  intro es
  induction es with
  | nil => exact fun a codes _ _ _ => ⟨codes, rfl, nofun, fun _ _ => rfl⟩
  | cons e es ih =>
    intro a codes h hlen hroom
    rw [slots_cons, ← Nat.add_assoc] at hroom
    have hs : e.1 < codes.length := by
      rw [hlen]
      exact h.symbol e List.mem_cons_self
    have hlen' : (codes.set e.1 (codeAt a e.2, e.2)).length = 256 := by rw [List.length_set, hlen]
    obtain ⟨codes', hrun, hcodes, hother⟩ := ih (a + width e) h.tail hlen' hroom
    refine ⟨codes', ?_, fun p hp => ?_, fun s hs' => ?_⟩
    · rw [fold, canonStep_eq (h.length e List.mem_cons_self) hs (by omega), ok_bind, hrun, slots_cons, Nat.add_assoc]
    · rcases List.mem_cons.1 hp with rfl | hp
      · exact (hother e.1 (List.nodup_cons.1 h.nodup).1).trans (List.getElem?_set_self hs)
      · exact hcodes p hp
    · rw [List.map_cons, List.mem_cons, not_or] at hs'
      exact (hother s hs'.2).trans (List.getElem?_set_ne (Ne.symm hs'.1))

/-! ## The decoder's table -/

/-- One symbol in the decoder's loop. -/
def fillStep (p : Nat × List (UInt8 × Nat)) (e : Nat × Nat) : Res (Nat × List (UInt8 × Nat)) :=
  fillLen e.2 (width e) [UInt8.ofNat e.1] p

/-- The slots of one code are filled. -/
theorem fillCode_spec (entry : UInt8 × Nat) : ∀ (step k : Nat) {lut : List (UInt8 × Nat)}, lut.length = lutSize →
    k + step ≤ lutSize →
    ∃ lut', fillCode entry step k lut = .ok lut' ∧ lut'.length = lutSize ∧
      ∀ j < lutSize, lut'[j]? = if k ≤ flip j ∧ flip j < k + step then some entry else lut[j]? := by
  intro step
  induction step with
  | zero =>
    intro k lut hlen _
    exact ⟨lut, rfl, hlen, fun j _ => by rw [if_neg (by omega)]⟩
  | succ step ih =>
    intro k lut hlen hroom
    have hk : k < lutSize := by omega
    have hset : (lut.set (flip k) entry).length = lutSize := by rw [List.length_set, hlen]
    obtain ⟨lut', hrun, hlen', hget⟩ := ih (k + 1) hset (by omega)
    refine ⟨lut', ?_, hlen', fun j hj => ?_⟩
    · rw [fillCode, sub_eq (by decide), ok_bind, shr_eq (by decide), ok_bind]
      change (store lut (flip k) entry >>= _) = _
      rw [store_eq (by rw [hlen]; exact flip_lt k), ok_bind]
      exact hrun
    · rw [hget j hj]
      by_cases hjk : flip j = k
      · have hflip : flip k = j := by rw [← hjk, flip_flip hj]
        rw [if_neg (by omega), if_pos (by omega), hflip, List.getElem?_set_self (by rw [hlen]; exact hj)]
      · have hne : flip k ≠ j := fun h => hjk (by rw [← h, flip_flip hk])
        rw [List.getElem?_set_ne hne]
        by_cases hin : k + 1 ≤ flip j ∧ flip j < k + 1 + step
        · rw [if_pos hin, if_pos (by omega)]
        · rw [if_neg hin, if_neg (by omega)]

/-- **Every symbol gets its slots.** -/
theorem fill_run : ∀ {es : List (Nat × Nat)} (a : Nat) {lut : List (UInt8 × Nat)}, lut.length = lutSize →
    a + slots es ≤ lutSize →
    ∃ lut', fold fillStep (a, lut) es = .ok (a + slots es, lut') ∧ lut'.length = lutSize ∧
      (∀ p ∈ placed a es, ∀ j < lutSize, p.2.2 ≤ flip j → flip j < p.2.2 + 2 ^ (maxLen - p.2.1) →
        lut'[j]? = some (UInt8.ofNat p.1, p.2.1)) ∧
      ∀ j < lutSize, flip j < a → lut'[j]? = lut[j]? := by
  intro es
  induction es with
  | nil => exact fun a lut hlen _ => ⟨lut, rfl, hlen, nofun, fun _ _ _ => rfl⟩
  | cons e es ih =>
    intro a lut hlen hroom
    rw [slots_cons, ← Nat.add_assoc] at hroom
    obtain ⟨lut₁, hfill, hlen₁, hget⟩ := fillCode_spec (UInt8.ofNat e.1, e.2) (width e) a hlen (by omega)
    obtain ⟨lut', hrun, hlen', hlut, hbefore⟩ := ih (a + width e) hlen₁ hroom
    refine ⟨lut', ?_, hlen', fun p hp j hj hlo hhi => ?_, fun j hj hja => ?_⟩
    · have hstep : fillStep (a, lut) e = .ok (a + width e, lut₁) := by
        rw [fillStep, fillLen, if_neg (by omega), hfill]
        rfl
      rw [fold, hstep, ok_bind, hrun, slots_cons, Nat.add_assoc]
    · rcases List.mem_cons.1 hp with rfl | hp
      · dsimp only at hlo hhi ⊢
        rw [hbefore j hj hhi, hget j hj, if_pos ⟨hlo, hhi⟩]
      · exact hlut p hp j hj hlo hhi
    · rw [hbefore j hj (by have := width_pos e; omega), hget j hj, if_neg (by omega)]

/-! ## The symbols of a complete code -/

/-- The decoder's lists: the symbols by length, in table order. -/
def symbolsByLen (lens : List Nat) : List Bytes :=
  [] :: (List.range' 1 maxLen).map fun l => (symbolsOf lens l).map UInt8.ofNat

theorem fold_append {α β : Type} {f : β → α → Res β} (as bs : List α) (b : β) :
    fold f b (as ++ bs) = fold f b as >>= fun b => fold f b bs := by
  induction as generalizing b with
  | nil => rfl
  | cons a as ih =>
    rw [List.cons_append, fold, fold]
    cases f b a with
    | error e => rfl
    | ok b' => exact ih b'

theorem fillLen_eq : ∀ (ss : List Nat) (p : Nat × List (UInt8 × Nat)),
    fillLen l (2 ^ (maxLen - l)) (ss.map UInt8.ofNat) p = fold fillStep p (ss.map fun s => (s, l))
  | [], _ => rfl
  | s :: ss, (slot, lut) => by
    rw [List.map_cons, List.map_cons, fold, fillStep, fillLen, fillLen, width]
    split
    · rfl
    · cases fillCode (UInt8.ofNat s, l) (2 ^ (maxLen - l)) slot lut with
      | error e => rfl
      | ok lut' => exact fillLen_eq ss (slot + 2 ^ (maxLen - l), lut')

/-- The decoder's loop over the lists is one over the symbols. -/
theorem fillLens_eq (lens : List Nat) : ∀ (n l : Nat) (p : Nat × List (UInt8 × Nat)), l + n ≤ maxLen + 1 →
    fillLens l ((List.range' l n).map fun l => (symbolsOf lens l).map UInt8.ofNat) p =
      fold fillStep p (entriesFrom lens l n) := by
  intro n
  induction n with
  | zero => exact fun l p _ => rfl
  | succ n ih =>
    intro l p hl
    have hmax : maxLen = 11 := rfl
    have hstep : 1 <<< (maxLen - l) % 2 ^ 64 = 2 ^ (maxLen - l) := by
      rw [Nat.one_shiftLeft, Nat.mod_eq_of_lt (Nat.pow_lt_pow_right (by decide) (by omega))]
    have hsplit : entriesFrom lens l (n + 1) =
        ((symbolsOf lens l).map fun s => (s, l)) ++ entriesFrom lens (l + 1) n := by
      rw [entriesFrom, List.range'_succ, List.flatMap_cons]
      rfl
    rw [List.range'_succ, List.map_cons, fillLens, sub_eq (by omega), ok_bind, shl_eq (by omega), ok_bind, hstep,
      fillLen_eq, hsplit, fold_append]
    cases fold fillStep p ((symbolsOf lens l).map fun s => (s, l)) with
    | error e => rfl
    | ok p' => exact ih (l + 1) p' (by omega)

variable {lens : List Nat}

theorem mem_symbolsOf {s : Nat} : s ∈ symbolsOf lens l ↔ s < 256 ∧ lens[s]? = some l := by
  rw [symbolsOf, List.mem_filter, List.mem_range, decide_eq_true_eq]

theorem mem_entries :
    e ∈ entries lens ↔ (1 ≤ e.2 ∧ e.2 ≤ maxLen) ∧ e.1 < 256 ∧ lens[e.1]? = some e.2 := by
  obtain ⟨s, l⟩ := e
  rw [entries, entriesFrom, List.mem_flatMap]
  constructor
  · rintro ⟨l', hl', hmem⟩
    obtain ⟨s', hs', heq⟩ := List.mem_map.1 hmem
    cases heq
    have hrange := List.mem_range'_1.1 hl'
    exact ⟨⟨hrange.1, by omega⟩, mem_symbolsOf.1 hs'⟩
  · rintro ⟨hl, hs⟩
    exact ⟨l, List.mem_range'_1.2 ⟨hl.1, Nat.lt_one_add_iff.2 hl.2⟩, List.mem_map.2 ⟨s, mem_symbolsOf.2 hs, rfl⟩⟩

theorem entries_sorted (lens : List Nat) : (entries lens).Pairwise fun e e' => e.2 ≤ e'.2 := by
  rw [entries, entriesFrom, List.pairwise_flatMap]
  refine ⟨fun l _ => ?_, ?_⟩
  · rw [List.pairwise_map]
    exact List.pairwise_of_forall fun _ _ => Nat.le_refl l
  · refine (List.pairwise_lt_range').imp fun {l l'} hlt e he e' he' => ?_
    obtain ⟨s, _, rfl⟩ := List.mem_map.1 he
    obtain ⟨s', _, rfl⟩ := List.mem_map.1 he'
    exact Nat.le_of_lt hlt

theorem entries_listed (lens : List Nat) : Listed (entries lens) where
  symbol e he := (mem_entries.1 he).2.1
  length e he := (mem_entries.1 he).1
  nodup := by
    rw [List.Nodup, List.pairwise_map, entries, entriesFrom, List.pairwise_flatMap]
    refine ⟨fun l _ => ?_, ?_⟩
    · rw [List.pairwise_map]
      exact List.nodup_range.filter _
    · refine (List.pairwise_lt_range').imp fun {l l'} hlt e he e' he' heq => ?_
      obtain ⟨s, hs, rfl⟩ := List.mem_map.1 he
      obtain ⟨s', hs', rfl⟩ := List.mem_map.1 he'
      have hget := (mem_symbolsOf.1 hs).2
      rw [show s = s' from heq, (mem_symbolsOf.1 hs').2] at hget
      have := Option.some.inj hget
      omega

theorem length_symbolsOf (h : lens.length = 256) (l : Nat) : (symbolsOf lens l).length = lens.count l := by
  have hall : ∀ lens : List Nat, ((List.range lens.length).filter fun s => lens[s]? = some l).length = lens.count l := by
    intro lens
    induction lens using List.reverseRecOn with
    | nil => rfl
    | append_singleton lens x ih =>
      have hfront : (List.range lens.length).filter (fun s => (lens ++ [x])[s]? = some l) =
          (List.range lens.length).filter fun s => lens[s]? = some l :=
        List.filter_congr fun s hs => by rw [List.getElem?_append_left (List.mem_range.1 hs)]
      rw [List.length_append, List.length_singleton, List.range_succ, List.filter_append, List.length_append, hfront, ih,
        List.count_append, List.filter_cons, List.getElem?_concat_length]
      by_cases hx : x = l
      · subst hx
        simp
      · simp [hx]
  have := hall lens
  rw [h] at this
  exact this

/-- What all symbols take, length by length. -/
theorem slots_entriesFrom (h : lens.length = 256) : ∀ n l, slots (entriesFrom lens l n) =
    ((List.range' l n).map fun l => lens.count l * 2 ^ (maxLen - l)).sum := by
  intro n
  induction n with
  | zero => exact fun l => rfl
  | succ n ih =>
    intro l
    have hsplit : entriesFrom lens l (n + 1) =
        ((symbolsOf lens l).map fun s => (s, l)) ++ entriesFrom lens (l + 1) n := by
      rw [entriesFrom, List.range'_succ, List.flatMap_cons]
      rfl
    have hone : (((symbolsOf lens l).map fun s => (s, l)).map width).sum = lens.count l * 2 ^ (maxLen - l) := by
      have hconst : (width ∘ fun s => (s, l)) = fun _ => 2 ^ (maxLen - l) := rfl
      rw [List.map_map, hconst, List.map_const', List.sum_replicate, smul_eq_mul, length_symbolsOf h]
    rw [hsplit, slots, List.map_append, List.sum_append, hone, List.range'_succ, List.map_cons, List.sum_cons]
    exact congrArg (lens.count l * 2 ^ (maxLen - l) + ·) (ih (l + 1))

theorem sum_by_length {ls : List Nat} (h : ∀ l ∈ ls, l ≤ maxLen) :
    ((List.range' 1 maxLen).map fun l => ls.count l * 2 ^ (maxLen - l)).sum =
      ((used ls).map fun l => 2 ^ (maxLen - l)).sum := by
  induction ls with
  | nil => decide
  | cons x ls ih =>
    have hx := h x List.mem_cons_self
    have hone : ((List.range' 1 maxLen).map fun l => (if x = l then 1 else 0) * 2 ^ (maxLen - l)).sum =
        if 0 < x then 2 ^ (maxLen - x) else 0 := by
      have hall : ∀ x ≤ maxLen, ((List.range' 1 maxLen).map fun l => (if x = l then 1 else 0) * 2 ^ (maxLen - l)).sum =
          if 0 < x then 2 ^ (maxLen - x) else 0 := by decide
      exact hall x hx
    have hcount : (fun l => (x :: ls).count l * 2 ^ (maxLen - l)) =
        fun l => ls.count l * 2 ^ (maxLen - l) + (if x = l then 1 else 0) * 2 ^ (maxLen - l) := by
      funext l
      rw [List.count_cons, Nat.add_mul]
      simp only [beq_iff_eq]
    rw [hcount, List.sum_map_add, ih fun l hl => h l (List.mem_cons_of_mem x hl), hone]
    by_cases hpos : 0 < x
    · rw [if_pos hpos, used_cons_pos hpos, List.map_cons, List.sum_cons, Nat.add_comm]
    · rw [if_neg hpos, used_cons_zero hpos, Nat.add_zero]

theorem slots_entries (code : Lengths) : slots (entries code.lens) = lutSize := by
  rw [entries, slots_entriesFrom code.length_eq, sum_by_length code.le_maxLen, code.complete]

/-! ## Encoder and decoder -/

theorem canonical_spec (code : Lengths) : ∃ codes, canonical code.lens = .ok codes ∧
    ∀ p ∈ placed 0 (entries code.lens), codes[p.1]? = some (codeAt p.2.2 p.2.1, p.2.1) := by
  have hslots := slots_entries code
  obtain ⟨codes, hrun, hcodes, -⟩ := canonical_run 0 (entries_listed code.lens)
    (List.length_replicate (n := 256) (a := ((0, 0) : Nat × Nat))) (by omega)
  refine ⟨codes, ?_, hcodes⟩
  rw [canonical, fold_nested]
  change (fold _ _ (entries code.lens) >>= _) = _
  rw [hrun, ok_bind, hslots, Nat.zero_add, if_neg (not_not.2 rfl)]
  rfl

theorem buildLut_spec (code : Lengths) : ∃ lut, buildLut (symbolsByLen code.lens) = .ok lut ∧
    ∀ p ∈ placed 0 (entries code.lens), ∀ j < lutSize, p.2.2 ≤ flip j → flip j < p.2.2 + 2 ^ (maxLen - p.2.1) →
      lut[j]? = some (UInt8.ofNat p.1, p.2.1) := by
  have hslots := slots_entries code
  have hroom : 0 + slots (entries code.lens) ≤ lutSize := by omega
  obtain ⟨lut, hrun, -, hlut, -⟩ := fill_run 0
    (List.length_replicate (n := lutSize) (a := ((0, 0) : UInt8 × Nat))) hroom
  refine ⟨lut, ?_, hlut⟩
  rw [buildLut, symbolsByLen, List.drop_one, List.tail_cons, fillLens_eq code.lens maxLen 1 _ (by decide)]
  change (fold fillStep _ (entries code.lens) >>= _) = _
  rw [hrun, ok_bind, hslots, Nat.zero_add]
  exact if_neg (not_not.2 rfl)

/-- A symbol is placed once. -/
theorem placed_unique (h : (es.map Prod.fst).Nodup) {p q : Nat × Nat × Nat}
    (hp : p ∈ placed a es) (hq : q ∈ placed a es) (hsym : p.1 = q.1) : p = q := by
  have hfst : ∀ (es : List (Nat × Nat)) (a : Nat), (placed a es).map Prod.fst = es.map Prod.fst := by
    intro es
    induction es with
    | nil => exact fun _ => rfl
    | cons e es ih => exact fun a => congrArg (e.1 :: ·) (ih (a + width e))
  exact List.inj_on_of_nodup_map (hfst es a ▸ h) hp hq hsym

/-- **The decoder maps a symbol's code to the symbol**, and no other code. -/
theorem lut_canonical (code : Lengths) : ∃ codes lut, canonical code.lens = .ok codes ∧
    buildLut (symbolsByLen code.lens) = .ok lut ∧
    ∀ s l, code.lens[s]? = some l → 1 ≤ l → ∃ c, codes[s]? = some (c, l) ∧
      ∀ j < lutSize, lut[j]? = some (UInt8.ofNat s, l) ↔ j % 2 ^ l = c := by
  obtain ⟨codes, hcanon, hcodes⟩ := canonical_spec code
  obtain ⟨lut, hbuild, hlut⟩ := buildLut_spec code
  have hlisted := entries_listed code.lens
  have htiles := placed_tiles (entries code.lens) 0
  rw [slots_entries code, Nat.zero_add] at htiles
  refine ⟨codes, lut, hcanon, hbuild, fun s l hs hl => ?_⟩
  have hs256 : s < 256 := by
    rw [← code.length_eq]
    exact (List.getElem?_eq_some_iff.1 hs).1
  have hle := code.le_maxLen l (List.mem_of_getElem? hs)
  have hentry : (s, l) ∈ entries code.lens := mem_entries.2 ⟨⟨hl, hle⟩, hs256, hs⟩
  obtain ⟨a, ha⟩ := exists_placed hentry 0
  have hspan := htiles.mem_le _ (List.mem_map_of_mem (f := span) ha)
  have hdvd := placed_dvd (entries_sorted code.lens) (fun _ _ => Nat.dvd_zero _) _ ha
  have hroom : a < lutSize := by
    have := Nat.two_pow_pos (maxLen - l)
    dsimp only [span] at hspan
    omega
  refine ⟨codeAt a l, hcodes _ ha, fun j hj => ?_⟩
  rw [codeAt_iff hle hdvd hroom]
  constructor
  · intro hget
    -- the index is in the slots of one symbol, which is this one
    obtain ⟨i, m, -, hm, hlo, hhi⟩ := htiles.find (Nat.zero_le (flip j)) (flip_lt j)
    obtain ⟨q, hq, rfl⟩ := List.mem_map.1 (List.mem_of_getElem? hm)
    have hget' := hlut q hq j hj hlo hhi
    rw [hget] at hget'
    have hsym : UInt8.ofNat s = UInt8.ofNat q.1 := congrArg Prod.fst (Option.some.inj hget')
    have hsym' : s = q.1 := by
      have h₁ := hlisted.symbol _ (mem_placed hq)
      have h₂ := congrArg UInt8.toNat hsym
      rw [UInt8.toNat_ofNat', UInt8.toNat_ofNat'] at h₂
      dsimp only at h₁
      omega
    have heq := placed_unique hlisted.nodup ha hq hsym'
    rw [← heq] at hlo hhi
    exact ⟨hlo, hhi⟩
  · rintro ⟨hlo, hhi⟩
    exact hlut _ ha j hj hlo hhi

end Huff
end Ps5Upload.Kraken
