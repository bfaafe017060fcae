import Ps5Upload.Engine.LinkLz4.Steps

/-!
# The decoder on a whole stream

From the steps to streams: one item after another, and the streams that are cut inside a frame.

* `Emits`, `Breaks` — what a decoder has still to give, to the end or to an error;
* `Leads` — so many blocks further on, composed item by item.
-/

namespace Ps5Upload.LinkLz4

open ByteFile Loops Lz4 Lz4Frame

variable {fx : Flex} {d d' d'' : Decoder} {r p history : Bytes} {k : UInt32} {closed : Bool}
  {outs bs : List Bytes}

/-! ## What is still to come -/

/-- The decoder gives these blocks and then says that the stream has ended. -/
inductive Emits (fx : Flex) : Decoder → List Bytes → Decoder → Prop
  | done {d d' : Decoder} (h : nextBlock fx d = .ok (none, d')) : Emits fx d [] d'
  | block {d d' e : Decoder} {b : Bytes} {bs : List Bytes} (h : nextBlock fx d = .ok (some b, d'))
      (hbs : Emits fx d' bs e) : Emits fx d (b :: bs) e

/-- The decoder gives some blocks and then an error. -/
inductive Breaks (fx : Flex) : Decoder → Prop
  | fail {d : Decoder} (h : Fails (nextBlock fx) d) : Breaks fx d
  | block {d d' : Decoder} {b : Bytes} (h : nextBlock fx d = .ok (some b, d')) (hbs : Breaks fx d') :
      Breaks fx d

/-- From `d` the decoder gives the blocks `outs` and goes on as from `d'`. -/
def Leads (fx : Flex) (d : Decoder) (outs : List Bytes) (d' : Decoder) : Prop :=
  (∀ bs e, Emits fx d' bs e → Emits fx d (outs ++ bs) e) ∧ (Breaks fx d' → Breaks fx d)

theorem Leads.refl (fx : Flex) (d : Decoder) : Leads fx d [] d := ⟨fun _ _ h => h, id⟩

theorem Leads.trans (h : Leads fx d outs d') (h' : Leads fx d' bs d'') :
    Leads fx d (outs ++ bs) d'' :=
  ⟨fun cs e he => by rw [List.append_assoc]; exact h.1 _ _ (h'.1 _ _ he), fun hb => h.2 (h'.2 hb)⟩

theorem Leads.of_eq (h : nextBlock fx d = nextBlock fx d') : Leads fx d [] d' := by
  constructor
  · intro bs e he
    cases he with
    | done h' => exact .done (h.trans h')
    | block h' hbs => exact .block (h.trans h') hbs
  · intro hb
    cases hb with
    | fail h' => exact .fail (by rw [Fails, h]; exact h')
    | block h' hbs => exact .block (h.trans h') hbs

theorem Leads.block {b : Bytes} (h : nextBlock fx d = .ok (some b, d')) : Leads fx d [b] d' :=
  ⟨fun _ _ he => .block h he, fun hb => .block h hb⟩

/-! ## One item -/

variable {h : Head} {m : Mark} {j : Nat}

theorem leads_frameBlocks (hfx : fx.Right) {blocks : List Block} (hc : Contents h history blocks outs)
    (hin : InFrame h history (blocks.flatMap (Block.bytes h) ++ r) k d) :
    ∃ d', Leads fx d outs d' ∧ InFrame h (history ++ outs.flatten) r k d' := by
  induction hc generalizing d with
  | nil history => exact ⟨d, .refl fx d, by simpa using hin⟩
  | cons hdata hb hout _ ih =>
    rw [List.flatMap_cons, List.append_assoc] at hin
    obtain ⟨d₁, hin₁, hnext⟩ := frame_block hfx hin hdata hb hout
    obtain ⟨d₂, hleads, hin₂⟩ := ih hin₁
    refine ⟨d₂, (Leads.block hnext).trans hleads, ?_⟩
    rw [List.flatten_cons, ← List.append_assoc]
    exact hin₂

theorem leads_legacyBlocks (hfx : fx.Right) {blocks : List Bytes} (hc : LegacyContents blocks outs)
    (hin : InLegacy (blocks.flatMap legacyBytes ++ r) k d) :
    ∃ d', Leads fx d outs d' ∧ InLegacy r k d' := by
  induction hc generalizing d with
  | nil => exact ⟨d, .refl fx d, hin⟩
  | cons hdata hlen hb hout _ ih =>
    rw [List.flatMap_cons, List.append_assoc] at hin
    obtain ⟨d₁, hin₁, hnext⟩ := legacy_block hfx hin hdata hlen hb hout
    obtain ⟨d₂, hleads, hin₂⟩ := ih hin₁
    exact ⟨d₂, (Leads.block hnext).trans hleads, hin₂⟩

/-- What a decoder knows between the items of a stream. -/
structure Mark where
  /-- Whether it is still inside a legacy stream. -/
  legacy : Bool
  frames : UInt32
  closed : Bool

/-- The decoder stands in front of `stream` with that knowledge. -/
def Stands (m : Mark) (stream : Bytes) (d : Decoder) : Prop :=
  if m.legacy then InLegacy stream m.frames d ∧ m.closed = false else Between stream m.frames m.closed d

/-- What is known behind an item. -/
def Mark.after (m : Mark) : Item → Mark
  | .frame .. => ⟨false, m.frames + 1, true⟩
  | .legacy _ => ⟨true, m.frames + 1, false⟩
  | .skip .. => ⟨false, m.frames, m.closed⟩

variable (fx) in
/-- In front of an item, a legacy stream is left behind. -/
theorem Stands.between (i : Item) (h : Stands m (le 4 i.magic ++ r) d) :
    ∃ d', Leads fx d [] d' ∧ Between (le 4 i.magic ++ r) m.frames m.closed d' := by
  unfold Stands at h
  split at h
  · obtain ⟨d', hb, hnext⟩ := legacy_next fx i h.1
    exact ⟨d', .of_eq hnext, h.2 ▸ hb⟩
  · exact ⟨d, .refl fx d, h⟩

/-- **One item**: the decoder gives its blocks and stands behind it. -/
theorem leads_item (hfx : fx.Right) {i : Item} (hi : i.Spells outs)
    (h : Stands m (i.bytes ++ r) d) :
    ∃ d', Leads fx d outs d' ∧ Stands (m.after i) r d' := by
  rw [Item.bytes, List.append_assoc] at h
  obtain ⟨d₁, hleads, hb⟩ := h.between fx i
  cases hi with
  | frame checksum hc =>
    rename_i head blocks
    rw [Item.body, List.append_assoc] at hb
    obtain ⟨d₂, hin, hnext⟩ := start_frame fx head hb
    rw [List.append_assoc, List.append_assoc] at hin
    obtain ⟨d₃, hleads₃, hin₃⟩ := leads_frameBlocks hfx hc hin
    obtain ⟨d₄, hb₄, hnext₄⟩ := frame_end fx checksum hin₃
    refine ⟨d₄, ?_, hb₄⟩
    have := (hleads.trans (.of_eq hnext)).trans (hleads₃.trans (.of_eq hnext₄))
    simpa using this
  | legacy hc =>
    obtain ⟨d₂, hin, hnext⟩ := start_legacy fx hb
    obtain ⟨d₃, hleads₃, hin₃⟩ := leads_legacyBlocks hfx hc hin
    exact ⟨d₃, (hleads.trans (.of_eq hnext)).trans hleads₃, hin₃, rfl⟩
  | skip nibble hlen =>
    rename_i data
    rw [← List.append_assoc] at hb
    obtain ⟨d₂, hb₂, hnext⟩ := start_skip fx nibble hlen hb
    exact ⟨d₂, hleads.trans (.of_eq hnext), hb₂⟩

/-- The blocks of the items of a stream. -/
inductive SpellsBlocks : List Item → List Bytes → Prop
  | nil : SpellsBlocks [] []
  | cons {i : Item} {items : List Item} {outs bs : List Bytes} (hi : i.Spells outs)
      (h : SpellsBlocks items bs) : SpellsBlocks (i :: items) (outs ++ bs)

theorem spellsBlocks_of_spells {items : List Item} {data : Bytes} (h : Spells items data) :
    ∃ bs, SpellsBlocks items bs ∧ bs.flatten = data := by
  induction h with
  | nil => exact ⟨[], .nil, rfl⟩
  | cons hi _ ih =>
    obtain ⟨bs, hbs, hdata⟩ := ih
    exact ⟨_, .cons hi hbs, by rw [List.flatten_append, hdata]⟩

/-- What is known behind the items of a stream. -/
def Mark.afterAll (m : Mark) (items : List Item) : Mark := items.foldl Mark.after m

/-- **A stream of items** leads to its end. -/
theorem leads_items (hfx : fx.Right) {items : List Item} (hs : SpellsBlocks items bs)
    (h : Stands m (streamBytes items ++ r) d) :
    ∃ d', Leads fx d bs d' ∧ Stands (m.afterAll items) r d' := by
  induction hs generalizing m d with
  | nil => exact ⟨d, .refl fx d, h⟩
  | cons hi _ ih =>
    rw [streamBytes, List.flatMap_cons, List.append_assoc] at h
    obtain ⟨d₁, hleads, h₁⟩ := leads_item hfx hi h
    obtain ⟨d₂, hleads₂, h₂⟩ := ih h₁
    exact ⟨d₂, hleads.trans hleads₂, h₂⟩

/-! ## The end of a stream -/

/-- What is known behind the items, in the stream's own terms. -/
theorem afterAll_frames (m : Mark) (items : List Item) :
    (m.afterAll items).frames = m.frames + UInt32.ofNat (items.countP Item.isData) := by
  induction items generalizing m with
  | nil => simp [Mark.afterAll]
  | cons i items ih =>
    have hrec : (m.afterAll (i :: items)) = (m.after i).afterAll items := rfl
    rw [hrec, ih, List.countP_cons]
    cases i with
    | skip => simp [Mark.after, Item.isData]
    | _ =>
      simp only [Mark.after, Item.isData, if_true]
      rw [UInt32.ofNat_add, add_assoc, add_comm (UInt32.ofNat (List.countP _ items))]
      rfl

/-- Whether the last item of a stream is a legacy stream. -/
def endsLegacy (items : List Item) : Bool := items.getLast?.any Item.isLegacy

/-- Whether the last data frame of a stream is a frame, not a legacy stream. -/
def lastCloses (items : List Item) : Bool := (items.filter Item.isData).getLast?.any fun i => !i.isLegacy

theorem afterAll_concat (m : Mark) (items : List Item) (i : Item) :
    m.afterAll (items ++ [i]) = (m.afterAll items).after i := by
  rw [Mark.afterAll, List.foldl_append]
  rfl

theorem afterAll_legacy (m : Mark) (items : List Item) :
    (m.afterAll items).legacy = if items = [] then m.legacy else endsLegacy items := by
  induction items using List.reverseRecOn with
  | nil => rfl
  | append_singleton items i _ =>
    rw [afterAll_concat, if_neg (by simp), endsLegacy, List.getLast?_append]
    cases i <;> rfl

theorem afterAll_closed (m : Mark) (items : List Item) : (m.afterAll items).closed =
    if items.countP Item.isData = 0 then m.closed else lastCloses items := by
  induction items using List.reverseRecOn with
  | nil => rfl
  | append_singleton items i ih =>
    rw [afterAll_concat, lastCloses, List.filter_append, List.countP_append]
    cases i with
    | skip nibble data =>
      have hnone : [Item.skip nibble data].filter Item.isData = [] := rfl
      have hzero : [Item.skip nibble data].countP Item.isData = 0 := rfl
      rw [hnone, hzero, List.append_nil, Nat.add_zero]
      exact ih
    | frame => simp [Mark.after, Item.isData, Item.isLegacy]
    | legacy => simp [Mark.after, Item.isData, Item.isLegacy]

variable (fx) in
/-- **The end of a stream**: none, unless the number of its data frames has wrapped around to zero. -/
theorem stands_end (h : Stands m [] d) : if m.legacy = false ∧ m.frames = 0 then Breaks fx d
    else ∃ d', d'.closed = m.closed ∧ Emits fx d [] d' := by
  unfold Stands at h
  cases hl : m.legacy with
  | true =>
    rw [hl, if_pos rfl] at h
    rw [if_neg (by simp)]
    obtain ⟨d', hc, hnext⟩ := legacy_end fx h.1
    exact ⟨d', hc.trans h.2.symm, .done hnext⟩
  | false =>
    rw [hl, if_neg (by simp)] at h
    have hend := start_end fx h
    split at hend
    · rename_i hk
      rw [if_pos ⟨rfl, hk⟩]
      exact .fail hend
    · rename_i hk
      rw [if_neg (fun hc => hk hc.2)]
      obtain ⟨d', hc, hnext⟩ := hend
      exact ⟨d', hc, .done hnext⟩

/-! ## Streams that are cut inside a frame -/

theorem nextBlock_fails (h : Fails (blockTurn fx) d) : Fails (nextBlock fx) d := by
  obtain ⟨e, h⟩ := h
  exact ⟨e, loop_fail h⟩

/-- A cut in a part that stands behind another. -/
theorem take_behind {a b : Bytes} {n : Nat} (h : a.length ≤ n) :
    (a ++ b).take n = a ++ b.take (n - a.length) := by
  rw [List.take_append, List.take_of_length_le h]

theorem fails_startHeader (h : Head) (hj : j < h.bytes.length)
    (hrest : d.r.rest = h.bytes.take j) : Fails startHeader d := by
  have hsplit : h.bytes = [h.flg, h.bd] ++ ((h.contentSize.elim [] fun n => le 8 n.toNat) ++
      [h.headerChecksum]) := rfl
  by_cases h2 : j < 2
  · refine Fails.bind (fails_need ?_)
    rw [hrest, List.length_take]
    omega
  · have hlen2 : ([h.flg, h.bd] : Bytes).length = 2 := rfl
    rw [hsplit, take_behind (by rw [hlen2]; omega), hlen2] at hrest
    rw [hsplit, List.length_append, hlen2] at hj
    obtain ⟨sp, heq⟩ := startHeader_eq h (gets_need hrest rfl)
    have hcs := (flg_bits h).2.2.2.2.2
    have hfails : Fails (headerRest h.flg h.bd) ((d.at (((h.contentSize.elim [] fun n => le 8 n.toNat) ++
        [h.headerChecksum]).take (j - 2))).splitting sp) := by
      cases hsize : h.contentSize with
      | none =>
        rw [hsize] at hcs hj
        rw [Option.elim_none, List.nil_append, List.length_singleton] at hj
        rw [headerRest, if_neg (fun hc => absurd (hcs.1 hc) (by simp))]
        refine (gets_modify _ _).bind_fails fun sp => Fails.bind (fails_need ?_)
        show (([] ++ [h.headerChecksum]).take (j - 2)).length < 1
        rw [List.length_take]
        omega
      | some n =>
        rw [hsize] at hcs hj
        rw [Option.elim_some, List.length_append, length_le, List.length_singleton] at hj
        rw [headerRest, if_pos (hcs.2 rfl), Option.elim_some]
        by_cases h8 : j - 2 < 8
        · refine Fails.bind (fails_need ?_)
          show ((le 8 n.toNat ++ [h.headerChecksum]).take (j - 2)).length < 8
          rw [List.length_take]
          omega
        · rw [take_behind (by rw [length_le]; omega), length_le]
          refine (gets_need rfl (length_le 8 n.toNat)).bind_fails fun sp =>
            (gets_modify _ _).bind_fails fun sp' => Fails.bind (fails_need ?_)
          show ([h.headerChecksum].take (j - 2 - 8)).length < 1
          rw [List.length_take]
          omega
    obtain ⟨e, he⟩ := hfails
    exact ⟨e, heq.trans he⟩

/-- A frame that is cut inside a block. -/
theorem fails_block (hfx : fx.Right) {b : Block} {out : Bytes}
    (hj : j < (b.bytes h).length) (hin : InFrame h history ((b.bytes h).take j) k d)
    (hdata : b.data.length ≤ h.maxBlock) (hb : b.Decodes (if h.independent then [] else history) out)
    (hout : out.length ≤ h.maxBlock) : Fails (nextBlock fx) d := by
  have hmax := maxBlock_le h
  obtain ⟨hstored, hlen, hzero⟩ := word_bits (n := b.data.length) (by omega) b.stored
  refine nextBlock_fails ?_
  rw [Fails, blockTurn_frame hin.cur]
  by_cases h4 : j < 4
  · refine Fails.bind (fails_needU32 ?_)
    rw [hin.rest, List.length_take]
    omega
  · have hrest := hin.rest
    rw [Block.bytes, List.length_append, length_le, List.length_append] at hj
    rw [Block.bytes, take_behind (by rw [length_le]; omega), length_le] at hrest
    obtain ⟨sp, hword⟩ := gets_needU32 hrest
    generalize le32 (le 4 (b.data.length + if b.stored then 0x80000000 else 0)) = word at *
    have hne : word ≠ 0 := by
      intro h0
      obtain ⟨h1, h2⟩ := hzero.1 h0
      rw [Block.Decodes, h1, if_neg (by simp)] at hb
      exact hb.1 (List.length_eq_zero_iff.1 h2)
    rw [frameTurn_word hword, if_neg hne, if_neg (by omega), hlen]
    by_cases hd : j - 4 < b.data.length
    · refine Fails.bind (fails_need ?_)
      show ((b.data ++ _).take (j - 4)).length < _
      rw [List.length_take]
      omega
    · rw [take_behind (by omega)]
      have hbc : h.blockChecksum = true := by
        by_contra hbc
        rw [if_neg hbc, List.length_nil] at hj
        omega
      rw [hbc, if_pos rfl, length_le] at hj
      refine (gets_need rfl rfl).bind_fails fun sp => (gets_get _).bind_fails fun sp' => ?_
      refine (gets_blockOut hfx hin hb hout hstored _).bind_fails fun sp'' => ?_
      rw [hbc, if_pos rfl]
      refine Fails.bind (fails_needU32 ?_)
      show ((le 4 b.checksum.toNat).take (j - 4 - b.data.length)).length < 4
      rw [List.length_take]
      omega

/-- A frame that is cut inside its blocks or its end mark. -/
theorem breaks_frameBlocks (hfx : fx.Right) {blocks : List Block} (checksum : UInt32)
    (hc : Contents h history blocks outs)
    (hj : j < (blocks.flatMap (Block.bytes h) ++
      (le 4 0 ++ if h.contentChecksum then le 4 checksum.toNat else [])).length)
    (hin : InFrame h history ((blocks.flatMap (Block.bytes h) ++
      (le 4 0 ++ if h.contentChecksum then le 4 checksum.toNat else [])).take j) k d) : Breaks fx d := by
  induction hc generalizing d j with
  | nil history =>
    rw [List.flatMap_nil, List.nil_append] at hj hin
    rw [List.length_append, length_le] at hj
    refine .fail (nextBlock_fails ?_)
    rw [Fails, blockTurn_frame hin.cur]
    by_cases h4 : j < 4
    · refine Fails.bind (fails_needU32 ?_)
      rw [hin.rest, List.length_take]
      omega
    · have hrest := hin.rest
      rw [take_behind (by rw [length_le]; omega), length_le] at hrest
      obtain ⟨sp, hword⟩ := gets_needU32 hrest
      have hcc : h.contentChecksum = true := by
        by_contra hcc
        rw [if_neg hcc, List.length_nil] at hj
        omega
      rw [hcc, if_pos rfl, length_le] at hj
      rw [frameTurn_word hword, if_pos (show le32 (le 4 0) = 0 from rfl)]
      simp only [hcc, if_true]
      refine Fails.bind (fails_needU32 ?_)
      show ((le 4 checksum.toNat).take (j - 4)).length < 4
      rw [List.length_take]
      omega
  | cons hdata hb hout _ ih =>
    rename_i b bs outs _
    rw [List.flatMap_cons, List.append_assoc] at hj hin
    by_cases hlt : j < (b.bytes h).length
    · rw [List.take_append_of_le_length (Nat.le_of_lt hlt)] at hin
      exact .fail (fails_block hfx hlt hin hdata hb hout)
    · rw [take_behind (by omega)] at hin
      rw [List.length_append] at hj
      obtain ⟨d₁, hin₁, hnext⟩ := frame_block hfx hin hdata hb hout
      exact .block hnext (ih (by omega) hin₁)

/-- **A stream that is cut inside a frame breaks**, at every place of it. -/
theorem breaks_cut (hfx : fx.Right) {i : Item} (hi : i.Spells outs) (hl : i.isLegacy = false)
    {n : Nat} (hpos : 0 < n) (hn : n < i.bytes.length) (h : Stands m (i.bytes.take n) d) :
    Breaks fx d := by
  have hne : i.bytes.take n ≠ [] := by
    intro hnil
    have := congrArg List.length hnil
    rw [List.length_take, List.length_nil] at this
    omega
  by_cases h4 : n < 4
  · -- inside the magic
    have hshort : (i.bytes.take n).length < 4 := by
      rw [List.length_take]
      omega
    refine .fail ?_
    unfold Stands at h
    split at h
    · refine nextBlock_fails ?_
      rw [Fails, blockTurn_legacy h.1.cur]
      exact Fails.bind (fails_readU32 (by rw [h.1.rest]; exact hshort) (by rw [h.1.rest]; exact hne))
    · have hnone : d.pendingMagic = none := by
        cases hm : d.pendingMagic with
        | none => rfl
        | some w =>
          have := congrArg List.length h.ahead
          rw [hm, Option.elim_some, List.length_append, length_le] at this
          omega
      have hrest := h.ahead
      rw [hnone, Option.elim_none, List.nil_append] at hrest
      have hmagic : Fails nextMagic d := by
        rw [Fails, nextMagic_none hnone]
        exact fails_readU32 (by rw [hrest]; exact hshort) (by rw [hrest]; exact hne)
      obtain ⟨e, he⟩ := Fails.bind hmagic
      exact nextBlock_broken h.cur ⟨e, loop_fail he⟩
  · rw [Item.bytes, take_behind (by rw [length_le]; omega), length_le] at h
    rw [length_bytes] at hn
    obtain ⟨d₁, hleads, hb⟩ := h.between fx i
    refine hleads.2 ?_
    obtain ⟨sp, hmagic⟩ := gets_nextMagic hb
    cases hi with
    | legacy => simp [Item.isLegacy] at hl
    | frame checksum hc =>
      rename_i head blocks
      rw [Item.body] at hb hn hmagic
      by_cases hh : n - 4 < head.bytes.length
      · rw [List.take_append_of_le_length (Nat.le_of_lt hh)] at hmagic
        have hturn : Fails startTurn d₁ := by
          rw [Fails, startTurn_magic hmagic, if_neg (by
            rw [show (Item.frame head blocks checksum).magic = frameMagic from rfl,
              skippable_small (by decide)]; simp),
            if_neg (by rw [le32_eq]; exact (by decide : UInt32.ofNat frameMagic ≠ LEGACY_MAGIC)),
            if_neg (by rw [le32_eq]; exact (by decide : ¬ UInt32.ofNat frameMagic ≠ FRAME_MAGIC))]
          exact Fails.bind (fails_startHeader head hh rfl)
        obtain ⟨e, he⟩ := hturn
        exact .fail (nextBlock_broken hb.cur ⟨e, loop_fail he⟩)
      · rw [take_behind (by omega)] at hb
        rw [List.length_append] at hn
        obtain ⟨d₂, hin, hnext⟩ := start_frame fx head hb
        refine (Leads.of_eq hnext).2 ?_
        exact breaks_frameBlocks hfx checksum hc (by omega) hin
    | skip nibble hlen =>
      rename_i data
      rw [Item.body] at hb hn hmagic
      rw [List.length_append, length_le] at hn
      have hturn : Fails startTurn d₁ := by
        have hskip : isSkippable (le32 (le 4 (Item.skip nibble data).magic)) = true :=
          skippable_skipMagic nibble
        rw [Fails, startTurn_magic hmagic, if_pos hskip]
        by_cases h8 : n - 4 < 4
        · refine Fails.bind (fails_needU32 ?_)
          show ((le 4 data.length ++ data).take (n - 4)).length < 4
          rw [List.length_take]
          omega
        · rw [take_behind (by rw [length_le]; omega), length_le]
          refine (gets_needU32 rfl).bind_fails fun sp => ?_
          rw [le32_le hlen]
          refine Fails.bind (fails_skip ?_)
          show (data.take (n - 4 - 4)).length < _
          rw [List.length_take]
          omega
      obtain ⟨e, he⟩ := hturn
      exact .fail (nextBlock_broken hb.cur ⟨e, loop_fail he⟩)

end Ps5Upload.LinkLz4
