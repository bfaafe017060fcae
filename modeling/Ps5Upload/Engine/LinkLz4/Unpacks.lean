import Ps5Upload.Engine.LinkLz4.Stream

/-!
# What an `.lz4` link unpacks to

The whole decoder: the blocks that `Decoder` gives for a stream, and what `decode_into` hands to its sink.

* `Unpacks` — what is asked of a stream that spells some data;
* `decoding_emits`, `padOut_ok` — what the two loops of `decode_into` deliver;
* `unpacks_iff` — a stream unpacks to its data unless the number of its data frames has wrapped around.
-/

namespace Ps5Upload.LinkLz4

open ByteFile Loops Lz4 Lz4Frame

variable {fx : Flex} {d e : Decoder} {bs : List Bytes} {env : Env} {size : Nat} {items : List Item}
  {data : Bytes}

/-! ## Delivering -/

/-- Nobody cancels, and the sink takes every piece. -/
def Env.Calm (env : Env) : Prop := ∀ n, env.cancelled n = false ∧ env.takes n = true

variable {b : Bytes} {s : Decoding} {r : Reader} {padShort : Bool}

theorem deliver_ok {s s' : Sunk} (h : deliver env b s = .ok s') : s'.data = s.data ++ b := by
  induction hm : b.length using Nat.strong_induction_on generalizing b s with
  | _ m ih =>
    rw [deliver] at h
    split at h
    · rename_i hb
      cases h
      rw [hb, List.append_nil]
    · rename_i hb
      have hpos := List.length_pos_iff.2 hb
      have hslice : 0 < SLICE := by decide
      split at h
      · simp at h
      · split at h
        · simp at h
        · rw [ih _ (by rw [List.length_drop]; omega) h rfl, List.append_assoc, List.take_append_drop]

theorem deliver_calm (hc : env.Calm) (b : Bytes) (s : Sunk) : ∃ s', deliver env b s = .ok s' := by
  induction hm : b.length using Nat.strong_induction_on generalizing b s with
  | _ m ih =>
    rw [deliver]
    split
    · exact ⟨s, rfl⟩
    · rename_i hb
      have hpos := List.length_pos_iff.2 hb
      have hslice : 0 < SLICE := by decide
      rw [(hc s.pieces).1, (hc s.pieces).2, if_neg (by simp), if_neg (by simp)]
      exact ih _ (by rw [List.length_drop]; omega) _ _ rfl

/-! ## The two loops of `decode_into` -/

theorem any_ne_zero : b.any (· ≠ 0) = false ↔ ∀ x ∈ b, x = 0 := by
  simp [List.any_eq_false]

variable (env size) in
/-- What `decodeTurn` does with a block. -/
theorem decodeTurn_block (h : nextBlock fx s.d = .ok (some b, d)) : decodeTurn fx env size s =
    (if (b.drop (min b.length (size - s.pos))).any (· ≠ 0) then .error (.larger size)
      else match deliver env (b.take (min b.length (size - s.pos))) s.sunk with
        | .error e => .error e
        | .ok sunk => .ok (none, ⟨d, s.pos + min b.length (size - s.pos), sunk⟩)) := by
  cases hd : deliver env (b.take (min b.length (size - s.pos))) s.sunk with
  | error e => simp only [decodeTurn, h, hd]
  | ok sunk => simp only [decodeTurn, h, hd]

theorem decodeTurn_none (h : nextBlock fx s.d = .ok (none, d)) :
    decodeTurn fx env size s = .ok (some (), { s with d := d }) := by
  rw [decodeTurn, h]

/-- The loop over the blocks of `decode_into`. -/
abbrev decodeLoop (fx : Flex) (env : Env) (size : Nat) (s : Decoding) :
    Except LinkErr (Unit × Decoding) :=
  loop (fun s => s.d.work) .stuck (decodeTurn fx env size) s

theorem drop_min_length (b : Bytes) (n : Nat) : b.drop (min b.length n) = b.drop n := by
  rcases Nat.le_total b.length n with h | h
  · rw [Nat.min_eq_left h, List.drop_length, List.drop_of_length_le h]
  · rw [Nat.min_eq_right h]

theorem take_min_length (b : Bytes) (n : Nat) : b.take (min b.length n) = b.take n := by
  rcases Nat.le_total b.length n with h | h
  · rw [Nat.min_eq_left h, List.take_length, List.take_of_length_le h]
  · rw [Nat.min_eq_right h]

/-- **What the blocks deliver**: the first bytes up to the size, and nothing but zeros is left out. -/
theorem decoding_emits (h : Emits fx d bs e) {t : Decoding} (hd : s.d = d) (hpos : s.pos ≤ size)
    (hrun : decodeLoop fx env size s = .ok ((), t)) :
    t.d = e ∧ t.pos = min size (s.pos + bs.flatten.length) ∧
      t.sunk.data = s.sunk.data ++ bs.flatten.take (size - s.pos) ∧
      ∀ x ∈ bs.flatten.drop (size - s.pos), x = 0 := by
  induction h generalizing s with
  | done h =>
    rw [decodeLoop, loop_stop (decodeTurn_none (hd ▸ h))] at hrun
    cases hrun
    refine ⟨rfl, ?_, by simp, by simp⟩
    show s.pos = _
    rw [List.flatten_nil, List.length_nil]
    omega
  | block h _ ih =>
    rename_i d' e b bs _
    have hturn := decodeTurn_block env size (hd ▸ h)
    split at hturn
    · rw [decodeLoop, loop_fail hturn] at hrun
      simp at hrun
    · rename_i hzeros
      split at hturn
      · rw [decodeLoop, loop_fail hturn] at hrun
        simp at hrun
      · rename_i sunk hsunk
        have hμ := nextBlock_work (hd ▸ h)
        rw [decodeLoop, loop_again hturn hμ] at hrun
        obtain ⟨h1, h2, h3, h4⟩ := ih rfl (by dsimp only; omega) hrun
        have hrest : size - (s.pos + min b.length (size - s.pos)) = size - s.pos - b.length := by omega
        rw [Bool.not_eq_true, drop_min_length, any_ne_zero] at hzeros
        dsimp only at h2 h3 h4
        rw [hrest] at h3 h4
        rw [List.flatten_cons]
        refine ⟨h1, ?_, ?_, ?_⟩
        · rw [h2, List.length_append]
          omega
        · rw [h3, deliver_ok hsunk, take_min_length, List.append_assoc, ← List.take_append]
        · intro x hx
          rw [List.drop_append, List.mem_append] at hx
          exact hx.elim (hzeros x) (h4 x)

/-- With nothing but zeros behind the size, a calm run takes all the blocks. -/
theorem decoding_calm (hc : env.Calm) (h : Emits fx d bs e) (hd : s.d = d)
    (hpos : s.pos ≤ size) (hzeros : ∀ x ∈ bs.flatten.drop (size - s.pos), x = 0) :
    ∃ t, decodeLoop fx env size s = .ok ((), t) := by
  induction h generalizing s with
  | done h => exact ⟨_, loop_stop (decodeTurn_none (hd ▸ h))⟩
  | block h _ ih =>
    rename_i d' e b bs _
    rw [List.flatten_cons, List.drop_append] at hzeros
    have hb : (b.drop (min b.length (size - s.pos))).any (· ≠ 0) = false := by
      rw [drop_min_length, any_ne_zero]
      exact fun x hx => hzeros x (List.mem_append_left _ hx)
    have hturn := decodeTurn_block env size (hd ▸ h)
    obtain ⟨sunk, hsunk⟩ := deliver_calm hc (b.take (min b.length (size - s.pos))) s.sunk
    rw [hb, if_neg (by simp), hsunk] at hturn
    have hrest : size - (s.pos + min b.length (size - s.pos)) = size - s.pos - b.length := by omega
    rw [decodeLoop, loop_again hturn (nextBlock_work (hd ▸ h))]
    refine ih rfl (by dsimp only; omega) ?_
    dsimp only
    rw [hrest]
    exact fun x hx => hzeros x (List.mem_append_right _ hx)

variable (env size) in
theorem decoding_breaks (h : Breaks fx d) (hd : s.d = d) :
    ∃ er, decodeLoop fx env size s = .error er := by
  induction h generalizing s with
  | fail h =>
    obtain ⟨er, h⟩ := h
    exact ⟨er, loop_fail (by rw [decodeTurn, hd, h])⟩
  | block h _ ih =>
    have hturn := decodeTurn_block env size (hd ▸ h)
    split at hturn
    · exact ⟨_, loop_fail hturn⟩
    · split at hturn
      · exact ⟨_, loop_fail hturn⟩
      · rw [decodeLoop, loop_again hturn (nextBlock_work (hd ▸ h))]
        exact ih rfl

theorem padOut_ok {t : Decoding} (hpos : s.pos ≤ size) (h : padOut env size s = .ok t) :
    t.pos = size ∧ t.sunk.data = s.sunk.data ++ List.replicate (size - s.pos) 0 := by
  induction hm : size - s.pos using Nat.strong_induction_on generalizing s with
  | _ m ih =>
    have hslice : 0 < SLICE := by decide
    rw [padOut] at h
    split at h
    · split at h
      · simp at h
      · rename_i sunk hsunk
        obtain ⟨h1, h2⟩ := ih _ (by dsimp only; omega) (by dsimp only; omega) h rfl
        refine ⟨h1, ?_⟩
        dsimp only at h2
        have hsplit : size - s.pos = min (size - s.pos) SLICE + (size - (s.pos + min (size - s.pos) SLICE)) := by
          omega
        rw [h2, deliver_ok hsunk, List.append_assoc, List.replicate_append_replicate, ← hsplit, hm]
    · cases h
      have hzero : m = 0 := by omega
      rw [hzero, List.replicate_zero, List.append_nil]
      exact ⟨by omega, rfl⟩

variable (size) in
theorem padOut_calm (hc : env.Calm) (s : Decoding) : ∃ t, padOut env size s = .ok t := by
  induction hm : size - s.pos using Nat.strong_induction_on generalizing s with
  | _ m ih =>
    have hslice : 0 < SLICE := by decide
    rw [padOut]
    split
    · obtain ⟨sunk, hsunk⟩ := deliver_calm hc (List.replicate (min (size - s.pos) SLICE) 0) s.sunk
      rw [hsunk]
      exact ih _ (by dsimp only; omega) _ rfl
    · exact ⟨s, rfl⟩

/-! ## A whole stream -/

/-- When the data of a stream fits an image of that size. -/
def Fits (items : List Item) (data : Bytes) (size : Nat) (padShort : Bool) : Prop :=
  (size ≤ data.length ∧ ∀ x ∈ data.drop size, x = 0) ∨
    (data.length < size ∧ padShort = true ∧ lastCloses items = true)

/-- The first bytes of the data, filled up with zeros. -/
def image (data : Bytes) (size : Nat) : Bytes :=
  data.take size ++ List.replicate (size - data.length) 0

/-- **What is asked of the decoder** on a stream of items that spells some data, however its reads are
split. -/
structure Unpacks (fx : Flex) (items : List Item) (data : Bytes) : Prop where
  blocks : ∀ splits, ∃ bs, (Decoder.new ⟨streamBytes items, splits⟩).blocks fx = .ok bs ∧ bs.flatten = data
  sound : ∀ splits size padShort env out,
    decodeInto fx ⟨streamBytes items, splits⟩ size padShort env = .ok out →
      Fits items data size padShort ∧ out = image data size
  complete : ∀ splits size padShort env, env.Calm → Fits items data size padShort →
    ∃ out, decodeInto fx ⟨streamBytes items, splits⟩ size padShort env = .ok out
  cut : ∀ front i back n, items = front ++ i :: back → i.isLegacy = false → 0 < n → n < i.bytes.length →
    ∀ splits size padShort env, ∃ er,
      decodeInto fx ⟨streamBytes front ++ i.bytes.take n, splits⟩ size padShort env = .error er

theorem blocks_emits (h : Emits fx d bs e) (front : List Bytes) :
    loop (fun s : Decoder × List Bytes => s.1.work) .stuck (blocksTurn fx) (d, front) =
      .ok ((), e, front ++ bs) := by
  induction h generalizing front with
  | done h =>
    refine loop_stop ?_
    rw [blocksTurn, h, List.append_nil]
  | block h _ ih =>
    rename_i d d' e b bs _
    have hturn : blocksTurn fx (d, front) = .ok (none, (d', front ++ [b])) := by rw [blocksTurn, h]
    rw [loop_again hturn (nextBlock_work h), ih, List.append_assoc]
    rfl

theorem blocks_breaks (h : Breaks fx d) (front : List Bytes) : ∃ er,
    loop (fun s : Decoder × List Bytes => s.1.work) .stuck (blocksTurn fx) (d, front) = .error er := by
  induction h generalizing front with
  | fail h =>
    obtain ⟨er, h⟩ := h
    exact ⟨er, loop_fail (by rw [blocksTurn, h])⟩
  | block h _ ih =>
    rename_i d d' b _
    have hturn : blocksTurn fx (d, front) = .ok (none, (d', front ++ [b])) := by rw [blocksTurn, h]
    rw [loop_again hturn (nextBlock_work h)]
    exact ih _

/-- `decode_into` where the blocks end well. -/
theorem decodeInto_emits {out : Bytes} (h : Emits fx (Decoder.new r) bs e)
    (hclosed : e.closed = lastCloses items)
    (hrun : decodeInto fx r size padShort env = .ok out) :
    Fits items bs.flatten size padShort ∧ out = image bs.flatten size := by
  rw [decodeInto] at hrun
  split at hrun
  · simp at hrun
  · rename_i t hloop
    obtain ⟨h1, h2, h3, h4⟩ := decoding_emits h rfl (Nat.zero_le size) hloop
    dsimp only at h2 h3 h4
    rw [Nat.zero_add] at h2
    rw [Nat.sub_zero, List.nil_append] at h3
    rw [Nat.sub_zero] at h4
    split at hrun
    · simp at hrun
    · rename_i u hpad
      split at hrun
      · simp at hrun
      · rename_i hend
        rw [ne_eq, not_not] at hend
        cases hrun
        split at hpad
        · rename_i hshort
          rw [h1, hclosed] at hshort
          obtain ⟨-, h6⟩ := padOut_ok (by omega) hpad
          have hlen : bs.flatten.length < size := by omega
          refine ⟨.inr ⟨hlen, hshort.2⟩, ?_⟩
          rw [h6, h3, h2, Nat.min_eq_right (Nat.le_of_lt hlen), image]
        · cases hpad
          have hlen : size ≤ bs.flatten.length := by omega
          refine ⟨.inl ⟨hlen, h4⟩, ?_⟩
          rw [h3, image, Nat.sub_eq_zero_of_le hlen, List.replicate_zero, List.append_nil]

theorem decodeInto_calm (hc : env.Calm) (h : Emits fx (Decoder.new r) bs e)
    (hclosed : e.closed = lastCloses items) (hfits : Fits items bs.flatten size padShort) :
    ∃ out, decodeInto fx r size padShort env = .ok out := by
  have hzeros : ∀ x ∈ bs.flatten.drop size, x = 0 := by
    rcases hfits with ⟨_, hz⟩ | ⟨hlen, _⟩
    · exact hz
    · rw [List.drop_of_length_le (Nat.le_of_lt hlen)]
      simp
  obtain ⟨t, hloop⟩ := decoding_calm hc h (s := ⟨Decoder.new r, 0, ⟨[], 0⟩⟩) rfl (Nat.zero_le size) hzeros
  obtain ⟨h1, h2, -, -⟩ := decoding_emits h rfl (Nat.zero_le size) hloop
  dsimp only at h2
  rw [Nat.zero_add] at h2
  rw [decodeLoop] at hloop
  rw [decodeInto, hloop]
  dsimp only
  rcases hfits with ⟨hlen, -⟩ | ⟨hlen, hpad, hlast⟩
  · rw [if_neg (by omega)]
    dsimp only
    rw [if_neg (by omega)]
    exact ⟨_, rfl⟩
  · obtain ⟨u, hu⟩ := padOut_calm size hc t
    rw [if_pos ⟨by omega, hpad, by rw [h1, hclosed, hlast]⟩, hu]
    dsimp only
    rw [if_neg (by simp [(padOut_ok (by omega) hu).1])]
    exact ⟨_, rfl⟩

theorem decodeInto_breaks (h : Breaks fx (Decoder.new r)) :
    ∃ er, decodeInto fx r size padShort env = .error er := by
  obtain ⟨er, hloop⟩ := decoding_breaks env size h (s := ⟨Decoder.new r, 0, ⟨[], 0⟩⟩) rfl
  rw [decodeLoop] at hloop
  exact ⟨er, by rw [decodeInto, hloop]⟩

/-- What a decoder knows at first. -/
def Mark.start : Mark := ⟨false, 0, false⟩

theorem stands_new (stream : Bytes) (splits : Nat → Nat) :
    Stands .start stream (Decoder.new ⟨stream, splits⟩) :=
  ⟨rfl, rfl, rfl, rfl⟩

/-- The number of data frames has wrapped around to zero, and a frame or a skippable frame is the last. -/
def Wrapped (items : List Item) : Prop :=
  items.countP Item.isData % 2 ^ 32 = 0 ∧ endsLegacy items = false

theorem afterAll_start (items : List Item) :
    ((Mark.start.afterAll items).legacy = false ∧ (Mark.start.afterAll items).frames = 0) ↔ Wrapped items := by
  have hframes : (Mark.start.afterAll items).frames = 0 ↔ items.countP Item.isData % 2 ^ 32 = 0 := by
    rw [afterAll_frames, ← UInt32.toNat_inj]
    simp [Mark.start, UInt32.toNat_ofNat']
  have hlegacy : (Mark.start.afterAll items).legacy = endsLegacy items := by
    rw [afterAll_legacy]
    split
    · rename_i h
      rw [h]
      rfl
    · rfl
  rw [hframes, hlegacy, Wrapped, and_comm]

theorem afterAll_start_closed (items : List Item) :
    (Mark.start.afterAll items).closed = lastCloses items := by
  rw [afterAll_closed]
  split
  · rename_i h
    have hnone : items.filter Item.isData = [] := by
      rw [List.countP_eq_length_filter] at h
      exact List.length_eq_zero_iff.1 h
    rw [lastCloses, hnone]
    rfl
  · rfl

/-- The whole of a stream leads to its end. -/
theorem leads_stream (hfx : fx.Right) (hs : SpellsBlocks items bs) (splits : Nat → Nat) :
    ∃ d, Leads fx (Decoder.new ⟨streamBytes items, splits⟩) bs d ∧
      Stands (Mark.start.afterAll items) [] d := by
  refine leads_items hfx hs ?_
  rw [List.append_nil]
  exact stands_new _ _

theorem stream_breaks (hfx : fx.Right) (hs : SpellsBlocks items bs) (splits : Nat → Nat)
    (hw : Wrapped items) : Breaks fx (Decoder.new ⟨streamBytes items, splits⟩) := by
  obtain ⟨d, hleads, hd⟩ := leads_stream hfx hs splits
  have hend := stands_end fx hd
  rw [if_pos ((afterAll_start items).2 hw)] at hend
  exact hleads.2 hend

theorem stream_emits (hfx : fx.Right) (hs : SpellsBlocks items bs) (splits : Nat → Nat)
    (hw : ¬ Wrapped items) : ∃ e, e.closed = lastCloses items ∧
      Emits fx (Decoder.new ⟨streamBytes items, splits⟩) bs e := by
  obtain ⟨d, hleads, hd⟩ := leads_stream hfx hs splits
  have hend := stands_end fx hd
  rw [if_neg (fun h => hw ((afterAll_start items).1 h))] at hend
  obtain ⟨e, hclosed, he⟩ := hend
  have hemits := hleads.1 _ _ he
  rw [List.append_nil] at hemits
  exact ⟨e, hclosed.trans (afterAll_start_closed items), hemits⟩

/-- The items in front of another spell something, too. -/
theorem SpellsBlocks.split {front back : List Item} {i : Item} (hs : SpellsBlocks (front ++ i :: back) bs) :
    ∃ bs' outs, SpellsBlocks front bs' ∧ i.Spells outs := by
  induction front generalizing bs with
  | nil =>
    cases hs with
    | cons hi _ => exact ⟨_, _, .nil, hi⟩
  | cons j front ih =>
    cases hs with
    | cons hj h =>
      obtain ⟨bs', outs, hfront, hi⟩ := ih h
      exact ⟨_, _, .cons hj hfront, hi⟩

/-- A stream whose count has wrapped is taken for an empty link. -/
theorem not_unpacks (hfx : fx.Right) (hs : Spells items data) (hw : Wrapped items) :
    ¬ Unpacks fx items data := by
  intro h
  obtain ⟨bs, hbs, -⟩ := spellsBlocks_of_spells hs
  obtain ⟨er, her⟩ := blocks_breaks (stream_breaks hfx hbs (fun _ => 0) hw) []
  obtain ⟨bs', hok, -⟩ := h.blocks fun _ => 0
  rw [Decoder.blocks, her] at hok
  simp at hok

/-- **A stream unpacks to its data** exactly if the count of its data frames has not wrapped around to
zero in front of an end that is not a legacy stream's. -/
theorem unpacks_iff (hfx : fx.Right) (hs : Spells items data) :
    Unpacks fx items data ↔ ¬ Wrapped items := by
  refine ⟨fun h hw => not_unpacks hfx hs hw h, fun hw => ?_⟩
  obtain ⟨bs, hbs, rfl⟩ := spellsBlocks_of_spells hs
  have hends := fun splits => stream_emits hfx hbs splits hw
  refine ⟨?_, ?_, ?_, ?_⟩
  · intro splits
    obtain ⟨e, -, he⟩ := hends splits
    exact ⟨bs, by rw [Decoder.blocks, blocks_emits he []]; rfl, rfl⟩
  · intro splits size padShort env out hrun
    obtain ⟨e, hclosed, he⟩ := hends splits
    exact decodeInto_emits he hclosed hrun
  · intro splits size padShort env hc hfits
    obtain ⟨e, hclosed, he⟩ := hends splits
    exact decodeInto_calm hc he hclosed hfits
  · intro front i back n hitems hl hpos hn splits size padShort env
    obtain ⟨bs', outs, hfront, hi⟩ := (hitems ▸ hbs).split
    obtain ⟨d, hleads, hd⟩ := leads_items hfx hfront (stands_new (streamBytes front ++ i.bytes.take n) splits)
    exact decodeInto_breaks (hleads.2 (breaks_cut hfx hi hl hpos hn hd))

/-! ## A decompressor of the format -/

/-- The block decompressor that does what the format says. -/
def formatFlex : Flex where
  decompressInto block cap := (decode block).filter fun out => out.length ≤ cap
  decompressIntoWithDict block cap dict := (decodeAfter dict block).filter fun out => out.length ≤ cap
  getMaximumOutputSize n := 16 + 4 + n * 110 / 100

theorem formatFlex_right : formatFlex.Right where
  into block out cap h hcap := by simp [formatFlex, h, hcap]
  withDict block dict out cap h hcap := by simp [formatFlex, h, hcap]
  bound := by decide

/-- Two bytes, stored in one block of one frame, behind a skippable frame. -/
def sample : List Item :=
  [.skip 3 [7], .frame ⟨true, false, false, none, 0, 0⟩ [⟨true, [1, 2], 0⟩] 0]

theorem sample_spells : Spells sample [1, 2] :=
  have hblocks : Contents ⟨true, false, false, none, 0, 0⟩ [] [⟨true, [1, 2], 0⟩] [[1, 2]] :=
    .cons (by decide) (by rw [Block.Decodes]; rfl) (by decide) (.nil _)
  .cons (.skip 3 (by decide)) (.cons (.frame 0 hblocks) .nil)

theorem unpacks_sample : Unpacks formatFlex sample [1, 2] :=
  (unpacks_iff formatFlex_right sample_spells).2 fun h => absurd h.1 (by decide)

/-- So many empty legacy streams and a skippable frame. -/
def emptyLegacies (n : Nat) : List Item := List.replicate n (.legacy []) ++ [.skip 0 []]

theorem emptyLegacies_spells (n : Nat) : Spells (emptyLegacies n) [] := by
  induction n with
  | zero => exact .cons (.skip 0 (by decide)) .nil
  | succ n ih => exact .cons (.legacy .nil) ih

theorem emptyLegacies_wrapped {n : Nat} (h : n % 2 ^ 32 = 0) : Wrapped (emptyLegacies n) := by
  constructor
  · rw [emptyLegacies, List.countP_append, List.countP_replicate,
      if_pos (show (Item.legacy []).isData = true from rfl)]
    exact h
  · rw [emptyLegacies, endsLegacy, List.getLast?_append]
    rfl

theorem emptyLegacies_data {n : Nat} (h : 0 < n) : ∃ i ∈ emptyLegacies n, i.isData = true := by
  exact ⟨.legacy [], List.mem_append_left _ (List.mem_replicate.2 ⟨by omega, rfl⟩), rfl⟩

/-- 2^32 empty legacy streams and a skippable frame spell no data, yet they are refused. -/
theorem wrapped_refused : ¬ ∀ (fx : Flex) (items : List Item) (data : Bytes), fx.Right →
    Spells items data → (∃ i ∈ items, i.isData = true) → Unpacks fx items data :=
  fun h => not_unpacks formatFlex_right (emptyLegacies_spells (2 ^ 32)) (emptyLegacies_wrapped rfl)
    (h formatFlex _ [] formatFlex_right (emptyLegacies_spells (2 ^ 32)) (emptyLegacies_data (by decide)))

end Ps5Upload.LinkLz4
