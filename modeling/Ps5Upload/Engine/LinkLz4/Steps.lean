import Ps5Upload.Engine.LinkLz4.Reading
import Mathlib.Data.Nat.Bitwise

/-!
# The decoder's steps through a stream

Where the decoder stands between two items of a stream, inside a frame or inside a legacy stream, and what
its next block is from there.

* `window`, `slide_window` — the dictionary is the end of what the frame has spelled;
* `Between`, `InFrame`, `InLegacy` — the three places;
* `start_skip`, `start_legacy`, `start_frame`, `start_end` — what `start_frame` finds.
-/

namespace Ps5Upload.LinkLz4

open ByteFile Loops Lz4 Lz4Frame

variable {fx : Flex} {d d' : Decoder} {r stream history out bytes' : Bytes} {k : UInt32} {closed : Bool}

/-! ## The window -/

/-- The last `DICT` bytes. -/
def window (history : Bytes) : Bytes := history.drop (history.length - DICT)

theorem slide_window (history out : Bytes) : slide (window history) out = window (history ++ out) := by
  have hdict : DICT = 65536 := rfl
  have hlen : (window history).length = history.length - (history.length - DICT) := List.length_drop
  have hwhole : window (history ++ out) = history.drop (history.length + out.length - DICT) ++
      out.drop (history.length + out.length - DICT - history.length) := by
    rw [window, List.length_append, List.drop_append]
  rw [slide, hwhole]
  split
  · rename_i hout
    have hoff : history.length + out.length - DICT - history.length = out.length - DICT := by omega
    rw [List.drop_of_length_le (l := history) (by omega), List.nil_append, hoff]
  · rename_i hout
    rw [show history.length + out.length - DICT - history.length = 0 by omega, List.drop_zero]
    dsimp only
    split
    · rename_i hkeep
      rw [hlen] at hkeep
      have hoff : history.length - DICT + (history.length - (history.length - DICT) - (DICT - out.length)) =
          history.length + out.length - DICT := by omega
      rw [hlen, window, List.drop_drop, hoff]
    · rename_i hkeep
      rw [hlen] at hkeep
      have hoff : history.length - DICT = history.length + out.length - DICT := by omega
      rw [window, ← hoff]

/-- A block sees as much behind the window as behind all of the history. -/
theorem decodeAfter_window (history block : Bytes) :
    decodeAfter (window history) block = decodeAfter history block := by
  have hdict : DICT = 65536 := rfl
  by_cases h : history.length ≤ DICT
  · rw [window, show history.length - DICT = 0 by omega, List.drop_zero]
  · have hlen : 65535 ≤ (window history).length := by
      rw [window, List.length_drop]
      omega
    rw [← decodeAfter_append (history.take (history.length - DICT)) hlen block, window,
      List.take_append_drop]

/-- What is relied on of the block decompressor: a block of the format that fits is decoded, and there is
room for the longest block of a legacy stream. -/
structure Flex.Right (fx : Flex) : Prop where
  into : ∀ block out cap, decode block = some out → out.length ≤ cap →
    fx.decompressInto block cap = some out
  withDict : ∀ block dict out cap, decodeAfter dict block = some out → out.length ≤ cap →
    fx.decompressIntoWithDict block cap dict = some out
  bound : compressBound LEGACY_BLOCK ≤ fx.getMaximumOutputSize LEGACY_BLOCK

/-! ## Numbers of the format -/

theorem le32_eq (m : Nat) : le32 (le 4 m) = UInt32.ofNat m := by
  have := leAt_le 4 m []
  rw [List.append_nil] at this
  rw [le32, this]
  exact UInt32.toNat_inj.1 (by simp [UInt32.toNat_ofNat'])

theorem skippable_skipMagic (nibble : Fin 16) : isSkippable (le32 (le 4 (skipMagic nibble))) = true := by
  rw [le32_eq]
  revert nibble
  decide

theorem skippable_small {n : Nat} (h : n < 0x184D2A50) : isSkippable (le32 (le 4 n)) = false := by
  rw [isSkippable, decide_eq_false_iff_not, le32_eq]
  intro heq
  have hnat := congrArg UInt32.toNat heq
  rw [UInt32.toNat_and, UInt32.toNat_ofNat'] at hnat
  have hle := Nat.and_le_left (n := n % 2 ^ 32) (m := SKIPPABLE_MASK.toNat)
  rw [hnat, show SKIPPABLE_BASE.toNat = 0x184D2A50 from rfl] at hle
  omega

/-- The bits of the flags. -/
theorem flg_bits (h : Head) : h.flg >>> 6 = 1 ∧ h.flg &&& 0x01 = 0 ∧
    decide (h.flg &&& 0x20 ≠ 0) = h.independent ∧ decide (h.flg &&& 0x10 ≠ 0) = h.blockChecksum ∧
    decide (h.flg &&& 0x04 ≠ 0) = h.contentChecksum ∧ (h.flg &&& 0x08 ≠ 0 ↔ h.contentSize.isSome = true) := by
  rw [Head.flg]
  generalize h.independent = i, h.blockChecksum = bc, h.contentChecksum = cc, h.contentSize.isSome = cs
  revert i bc cc cs
  decide

theorem bd_bits (h : Head) : ((h.bd >>> 4) &&& 0x7).toNat = h.maxCode.val + 4 := by
  rw [Head.bd]
  generalize h.maxCode = c
  revert c
  decide

/-- The word in front of a block says whether it is stored and how long it is. -/
theorem word_bits {n : Nat} (hn : n < 2 ^ 31) (stored : Bool) :
    (decide (le32 (le 4 (n + if stored then 0x80000000 else 0)) &&& 0x80000000 ≠ 0) = stored) ∧
      (le32 (le 4 (n + if stored then 0x80000000 else 0)) &&& 0x7FFFFFFF).toNat = n ∧
      (le32 (le 4 (n + if stored then 0x80000000 else 0)) = 0 ↔ stored = false ∧ n = 0) := by
  have hlt : n + (if stored then 0x80000000 else 0) < 2 ^ 32 := by split <;> omega
  have hnat := le32_le hlt
  generalize le32 (le 4 (n + if stored then 0x80000000 else 0)) = w at hnat
  refine ⟨?_, ?_, ?_⟩
  · have hand : (w &&& 0x80000000).toNat = if stored then 0x80000000 else 0 := by
      rw [UInt32.toNat_and, hnat, show (0x80000000 : UInt32).toNat = 2 ^ 31 from rfl, Nat.and_two_pow]
      cases stored with
      | true =>
        rw [if_pos rfl, show n + 0x80000000 = 2 ^ 31 + n by omega, Nat.testBit_two_pow_add_eq,
          Nat.testBit_lt_two_pow hn]
        rfl
      | false =>
        rw [if_neg (by simp), Nat.add_zero, Nat.testBit_lt_two_pow hn]
        rfl
    cases stored with
    | true =>
      rw [decide_eq_true_eq]
      intro h0
      rw [h0] at hand
      exact absurd hand (by decide)
    | false =>
      rw [decide_eq_false_iff_not, not_not]
      exact UInt32.toNat_inj.1 hand
  · rw [UInt32.toNat_and, hnat, show (0x7FFFFFFF : UInt32).toNat = 2 ^ 31 - 1 from rfl,
      Nat.and_two_pow_sub_one_eq_mod]
    split <;> omega
  · rw [← UInt32.toNat_inj, hnat, show (0 : UInt32).toNat = 0 from rfl]
    cases stored with
    | true => simp
    | false => simp

/-! ## Where the decoder stands -/

/-- Between two items: `stream` is what is left, a magic already read included. -/
structure Between (stream : Bytes) (k : UInt32) (closed : Bool) (d : Decoder) : Prop where
  cur : d.cur = none
  frames : d.frames = k
  closed : d.closed = closed
  ahead : (d.pendingMagic.elim [] fun m => le 4 m.toNat) ++ d.r.rest = stream

/-- Inside a frame that has spelled `history` so far. -/
structure InFrame (h : Head) (history stream : Bytes) (k : UInt32) (d : Decoder) : Prop where
  cur : d.cur = some (.frame h.independent h.blockChecksum h.contentChecksum h.maxBlock)
  frames : d.frames = k
  pending : d.pendingMagic = none
  rest : d.r.rest = stream
  dict : h.independent = false → d.dict = window history

/-- Inside a legacy stream. -/
structure InLegacy (stream : Bytes) (k : UInt32) (d : Decoder) : Prop where
  cur : d.cur = some .legacy
  frames : d.frames = k
  closed : d.closed = false
  pending : d.pendingMagic = none
  rest : d.r.rest = stream

/-! ## What `start_frame` finds -/

/-- The decoder once the magic has been read. -/
def Decoder.past (d : Decoder) (r : Bytes) : Decoder := { d.at r with pendingMagic := none }

theorem nextMagic_none (hp : d.pendingMagic = none) : nextMagic d = readU32 d := by
  rw [nextMagic, get_bind, hp]

theorem nextMagic_some {m : UInt32} (hp : d.pendingMagic = some m) :
    nextMagic d = .ok (some m, { d with pendingMagic := none }) := by
  rw [nextMagic, get_bind, hp]
  rfl

theorem gets_nextMagic {m : Nat} (h : Between (le 4 m ++ r) k closed d) :
    Gets nextMagic d (some (le32 (le 4 m))) (d.past r) := by
  have hahead := h.ahead
  cases hp : d.pendingMagic with
  | none =>
    rw [hp, Option.elim_none, List.nil_append] at hahead
    obtain ⟨sp, hsp⟩ := gets_readU32 hahead
    refine ⟨sp, ?_⟩
    rw [nextMagic_none hp, hsp, Decoder.past, Decoder.at, Decoder.splitting, Decoder.splitting, hp]
  | some m' =>
    rw [hp, Option.elim_some] at hahead
    obtain ⟨hle, hrest⟩ := List.append_inj hahead (by rw [length_le, length_le])
    have hword : m' = le32 (le 4 m) := by
      rw [← hle, le32_eq]
      exact UInt32.toNat_inj.1 (by rw [UInt32.toNat_ofNat']; have := m'.toNat_lt; omega)
    refine ⟨d.r.splits, ?_⟩
    rw [nextMagic_some hp, ← hword]
    subst hrest
    rfl

/-- Where a loop of `next_block` goes on after a started container. -/
theorem nextBlock_started (hcur : d.cur = none) (h : startFrame d = .ok (true, d')) :
    nextBlock fx d = nextBlock fx d' := by
  have hturn : blockTurn fx d = .ok (none, d') := by
    rw [blockTurn_none hcur]
    show (startFrame d >>= fun q => _) = _
    rw [h]
    rfl
  exact loop_again hturn (blockTurn_work hturn (by simp))

theorem nextBlock_finished (hcur : d.cur = none) (h : startFrame d = .ok (false, d')) :
    nextBlock fx d = .ok (none, d') := by
  refine loop_stop ?_
  rw [blockTurn_none hcur]
  show (startFrame d >>= fun q => _) = _
  rw [h]
  rfl

theorem nextBlock_broken (hcur : d.cur = none) (h : Fails startFrame d) : Fails (nextBlock fx) d := by
  obtain ⟨e, h⟩ := h
  refine ⟨e, loop_fail ?_⟩
  rw [blockTurn_none hcur]
  show (startFrame d >>= fun q => _) = _
  rw [h]
  rfl

variable (fx) in
/-- A skippable frame is passed over. -/
theorem start_skip (nibble : Fin 16) {data : Bytes} (hdata : data.length < 2 ^ 32)
    (h : Between ((Item.skip nibble data).bytes ++ r) k closed d) :
    ∃ d', Between r k closed d' ∧ nextBlock fx d = nextBlock fx d' := by
  rw [Item.bytes, Item.body, Item.magic, List.append_assoc, List.append_assoc] at h
  have hturn : Gets startTurn d none (d.past r) := by
    refine (gets_nextMagic h).bind fun sp => ?_
    dsimp only
    rw [if_pos (skippable_skipMagic nibble)]
    refine (gets_needU32 rfl).bind fun sp => ?_
    rw [le32_le hdata]
    refine (gets_skip rfl).bind fun sp => ?_
    exact ⟨sp, rfl⟩
  obtain ⟨sp, hsp⟩ := hturn
  refine ⟨(d.past r).splitting sp, ⟨h.cur, h.frames, h.closed, rfl⟩, ?_⟩
  have hstart : startFrame d = startFrame ((d.past r).splitting sp) := loop_again hsp (startTurn_left hsp)
  refine loop_congr (fun s s' hs => blockTurn_work hs (by simp)) ?_
  have h1 : blockTurn fx d = _ := blockTurn_none h.cur
  have h2 : blockTurn fx ((d.past r).splitting sp) = _ := blockTurn_none h.cur
  rw [h1, h2]
  show (startFrame d >>= fun q => _) = (startFrame ((d.past r).splitting sp) >>= fun q => _)
  rw [hstart]

variable (fx) in
theorem start_legacy (h : Between (le 4 legacyMagic ++ r) k closed d) :
    ∃ d', InLegacy r (k + 1) d' ∧ nextBlock fx d = nextBlock fx d' := by
  have hturn : Gets startTurn d (some true)
      { d.past r with closed := false, cur := some .legacy, frames := d.frames + 1 } := by
    refine (gets_nextMagic h).bind fun sp => ?_
    dsimp only
    rw [if_neg (by rw [skippable_small (by decide)]; simp), if_pos (by rw [le32_eq]; rfl)]
    refine (gets_modify _ _).bind fun sp => ?_
    exact ⟨sp, rfl⟩
  obtain ⟨sp, hsp⟩ := hturn
  exact ⟨_, ⟨rfl, congrArg (· + 1) h.frames, rfl, rfl, rfl⟩,
    nextBlock_started h.cur (loop_stop hsp)⟩

/-- The end of a header: its checksum, and the container that is started. -/
def headerTail (flg bd : UInt8) : Dec Unit := do
  let _ ← need 1 .midHeader
  modify fun d => { d with
    cur := some (.frame (flg &&& 0x20 ≠ 0) (flg &&& 0x10 ≠ 0) (flg &&& 0x04 ≠ 0)
      (2 ^ (8 + 2 * ((bd >>> 4) &&& 0x7).toNat)))
    dict := []
    frames := d.frames + 1
    closed := false }

/-- The rest of a header, once its flags have been read. -/
def headerRest (flg bd : UInt8) : Dec Unit :=
  if flg &&& 0x08 ≠ 0 then do
    let b ← need 8 .midHeader
    modify fun d => { d with
      contentSize :=
        if d.frames = 0 then some (le64 b)
        else d.contentSize.map fun total =>
          if total.toNat + (le64 b).toNat < 2 ^ 64 then total + le64 b else UInt64.ofNat (2 ^ 64 - 1) }
    headerTail flg bd
  else do
    modify fun d => { d with contentSize := if d.frames ≠ 0 then none else d.contentSize }
    headerTail flg bd

/-- The flags of a frame of the format are accepted. -/
theorem startHeader_eq (h : Head) {d' : Decoder} (hb : Gets (need 2 .midHeader) d [h.flg, h.bd] d') :
    ∃ splits, startHeader d = headerRest h.flg h.bd (d'.splitting splits) := by
  obtain ⟨sp, hsp⟩ := hb
  obtain ⟨h1, h2, -⟩ := flg_bits h
  have h3 := bd_bits h
  refine ⟨sp, ?_⟩
  show (need 2 .midHeader d >>= fun q => _) = _
  rw [hsp]
  show (if h.flg >>> 6 ≠ 1 then fail (.version (h.flg >>> 6))
    else if h.flg &&& 0x01 ≠ 0 then fail .dictionary
    else if ((h.bd >>> 4) &&& 0x7).toNat < 4 then fail (.blockCode ((h.bd >>> 4) &&& 0x7))
    else headerRest h.flg h.bd : Dec Unit) (d'.splitting sp) = _
  rw [if_neg (by rw [h1]; simp), if_neg (by rw [h2]; simp), if_neg (by omega)]

theorem maxBlock_eq (h : Head) : 2 ^ (8 + 2 * ((h.bd >>> 4) &&& 0x7).toNat) = h.maxBlock := by
  rw [bd_bits, Head.maxBlock]
  congr 1
  omega

/-- The frame has been started. -/
def Decoder.begun (h : Head) (r : Bytes) (d : Decoder) : Decoder :=
  { d.at r with
    cur := some (.frame h.independent h.blockChecksum h.contentChecksum h.maxBlock)
    dict := []
    frames := d.frames + 1
    closed := false }

theorem gets_headerTail (h : Head) (hrest : d.r.rest = [h.headerChecksum] ++ r) :
    Gets (headerTail h.flg h.bd) d () (d.begun h r) := by
  obtain ⟨-, -, hi, hbc, hcc, -⟩ := flg_bits h
  refine (gets_need hrest rfl).bind fun sp => ?_
  rw [hi, hbc, hcc, maxBlock_eq]
  exact ⟨sp, rfl⟩

/-- The header of a frame is read to its end. -/
theorem gets_startHeader (h : Head) (hp : d.pendingMagic = none) (hrest : d.r.rest = h.bytes ++ r) :
    ∃ d', startHeader d = .ok ((), d') ∧ InFrame h [] r (d.frames + 1) d' := by
  have hneed : Gets (need 2 .midHeader) d [h.flg, h.bd]
      (d.at ((h.contentSize.elim [] fun n => le 8 n.toNat) ++ ([h.headerChecksum] ++ r))) := by
    refine gets_need ?_ rfl
    rw [hrest, Head.bytes]
    simp
  obtain ⟨sp, heq⟩ := startHeader_eq h hneed
  have hcs := (flg_bits h).2.2.2.2.2
  -- from the place in front of the last byte
  have hlast : ∀ s : Decoder, startHeader d = headerTail h.flg h.bd s →
      s.r.rest = [h.headerChecksum] ++ r → s.pendingMagic = none → s.frames = d.frames →
      ∃ d', startHeader d = .ok ((), d') ∧ InFrame h [] r (d.frames + 1) d' := by
    intro s h4 h1 h2 h3
    obtain ⟨sp', h5⟩ := gets_headerTail h h1
    exact ⟨_, h4.trans h5, rfl, congrArg (· + 1) h3, h2, rfl, fun _ => rfl⟩
  cases hsize : h.contentSize with
  | none =>
    rw [hsize] at hcs heq
    rw [headerRest, if_neg (fun hc => absurd (hcs.1 hc) (by simp))] at heq
    generalize hs : (d.at ((none : Option UInt64).elim [] (fun n => le 8 n.toNat) ++
      ([h.headerChecksum] ++ r))).splitting sp = s at heq
    refine hlast { s with contentSize := if s.frames ≠ 0 then none else s.contentSize } heq ?_ ?_ ?_
    · rw [← hs]
      rfl
    · rw [← hs]
      exact hp
    · rw [← hs]
      rfl
  | some n =>
    rw [hsize] at hcs heq
    generalize hs : (d.at ((some n).elim [] (fun n => le 8 n.toNat) ++
      ([h.headerChecksum] ++ r))).splitting sp = s at heq
    obtain ⟨sp', h8⟩ := gets_need (e := .midHeader) (d := s) (r := [h.headerChecksum] ++ r)
      (by rw [← hs]; rfl) (length_le 8 n.toNat)
    rw [headerRest, if_pos (hcs.2 rfl)] at heq
    refine hlast { (s.at ([h.headerChecksum] ++ r)).splitting sp' with
      contentSize :=
        if s.frames = 0 then some (le64 (le 8 n.toNat))
        else s.contentSize.map fun total =>
          if total.toNat + (le64 (le 8 n.toNat)).toNat < 2 ^ 64 then total + le64 (le 8 n.toNat)
          else UInt64.ofNat (2 ^ 64 - 1) } (heq.trans ?_) rfl ?_ ?_
    · show (need 8 .midHeader _ >>= fun q => _) = _
      rw [h8]
      rfl
    · rw [← hs]
      exact hp
    · rw [← hs]
      rfl

theorem startTurn_magic {m : UInt32} (h : nextMagic d = .ok (some m, d')) : startTurn d =
    (if isSkippable m then (do
        let n ← needU32
        skip n.toNat
        return none)
      else if m = LEGACY_MAGIC then (do
        modify fun d => { d with closed := false, cur := some .legacy, frames := d.frames + 1 }
        return some true)
      else if m ≠ FRAME_MAGIC then (do
        if (← get).frames ≠ 0 then fail .trailing else fail .notLz4)
      else (do
        startHeader
        return some true) : Dec (Option Bool)) d' := by
  show (nextMagic d >>= fun q => _) = _
  rw [h]
  rfl

variable (fx) in
theorem start_frame (h : Head) (hb : Between (le 4 frameMagic ++ (h.bytes ++ r)) k closed d) :
    ∃ d', InFrame h [] r (k + 1) d' ∧ nextBlock fx d = nextBlock fx d' := by
  obtain ⟨sp, hmagic⟩ := gets_nextMagic hb
  obtain ⟨d', hhead, hin⟩ := gets_startHeader h (d := (d.past (h.bytes ++ r)).splitting sp) rfl rfl
  have hturn : startTurn d = .ok (some true, d') := by
    rw [startTurn_magic hmagic, if_neg (by rw [skippable_small (by decide)]; simp),
      if_neg (by rw [le32_eq]; decide), if_neg (by rw [le32_eq]; decide)]
    show (startHeader _ >>= fun q => _) = _
    rw [hhead]
    rfl
  refine ⟨_, ?_, nextBlock_started hb.cur (loop_stop hturn)⟩
  have hk : ((d.past (h.bytes ++ r)).splitting sp).frames = k := hb.frames
  exact hk ▸ hin

variable (fx) in
/-- The end of the stream, between two items. -/
theorem start_end (h : Between [] k closed d) :
    if k = 0 then Fails (nextBlock fx) d
    else ∃ d', d'.closed = closed ∧ nextBlock fx d = .ok (none, d') := by
  obtain ⟨hp, hrest⟩ := List.append_eq_nil_iff.1 h.ahead
  have hnone : d.pendingMagic = none := by
    cases hm : d.pendingMagic with
    | none => rfl
    | some m =>
      rw [hm] at hp
      exact absurd (congrArg List.length hp) (by simp)
  obtain ⟨sp, hread⟩ := gets_readU32_end hrest
  have hturn : startTurn d = (if d.frames ≠ 0 then (pure (some false) : Dec (Option Bool))
      else fail .empty) ((d.at []).splitting sp) := by
    show (nextMagic d >>= fun q => _) = _
    rw [nextMagic_none hnone, hread]
    rfl
  split
  · rename_i hk
    refine nextBlock_broken h.cur ⟨.empty, loop_fail ?_⟩
    rw [hturn, if_neg (by rw [h.frames, hk]; simp)]
    rfl
  · rename_i hk
    rw [if_pos (by rw [h.frames]; exact hk)] at hturn
    exact ⟨(d.at []).splitting sp, h.closed, nextBlock_finished h.cur (loop_stop hturn)⟩

/-! ## What `next_block` does inside a container -/

theorem nextBlock_block {out : Bytes} (h : blockTurn fx d = .ok (some (some out), d')) :
    nextBlock fx d = .ok (some out, d') :=
  loop_stop h

theorem nextBlock_again (h : blockTurn fx d = .ok (none, d')) : nextBlock fx d = nextBlock fx d' :=
  loop_again h (blockTurn_work h (by simp))

variable {h : Head} {b : Block} {word : UInt32}

/-- What is done with a block's bytes inside a frame. -/
theorem gets_blockData (hfx : fx.Right) (hin : InFrame h history stream k d)
    (hb : b.Decodes (if h.independent then [] else history) out) (hout : out.length ≤ h.maxBlock) :
    (if b.stored then (pure b.data : Dec Bytes)
      else if h.independent ∨ d.dict = [] then undamaged (fx.decompressInto b.data h.maxBlock)
      else undamaged (fx.decompressIntoWithDict b.data h.maxBlock d.dict)) = pure out := by
  rw [Block.Decodes] at hb
  cases hs : b.stored with
  | true =>
    rw [hs, if_pos rfl] at hb
    rw [if_pos rfl, hb]
  | false =>
    rw [hs, if_neg (by simp)] at hb
    rw [if_neg (by simp)]
    cases hi : h.independent with
    | true =>
      rw [hi, if_pos rfl, decodeAfter_nil] at hb
      rw [if_pos (.inl rfl), hfx.into _ _ _ hb.2 hout]
      rfl
    | false =>
      rw [hi, if_neg (by simp), ← decodeAfter_window, ← hin.dict hi] at hb
      by_cases hd : d.dict = []
      · rw [hd, decodeAfter_nil] at hb
        rw [if_pos (.inr hd), hfx.into _ _ _ hb.2 hout]
        rfl
      · rw [if_neg (by simp [hd]), hfx.withDict _ _ _ _ hb.2 hout]
        rfl

theorem gets_blockOut (hfx : fx.Right)
    (hin : InFrame h history stream k d) (hb : b.Decodes (if h.independent then [] else history) out)
    (hout : out.length ≤ h.maxBlock) (hstored : decide (word &&& 0x80000000 ≠ 0) = b.stored)
    (s : Decoder) :
    Gets (if word &&& 0x80000000 ≠ 0 then (return b.data : Dec Bytes)
      else if h.independent ∨ d.dict = [] then undamaged (fx.decompressInto b.data h.maxBlock)
      else undamaged (fx.decompressIntoWithDict b.data h.maxBlock d.dict)) s out s := by
  have hdata : (if word &&& 0x80000000 ≠ 0 then (return b.data : Dec Bytes)
      else if h.independent ∨ d.dict = [] then undamaged (fx.decompressInto b.data h.maxBlock)
      else undamaged (fx.decompressIntoWithDict b.data h.maxBlock d.dict)) = pure out := by
    rw [← gets_blockData hfx hin hb hout]
    cases hs : b.stored with
    | true => rw [if_pos (by simpa [hs] using hstored), if_pos rfl]
    | false =>
      rw [if_neg (by simpa [hs] using hstored)]
      simp only [Bool.false_eq_true, if_false]
  rw [hdata]
  exact .pure _ _

/-- What a turn inside a frame does with the word in front of a block. -/
theorem frameTurn_word {i bc cc : Bool} {max : Nat} (h : needU32 d = .ok (word, d')) :
    frameTurn fx i bc cc max d =
    (if word = 0 then (do
        if cc then let _ ← needU32
        modify fun d => { d with cur := none, closed := true }
        return none)
      else if (word &&& 0x7FFFFFFF).toNat > max then fail (.blockSize (word &&& 0x7FFFFFFF).toNat)
      else (do
        let input ← need (word &&& 0x7FFFFFFF).toNat .midBlock
        let dict := (← get).dict
        let out ← (if word &&& 0x80000000 ≠ 0 then return input
          else if i ∨ dict = [] then undamaged (fx.decompressInto input max)
          else undamaged (fx.decompressIntoWithDict input max dict) : Dec Bytes)
        if bc then let _ ← needU32
        if !i then modify fun d => { d with dict := slide d.dict out }
        return some (some out)) : Dec (Option (Option Bytes))) d' := by
  show (needU32 d >>= fun q => _) = _
  rw [h]
  rfl

theorem gets_get (d : Decoder) : Gets (get : Dec Decoder) d d d := ⟨d.r.splits, rfl⟩

theorem maxBlock_le (h : Head) : h.maxBlock ≤ 4194304 := by
  have hle : 16 + 2 * h.maxCode.val ≤ 22 := by
    have := h.maxCode.isLt
    omega
  exact Nat.pow_le_pow_right (by decide) hle

/-- The end of a block: its checksum is passed over, and the window moves on. -/
theorem gets_blockEnd (h : Head) (checksum : UInt32) (out : Bytes)
    (hrest : d.r.rest = (if h.blockChecksum then le 4 checksum.toNat else []) ++ r) :
    Gets (do
      if h.blockChecksum then let _ ← needU32
      if !h.independent then modify fun d => { d with dict := slide d.dict out }
      return some (some out) : Dec (Option (Option Bytes))) d (some (some out))
      { d.at r with dict := if h.independent then d.dict else slide d.dict out } := by
  have htail : ∀ s : Decoder, Gets (do
      if !h.independent then modify fun d => { d with dict := slide d.dict out }
      return some (some out) : Dec (Option (Option Bytes))) s (some (some out))
      { s with dict := if h.independent then s.dict else slide s.dict out } := by
    intro s
    cases h.independent <;> exact ⟨s.r.splits, rfl⟩
  cases hbc : h.blockChecksum with
  | true =>
    rw [hbc, if_pos rfl] at hrest
    rw [if_pos rfl]
    exact (gets_needU32 hrest).bind fun sp => htail _
  | false =>
    rw [hbc, if_neg (by simp), List.nil_append] at hrest
    have hat : d.at r = d := by rw [Decoder.at, ← hrest]
    rw [if_neg (by simp), hat]
    exact htail d

/-- **A block of a frame.** -/
theorem frame_block (hfx : fx.Right) (hin : InFrame h history (b.bytes h ++ r) k d)
    (hdata : b.data.length ≤ h.maxBlock) (hb : b.Decodes (if h.independent then [] else history) out)
    (hout : out.length ≤ h.maxBlock) :
    ∃ d', InFrame h (history ++ out) r k d' ∧ nextBlock fx d = .ok (some out, d') := by
  have hmax := maxBlock_le h
  obtain ⟨hstored, hlen, hzero⟩ := word_bits (n := b.data.length) (by omega) b.stored
  have hrest : d.r.rest = le 4 (b.data.length + if b.stored then 0x80000000 else 0) ++
      (b.data ++ ((if h.blockChecksum then le 4 b.checksum.toNat else []) ++ r)) := by
    rw [hin.rest, Block.bytes, List.append_assoc, List.append_assoc]
  obtain ⟨sp, hword⟩ := gets_needU32 hrest
  generalize le32 (le 4 (b.data.length + if b.stored then 0x80000000 else 0)) = word at *
  have hne : word ≠ 0 := by
    intro h0
    obtain ⟨h1, h2⟩ := hzero.1 h0
    rw [Block.Decodes, h1, if_neg (by simp)] at hb
    exact hb.1 (List.length_eq_zero_iff.1 h2)
  have hturn : Gets (frameTurn fx h.independent h.blockChecksum h.contentChecksum h.maxBlock) d
      (some (some out)) { d.at r with dict := if h.independent then d.dict else slide d.dict out } := by
    have hbody : Gets (do
        let input ← need (word &&& 0x7FFFFFFF).toNat .midBlock
        let dict := (← get).dict
        let out ← (if word &&& 0x80000000 ≠ 0 then return input
          else if h.independent ∨ dict = [] then undamaged (fx.decompressInto input h.maxBlock)
          else undamaged (fx.decompressIntoWithDict input h.maxBlock dict) : Dec Bytes)
        if h.blockChecksum then let _ ← needU32
        if !h.independent then modify fun d => { d with dict := slide d.dict out }
        return some (some out)) ((d.at (b.data ++ ((if h.blockChecksum then le 4 b.checksum.toNat else []) ++
          r))).splitting sp) (some (some out))
        { d.at r with dict := if h.independent then d.dict else slide d.dict out } := by
      rw [hlen]
      refine (gets_need rfl rfl).bind fun sp => (gets_get _).bind fun sp' => ?_
      have hpure := gets_blockOut hfx hin hb hout hstored
      exact (hpure _).bind fun sp'' => gets_blockEnd h b.checksum out rfl
    obtain ⟨sp', hbody⟩ := hbody
    refine ⟨sp', ?_⟩
    rw [frameTurn_word hword, if_neg hne, if_neg (by omega)]
    exact hbody
  obtain ⟨sp', hturn⟩ := hturn
  rw [← blockTurn_frame hin.cur] at hturn
  refine ⟨_, ?_, nextBlock_block hturn⟩
  refine ⟨hin.cur, hin.frames, hin.pending, rfl, fun hi => ?_⟩
  show (if h.independent then d.dict else slide d.dict out) = _
  rw [hi, if_neg (by simp), hin.dict hi, slide_window]

variable (fx) in
/-- The end mark of a frame. -/
theorem frame_end (checksum : UInt32) (hin : InFrame h history
    (le 4 0 ++ ((if h.contentChecksum then le 4 checksum.toNat else []) ++ r)) k d) :
    ∃ d', Between r k true d' ∧ nextBlock fx d = nextBlock fx d' := by
  obtain ⟨sp, hword⟩ := gets_needU32 hin.rest
  have hzero : le32 (le 4 0) = 0 := rfl
  have hturn : Gets (frameTurn fx h.independent h.blockChecksum h.contentChecksum h.maxBlock) d none
      { d.at r with cur := none, closed := true } := by
    have hbody : Gets (do
        if h.contentChecksum then let _ ← needU32
        modify fun d => { d with cur := none, closed := true }
        return none : Dec (Option (Option Bytes))) ((d.at ((if h.contentChecksum then le 4 checksum.toNat else []) ++
          r)).splitting sp) none { d.at r with cur := none, closed := true } := by
      cases hcc : h.contentChecksum with
      | true =>
        rw [if_pos rfl, if_pos rfl]
        exact (gets_needU32 rfl).bind fun sp => ⟨_, rfl⟩
      | false =>
        rw [if_neg (by simp), if_neg (by simp)]
        exact ⟨_, rfl⟩
    obtain ⟨sp', hbody⟩ := hbody
    refine ⟨sp', ?_⟩
    rw [frameTurn_word hword, if_pos hzero]
    exact hbody
  obtain ⟨sp', hturn⟩ := hturn
  rw [← blockTurn_frame hin.cur] at hturn
  refine ⟨_, ?_, nextBlock_again hturn⟩
  refine ⟨rfl, hin.frames, rfl, ?_⟩
  show (d.pendingMagic.elim [] fun m => le 4 m.toNat) ++ r = r
  rw [hin.pending]
  rfl

/-! ### Legacy streams -/

/-- What a turn inside a legacy stream does with the word it reads. -/
theorem legacyTurn_word (h : readU32 d = .ok (some word, d')) : legacyTurn fx d =
    (if word = FRAME_MAGIC ∨ word = LEGACY_MAGIC ∨ isSkippable word then (do
        modify fun d => { d with cur := none, pendingMagic := some word }
        return none)
      else if word.toNat = 0 ∨ word.toNat > fx.getMaximumOutputSize LEGACY_BLOCK then
        fail (.legacySize word.toNat)
      else (do
        let input ← need word.toNat .midBlock
        let out ← undamaged (fx.decompressInto input LEGACY_BLOCK)
        return some (some out)) : Dec (Option (Option Bytes))) d' := by
  show (readU32 d >>= fun q => _) = _
  rw [h]
  rfl

/-- **A block of a legacy stream.** -/
theorem legacy_block (hfx : fx.Right) {data : Bytes} (hin : InLegacy (legacyBytes data ++ r) k d)
    (hne : data ≠ []) (hlen : data.length ≤ compressBound legacyBlock) (hb : decode data = some out)
    (hout : out.length ≤ legacyBlock) :
    ∃ d', InLegacy r k d' ∧ nextBlock fx d = .ok (some out, d') := by
  have hpos := List.length_pos_iff.2 hne
  have hbound : compressBound legacyBlock = 8421520 := by decide
  have hfxb : compressBound legacyBlock ≤ fx.getMaximumOutputSize LEGACY_BLOCK := hfx.bound
  have hrest : d.r.rest = le 4 data.length ++ (data ++ r) := by
    rw [hin.rest, legacyBytes, List.append_assoc]
  obtain ⟨sp, hword⟩ := gets_readU32 hrest
  have hnat : (le32 (le 4 data.length)).toNat = data.length := le32_le (by omega)
  have hturn : Gets (legacyTurn fx) d (some (some out)) (d.at r) := by
    have hbody : Gets (do
        let input ← need data.length .midBlock
        let out ← undamaged (fx.decompressInto input LEGACY_BLOCK)
        return some (some out)) ((d.at (data ++ r)).splitting sp) (some (some out)) (d.at r) := by
      refine (gets_need rfl rfl).bind fun sp => ?_
      rw [hfx.into data out LEGACY_BLOCK hb hout]
      exact ⟨sp, rfl⟩
    obtain ⟨sp', hbody⟩ := hbody
    refine ⟨sp', ?_⟩
    have hmagic : ¬ (le32 (le 4 data.length) = FRAME_MAGIC ∨ le32 (le 4 data.length) = LEGACY_MAGIC ∨
        isSkippable (le32 (le 4 data.length)) = true) := by
      rintro (h | h | h)
      · rw [h] at hnat
        exact absurd hnat (by rw [show FRAME_MAGIC.toNat = 0x184D2204 from rfl]; omega)
      · rw [h] at hnat
        exact absurd hnat (by rw [show LEGACY_MAGIC.toNat = 0x184C2102 from rfl]; omega)
      · rw [skippable_small (by omega)] at h
        simp at h
    rw [legacyTurn_word hword, if_neg hmagic, hnat, if_neg (by omega)]
    exact hbody
  obtain ⟨sp', hturn⟩ := hturn
  rw [← blockTurn_legacy hin.cur] at hturn
  refine ⟨_, ?_, nextBlock_block hturn⟩
  exact ⟨hin.cur, hin.frames, hin.closed, hin.pending, rfl⟩

variable (fx) in
/-- A legacy stream ends where the next item begins. -/
theorem legacy_next (i : Item) (hin : InLegacy (le 4 i.magic ++ r) k d) :
    ∃ d', Between (le 4 i.magic ++ r) k false d' ∧ nextBlock fx d = nextBlock fx d' := by
  obtain ⟨sp, hword⟩ := gets_readU32 hin.rest
  have hmagic : le32 (le 4 i.magic) = FRAME_MAGIC ∨ le32 (le 4 i.magic) = LEGACY_MAGIC ∨
      isSkippable (le32 (le 4 i.magic)) = true := by
    cases i with
    | frame => exact .inl (le32_eq frameMagic)
    | legacy => exact .inr (.inl (le32_eq legacyMagic))
    | skip nibble data => exact .inr (.inr (skippable_skipMagic nibble))
  have hturn : legacyTurn fx d = .ok (none, { (d.at r).splitting sp with
      cur := none, pendingMagic := some (le32 (le 4 i.magic)) }) := by
    rw [legacyTurn_word hword, if_pos hmagic]
    rfl
  rw [← blockTurn_legacy hin.cur] at hturn
  refine ⟨_, ?_, nextBlock_again hturn⟩
  refine ⟨rfl, hin.frames, hin.closed, ?_⟩
  show le 4 (le32 (le 4 i.magic)).toNat ++ r = _
  rw [le32_le (magic_lt i)]

variable (fx) in
/-- The end of the stream inside a legacy stream. -/
theorem legacy_end (hin : InLegacy [] k d) :
    ∃ d', d'.closed = false ∧ nextBlock fx d = .ok (none, d') := by
  obtain ⟨sp, hread⟩ := gets_readU32_end hin.rest
  have hturn : legacyTurn fx d = .ok (some none, { (d.at []).splitting sp with cur := none }) := by
    show (readU32 d >>= fun q => _) = _
    rw [hread]
    rfl
  rw [← blockTurn_legacy hin.cur] at hturn
  refine ⟨_, ?_, loop_stop hturn⟩
  exact hin.closed

end Ps5Upload.LinkLz4
