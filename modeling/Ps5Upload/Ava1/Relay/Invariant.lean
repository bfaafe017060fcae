import Ps5Upload.Ava1.Relay.Buffer

/-!
# The relay buffer: what every turn keeps

The chunks of a run are the pieces of a `Split` of the expected bytes, put in any order and any
number of times, while the reader asks for expected positions in ascending order (`InOrder`).
`Inv` is what every turn then keeps.  Its parts:

* the counter is the sum of the buffered lengths (`bytes`), and the chunks the parked reader
  does not wait for fit in the cap (`room`): a chunk goes in over the cap only while it is the
  one waited for, and a reader that stops waiting has taken it or never had it;
* a chunk once accepted stays in the buffer or with the reader until the reader has passed it
  (`unread`);
* a call whose turn would now succeed has been notified (`wokenPut`, `wokenTake`).
-/

namespace Ps5Upload.RelayBuffer

open ByteFile
open ZipStored (Manifest)

/-! ## Splits -/

/-- The expected bytes, cut into chunks of at most the cap. -/
structure Split (r : Relay) where
  chunks : List Chunk
  nonempty : ∀ c ∈ chunks, c.data ≠ []
  small : ∀ c ∈ chunks, c.data.length ≤ r.cap
  expected : ∀ c ∈ chunks, ∀ p, c.holds c.id p → r.permitted c.id p
  disjoint : ∀ c ∈ chunks, ∀ d ∈ chunks, ∀ id p, c.holds id p → d.holds id p → c = d
  cover : ∀ id p, r.permitted id p → ∃ c ∈ chunks, c.holds id p

variable {r : Relay} {sp : Split r} {ids : List Nat}

variable {c : Chunk} {id off : Nat} {p : Parked} {w : World} {rd : Reader}

theorem Split.holds_start (hc : c ∈ sp.chunks) : c.holds c.id c.off := by
  have := List.length_pos_iff.2 (sp.nonempty c hc)
  exact ⟨rfl, Nat.le_refl _, by omega⟩

theorem Split.eq_of_key {d : Chunk} (hc : c ∈ sp.chunks) (hd : d ∈ sp.chunks)
    (h : c.key = d.key) : c = d := by
  have hk : c.id = d.id ∧ c.off = d.off := by simpa [Chunk.key] using h
  refine sp.disjoint c hc d hd c.id c.off (sp.holds_start hc) ?_
  rw [hk.1, hk.2]
  exact sp.holds_start hd

/-- A chunk is put only as a piece of the split (or empty, at the start of a file), and the
reader asks for expected positions, in each file in ascending order. -/
def InOrder (r : Relay) (sp : Split r) (w : World) : Action → Prop
  | .put c _ => c ∈ sp.chunks ∨ c.data = [] ∧ c.off = 0
  | .readAt off _ _ => ∀ rd ∈ w.reader, r.permitted rd.id off ∧
      ((ofLex w.cursor).1 = rd.id → (ofLex w.cursor).2 ≤ off)
  | _ => True

instance (sp : Split r) (w : World) : ∀ a, Decidable (InOrder r sp w a)
  | .put c _ => inferInstanceAs (Decidable (c ∈ sp.chunks ∨ c.data = [] ∧ c.off = 0))
  | .readAt off _ _ => inferInstanceAs (Decidable (∀ rd ∈ w.reader, r.permitted rd.id off ∧
      ((ofLex w.cursor).1 = rd.id → (ofLex w.cursor).2 ≤ off)))
  | .putAgain _ _ | .open_ _ _ _ | .takeAgain _ | .drop | .fail | .sourceEnded _ =>
    inferInstanceAs (Decidable True)

/-! ## The buffered chunk of a position -/

theorem key_le {p : Nat} (h : c.holds id p) : c.key ≤ toLex (id, p) := by
  rw [Chunk.key, Prod.Lex.toLex_le_toLex, h.1]
  exact .inr ⟨rfl, h.2.1⟩

/-- What is buffered was accepted. -/
def Stored (w : World) : Prop :=
  ∀ k d, w.state.chunks.get k = some d → ∃ c ∈ w.accepted, c.key = k ∧ c.data = d

theorem find_eq_some (hs : Stored w) {k : Key} {d : Bytes} (h : w.state.find id off = some (k, d)) :
    ∃ c ∈ w.accepted, c.key = k ∧ c.data = d ∧ c.holds id off ∧
      w.state.chunks.get k = some d := by
  rw [State.find, Option.filter_eq_some_iff] at h
  obtain ⟨hlast, htest⟩ := h
  obtain ⟨hget, hle, -⟩ := BTreeMap.lastLe_eq_some hlast
  obtain ⟨c, hc, rfl, rfl⟩ := hs k d hget
  refine ⟨c, hc, rfl, rfl, ?_, hget⟩
  rw [Bool.and_eq_true, decide_eq_true_eq, decide_eq_true_eq] at htest
  have ht : c.id = id ∧ off - c.off < c.data.length := htest
  rw [Chunk.key, Prod.Lex.toLex_le_toLex] at hle
  simp only at hle
  exact ⟨ht.1, by omega, by omega⟩

/-- The chunk of a position is found while it is buffered: no other chunk starts between its
start and the position. -/
theorem find_of_get (hs : Stored w) (ha : ∀ c ∈ w.accepted, c ∈ sp.chunks) (hc : c ∈ sp.chunks) (hh : c.holds id off)
    (hget : w.state.chunks.get c.key = some c.data) :
    w.state.find id off = some (c.key, c.data) := by
  have hsome : (w.state.chunks.get c.key).isSome := by rw [hget]; rfl
  cases hl : w.state.chunks.lastLe (toLex (id, off)) with
  | none => exact absurd (key_le hh) (not_le.2 (BTreeMap.lastLe_eq_none hl hsome))
  | some kd =>
    obtain ⟨k, d⟩ := kd
    obtain ⟨hk, hle, hmax⟩ := BTreeMap.lastLe_eq_some hl
    obtain ⟨c', hc', rfl, rfl⟩ := hs k d hk
    have hin := ha c' hc'
    have hcc' : c.key ≤ c'.key := hmax c.key hsome (key_le hh)
    have hsame : c = c' := by
      rw [Chunk.key, Chunk.key, Prod.Lex.toLex_le_toLex] at hcc'
      rw [Chunk.key, Prod.Lex.toLex_le_toLex] at hle
      have hid := hh.1
      have hoff := hh.2
      refine sp.disjoint c hc c' hin c'.id c'.off ?_ (sp.holds_start hin)
      simp only at hcc' hle
      exact ⟨by omega, by omega, by omega⟩
    subst hsame
    rw [State.find, hl, Option.filter_eq_some_iff]
    have hlt : off - c.off < c.data.length := by
      have := hh.2
      omega
    refine ⟨rfl, ?_⟩
    rw [Bool.and_eq_true, decide_eq_true_eq, decide_eq_true_eq]
    exact ⟨hh.1, hlt⟩

/-! ## The invariant -/

/-- The position the reader is parked on. -/
def World.parkedAt (w : World) : Option (Nat × Nat) :=
  w.reader.bind fun rd => rd.parked.map fun p => (rd.id, p.off)

/-- What a chunk counts towards the cap: nothing while the reader waits for it. -/
def spare (wanted : List (Nat × Nat)) (k : Key) (d : Bytes) : Nat :=
  if wanted.any (fun q => Chunk.holds ⟨(ofLex k).1, (ofLex k).2, d⟩ q.1 q.2) then 0
  else d.length

/-- The reader holds the byte at this position. -/
def Reader.has (rd : Reader) (id p : Nat) : Prop :=
  rd.id = id ∧ rd.pendingOff ≤ p ∧ p < rd.pendingOff + rd.pending.length

/-- What every turn keeps of the buffer. -/
structure BufferInv (r : Relay) (sp : Split r) (w : World) : Prop where
  bytes : w.state.bytes = w.state.chunks.sum fun _ d => d.length
  stored : Stored w
  accepted : ∀ c ∈ w.accepted, c ∈ sp.chunks
  wanted : w.state.wanted = w.parkedAt.toList
  room : w.state.chunks.sum (spare w.state.wanted) ≤ r.cap
  puts : ∀ p ∈ w.puts, p.chunk ∈ sp.chunks

/-- The calls that would not wait any longer have been notified. -/
structure Woken (w : World) : Prop where
  put : ∀ p ∈ w.puts, needed w.state p.chunk → p.woken
  take : ∀ rd ∈ w.reader, ∀ p ∈ rd.parked, (w.state.find rd.id p.off).isSome → p.woken

/-- What every turn keeps of the reader. -/
structure ReaderInv (r : Relay) (ids : List Nat) (w : World) : Prop where
  parked : ∀ rd ∈ w.reader, ∀ p ∈ rd.parked,
    r.permitted rd.id p.off ∧ 0 < p.len ∧ w.cursor ≤ toLex (rd.id, p.off) ∧
      ¬ rd.has rd.id p.off
  pending : ∀ rd ∈ w.reader, rd.pending ≠ [] →
    toLex (rd.id, rd.pendingOff) < w.cursor ∧ ∃ c ∈ w.accepted, c.id = rd.id ∧
      c.off ≤ rd.pendingOff ∧ rd.pending = c.data.drop (rd.pendingOff - c.off)
  unread : ∀ c ∈ w.accepted, ∀ p, c.holds c.id p → w.cursor ≤ toLex (c.id, p) →
    w.state.chunks.get c.key = some c.data ∨ ∃ rd ∈ w.reader, rd.has c.id p
  reads : ∀ e ∈ w.reads, ∀ i b, e.2.2[i]? = some b →
    ∃ c ∈ w.accepted, c.id = e.1 ∧ c.off ≤ e.2.1 + i ∧ c.data[e.2.1 + i - c.off]? = some b
  once : w.reads.Pairwise fun e e' => toLex (e.1, e.2.1 + e.2.2.length) ≤ toLex (e'.1, e'.2.1)
  passed : ∀ e ∈ w.reads, toLex (e.1, e.2.1 + e.2.2.length) ≤ w.cursor
  turn : ∀ rd ∈ w.reader, ids[w.next]? = some rd.id ∧ (ofLex w.cursor).1 ≤ rd.id
  later : w.reader = none → ∀ j id, w.next ≤ j → ids[j]? = some id → (ofLex w.cursor).1 ≤ id

structure Inv (r : Relay) (sp : Split r) (ids : List Nat) (w : World) : Prop where
  buffer : BufferInv r sp w
  woken : Woken w
  reader : ReaderInv r ids w

theorem inv_new : Inv r sp ids World.new where
  buffer := by
    constructor <;> simp [World.new, State.new, World.parkedAt, Stored]
  woken := by
    constructor <;> simp [World.new]
  reader := by
    constructor <;> simp [World.new]

/-! ## Notifying -/

theorem mem_reader_notifyAll (h : rd ∈ w.notifyAll.reader) :
    ∃ rd' ∈ w.reader, rd = { rd' with parked := rd'.parked.map fun p => { p with woken := true } } := by
  simp only [World.notifyAll, Option.mem_map] at h
  obtain ⟨rd', hrd', rfl⟩ := h
  exact ⟨rd', hrd', rfl⟩

theorem parkedAt_notifyAll (w : World) : w.notifyAll.parkedAt = w.parkedAt := by
  cases hr : w.reader with
  | none => simp [World.parkedAt, World.notifyAll, hr]
  | some rd => simp [World.parkedAt, World.notifyAll, hr, Function.comp_def]

theorem woken_notifyAll (w : World) : Woken w.notifyAll where
  put := by
    intro p hp _
    simp only [World.notifyAll, List.mem_map] at hp
    obtain ⟨q, -, rfl⟩ := hp
    rfl
  take := by
    intro rd hrd p hp _
    obtain ⟨rd', -, rfl⟩ := mem_reader_notifyAll hrd
    simp only [Option.mem_map] at hp
    obtain ⟨q, -, rfl⟩ := hp
    rfl

theorem BufferInv.notifyAll (h : BufferInv r sp w) : BufferInv r sp w.notifyAll where
  bytes := h.bytes
  stored := h.stored
  accepted := h.accepted
  wanted := by rw [parkedAt_notifyAll]; exact h.wanted
  room := h.room
  puts := by
    intro p hp
    simp only [World.notifyAll, List.mem_map] at hp
    obtain ⟨q, hq, rfl⟩ := hp
    exact h.puts q hq

theorem ReaderInv.notifyAll (h : ReaderInv r ids w) : ReaderInv r ids w.notifyAll where
  parked := by
    intro rd hrd p hp
    obtain ⟨rd', hrd', rfl⟩ := mem_reader_notifyAll hrd
    simp only [Option.mem_map] at hp
    obtain ⟨q, hq, rfl⟩ := hp
    exact h.parked rd' hrd' q hq
  pending := by
    intro rd hrd
    obtain ⟨rd', hrd', rfl⟩ := mem_reader_notifyAll hrd
    exact h.pending rd' hrd'
  unread := by
    intro c hc p hp hcur
    rcases h.unread c hc p hp hcur with hget | ⟨rd, hrd, hhas⟩
    · exact .inl hget
    · refine .inr ⟨{ rd with parked := rd.parked.map fun p => { p with woken := true } }, ?_, hhas⟩
      exact Option.mem_map.2 ⟨rd, hrd, rfl⟩
  reads := h.reads
  once := h.once
  passed := h.passed
  turn := by
    intro rd hrd
    obtain ⟨rd', hrd', rfl⟩ := mem_reader_notifyAll hrd
    exact h.turn rd' hrd'
  later := by
    intro hnone
    refine h.later ?_
    simpa [World.notifyAll] using hnone

/-! ## A put -/

/-- A buffered chunk of the split with the start of another is that chunk. -/
theorem BufferInv.get_key (h : BufferInv r sp w) (hc : c ∈ sp.chunks)
    {d : Bytes} (hd : w.state.chunks.get c.key = some d) : d = c.data := by
  obtain ⟨c', hc', hk, rfl⟩ := h.stored c.key d hd
  rw [sp.eq_of_key (h.accepted c' hc') hc hk]

/-- The world after a chunk was stored, before anyone is told. -/
def World.stored (w : World) (c : Chunk) : World :=
  { w with state := w.state.store c, accepted := c :: w.accepted }

theorem BufferInv.bytes_store (h : BufferInv r sp w) (hc : c ∈ sp.chunks) :
    (w.state.store c).bytes = (w.state.store c).chunks.sum fun _ d => d.length := by
  have hsum := BTreeMap.sum_insert w.state.chunks (fun _ d => d.length) c.key c.data
  simp only [State.store]
  cases hg : w.state.chunks.get c.key with
  | none =>
    simp only [BTreeMap.countAt, hg] at hsum
    simp only [Option.map_none, Option.getD_none, h.bytes]
    omega
  | some d =>
    have hd := h.get_key hc hg
    have her := BTreeMap.sum_erase w.state.chunks (fun _ d => d.length) hg
    simp only [BTreeMap.countAt, hg] at hsum
    simp only [Option.map_some, Option.getD_some, h.bytes]
    omega

/-- A chunk that is let in fits, or is the one waited for. -/
theorem BufferInv.room_store (h : BufferInv r sp w)
    (hroom : w.state.bytes + c.data.length ≤ r.cap ∨ needed w.state c) :
    (w.state.store c).chunks.sum (spare w.state.wanted) ≤ r.cap := by
  have hsum := BTreeMap.sum_insert w.state.chunks (spare w.state.wanted) c.key c.data
  have hspare : spare w.state.wanted c.key c.data
      = if needed w.state c then 0 else c.data.length := rfl
  have hold := h.room
  simp only [State.store]
  rcases hroom with hfits | hneed
  · have hle : w.state.chunks.sum (spare w.state.wanted)
        ≤ w.state.chunks.sum fun _ d => d.length := by
      refine BTreeMap.sum_le_sum ?_
      intro k v _
      unfold spare
      split <;> omega
    have := h.bytes
    have : spare w.state.wanted c.key c.data ≤ c.data.length := by
      rw [hspare]
      split <;> omega
    omega
  · rw [hspare, if_pos hneed] at hsum
    omega

theorem BufferInv.store (h : BufferInv r sp w) (hc : c ∈ sp.chunks)
    (hroom : w.state.bytes + c.data.length ≤ r.cap ∨ needed w.state c) :
    BufferInv r sp (w.stored c) where
  bytes := h.bytes_store hc
  stored := by
    intro k d hd
    simp only [World.stored, State.store, BTreeMap.get_insert] at hd
    split at hd
    · rename_i hk
      rw [Option.some.injEq] at hd
      exact ⟨c, List.mem_cons_self, hk.symm, hd⟩
    · obtain ⟨c', hc', hk⟩ := h.stored k d hd
      exact ⟨c', List.mem_cons_of_mem c hc', hk⟩
  accepted := by
    intro c' hc'
    rcases List.mem_cons.1 hc' with rfl | hc'
    · exact hc
    · exact h.accepted c' hc'
  wanted := h.wanted
  room := h.room_store hroom
  puts := h.puts

theorem ReaderInv.store (h : ReaderInv r ids w) (hb : BufferInv r sp w)
    (hc : c ∈ sp.chunks) : ReaderInv r ids (w.stored c) where
  parked := h.parked
  pending := by
    intro rd hrd hne
    obtain ⟨hlt, c', hc', hrest⟩ := h.pending rd hrd hne
    exact ⟨hlt, c', List.mem_cons_of_mem c hc', hrest⟩
  unread := by
    intro c' hc' p hp hcur
    simp only [World.stored, State.store, BTreeMap.get_insert]
    split
    · rename_i hk
      have hin : c' ∈ sp.chunks := by
        rcases List.mem_cons.1 hc' with rfl | hc'
        · exact hc
        · exact hb.accepted c' hc'
      exact .inl (by rw [sp.eq_of_key hin hc hk])
    · rename_i hk
      rcases List.mem_cons.1 hc' with rfl | hc'
      · exact absurd rfl hk
      · exact h.unread c' hc' p hp hcur
  reads := by
    intro e he i b hb
    obtain ⟨c', hc', hrest⟩ := h.reads e he i b hb
    exact ⟨c', List.mem_cons_of_mem c hc', hrest⟩
  once := h.once
  passed := h.passed
  turn := h.turn
  later := h.later

/-- What a turn of `put` comes to. -/
theorem putTurn_cases (r : Relay) (s : State) (c : Chunk) (late : Bool) :
    ((s.bytes + c.data.length ≤ r.cap ∨ needed s c) ∧
      putTurn r s c late = (.ready (.ok ()), s.store c)) ∨
    (∃ e, putTurn r s c late = (.ready (.error e), s)) ∨
    (¬ (s.bytes + c.data.length ≤ r.cap ∨ needed s c) ∧ putTurn r s c late = (.waits, s)) := by
  unfold putTurn
  split
  · exact .inr (.inl ⟨_, rfl⟩)
  · split
    · rename_i hroom
      exact .inl ⟨hroom, rfl⟩
    · rename_i hroom
      split
      · exact .inr (.inl ⟨_, rfl⟩)
      · exact .inr (.inr ⟨hroom, rfl⟩)

theorem inv_runPut (h : Inv r sp ids w) (hc : c ∈ sp.chunks)
    (late : Bool) : Inv r sp ids (w.runPut r c late) := by
  rcases putTurn_cases r w.state c late with ⟨hroom, ht⟩ | ⟨e, ht⟩ | ⟨hfull, ht⟩
  · rw [World.runPut, ht]
    exact ⟨(h.buffer.store hc hroom).notifyAll, woken_notifyAll _,
      (h.reader.store h.buffer hc).notifyAll⟩
  · rw [World.runPut, ht]
    exact h
  · rw [World.runPut, ht]
    refine ⟨⟨h.buffer.bytes, h.buffer.stored, h.buffer.accepted, h.buffer.wanted, h.buffer.room,
      ?_⟩, ⟨?_, h.woken.take⟩, ⟨h.reader.parked, h.reader.pending, h.reader.unread,
      h.reader.reads, h.reader.once, h.reader.passed, h.reader.turn, h.reader.later⟩⟩
    · intro p hp
      rcases List.mem_cons.1 hp with rfl | hp
      · exact hc
      · exact h.buffer.puts p hp
    · intro p hp hneed
      rcases List.mem_cons.1 hp with rfl | hp
      · exact absurd (.inr hneed) hfull
      · exact h.woken.put p hp hneed

/-! ## A read -/

/-- What a reader is given is what the chunk under its pending bytes has there. -/
theorem served {len i : Nat} {b : UInt8} (hc : c.off ≤ rd.pendingOff)
    (hp : rd.pending = c.data.drop (rd.pendingOff - c.off)) (hoff : rd.pendingOff ≤ off)
    (hb : ((rd.pending.drop (off - rd.pendingOff)).take len)[i]? = some b) :
    c.data[off + i - c.off]? = some b := by
  have hi : i < len := by
    by_contra hle
    rw [List.getElem?_take, if_neg hle] at hb
    simp at hb
  rw [List.getElem?_take_of_lt hi, List.getElem?_drop, hp, List.getElem?_drop] at hb
  rw [← hb]
  congr 1
  omega

/-- **A reader served from its pending bytes.**  `w` is the world before the read and `w'` the
one the bytes are handed out in, which differs in the buffer. -/
theorem ReaderInv.serve (h : ReaderInv r ids w) (w' : World) (hacc : w'.accepted = w.accepted)
    (hreads : w'.reads = w.reads) (hnext : w'.next = w.next) (rd : Reader) {len : Nat}
    (hturn : ids[w.next]? = some rd.id) (hcur : w.cursor ≤ toLex (rd.id, off))
    (hoff : rd.pendingOff ≤ off) (hlt : off < rd.pendingOff + rd.pending.length) (hlen : 0 < len)
    (hpend : ∃ c ∈ w.accepted, c.id = rd.id ∧ c.off ≤ rd.pendingOff ∧
      rd.pending = c.data.drop (rd.pendingOff - c.off))
    (hunread : ∀ c ∈ w.accepted, ∀ p, c.holds c.id p → toLex (rd.id, off + 1) ≤ toLex (c.id, p) →
      w'.state.chunks.get c.key = some c.data ∨ rd.has c.id p) :
    ReaderInv r ids (w'.serve rd off len) := by
  obtain ⟨c, hc, hid, hstart, hp⟩ := hpend
  -- the reader gets a byte at least, so the cursor passes `off`
  have hsome : 0 < ((rd.pending.drop (off - rd.pendingOff)).take len).length := by
    rw [List.length_take, List.length_drop]
    omega
  have hpast : ∀ q, toLex (rd.id,
      off + ((rd.pending.drop (off - rd.pendingOff)).take len).length) ≤ q →
      toLex (rd.id, off + 1) ≤ q := by
    intro q hq
    refine le_trans ?_ hq
    rw [Prod.Lex.toLex_le_toLex]
    exact .inr ⟨rfl, by omega⟩
  have hfrom : toLex (rd.id, off) ≤ toLex (rd.id,
      off + ((rd.pending.drop (off - rd.pendingOff)).take len).length) := by
    rw [Prod.Lex.toLex_le_toLex]
    exact .inr ⟨rfl, by omega⟩
  constructor
  · intro rd' hrd' p hpk
    obtain rfl := Option.some.inj hrd'
    simp at hpk
  · intro rd' hrd' _
    obtain rfl := Option.some.inj hrd'
    refine ⟨?_, c, hacc ▸ hc, hid, hstart, hp⟩
    rw [World.serve, Prod.Lex.toLex_lt_toLex]
    exact .inr ⟨rfl, by simp only; omega⟩
  · intro c' hc' p hh hle
    rcases hunread c' (hacc ▸ hc') p hh (hpast _ hle) with hget | hhas
    · exact .inl hget
    · exact .inr ⟨_, rfl, hhas⟩
  · intro e he i b hb
    rw [World.serve, hreads, List.mem_append, List.mem_singleton] at he
    rcases he with he | rfl
    · obtain ⟨c', hc', hrest⟩ := h.reads e he i b hb
      exact ⟨c', hacc ▸ hc', hrest⟩
    · exact ⟨c, hacc ▸ hc, hid, by simp only; omega, served hstart hp hoff hb⟩
  · rw [World.serve, hreads, List.pairwise_append]
    refine ⟨h.once, List.pairwise_singleton _ _, ?_⟩
    intro e he e' he'
    rw [List.mem_singleton] at he'
    subst he'
    exact (h.passed e he).trans hcur
  · intro e he
    rw [World.serve, hreads, List.mem_append, List.mem_singleton] at he
    rcases he with he | rfl
    · exact ((h.passed e he).trans hcur).trans hfrom
    · exact le_refl _
  · intro rd' hrd'
    obtain rfl := Option.some.inj hrd'
    exact ⟨by rw [World.serve, hnext]; exact hturn, le_refl _⟩
  · intro hnone
    simp [World.serve] at hnone

/-- Without the reader's position among the wanted ones every chunk counts. -/
theorem room_unwanted {m : BTreeMap Key Bytes} {cap : Nat} {q : Nat × Nat}
    (hroom : m.sum (spare [q]) ≤ cap)
    (hfree : ∀ k d, m.get k = some d → ¬ Chunk.holds ⟨(ofLex k).1, (ofLex k).2, d⟩ q.1 q.2) :
    m.sum (spare []) ≤ cap := by
  refine le_trans (BTreeMap.sum_le_sum ?_) hroom
  intro k d hd
  simp [spare, hfree k d hd]

/-- Parking a reader or releasing it leaves what it has. -/
theorem ReaderInv.reparked {w' : World} (h : ReaderInv r ids w)
    (hrd : w.reader = some rd) (k : Option Parked)
    (hk : ∀ p ∈ k, r.permitted rd.id p.off ∧ 0 < p.len ∧ w.cursor ≤ toLex (rd.id, p.off) ∧
      ¬ rd.has rd.id p.off)
    (hrd' : w'.reader = some { rd with parked := k }) (hch : w'.state.chunks = w.state.chunks)
    (hacc : w'.accepted = w.accepted) (hreads : w'.reads = w.reads) (hnext : w'.next = w.next)
    (hcur : w'.cursor = w.cursor) : ReaderInv r ids w' := by
  constructor
  · intro rd' h' p hp
    rw [hrd'] at h'
    obtain rfl := Option.some.inj h'
    rw [hcur]
    exact hk p hp
  · intro rd' h' hne
    rw [hrd'] at h'
    obtain rfl := Option.some.inj h'
    rw [hcur, hacc]
    exact h.pending rd hrd hne
  · intro c hc p hp hle
    rw [hch]
    rcases h.unread c (hacc ▸ hc) p hp (hcur ▸ hle) with hget | ⟨rd', h', hhas⟩
    · exact .inl hget
    · rw [hrd] at h'
      obtain rfl := Option.some.inj h'
      exact .inr ⟨_, hrd', hhas⟩
  · rw [hreads, hacc]
    exact h.reads
  · rw [hreads]
    exact h.once
  · rw [hreads, hcur]
    exact h.passed
  · intro rd' h'
    rw [hrd'] at h'
    obtain rfl := Option.some.inj h'
    rw [hnext, hcur]
    exact h.turn rd hrd
  · intro hnone
    rw [hrd'] at hnone
    simp at hnone

/-- What a turn of `take` comes to. -/
theorem takeTurn_cases (s : State) (id off : Nat) (late : Bool) :
    (∃ k d, s.find id off = some (k, d) ∧ takeTurn s id off late =
      (.ready (.ok (d.drop (off - (ofLex k).2))), (s.remove k d).unwant id off)) ∨
    (∃ e, s.find id off = none ∧ takeTurn s id off late = (.ready (.error e), s.unwant id off)) ∨
    (s.find id off = none ∧ takeTurn s id off late = (.waits, s)) := by
  unfold takeTurn
  cases hf : s.find id off with
  | some kd => exact .inl ⟨kd.1, kd.2, rfl, rfl⟩
  | none =>
    simp only
    split
    · exact .inr (.inl ⟨_, trivial, rfl⟩)
    · split
      · exact .inr (.inl ⟨_, trivial, rfl⟩)
      · exact .inr (.inr ⟨trivial, rfl⟩)

/-- A reader that is parked has its position, and no other, among the wanted ones. -/
theorem BufferInv.wanted_parked (h : BufferInv r sp w)
    (hrd : w.reader = some rd) (hp : rd.parked = some p) : w.state.wanted = [(rd.id, p.off)] := by
  rw [h.wanted, World.parkedAt, hrd, Option.bind_some, hp]
  rfl

/-- The world after the reader took a chunk, before it is given bytes of it. -/
def World.took (w : World) (c : Chunk) (id off : Nat) : World :=
  { w with state := (w.state.remove c.key c.data).unwant id off }.notifyAll

/-- The buffer after the reader took the chunk it waited for. -/
theorem BufferInv.taken (h : BufferInv r sp w)
    (hrd : w.reader = some rd) (hp : rd.parked = some p) (hc : c ∈ w.accepted)
    (hh : c.holds rd.id p.off) (hget : w.state.chunks.get c.key = some c.data) (rd' : Reader)
    (len : Nat) :
    BufferInv r sp (World.serve (w.took c rd.id p.off)
      rd' p.off len) := by
  have hwanted := h.wanted_parked hrd hp
  have hsum := BTreeMap.sum_erase w.state.chunks (fun _ d => d.length) hget
  have hbytes := h.bytes
  constructor
  · simp only [World.serve, World.took, World.notifyAll, State.remove, State.unwant]
    omega
  · intro k d hd
    refine h.stored k d ?_
    simp only [World.serve, World.took, World.notifyAll, State.remove, State.unwant, BTreeMap.get_erase] at hd
    split at hd
    · simp at hd
    · exact hd
  · exact h.accepted
  · simp [World.serve, World.took, World.notifyAll, State.remove, State.unwant, World.parkedAt, hwanted]
  · have hnil : ((w.state.remove c.key c.data).unwant rd.id p.off).wanted = [] := by
      simp [State.remove, State.unwant, hwanted]
    have hroom := h.room
    rw [hwanted] at hroom
    simp only [World.serve, World.took, World.notifyAll, hnil]
    refine room_unwanted (q := (rd.id, p.off)) ?_ ?_
    · have her := BTreeMap.sum_erase w.state.chunks (spare [(rd.id, p.off)]) hget
      simp only [State.remove, State.unwant]
      omega
    · -- another chunk with the reader's position would be the one taken
      intro k d hd hhold
      simp only [State.remove, State.unwant, BTreeMap.get_erase] at hd
      split at hd
      · simp at hd
      · rename_i hk
        obtain ⟨c', hc', rfl, rfl⟩ := h.stored k d hd
        have := sp.disjoint c' (h.accepted c' hc') c (h.accepted c hc) rd.id p.off hhold hh
        exact hk (by rw [this])
  · intro q hq
    simp only [World.serve, World.took, World.notifyAll, List.mem_map] at hq
    obtain ⟨q', hq', rfl⟩ := hq
    exact h.puts q' hq'

/-- The reader after it took the chunk it waited for. -/
theorem ReaderInv.taken (h : ReaderInv r ids w) (hb : BufferInv r sp w) (hrd : w.reader = some rd) (hp : rd.parked = some p)
    (hc : c ∈ w.accepted) (hh : c.holds rd.id p.off) :
    ReaderInv r ids (World.serve (w.took c rd.id p.off)
      { rd with pending := c.data.drop (p.off - c.off), pendingOff := p.off } p.off p.len) := by
  obtain ⟨-, hlen, hcur, hnot⟩ := h.parked rd hrd p hp
  have hoff := hh.2
  refine h.serve (w.took c rd.id p.off) rfl rfl rfl
    { rd with pending := c.data.drop (p.off - c.off), pendingOff := p.off } (h.turn rd hrd).1 hcur
    (Nat.le_refl _) ?_ hlen ⟨c, hc, hh.1, hoff.1, rfl⟩ ?_
  · simp only [List.length_drop]
    omega
  · intro c' hc' q hq hle
    have hle' : rd.id < c'.id ∨ rd.id = c'.id ∧ p.off < q := by
      rw [Prod.Lex.toLex_le_toLex] at hle
      exact hle
    have hold : w.cursor ≤ toLex (c'.id, q) := by
      refine hcur.trans (le_trans ?_ hle)
      rw [Prod.Lex.toLex_le_toLex]
      exact .inr ⟨rfl, by simp only; omega⟩
    rcases h.unread c' hc' q hq hold with hbuf | ⟨rd', hrd', hhas⟩
    · by_cases hk : c'.key = c.key
      · have hcc := sp.eq_of_key (hb.accepted c' hc') (hb.accepted c hc) hk
        subst hcc
        have hid := hh.1
        have hq' := hq.2
        refine .inr ⟨hh.1.symm, ?_, ?_⟩
        · simp only
          omega
        · simp only [List.length_drop]
          omega
      · refine .inl ?_
        simpa only [World.took, World.notifyAll, State.remove, State.unwant, BTreeMap.get_erase, if_neg hk]
          using hbuf
    · -- what the reader had pending before lies behind the position it asks for
      rw [hrd] at hrd'
      obtain rfl := Option.some.inj hrd'
      obtain ⟨hid, hfrom, hto⟩ := hhas
      have hne : rd.pending ≠ [] := by
        intro hnil
        rw [hnil, List.length_nil] at hto
        omega
      have hlt := (h.pending rd hrd hne).1.trans_le hcur
      rw [Prod.Lex.toLex_lt_toLex] at hlt
      have hbound : rd.pendingOff + rd.pending.length ≤ p.off := by
        by_contra hlt'
        have hstart : rd.pendingOff < p.off := by simpa using hlt
        exact hnot ⟨rfl, by omega, by omega⟩
      omega

/-- The buffer after the reader gave up. -/
theorem BufferInv.gaveUp (h : BufferInv r sp w) (hrd : w.reader = some rd) (hp : rd.parked = some p)
    (hf : w.state.find rd.id p.off = none) :
    BufferInv r sp { w with
      state := w.state.unwant rd.id p.off, reader := some { rd with parked := none } } := by
  have hwanted := h.wanted_parked hrd hp
  have hnil : (w.state.unwant rd.id p.off).wanted = [] := by simp [State.unwant, hwanted]
  refine ⟨h.bytes, h.stored, h.accepted, ?_, ?_, h.puts⟩
  · rw [hnil]
    rfl
  · have hroom := h.room
    rw [hwanted] at hroom
    rw [hnil]
    refine room_unwanted hroom ?_
    intro k d hd hhold
    obtain ⟨c, hc, rfl, rfl⟩ := h.stored k d hd
    rw [find_of_get h.stored h.accepted (h.accepted c hc) hhold hd] at hf
    simp at hf

/-- **A turn of the parked reader's `take`.** -/
theorem inv_runTake (h : Inv r sp ids w)
    (hrd : w.reader = some rd) (hp : rd.parked = some p) (late : Bool) :
    Inv r sp ids (w.runTake rd p.off p.len late) := by
  have hparked := h.reader.parked rd hrd p hp
  rcases takeTurn_cases w.state rd.id p.off late with
    ⟨k, d, hf, ht⟩ | ⟨e, hf, ht⟩ | ⟨hf, ht⟩
  · rw [World.runTake, ht]
    obtain ⟨c, hc, rfl, rfl, hh, hget⟩ := find_eq_some h.buffer.stored hf
    refine ⟨h.buffer.taken hrd hp hc hh hget _ _, ?_, ?_⟩
    · refine ⟨(woken_notifyAll _).put, ?_⟩
      intro rd' hrd' q hq
      obtain rfl := Option.some.inj hrd'
      simp at hq
    · exact h.reader.taken h.buffer hrd hp hc hh
  · rw [World.runTake, ht]
    refine ⟨h.buffer.gaveUp hrd hp hf, ⟨?_, ?_⟩, ?_⟩
    · intro q hq hneed
      have hwanted := h.buffer.wanted_parked hrd hp
      simp [needed, State.unwant, hwanted] at hneed
    · intro rd' hrd' q hq
      obtain rfl := Option.some.inj hrd'
      simp at hq
    · exact h.reader.reparked hrd _ (fun q hq => absurd hq (by simp)) rfl rfl rfl rfl rfl rfl
  · rw [World.runTake, ht]
    refine ⟨⟨h.buffer.bytes, h.buffer.stored, h.buffer.accepted, ?_, h.buffer.room,
      h.buffer.puts⟩, ⟨h.woken.put, ?_⟩, ?_⟩
    · rw [h.buffer.wanted_parked hrd hp]
      rfl
    · intro rd' hrd' q hq hs
      obtain rfl := Option.some.inj hrd'
      obtain rfl := Option.some.inj hq
      simp only [hf] at hs
      simp at hs
    · refine h.reader.reparked hrd (some ⟨p.off, p.len, false⟩) ?_ rfl rfl rfl rfl rfl rfl
      intro q hq
      obtain rfl := Option.some.inj hq
      exact hparked

end Ps5Upload.RelayBuffer
