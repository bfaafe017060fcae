import Ps5Upload.Ava1.Relay.Invariant

/-!
# The relay buffer delivers every byte and cannot wedge

`inv_step` puts the turns of the writers (`inv_runPut`) and of the reader (`inv_readAt`,
`inv_runTake`) together, and `relay_delivers` reads off the invariant what holds in every state
of every run.  The order of the files is `Turn`'s doing: a reader is opened only for the file
whose turn it is, and the turn passes on when the reader is dropped (`inv_open`, `inv_drop`).
-/

namespace Ps5Upload.RelayBuffer

open ByteFile
open ZipStored (Manifest)

variable {r : Relay} {sp : Split r} {ids : List Nat}

/-! ## Reading -/

variable {w : World} {rd : Reader} {off : Nat} {c : Chunk}

/-- A step that leaves the buffer and the reader, and has notified everyone. -/
theorem BufferInv.flags {w' : World} (h : BufferInv r sp w)
    (hch : w'.state.chunks = w.state.chunks) (hbytes : w'.state.bytes = w.state.bytes)
    (hwanted : w'.state.wanted = w.state.wanted) (hacc : w'.accepted = w.accepted)
    (hpark : w'.parkedAt = w.parkedAt) (hputs : ∀ p ∈ w'.puts, p ∈ w.puts) :
    BufferInv r sp w' := by
  refine ⟨?_, ?_, ?_, ?_, ?_, fun p hp => h.puts p (hputs p hp)⟩
  · rw [hch, hbytes]
    exact h.bytes
  · intro k d hd
    rw [hacc]
    exact h.stored k d (hch ▸ hd)
  · rw [hacc]
    exact h.accepted
  · rw [hwanted, hpark]
    exact h.wanted
  · rw [hch, hwanted]
    exact h.room

/-- The reader asks from where it is on. -/
theorem ReaderInv.cursor_le (h : ReaderInv r ids w) (hrd : w.reader = some rd)
    (hoff : (ofLex w.cursor).1 = rd.id → (ofLex w.cursor).2 ≤ off) :
    w.cursor ≤ toLex (rd.id, off) := by
  have hle := (h.turn rd hrd).2
  rcases Nat.lt_or_eq_of_le hle with hlt | heq
  · exact (Prod.Lex.toLex_le_toLex (x := ofLex w.cursor)).2 (.inl hlt)
  · exact (Prod.Lex.toLex_le_toLex (x := ofLex w.cursor)).2 (.inr ⟨heq, hoff heq⟩)

/-- The world with a reader parked on a position. -/
def World.park (w : World) (rd : Reader) (off len : Nat) : World :=
  { { w with state.wanted := w.state.wanted ++ [(rd.id, off)] }.notifyAll with
    reader := some { rd with parked := some ⟨off, len, true⟩ } }

theorem inv_park (h : Inv r sp ids w) (hrd : w.reader = some rd)
    (hp : rd.parked = none) {len : Nat} (hlen : 0 < len) (hperm : r.permitted rd.id off)
    (hcur : w.cursor ≤ toLex (rd.id, off)) (hnot : ¬ rd.has rd.id off) :
    Inv r sp ids (w.park rd off len) := by
  have hnil : w.state.wanted = [] := by
    rw [h.buffer.wanted, World.parkedAt, hrd, Option.bind_some, hp]
    rfl
  refine ⟨⟨h.buffer.bytes, h.buffer.stored, h.buffer.accepted, ?_, ?_, ?_⟩, ⟨?_, ?_⟩, ?_⟩
  · simp [World.park, World.parkedAt, World.notifyAll, hnil]
  · refine le_trans (BTreeMap.sum_le_sum ?_) h.buffer.room
    intro k d _
    rw [hnil]
    unfold spare
    split <;> simp
  · intro p hp'
    simp only [World.park, World.notifyAll, List.mem_map] at hp'
    obtain ⟨q, hq, rfl⟩ := hp'
    exact h.buffer.puts q hq
  · exact (woken_notifyAll { w with state.wanted := w.state.wanted ++ [(rd.id, off)] }).put
  · intro rd' hrd' p hp' _
    obtain rfl := Option.some.inj hrd'
    obtain rfl := Option.some.inj hp'
    rfl
  · refine h.reader.reparked hrd (some ⟨off, len, true⟩) ?_ rfl rfl rfl rfl rfl rfl
    intro p hp'
    obtain rfl := Option.some.inj hp'
    exact ⟨hperm, hlen, hcur, hnot⟩

/-- A read that goes to the buffer parks the reader and runs its first turn. -/
theorem runTake_park (w : World) (rd : Reader) (off len : Nat) (late : Bool) :
    { w with state.wanted := w.state.wanted ++ [(rd.id, off)] }.notifyAll.runTake rd off len late
      = (w.park rd off len).runTake { rd with parked := some ⟨off, len, true⟩ } off len late := by
  unfold World.runTake World.park
  simp only [World.notifyAll]
  split <;> rfl

theorem inv_readAt (h : Inv r sp ids w) (hrd : w.reader = some rd)
    (hp : rd.parked = none) {len : Nat} (hperm : r.permitted rd.id off)
    (hoff : (ofLex w.cursor).1 = rd.id → (ofLex w.cursor).2 ≤ off) (late : Bool) :
    Inv r sp ids (w.readAt r rd off len late) := by
  have hcur := h.reader.cursor_le hrd hoff
  unfold World.readAt
  split
  · exact h
  · rename_i hlen
    split
    · rename_i hout
      rw [if_neg (by simp [hperm]), runTake_park]
      refine inv_runTake (inv_park h hrd hp (Nat.pos_of_ne_zero hlen) hperm hcur ?_) rfl rfl late
      rintro ⟨-, hfrom, hto⟩
      omega
    · rename_i hin
      have hne : rd.pending ≠ [] := by
        intro hnil
        simp only [hnil, List.length_nil] at hin
        omega
      refine ⟨h.buffer.flags rfl rfl rfl rfl ?_ fun p hp => hp, ⟨h.woken.put, ?_⟩, ?_⟩
      · simp [World.parkedAt, World.serve, hrd, hp]
      · intro rd' hrd' q hq
        obtain rfl := Option.some.inj hrd'
        simp at hq
      · refine h.reader.serve w rfl rfl rfl rd (h.reader.turn rd hrd).1 hcur (by omega) (by omega)
          (Nat.pos_of_ne_zero hlen) (h.reader.pending rd hrd hne).2 ?_
        intro c hc q hq hle
        have hold : w.cursor ≤ toLex (c.id, q) := by
          refine hcur.trans (le_trans ?_ hle)
          rw [Prod.Lex.toLex_le_toLex]
          exact .inr ⟨rfl, by simp only; omega⟩
        rcases h.reader.unread c hc q hq hold with hget | ⟨rd', hrd', hhas⟩
        · exact .inl hget
        · rw [hrd] at hrd'
          obtain rfl := Option.some.inj hrd'
          exact .inr hhas

/-! ## Files -/

theorem inv_open (h : Inv r sp ids w) (hrd : w.reader = none) {id : Nat}
    (hid : ids[w.next]? = some id) : Inv r sp ids { w with reader := some { id } } := by
  refine ⟨h.buffer.flags rfl rfl rfl rfl ?_ fun p hp => hp, ⟨h.woken.put, ?_⟩, ?_⟩
  · simp [World.parkedAt, hrd]
  · intro rd' hrd' q hq
    obtain rfl := Option.some.inj hrd'
    simp at hq
  · refine ⟨?_, ?_, ?_, h.reader.reads, h.reader.once, h.reader.passed, ?_, ?_⟩
    · intro rd' hrd' q hq
      obtain rfl := Option.some.inj hrd'
      simp at hq
    · intro rd' hrd' hne
      obtain rfl := Option.some.inj hrd'
      exact absurd rfl hne
    · intro c hc p hp hle
      rcases h.reader.unread c hc p hp hle with hget | ⟨rd', hrd', -⟩
      · exact .inl hget
      · rw [hrd] at hrd'
        simp at hrd'
    · intro rd' hrd'
      obtain rfl := Option.some.inj hrd'
      exact ⟨hid, h.reader.later hrd w.next id (Nat.le_refl _) hid⟩
    · intro hnone
      simp at hnone

/-- A file is dropped: its turn is over, and the next file in line is a later one. -/
theorem inv_drop (h : Inv r sp ids w) (hids : ids.Pairwise (· < ·))
    (hrd : w.reader = some rd) (hp : rd.parked = none) :
    Inv r sp ids { w with
      reader := none, next := leave ids w.next rd.id, cursor := toLex (rd.id + 1, 0) } := by
  obtain ⟨hturn, hcur⟩ := h.reader.turn rd hrd
  have hlt : w.cursor < toLex (rd.id + 1, 0) :=
    (Prod.Lex.toLex_lt_toLex (x := ofLex w.cursor)).2 (.inl (Nat.lt_succ_of_le hcur))
  refine ⟨h.buffer.flags rfl rfl rfl rfl ?_ fun p hp => hp, ⟨h.woken.put, ?_⟩, ?_⟩
  · simp [World.parkedAt, hrd, hp]
  · intro rd' hrd'
    simp at hrd'
  · refine ⟨?_, ?_, ?_, h.reader.reads, h.reader.once, ?_, ?_, ?_⟩
    · intro rd' hrd'
      simp at hrd'
    · intro rd' hrd'
      simp at hrd'
    · intro c hc p hp hle
      rcases h.reader.unread c hc p hp (hlt.le.trans hle) with hget | ⟨rd', hrd', hid, -⟩
      · exact .inl hget
      · rw [hrd] at hrd'
        obtain rfl := Option.some.inj hrd'
        rw [Prod.Lex.toLex_le_toLex] at hle
        simp only at hle
        omega
    · intro e he
      exact (h.reader.passed e he).trans hlt.le
    · intro rd' hrd'
      simp at hrd'
    · intro _ j id hj hid
      rw [leave, if_pos hturn] at hj
      obtain ⟨hl, heq⟩ := List.getElem?_eq_some_iff.1 hturn
      obtain ⟨hl', heq'⟩ := List.getElem?_eq_some_iff.1 hid
      have := List.pairwise_iff_getElem.1 hids w.next j hl hl' hj
      simp only [ofLex_toLex]
      omega

theorem turnIds_sorted (m : Manifest) (bNeed : Need) : (turnIds m bNeed).Pairwise (· < ·) :=
  List.pairwise_lt_range.filter _

/-! ## Every run -/

/-- A put that is let through to the buffer brings a chunk of the split. -/
theorem mem_of_putCheck (h : c ∈ sp.chunks ∨ c.data = [] ∧ c.off = 0)
    (hcheck : putCheck r c = none) : c ∈ sp.chunks := by
  rcases h with h | ⟨hdata, hoff⟩
  · exact h
  · by_cases hid : c.id < r.count
    · simp [putCheck, hdata, hoff, hid] at hcheck
    · simp [putCheck, hid, Nat.not_lt.1 hid] at hcheck

theorem inv_told (h : Inv r sp ids w) {s : State}
    (hch : s.chunks = w.state.chunks) (hbytes : s.bytes = w.state.bytes)
    (hwanted : s.wanted = w.state.wanted) : Inv r sp ids { w with state := s }.notifyAll := by
  have hb : BufferInv r sp { w with state := s } :=
    h.buffer.flags hch hbytes hwanted rfl rfl fun p hp => hp
  have hr : ReaderInv r ids { w with state := s } := by
    refine ⟨h.reader.parked, h.reader.pending, ?_, h.reader.reads, h.reader.once,
      h.reader.passed, h.reader.turn, h.reader.later⟩
    intro c hc p hp hle
    simp only [hch]
    exact h.reader.unread c hc p hp hle
  exact ⟨hb.notifyAll, woken_notifyAll _, hr.notifyAll⟩

/-- **Every turn keeps the invariant.** -/
theorem inv_step (hids : ids.Pairwise (· < ·)) (w : World) (a : Action) (w' : World)
    (h : Inv r sp ids w) (hok : InOrder r sp w a) (hstep : step r ids w a = some w') :
    Inv r sp ids w' := by
  cases a with
  | put c late =>
    simp only [step] at hstep
    split at hstep
    · obtain rfl := Option.some.inj hstep
      exact h
    · rename_i hcheck
      obtain rfl := Option.some.inj hstep
      exact inv_runPut h (mem_of_putCheck hok hcheck) late
  | putAgain i late =>
    simp only [step] at hstep
    split at hstep
    · simp at hstep
    · rename_i p hp
      obtain rfl := Option.some.inj hstep
      have hmem := List.mem_of_getElem? hp
      have hsub : ∀ q ∈ w.puts.eraseIdx i, q ∈ w.puts := fun q hq => List.mem_of_mem_eraseIdx hq
      have herased : Inv r sp ids { w with puts := w.puts.eraseIdx i } :=
        ⟨h.buffer.flags rfl rfl rfl rfl rfl hsub,
          ⟨fun q hq => h.woken.put q (hsub q hq), h.woken.take⟩,
          ⟨h.reader.parked, h.reader.pending, h.reader.unread, h.reader.reads, h.reader.once,
            h.reader.passed, h.reader.turn, h.reader.later⟩⟩
      exact inv_runPut herased (h.buffer.puts p hmem) late
  | open_ id cancelled late =>
    simp only [step] at hstep
    split at hstep
    · simp at hstep
    · rename_i hrd
      split at hstep
      · rename_i hready
        obtain rfl := Option.some.inj hstep
        refine inv_open h hrd ?_
        by_contra hne
        rw [enter, if_neg hne] at hready
        repeat' split at hready
        all_goals simp at hready
      · obtain rfl := Option.some.inj hstep
        exact h
  | readAt off len late =>
    simp only [step] at hstep
    split at hstep
    · simp at hstep
    · rename_i rd hrd
      split at hstep
      · simp at hstep
      · rename_i hp
        obtain rfl := Option.some.inj hstep
        obtain ⟨hperm, hoff⟩ := hok rd hrd
        exact inv_readAt h hrd hp hperm hoff late
  | takeAgain late =>
    simp only [step] at hstep
    split at hstep
    · simp at hstep
    · rename_i rd hrd
      split at hstep
      · simp at hstep
      · rename_i p hp
        obtain rfl := Option.some.inj hstep
        exact inv_runTake h hrd hp late
  | drop =>
    simp only [step] at hstep
    split at hstep
    · simp at hstep
    · rename_i rd hrd
      split at hstep
      · simp at hstep
      · rename_i hp
        obtain rfl := Option.some.inj hstep
        exact inv_drop h hids hrd hp
  | fail =>
    obtain rfl := Option.some.inj hstep
    exact inv_told h rfl rfl rfl
  | sourceEnded ok =>
    simp only [step] at hstep
    split at hstep
    · obtain rfl := Option.some.inj hstep
      exact inv_told h rfl rfl rfl
    · obtain rfl := Option.some.inj hstep
      exact inv_told h rfl rfl rfl

theorem step_failed {w' : World} {a : Action} (hfail : a ≠ .fail)
    (hend : ∀ ok, a ≠ .sourceEnded ok) (h : step r ids w a = some w')
    (hw : w.state.failed = false) : w'.state.failed = false := by
  have hput : ∀ (u : World) (c : Chunk) (late : Bool), u.state.failed = false →
      (u.runPut r c late).state.failed = false := by
    intro u c late hu
    rcases putTurn_cases r u.state c late with ⟨-, ht⟩ | ⟨e, ht⟩ | ⟨-, ht⟩ <;>
      (rw [World.runPut, ht]; exact hu)
  have htake : ∀ (u : World) (rd : Reader) (off len : Nat) (late : Bool), u.state.failed = false →
      (u.runTake rd off len late).state.failed = false := by
    intro u rd off len late hu
    rcases takeTurn_cases u.state rd.id off late with ⟨k, d, -, ht⟩ | ⟨e, -, ht⟩ | ⟨-, ht⟩ <;>
      (rw [World.runTake, ht]; exact hu)
  cases a with
  | put c late =>
    simp only [step] at h
    split at h
    · obtain rfl := Option.some.inj h
      exact hw
    · obtain rfl := Option.some.inj h
      exact hput w c late hw
  | putAgain i late =>
    simp only [step] at h
    split at h
    · simp at h
    · obtain rfl := Option.some.inj h
      exact hput _ _ late hw
  | open_ id cancelled late =>
    simp only [step] at h
    split at h
    · simp at h
    · split at h <;> (obtain rfl := Option.some.inj h; exact hw)
  | readAt off len late =>
    simp only [step] at h
    split at h
    · simp at h
    · split at h
      · simp at h
      · obtain rfl := Option.some.inj h
        unfold World.readAt
        repeat' split
        all_goals first | exact hw | exact htake _ _ _ _ _ hw
  | takeAgain late =>
    simp only [step] at h
    split at h
    · simp at h
    · split at h
      · simp at h
      · obtain rfl := Option.some.inj h
        exact htake _ _ _ _ _ hw
  | drop =>
    simp only [step] at h
    split at h
    · simp at h
    · split at h
      · simp at h
      · obtain rfl := Option.some.inj h
        exact hw
  | fail => exact absurd rfl hfail
  | sourceEnded ok => exact absurd rfl (hend ok)

theorem spare_of_not_holds {q : Nat × Nat} (h : ¬ c.holds q.1 q.2) :
    spare [q] c.key c.data = c.data.length := by
  have h' : ¬ Chunk.holds ⟨(ofLex c.key).1, (ofLex c.key).2, c.data⟩ q.1 q.2 := h
  simp [spare, h']

/-- The length of the chunk a position is in. -/
def Split.lengthAt (sp : Split r) (id p : Nat) : Nat :=
  ((sp.chunks.find? fun c => c.holds id p).map fun c => c.data.length).getD 0

theorem Split.lengthAt_eq (hc : c ∈ sp.chunks) {id p : Nat} (hh : c.holds id p) :
    sp.lengthAt id p = c.data.length := by
  unfold lengthAt
  cases hf : sp.chunks.find? fun c => c.holds id p with
  | none => exact absurd hh (by simpa using List.find?_eq_none.1 hf c hc)
  | some d =>
    have hd : d.holds id p := by simpa using List.find?_some hf
    rw [sp.disjoint c hc d (List.mem_of_find?_eq_some hf) id p hh hd]
    rfl

/-- The buffer is over its cap by the chunk a reader is parked on, at most. -/
theorem BufferInv.bytes_le (h : BufferInv r sp w) :
    w.state.bytes ≤ r.cap + (w.parkedAt.map fun q => sp.lengthAt q.1 q.2).getD 0 := by
  have hroom := h.room
  rw [h.bytes]
  cases hq : w.parkedAt with
  | none =>
    rw [h.wanted, hq] at hroom
    exact le_trans (BTreeMap.sum_le_sum fun k d _ => le_of_eq (by simp [spare])) hroom
  | some q =>
    rw [h.wanted, hq] at hroom
    simp only [Option.map_some, Option.getD_some]
    by_cases hex : ∃ c ∈ sp.chunks, c.holds q.1 q.2 ∧ w.state.chunks.get c.key = some c.data
    · obtain ⟨c, hc, hh, hget⟩ := hex
      have hsum := BTreeMap.sum_erase w.state.chunks (fun _ d => d.length) hget
      have her := BTreeMap.sum_erase w.state.chunks (spare [q]) hget
      have hrest : (w.state.chunks.erase c.key).sum (fun _ d => d.length)
          ≤ (w.state.chunks.erase c.key).sum (spare [q]) := by
        refine BTreeMap.sum_le_sum ?_
        intro k d hd
        rw [BTreeMap.get_erase] at hd
        split at hd
        · simp at hd
        · rename_i hk
          obtain ⟨c', hc', rfl, rfl⟩ := h.stored k d hd
          have hne : ¬ c'.holds q.1 q.2 := by
            intro hh'
            exact hk (by rw [sp.disjoint c' (h.accepted c' hc') c hc q.1 q.2 hh' hh])
          exact (spare_of_not_holds hne).ge
      have hlen := sp.lengthAt_eq hc hh
      simp only [Option.toList_some] at hroom
      omega
    · have hall : w.state.chunks.sum (fun _ d => d.length) ≤ w.state.chunks.sum (spare [q]) := by
        refine BTreeMap.sum_le_sum ?_
        intro k d hd
        obtain ⟨c, hc, rfl, rfl⟩ := h.stored k d hd
        have hne : ¬ c.holds q.1 q.2 := fun hh => hex ⟨c, h.accepted c hc, hh, hd⟩
        exact (spare_of_not_holds hne).ge
      simp only [Option.toList_some] at hroom
      omega


/-- No one but `fail` and `source_ended` stops the relay. -/
def Action.keepsOpen : Action → Bool
  | .fail => false
  | .sourceEnded _ => false
  | _ => true

/-- **The relay buffer delivers every byte and cannot wedge.**  In every state of every run:
the counter is the sum of the buffered lengths, and over the cap by at most the chunk the parked
reader waits for; every byte a read returned is the one an accepted put brought for that
position, and no position is returned twice; and, while the relay is open, the parked reader's
chunk is taken if it is buffered, is let in if its put waits (whatever fills the buffer), the
call having been notified in both cases, and is buffered if its put ever returned. -/
theorem relay_delivers (m : Manifest) (skip bNeed : Need) (cap : Nat)
    (sp : Split ((Relay.new m skip).withCap cap)) {as : List Action} {w : World}
    (hm : Runs.Meets (step ((Relay.new m skip).withCap cap) (turnIds m bNeed))
      (InOrder ((Relay.new m skip).withCap cap) sp) World.new as)
    (h : Runs.exec (step ((Relay.new m skip).withCap cap) (turnIds m bNeed)) World.new as
      = some w) :
    w.state.bytes = (w.state.chunks.sum fun _ d => d.length) ∧
    w.state.bytes ≤ cap + (w.parkedAt.map fun q => sp.lengthAt q.1 q.2).getD 0 ∧
    (∀ id off out, (id, off, out) ∈ w.reads → ∀ i b, out[i]? = some b →
      ∃ c ∈ w.accepted, c ∈ sp.chunks ∧ c.holds id (off + i) ∧
        c.data[off + i - c.off]? = some b) ∧
    (w.reads.Pairwise fun e e' =>
      toLex (e.1, e.2.1 + e.2.2.length) ≤ toLex (e'.1, e'.2.1)) ∧
    ((∀ a ∈ as, a.keepsOpen) → ∀ rd ∈ w.reader, ∀ p ∈ rd.parked,
      ∃ c ∈ sp.chunks, c.holds rd.id p.off ∧
        (w.state.chunks.get c.key = some c.data → p.woken ∧ ∀ late,
          (takeTurn w.state rd.id p.off late).1
            = .ready (.ok (c.data.drop (p.off - c.off)))) ∧
        (∀ q ∈ w.puts, q.chunk = c → q.woken ∧ ∀ late,
          (putTurn ((Relay.new m skip).withCap cap) w.state c late).1 = .ready (.ok ())) ∧
        (c ∈ w.accepted → w.state.chunks.get c.key = some c.data)) := by
  have hinv : Inv _ sp (turnIds m bNeed) w :=
    Runs.exec_inv_of_meets (inv_step (turnIds_sorted m bNeed)) inv_new hm h
  refine ⟨hinv.buffer.bytes, hinv.buffer.bytes_le, ?_, hinv.reader.once, ?_⟩
  · intro id off out he i b hb
    obtain ⟨c, hc, hid, hoff, hdata⟩ := hinv.reader.reads _ he i b hb
    obtain ⟨hlt, -⟩ := List.getElem?_eq_some_iff.1 hdata
    simp only at hid hoff hlt
    exact ⟨c, hc, hinv.buffer.accepted c hc, ⟨hid, hoff, by omega⟩, hdata⟩
  · intro hopen rd hrd p hp
    have hfailed : w.state.failed = false := by
      have hmeets : Runs.Meets (step ((Relay.new m skip).withCap cap) (turnIds m bNeed))
          (fun _ a => a.keepsOpen = true) World.new as :=
        Runs.meets_of_forall (fun _ a ha => hopen a ha) World.new
      refine Runs.exec_inv_of_meets (P := fun s => s.state.failed = false) ?_ rfl hmeets h
      intro s a s' hs hok hstep
      refine step_failed ?_ ?_ hstep hs
      · rintro rfl
        simp [Action.keepsOpen] at hok
      · rintro ok rfl
        simp [Action.keepsOpen] at hok
    obtain ⟨hperm, -, hcur, hnot⟩ := hinv.reader.parked rd hrd p hp
    obtain ⟨c, hc, hh⟩ := sp.cover rd.id p.off hperm
    have hwanted := hinv.buffer.wanted_parked hrd hp
    refine ⟨c, hc, hh, ?_, ?_, ?_⟩
    · intro hget
      have hf := find_of_get hinv.buffer.stored hinv.buffer.accepted hc hh hget
      refine ⟨hinv.woken.take rd hrd p hp (by rw [hf]; rfl), ?_⟩
      intro late
      simp only [takeTurn, hf]
      rfl
    · intro q hq hqc
      have hneed : needed w.state c := by
        rw [needed, hwanted]
        simpa using hh
      refine ⟨hinv.woken.put q hq (hqc ▸ hneed), ?_⟩
      intro late
      simp [putTurn, hfailed, hneed]
    · intro hacc
      have hin : c.holds c.id p.off := by
        rw [hh.1]
        exact hh
      rcases hinv.reader.unread c hacc p.off hin (hh.1 ▸ hcur) with hget | ⟨rd', hrd', hhas⟩
      · exact hget
      · rw [hrd] at hrd'
        obtain rfl := Option.some.inj hrd'
        rw [hh.1] at hhas
        exact absurd hhas hnot

/-! A file of four bytes and a buffer of two: the second half fills it, the first half has to
wait, and the reader parks on the first byte. -/

def fourBytes : Manifest := ⟨[⟨.file, 0, 4, 0, "f0"⟩]⟩

def smallRelay : Relay := (Relay.new fourBytes ⟨∅, ∅⟩).withCap 2

theorem smallRelay_permitted (p : Nat) : smallRelay.permitted 0 p ↔ p < 4 := by
  simp [smallRelay, fourBytes, Relay.permitted, Relay.new, Relay.withCap, Manifest.entry,
    RangeSet.covers, RangeSet.missing, RangeSet.empty]

def halves : Split smallRelay where
  chunks := [⟨0, 0, [1, 2]⟩, ⟨0, 2, [3, 4]⟩]
  nonempty := by decide
  small := by decide
  expected := by
    intro c hc p hp
    simp only [List.mem_cons, List.not_mem_nil, or_false] at hc
    rcases hc with rfl | rfl
    · have hlt : p < 2 := hp.2.2
      exact (smallRelay_permitted p).2 (by omega)
    · exact (smallRelay_permitted p).2 hp.2.2
  disjoint := by
    intro c hc d hd id p hp hp'
    simp only [List.mem_cons, List.not_mem_nil, or_false] at hc hd
    simp only [Chunk.holds] at hp hp'
    rcases hc with rfl | rfl <;> rcases hd with rfl | rfl <;> simp at hp hp' ⊢ <;> omega
  cover := by
    intro id p h
    match id with
    | 0 =>
      have hlt := (smallRelay_permitted p).1 h
      by_cases hp : p < 2
      · exact ⟨⟨0, 0, [1, 2]⟩, by decide, rfl, Nat.zero_le _, hp⟩
      · exact ⟨⟨0, 2, [3, 4]⟩, by decide, rfl, not_lt.1 hp, hlt⟩
    | id + 1 => simp [smallRelay, fourBytes, Relay.permitted, Relay.new, Relay.withCap,
        Manifest.entry] at h

def parkedBehindFullBuffer : List Action :=
  [.put ⟨0, 2, [3, 4]⟩ false, .put ⟨0, 0, [1, 2]⟩ false, .open_ 0 false false, .readAt 0 4 false]

theorem parkedBehindFullBuffer_inOrder :
    Runs.Meets (step smallRelay (turnIds fourBytes ⟨∅, ∅⟩)) (InOrder smallRelay halves) World.new
      parkedBehindFullBuffer := by
  decide +kernel

theorem relay_delivers_fullBuffer :
    ∃ w, Runs.exec (step smallRelay (turnIds fourBytes ⟨∅, ∅⟩)) World.new parkedBehindFullBuffer
      = some w ∧ w.parkedAt = some (0, 0) ∧
      w.puts = [⟨⟨0, 0, [1, 2]⟩, true⟩] ∧
      w.state.bytes ≤ 2 + (w.parkedAt.map fun q => halves.lengthAt q.1 q.2).getD 0 :=
  ⟨_, rfl, by decide +kernel, by decide +kernel,
    (relay_delivers fourBytes ⟨∅, ∅⟩ ⟨∅, ∅⟩ 2 halves parkedBehindFullBuffer_inOrder rfl).2.1⟩

end Ps5Upload.RelayBuffer
