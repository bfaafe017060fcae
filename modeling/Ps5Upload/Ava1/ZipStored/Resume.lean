import Mathlib.Data.List.Basic
import Mathlib.Tactic.Common
import Ps5Upload.Ava1.ZipStored.Position
import Ps5Upload.Lib.Runs

/-!
# Stored zips: a download over any number of crashes

A download as a system: a sink, the journal on the disk, and how much the sender has delivered.
Its actions are the receiver's calls (`prepare`, `position`, `write`, `touch`, `commit`,
`finish`) and `crash`, which leaves a journal of at most what was delivered and a part file
that has the bytes this journal records and any bytes elsewhere.  The receiver sends the bytes
in order, in pieces of any size, and commits a recorded whole file at any time after the
resume, also after the next file's first bytes; a `Done` is recorded only after that commit,
and `finish` comes after all of them.

* `resume_same_archive` — whatever the crashes, it finishes with the same archive, byte for byte.
-/

namespace Ps5Upload.ZipStored

open ByteFile Crc32 Runs

variable {J : Job}

/-! ## The system -/

inductive Stage where
  /-- No process: the disk is all there is. -/
  | down
  | prepared
  | running
  | finished
  deriving DecidableEq, Repr

structure World (J : Job) where
  sink : Sink
  stage : Stage := .down
  /-- What the journal says, and the two sets it gives `position`. -/
  mark : Mark J
  done : Finset Nat
  durable : BTreeMap Nat RangeSet
  /-- Delivered: the first `n` non-empty files, and `x` bytes of the next. -/
  n : Nat
  x : Nat
  /-- Files recorded whole without a `Done` whose commit has not come. -/
  waiting : List Nat
  failed : Option IoError := none

inductive Act (J : Job) where
  | prepare
  | position
  /-- The next bytes of the file in flight. -/
  | write (d : Bytes)
  /-- The up-front empty write of an empty file. -/
  | touch (id : Nat)
  | commit (id : Nat)
  /-- The process dies, with the given journal and part file on the disk. -/
  | crash (mark : Mark J) (done : Finset Nat) (durable : BTreeMap Nat RangeSet)
      (part : Option Bytes)
  | finish

/-- The journal of a job that has not begun. -/
def Mark.blank (J : Job) : Mark J :=
  ⟨0, 0, 0, Nat.zero_le _, fun h => absurd h (by simp), fun _ _ h => absurd h (by simp)⟩

/-- A new sink over what is on the disk. -/
def Job.sink (J : Job) (part dest : Option Bytes) : Sink :=
  { single := J.single, base := J.base, part := part, dest := dest }

def start (J : Job) (part dest : Option Bytes) : World J :=
  { sink := J.sink part dest, mark := Mark.blank J, done := ∅, durable := ⟨[], List.Pairwise.nil⟩,
    n := 0, x := 0, waiting := [] }

/-- The recorded files that are whole and have no `Done`. -/
def Mark.waiting (mk : Mark J) : List Nat :=
  (List.range' mk.done mk.parts).filterMap fun i =>
    J.slots[i]?.bind fun t => if mk.bytesOf i t = t.size then some t.id else none

namespace World

/-- The calls that follow `position` may come: it has been called, or the journal is empty. -/
def Live (w : World J) : Prop :=
  w.stage = .running ∨ (w.stage = .prepared ∧ w.done = ∅ ∧ w.durable.entries = [])

instance (w : World J) : Decidable w.Live := by
  unfold Live
  infer_instance

/-- The state after a call. -/
def after (w : World J) (r : Except Failed Sink) (next : World J → World J) : World J :=
  match r with
  | .ok s => next { w with sink := s }
  | .error (e, s) => { w with sink := s, failed := some e }

/-- The part file's contents, nothing when there is no file. -/
def part (w : World J) : Bytes := w.sink.part.getD []

/-- A journal that records no more than was delivered, and no `Done` before its commit. -/
def Behind (w : World J) (mk : Mark J) : Prop :=
  (mk.place.1 < w.n ∨ (mk.place.1 = w.n ∧ mk.place.2 ≤ w.x)) ∧
    ∀ t ∈ J.slots.take mk.done, t.id ∉ w.waiting

instance (w : World J) (mk : Mark J) : Decidable (w.Behind mk) := by
  unfold Behind
  infer_instance

end World

instance (i p : Nat) : Decidable (J.InDesc i p) :=
  decidable_of_iff (∃ t ∈ J.slots[i]?, t.dataOff + t.size ≤ p ∧ p < t.end_) Iff.rfl

/-- The file `g` has the bytes of `f` that the journal records. -/
def Keeps (mk : Mark J) (g f : Bytes) : Prop :=
  ∀ p, p < mk.cut →
    (∀ i, i < J.slots.length → mk.done ≤ i → ¬ J.InDesc i p) → g[p]? = f[p]?

instance (mk : Mark J) (g f : Bytes) : Decidable (Keeps mk g f) := by
  unfold Keeps
  infer_instance

def step (w : World J) : Act J → Option (World J)
  | .prepare =>
    if w.stage = .down then
      some (w.after (w.sink.prepare J.checkPath J.m) fun w => { w with stage := .prepared })
    else none
  | .position =>
    if w.stage = .prepared then
      some (w.after (w.sink.position w.done w.durable) fun w => { w with stage := .running })
    else none
  | .write d =>
    match J.slots[w.n]? with
    | none => none
    | some t =>
      if w.Live ∧ d = ((J.content t.id).drop w.x).take d.length ∧ w.x + d.length ≤ t.size then
        some (w.after (w.sink.writeAt_ t.id w.x d) fun w =>
          { w with
            stage := .running
            n := (nextPlace w.n (w.x + d.length) t.size).1
            x := (nextPlace w.n (w.x + d.length) t.size).2 })
      else none
  | .touch id =>
    if (w.stage = .prepared ∨ w.stage = .running) ∧
        ∃ e ∈ J.m.entry id, e.kind = .file ∧ e.size = 0 then
      some (w.after (w.sink.writeWhole id []) fun w => w)
    else none
  | .commit id =>
    if w.Live then
      some (w.after (w.sink.commit id) fun w => { w with waiting := w.waiting.filter (· ≠ id) })
    else none
  | .crash mark done durable part =>
    if w.stage ≠ .finished ∧ Records J mark done durable ∧ w.Behind mark ∧
        Keeps mark (part.getD []) w.part then
      some { w with
        sink := J.sink part w.sink.dest, stage := .down, mark := mark, done := done,
        durable := durable, n := mark.place.1, x := mark.place.2, waiting := mark.waiting }
    else none
  | .finish =>
    if w.Live ∧ w.n = J.slots.length ∧ w.waiting = [] then
      some (w.after w.sink.finish fun w => { w with stage := .finished })
    else none

/-! ## What the part file holds -/

/-- Where `n` files and `x` bytes of the next one end. -/
def Job.reach (J : Job) (n x : Nat) : Nat :=
  (J.body n).length + if x = 0 then 0 else J.slots[n]?.elim 0 Slot.headerLen + x

/-- The file has everything delivered, except perhaps the descriptors of the files whose
commit has not come. -/
def FileOk (J : Job) (f : Bytes) (n x : Nat) (waiting : List Nat) : Prop :=
  ∀ p, p < J.reach n x →
    (∀ i t, J.slots[i]? = some t → t.id ∈ waiting → ¬ J.InDesc i p) → f[p]? = J.full[p]?

theorem Job.reach_zero (n : Nat) : J.reach n 0 = (J.body n).length := by
  simp [Job.reach]

variable {n x p : Nat} {t : Slot} {mk : Mark J} {w : World J}

theorem Job.reach_slot (ht : J.slots[n]? = some t) (hx : 0 < x) : J.reach n x = t.dataOff + x := by
  rw [Job.reach, if_neg (by omega), ht, Option.elim_some, J.dataOff ht]
  omega

/-- What a cut of the archive has. -/
theorem Job.full_of_take {f : Bytes} {c : Nat} (hf : f = J.full.take c) (hp : p < c) :
    f[p]? = J.full[p]? := by
  rw [hf, List.getElem?_take_of_lt hp]

theorem Stands.fileOk {s : Sink} {late : Option Nat} {waiting : List Nat}
    (h : Stands J s n x late) (hl : ∀ id, late = some id → id ∈ waiting) :
    FileOk J (s.part.getD []) n x waiting := by
  intro p hp hdesc
  cases h with
  | closed hc =>
    rw [J.reach_zero] at hp
    rw [hc.part, Option.getD_some]
    exact J.full_of_take (J.full_take_body hc.le).symm hp
  | @inFlight n t x ho hx =>
    have hle : J.reach n x ≤ t.dataOff + x := by
      rcases Nat.eq_zero_or_pos x with rfl | hpos
      · rw [J.reach_zero, J.dataOff ho.slot]
        omega
      · rw [J.reach_slot ho.slot hpos]
    rw [ho.part, Option.getD_some]
    exact J.full_of_take (J.full_take_upTo ho.slot ho.le).symm (by omega)
  | @late i t ho =>
    -- The open file's descriptor is the one thing missing.
    have hnot := hdesc i t ho.slot (hl t.id rfl)
    rw [J.reach_zero, ← J.slot_end ho.slot] at hp
    have hlt : p < t.dataOff + t.size := by
      by_contra hge
      exact hnot ⟨t, ho.slot, by omega, hp⟩
    rw [ho.part, Option.getD_some]
    exact J.full_of_take (J.full_take_upTo ho.slot (Nat.le_refl _)).symm hlt

/-! ## Marks -/

theorem Mark.mem_waiting {i : Nat} (ht : J.slots[i]? = some t) : t.id ∈ mk.waiting ↔
      mk.done ≤ i ∧ i < mk.done + mk.parts ∧ mk.bytesOf i t = t.size := by
  rw [Mark.waiting, List.mem_filterMap]
  constructor
  · rintro ⟨j, hj, h⟩
    rw [Option.bind_eq_some_iff] at h
    obtain ⟨u, hu, h⟩ := h
    split at h
    · rename_i hsize
      obtain rfl := J.id_inj hu ht (Option.some.inj h)
      obtain rfl : u = t := Option.some.inj (hu.symm.trans ht)
      have := List.mem_range'_1.1 hj
      exact ⟨this.1, this.2, hsize⟩
    · simp at h
  · rintro ⟨h1, h2, h3⟩
    refine ⟨i, List.mem_range'_1.2 ⟨h1, h2⟩, ?_⟩
    rw [ht, Option.bind_some, if_pos h3]

/-- Where a mark with parts stands: in its last file, or after it. -/
theorem Mark.place_succ {r : Nat} (hr : mk.parts = r + 1) (ht : J.slots[mk.done + r]? = some t) :
    mk.cut = t.dataOff + mk.bytes ∧ mk.place = nextPlace (mk.done + r) mk.bytes t.size ∧
      mk.late = if mk.bytes = t.size then some t.id else none := by
  simp [Mark.cut, Mark.place, Mark.late, hr, ht]

theorem Mark.late_mem {id : Nat} (h : mk.late = some id) : id ∈ mk.waiting := by
  cases hr : mk.parts with
  | zero => simp [Mark.late, hr] at h
  | succ r =>
    obtain ⟨t, ht, -, -⟩ := Mark.last hr
    rw [(Mark.place_succ hr ht).2.2] at h
    split at h
    · rename_i hsize
      obtain rfl := Option.some.inj h
      refine (Mark.mem_waiting ht).2 ⟨by omega, by omega, ?_⟩
      rw [Mark.bytesOf, if_pos (by omega), hsize]
    · simp at h

/-- The recorded bytes end where the mark stands, or one descriptor earlier: that of the last
file, which is whole and waits for its commit. -/
theorem Mark.cut_or_waiting (mk : Mark J) (hp : p < J.reach mk.place.1 mk.place.2) :
    p < mk.cut ∨ ∃ i t, J.slots[i]? = some t ∧ t.id ∈ mk.waiting ∧ J.InDesc i p := by
  cases hr : mk.parts with
  | zero =>
    left
    rw [Mark.place, hr, J.reach_zero] at hp
    rwa [Mark.cut, hr]
  | succ r =>
    obtain ⟨t, ht, hpos, hfit⟩ := Mark.last hr
    obtain ⟨hcut, hplace, hlate⟩ := Mark.place_succ hr ht
    rw [hplace, nextPlace] at hp
    split at hp
    · rename_i hsize
      rw [J.reach_zero, ← J.slot_end ht] at hp
      by_cases hlt : p < t.dataOff + t.size
      · exact .inl (by omega)
      · refine .inr ⟨mk.done + r, t, ht, Mark.late_mem ?_, t, ht, by omega, hp⟩
        rw [hlate, if_pos hsize]
    · rw [J.reach_slot ht hpos] at hp
      exact .inl (by omega)

theorem Mark.cut_le_reach (mk : Mark J) : mk.cut ≤ J.reach mk.place.1 mk.place.2 := by
  cases hr : mk.parts with
  | zero => rw [Mark.place, Mark.cut, hr, J.reach_zero]
  | succ r =>
    obtain ⟨t, ht, hpos, hfit⟩ := Mark.last hr
    obtain ⟨hcut, hplace, -⟩ := Mark.place_succ hr ht
    rw [hcut, hplace, nextPlace]
    split
    · rw [J.reach_zero, ← J.slot_end ht, Slot.end_]
      omega
    · rw [J.reach_slot ht hpos]

/-- Below where a mark stands, every descriptor from its first part on waits. -/
theorem Mark.waiting_of_inDesc (mk : Mark J) {i : Nat} (ht : J.slots[i]? = some t)
    (hp : p < J.reach mk.place.1 mk.place.2) (hi : mk.done ≤ i) (hd : J.InDesc i p) :
    t.id ∈ mk.waiting := by
  cases hr : mk.parts with
  | zero =>
    rw [Mark.place, hr, J.reach_zero] at hp
    exact absurd hd (J.not_inDesc_body hi hp)
  | succ r =>
    obtain ⟨v, hv, hpos, hfit⟩ := Mark.last hr
    obtain ⟨-, hplace, -⟩ := Mark.place_succ hr hv
    rw [hplace, nextPlace] at hp
    rw [Mark.mem_waiting ht, Mark.bytesOf]
    rcases Nat.lt_trichotomy i (mk.done + r) with hlt | rfl | hgt
    · exact ⟨hi, by omega, if_neg (by omega)⟩
    · obtain rfl : v = t := Option.some.inj (hv.symm.trans ht)
      refine ⟨hi, by omega, ?_⟩
      rw [if_pos (by omega)]
      by_contra hne
      rw [if_neg hne, J.reach_slot ht hpos] at hp
      exact J.not_inDesc_data ht (Nat.le_refl _) (by omega) hd
    · have hreach : p < (J.body i).length := by
        have hmono := Job.body_mono (J := J) (show mk.done + r + 1 ≤ i from hgt)
        split at hp
        · rw [J.reach_zero] at hp
          exact Nat.lt_of_lt_of_le hp hmono
        · rw [J.reach_slot hv hpos] at hp
          rw [← J.slot_end hv, Slot.end_] at hmono
          omega
      exact absurd hd (J.not_inDesc_body (Nat.le_refl i) hreach)

/-- A journal that is behind what was delivered does not reach further. -/
theorem Mark.reach_le (h : mk.place.1 < n ∨ (mk.place.1 = n ∧ mk.place.2 ≤ x)) :
    J.reach mk.place.1 mk.place.2 ≤ J.reach n x := by
  have hbase : J.reach mk.place.1 mk.place.2 ≤ (J.body (mk.place.1 + 1)).length := by
    cases hr : mk.parts with
    | zero =>
      have : mk.place = (mk.done, 0) := by rw [Mark.place, hr]
      rw [this, J.reach_zero]
      exact Job.body_mono (by omega)
    | succ r =>
      obtain ⟨t, ht, hpos, hfit⟩ := Mark.last hr
      obtain ⟨-, hplace, -⟩ := Mark.place_succ hr ht
      rw [hplace, nextPlace]
      split
      · rw [J.reach_zero]
        exact Job.body_mono (by omega)
      · rw [J.reach_slot ht hpos, ← J.slot_end ht, Slot.end_]
        omega
  rcases h with hlt | ⟨rfl, hx⟩
  · have hmono := Job.body_mono (J := J) (show mk.place.1 + 1 ≤ n from hlt)
    exact Nat.le_trans hbase (Nat.le_trans hmono (Nat.le_add_right _ _))
  · rw [Job.reach, Job.reach]
    split
    · omega
    · rw [if_neg (by omega)]
      omega

/-- **A crash keeps what the journal records.** -/
theorem FileOk.crash {g : Bytes}
    (h : FileOk J w.part w.n w.x w.waiting) (hb : w.Behind mk) (hk : Keeps mk g w.part) :
    FileOk J g mk.place.1 mk.place.2 mk.waiting := by
  intro p hp hdesc
  have hrec : ∀ i, mk.done ≤ i → ¬ J.InDesc i p := by
    intro i hi hd
    obtain ⟨t, ht, -⟩ := id hd
    exact hdesc i t ht (mk.waiting_of_inDesc ht hp hi hd) hd
  have hcut : p < mk.cut := by
    rcases mk.cut_or_waiting hp with hlt | ⟨i, t, ht, hw, hd⟩
    · exact hlt
    · exact absurd hd (hdesc i t ht hw)
  rw [hk p hcut fun i _ hi => hrec i hi]
  refine h p (Nat.lt_of_lt_of_le hp (Mark.reach_le hb.1)) fun i t ht hw hd => ?_
  -- A file that waits is not among those recorded as done.
  refine hrec i ?_ hd
  by_contra hlt
  have hi := (List.getElem?_eq_some_iff.1 ht)
  refine hb.2 t (List.mem_take_iff_getElem.2 ⟨i, ?_, hi.2⟩) hw
  have := hi.1
  omega

theorem FileOk.agree {g : Bytes}
    (h : FileOk J g mk.place.1 mk.place.2 mk.waiting) : Agree J g mk.done mk.cut := by
  intro p hp hdesc
  refine h p (Nat.lt_of_lt_of_le hp mk.cut_le_reach) fun i t ht hw => hdesc i ?_
  exact ((Mark.mem_waiting ht).1 hw).1

/-! ## The invariant -/

/-- What the disk and the journal agree on before `position`. -/
structure Journaled (w : World J) : Prop where
  records : Records J w.mark w.done w.durable
  n : w.n = w.mark.place.1
  x : w.x = w.mark.place.2
  waiting : w.waiting = w.mark.waiting
  file : FileOk J w.part w.n w.x w.waiting

structure Inv (w : World J) : Prop where
  failed : w.failed = none
  down : w.stage = .down →
    w.sink.single = J.single ∧ w.sink.base = J.base ∧ Journaled w
  prepared : w.stage = .prepared →
    Prepared J w.sink ∧ w.sink.part = some w.part ∧ Journaled w
  running : w.stage = .running →
    ∃ late, Stands J w.sink w.n w.x late ∧ ∀ id, late = some id → id ∈ w.waiting
  finished : w.stage = .finished → w.sink.dest = some J.archive

/-- With an empty journal nothing has been delivered before `position`. -/
theorem Journaled.empty (h : Journaled w) (hd : w.done = ∅)
    (he : w.durable.entries = []) : w.n = 0 ∧ w.x = 0 := by
  obtain ⟨hdone, hparts⟩ := h.records.empty hd he
  rw [h.n, h.x, Mark.place, hparts, hdone]
  exact ⟨rfl, rfl⟩

/-- What a live sink has taken. -/
theorem Inv.taken (h : Inv w) (hl : w.Live) :
    ∃ late, Taken J w.sink w.n w.x late ∧ ∀ id, late = some id → id ∈ w.waiting := by
  rcases hl with hr | ⟨hp, hd, he⟩
  · obtain ⟨late, hst, hl⟩ := h.running hr
    exact ⟨late, .inr hst, hl⟩
  · obtain ⟨hprep, -, hj⟩ := h.prepared hp
    obtain ⟨hn, hx⟩ := hj.empty hd he
    exact ⟨none, .inl ⟨hprep, hn, hx, rfl⟩, fun id hid => absurd hid (by simp)⟩

/-- What the part file holds, at every stage before the end. -/
theorem Inv.fileOk (h : Inv w) (hs : w.stage ≠ .finished) : FileOk J w.part w.n w.x w.waiting := by
  cases hst : w.stage with
  | down => exact (h.down hst).2.2.file
  | prepared => exact (h.prepared hst).2.2.file
  | running =>
    obtain ⟨late, hs, hl⟩ := h.running hst
    exact hs.fileOk hl
  | finished => exact absurd hst hs

theorem prepare_spec (hs : w.sink.single = J.single) (hb : w.sink.base = J.base) :
    ∃ s', w.sink.prepare J.checkPath J.m = .ok s' ∧ Prepared J s' ∧
      s'.part = some w.part := by
  refine ⟨{ w.sink with
    part := some (w.sink.part.getD []), m := some J.m, layout := J.layout, opened := true,
    crcs := List.replicate J.layout.slots.length none, pos := 0, positioned := false,
    current := none, written := 0, last := none, started := 0 }, ?_, ?_, rfl⟩
  · simp only [Sink.prepare, hs, hb, J.shape, J.built, Sink.lift, Except.mapError, bind,
      Except.bind]
  · exact ⟨rfl, rfl, rfl, rfl, rfl, rfl, rfl⟩

theorem Inv.of_running {late : Option Nat} (hf : w.failed = none)
    (hr : w.stage = .running) (h : Stands J w.sink w.n w.x late)
    (hl : ∀ id, late = some id → id ∈ w.waiting) : Inv w :=
  ⟨hf, fun h' => absurd (hr.symm.trans h') (by simp), fun h' => absurd (hr.symm.trans h') (by simp),
    fun _ => ⟨late, h, hl⟩, fun h' => absurd (hr.symm.trans h') (by simp)⟩

theorem World.after_ok {r : Except Failed Sink} {s : Sink}
    {next : World J → World J} (h : r = .ok s) : w.after r next = next { w with sink := s } := by
  subst h
  rfl

/-! ## One call -/

theorem Inv.prepare (h : Inv w) (hst : w.stage = .down) :
    Inv (w.after (w.sink.prepare J.checkPath J.m) fun w => { w with stage := .prepared }) := by
  obtain ⟨hs, hb, hj⟩ := h.down hst
  obtain ⟨s', hs', hp, hpart⟩ := prepare_spec hs hb
  rw [World.after_ok hs']
  have hsame : World.part { w with sink := s', stage := .prepared } = w.part := by
    simp [World.part, hpart]
  refine ⟨h.failed, fun h' => absurd h' (by simp), fun _ => ⟨hp, ?_, ?_⟩,
    fun h' => absurd h' (by simp), fun h' => absurd h' (by simp)⟩
  · rw [hsame]
    exact hpart
  · exact ⟨hj.records, hj.n, hj.x, hj.waiting, hsame ▸ hj.file⟩

theorem Inv.position_ok (h : Inv w) (hst : w.stage = .prepared) :
    ∃ s', w.sink.position w.done w.durable = .ok s' ∧ Stands J s' w.n w.x w.mark.late := by
  obtain ⟨hp, hpart, hj⟩ := h.prepared hst
  have hagree : Agree J w.part w.mark.done w.mark.cut := by
    refine FileOk.agree ?_
    rw [← hj.n, ← hj.x, ← hj.waiting]
    exact hj.file
  rw [hj.n, hj.x]
  exact position_spec hp hpart hj.records hagree

theorem Inv.position (h : Inv w) (hst : w.stage = .prepared) :
    Inv (w.after (w.sink.position w.done w.durable) fun w => { w with stage := .running }) := by
  obtain ⟨s', hs', hstands⟩ := h.position_ok hst
  rw [World.after_ok hs']
  refine Inv.of_running h.failed rfl hstands fun id hid => ?_
  rw [(h.prepared hst).2.2.waiting]
  exact Mark.late_mem hid

theorem Inv.write (h : Inv w) {d : Bytes} (hl : w.Live)
    (ht : J.slots[w.n]? = some t) (hd : d = ((J.content t.id).drop w.x).take d.length)
    (hx : w.x + d.length ≤ t.size) :
    Inv (w.after (w.sink.writeAt_ t.id w.x d) fun w =>
      { w with
        stage := .running
        n := (nextPlace w.n (w.x + d.length) t.size).1
        x := (nextPlace w.n (w.x + d.length) t.size).2 }) := by
  obtain ⟨late, htaken, -⟩ := h.taken hl
  obtain ⟨s', hs', hstands⟩ := append_spec htaken ht hd hx
  rw [World.after_ok (r := w.sink.writeAt_ t.id w.x d) hs']
  exact Inv.of_running h.failed rfl hstands fun id hid => absurd hid (by simp)

theorem Inv.touch (h : Inv w) {id : Nat} {e : Entry}
    (hst : w.stage = .prepared ∨ w.stage = .running) (he : J.m.entry id = some e)
    (hk : e.kind = .file) (hz : e.size = 0) :
    Inv (w.after (w.sink.writeWhole id []) fun w => w) := by
  have hm : w.sink.m = some J.m := by
    rcases hst with hp | hr
    · exact (h.prepared hp).1.m
    · obtain ⟨late, hs, -⟩ := h.running hr
      exact hs.ready.m
  rw [World.after_ok (r := w.sink.writeWhole id []) (append_empty hm he hk hz)]
  exact h

theorem Inv.commit (h : Inv w) (hl : w.Live) (id : Nat) : Inv (w.after (w.sink.commit id) fun w =>
      { w with waiting := w.waiting.filter (· ≠ id) }) := by
  rcases hl with hr | ⟨hst, hd, he⟩
  · obtain ⟨late, hstands, hlate⟩ := h.running hr
    obtain ⟨s', hs', hstands'⟩ := commit_spec hstands id
    rw [World.after_ok hs']
    refine Inv.of_running h.failed hr hstands' fun id' hid' => ?_
    split at hid'
    · simp at hid'
    · rename_i hne
      have : id' ≠ id := fun heq => hne (heq ▸ hid')
      exact List.mem_filter.2 ⟨hlate id' hid', by simpa using this⟩
  · obtain ⟨hp, hpart, hj⟩ := h.prepared hst
    rw [World.after_ok (hp.commit id)]
    -- The journal is empty, so there is nothing to wait for.
    have hnil : w.waiting = [] := by
      rw [hj.waiting, Mark.waiting, (hj.records.empty hd he).2]
      rfl
    have hsame : w.waiting.filter (· ≠ id) = w.waiting := by rw [hnil, List.filter_nil]
    rw [hsame]
    exact h

theorem Inv.crash (h : Inv w) {mark : Mark J} {done : Finset Nat}
    {durable : BTreeMap Nat RangeSet} {part : Option Bytes} (hst : w.stage ≠ .finished)
    (hrec : Records J mark done durable) (hb : w.Behind mark)
    (hk : Keeps mark (part.getD []) w.part) :
    Inv { w with
      sink := J.sink part w.sink.dest, stage := .down, mark := mark, done := done,
      durable := durable, n := mark.place.1, x := mark.place.2, waiting := mark.waiting } := by
  refine ⟨h.failed, fun _ => ⟨rfl, rfl, hrec, rfl, rfl, rfl, ?_⟩, fun h' => absurd h' (by simp),
    fun h' => absurd h' (by simp), fun h' => absurd h' (by simp)⟩
  exact (h.fileOk hst).crash hb hk

theorem Inv.finish_ok (h : Inv w) (hl : w.Live) (hn : w.n = J.slots.length)
    (hw : w.waiting = []) : ∃ s', w.sink.finish = .ok s' ∧ s'.dest = some J.archive := by
  obtain ⟨late, htaken, hlate⟩ := h.taken hl
  have hnone : late = none := by
    cases late with
    | none => rfl
    | some id => exact absurd (hlate id rfl) (by simp [hw])
  rw [hn, hnone] at htaken
  exact finish_spec htaken

theorem Inv.finish (h : Inv w) (hl : w.Live) (hn : w.n = J.slots.length) (hw : w.waiting = []) :
    Inv (w.after w.sink.finish fun w => { w with stage := .finished }) := by
  obtain ⟨s', hs', hdest⟩ := h.finish_ok hl hn hw
  rw [World.after_ok hs']
  exact ⟨h.failed, fun h' => absurd h' (by simp), fun h' => absurd h' (by simp),
    fun h' => absurd h' (by simp), fun _ => hdest⟩

/-- **One call keeps the invariant**; in particular the sink accepts it. -/
theorem step_inv (w : World J) (a : Act J) (w' : World J) (h : Inv w)
    (hstep : step w a = some w') : Inv w' := by
  cases a with
  | prepare =>
    rw [step, Option.ite_none_right_eq_some] at hstep
    obtain ⟨hst, hw'⟩ := hstep
    exact Option.some.inj hw' ▸ h.prepare hst
  | position =>
    rw [step, Option.ite_none_right_eq_some] at hstep
    obtain ⟨hst, hw'⟩ := hstep
    exact Option.some.inj hw' ▸ h.position hst
  | write d =>
    rw [step] at hstep
    split at hstep
    · simp at hstep
    · rename_i t ht
      rw [Option.ite_none_right_eq_some] at hstep
      obtain ⟨⟨hl, hd, hx⟩, hw'⟩ := hstep
      exact Option.some.inj hw' ▸ h.write hl ht hd hx
  | touch id =>
    rw [step, Option.ite_none_right_eq_some] at hstep
    obtain ⟨⟨hst, e, he, hk, hz⟩, hw'⟩ := hstep
    exact Option.some.inj hw' ▸ h.touch hst he hk hz
  | commit id =>
    rw [step, Option.ite_none_right_eq_some] at hstep
    obtain ⟨hl, hw'⟩ := hstep
    exact Option.some.inj hw' ▸ h.commit hl id
  | crash mark done durable part =>
    rw [step, Option.ite_none_right_eq_some] at hstep
    obtain ⟨⟨hst, hrec, hb, hk⟩, hw'⟩ := hstep
    exact Option.some.inj hw' ▸ h.crash hst hrec hb hk
  | finish =>
    rw [step, Option.ite_none_right_eq_some] at hstep
    obtain ⟨⟨hl, hn, hw⟩, hw'⟩ := hstep
    exact Option.some.inj hw' ▸ h.finish hl hn hw

/-! ## Runs -/

theorem start_inv (part dest : Option Bytes) : Inv (start J part dest) := by
  refine ⟨rfl, fun _ => ⟨rfl, rfl, ?_, rfl, rfl, rfl, ?_⟩, fun h => absurd h (by simp [start]),
    fun h => absurd h (by simp [start]), fun h => absurd h (by simp [start])⟩
  · intro i hi
    simp [start, Mark.blank, BTreeMap.get]
  · intro p hp
    simp [start, J.reach_zero, J.body_zero] at hp

/-- A download that nothing interrupts, each file written in one piece. -/
def Job.plainRun (J : Job) : List (Act J) :=
  [.prepare, .position] ++ J.slots.map (fun t => .write (J.content t.id)) ++ [.finish]

theorem step_prepare (h : Inv w) (hst : w.stage = .down) :
    ∃ w', step w .prepare = some w' ∧ w'.stage = .prepared ∧ w'.n = w.n ∧ w'.x = w.x ∧
      w'.waiting = w.waiting := by
  obtain ⟨hs, hb, -⟩ := h.down hst
  obtain ⟨s', hs', -, -⟩ := prepare_spec hs hb
  refine ⟨{ w with sink := s', stage := .prepared }, ?_, rfl, rfl, rfl, rfl⟩
  rw [step, if_pos hst, World.after_ok hs']

theorem step_position (h : Inv w) (hst : w.stage = .prepared) :
    ∃ w', step w .position = some w' ∧ w'.stage = .running ∧ w'.n = w.n ∧ w'.x = w.x ∧
      w'.waiting = w.waiting := by
  obtain ⟨s', hs', -⟩ := h.position_ok hst
  refine ⟨{ w with sink := s', stage := .running }, ?_, rfl, rfl, rfl, rfl⟩
  rw [step, if_pos hst, World.after_ok hs']

/-- `finish`, once it may come, leaves the archive. -/
theorem step_finish {w' : World J} (h : Inv w) (hs : step w .finish = some w') :
    w'.sink.dest = some J.archive := by
  rw [step, Option.ite_none_right_eq_some] at hs
  obtain ⟨⟨hl, hn, hw⟩, hw'⟩ := hs
  obtain ⟨s', hs', hdest⟩ := h.finish_ok hl hn hw
  rw [World.after_ok hs'] at hw'
  exact Option.some.inj hw' ▸ hdest

/-- A whole file in one piece. -/
theorem step_write_whole (h : Inv w) (hr : w.stage = .running) (hx : w.x = 0) (ht : J.slots[w.n]? = some t) :
    ∃ w', step w (.write (J.content t.id)) = some w' ∧ w'.stage = .running ∧ w'.n = w.n + 1 ∧
      w'.x = 0 ∧ w'.waiting = w.waiting := by
  have hlen := J.length_content ht
  have hd : J.content t.id = ((J.content t.id).drop w.x).take (J.content t.id).length := by
    rw [hx, List.drop_zero, List.take_length]
  have hle : w.x + (J.content t.id).length ≤ t.size := by omega
  obtain ⟨late, htaken, -⟩ := h.taken (.inl hr)
  obtain ⟨s', hs', -⟩ := append_spec htaken ht hd hle
  have hnext : nextPlace w.n (w.x + (J.content t.id).length) t.size = (w.n + 1, 0) := by
    rw [nextPlace, if_pos (by omega)]
  refine ⟨{ w with sink := s', stage := .running, n := w.n + 1, x := 0 }, ?_, rfl, rfl, rfl, rfl⟩
  rw [step, ht]
  simp only
  rw [if_pos ⟨.inl hr, hd, hle⟩,
    World.after_ok (r := w.sink.writeAt_ t.id w.x (J.content t.id)) hs']
  simp only [hnext]

/-- The writes of a plain run. -/
theorem exec_writes (h : Inv w) (hr : w.stage = .running) (hx : w.x = 0)
    (hn : w.n ≤ J.slots.length) :
    ∃ w', exec step w ((J.slots.drop w.n).map fun t => .write (J.content t.id)) = some w' ∧
      w'.stage = .running ∧ w'.n = J.slots.length ∧ w'.waiting = w.waiting := by
  induction hk : J.slots.length - w.n generalizing w with
  | zero =>
    refine ⟨w, ?_, hr, by omega, rfl⟩
    rw [List.drop_of_length_le (by omega)]
    rfl
  | succ k ih =>
    have hlt : w.n < J.slots.length := by omega
    obtain ⟨w₁, hw₁, hr₁, hn₁, hx₁, hwait₁⟩ :=
      step_write_whole h hr hx (List.getElem?_eq_getElem hlt)
    obtain ⟨w', hw', hr', hn', hwait'⟩ :=
      ih (step_inv w _ w₁ h hw₁) hr₁ hx₁ (by omega) (by omega)
    refine ⟨w', ?_, hr', hn', hwait'.trans hwait₁⟩
    rw [List.drop_eq_getElem_cons hlt, List.map_cons, exec_cons_eq_some]
    exact ⟨w₁, hw₁, hn₁ ▸ hw'⟩

/-- **A download that nothing interrupts finishes**, with the archive at its destination. -/
theorem plainRun_exec (J : Job) (part dest : Option Bytes) :
    ∃ u, exec step (start J part dest) J.plainRun = some u ∧ u.sink.dest = some J.archive := by
  have h₀ := start_inv (J := J) part dest
  obtain ⟨w₁, hw₁, hst₁, hn₁, hx₁, hwait₁⟩ := step_prepare h₀ rfl
  have h₁ := step_inv _ _ _ h₀ hw₁
  obtain ⟨w₂, hw₂, hst₂, hn₂, hx₂, hwait₂⟩ := step_position h₁ hst₁
  have h₂ := step_inv _ _ _ h₁ hw₂
  have hzero : w₂.n = 0 := hn₂.trans hn₁
  obtain ⟨w₃, hw₃, hst₃, hn₃, hwait₃⟩ := exec_writes h₂ hst₂ (hx₂.trans hx₁) (by omega)
  rw [hzero, List.drop_zero] at hw₃
  have hnone : w₃.waiting = [] := hwait₃.trans (hwait₂.trans hwait₁)
  obtain ⟨w₄, hw₄⟩ : ∃ w₄, step w₃ .finish = some w₄ := by
    rw [step, if_pos ⟨.inl hst₃, hn₃, hnone⟩]
    exact ⟨_, rfl⟩
  refine ⟨w₄, ?_, step_finish (exec_inv step_inv h₂ hw₃) hw₄⟩
  refine (exec_append step).2 ⟨w₃, ?_, ?_⟩
  · refine (exec_cons_eq_some step).2 ⟨w₁, hw₁, (exec_cons_eq_some step).2 ⟨w₂, hw₂, hw₃⟩⟩
  · exact (exec_cons_eq_some step).2 ⟨w₄, hw₄, rfl⟩

/-- **Resume equivalence.**  Whatever is at the part file's and the destination's place when a
download starts, and however often it crashes and resumes: no call of the sink fails, and when
the download finishes, the destination holds byte for byte the archive of one that nothing
interrupted. -/
theorem resume_same_archive (J : Job) (part dest : Option Bytes) (acts : List (Act J)) :
    (∀ v ∈ States step (start J part dest) acts, v.failed = none) ∧
    ∃ archive,
      (∃ u, exec step (start J none none) J.plainRun = some u ∧ u.sink.dest = some archive) ∧
      ∀ t, exec step (start J part dest) (acts ++ [.finish]) = some t →
        t.failed = none ∧ t.sink.dest = some archive := by
  have hinv := start_inv (J := J) part dest
  refine ⟨fun v hv => ?_, J.archive, plainRun_exec J none none, fun t ht => ?_⟩
  · exact (exec_forall_inv step_inv hinv v hv).failed
  · obtain ⟨w, hw, hfin⟩ := (exec_append step).1 ht
    obtain ⟨t', hstep, heq⟩ := (exec_cons_eq_some step).1 hfin
    obtain rfl : t' = t := Option.some.inj heq
    exact ⟨(exec_inv step_inv hinv ht).failed, step_finish (exec_inv step_inv hinv hw) hstep⟩

/-! ## A download that crashes twice -/

/-- Three files and an empty one. -/
def threeFiles : Job where
  checkPath := fun _ => none
  single := false
  base := "P"
  m := ⟨[⟨.file, 0o644, 3, 1700000000, "a"⟩, ⟨.file, 0o644, 0, 1700000000, "e"⟩,
    ⟨.file, 0o644, 2, 1700000000, "b"⟩, ⟨.file, 0o644, 2, 1700000000, "d"⟩]⟩
  layout :=
    { slots := [⟨0, "P/a", 3, 0o644, 1700000000, 0, 53⟩, ⟨2, "P/b", 2, 0o644, 1700000000, 80, 133⟩,
        ⟨3, "P/d", 2, 0o644, 1700000000, 159, 212⟩]
      empties := [⟨1, "P/e", 0, 0o644, 1700000000, 0, 0⟩] }
  content := fun id => if id = 0 then [7, 8, 9] else if id = 2 then [4, 5] else [1, 2]
  shape := by decide +kernel
  built := by decide +kernel
  whole := by decide +kernel

/-- The first file done, the second whole without a `Done`, a byte of the third. -/
def firstMark : Mark threeFiles := ⟨1, 2, 1, by decide +kernel, by decide, by decide +kernel⟩

/-- The first file done, the second whole without a `Done`. -/
def secondMark : Mark threeFiles := ⟨1, 1, 2, by decide +kernel, by decide, by decide +kernel⟩

/-- The first crash loses the second file's descriptor and leaves bytes after the recorded
ones, the second crash comes right after the resume and leaves the second file open: the third
file's first byte comes before its commit. -/
def twoCrashes : List (Act threeFiles) :=
  [.prepare, .position, .touch 1, .write [7, 8], .write [9], .write [4, 5], .write [1],
    .crash firstMark {0, 1} ⟨[(2, [(0, 2)]), (3, [(0, 1)])], by decide⟩
      (some (threeFiles.full.take 135 ++ List.replicate 24 255
        ++ (threeFiles.full.drop 159).take 54 ++ [1, 2, 3])),
    .prepare, .position,
    .crash secondMark {0} ⟨[(2, [(0, 2)])], by decide⟩
      (some (threeFiles.full.take 135 ++ [238])),
    .prepare, .position, .write [1], .commit 2, .write [2]]

theorem resume_same_archive_twoCrashes :
    (exec step (start threeFiles none none) (twoCrashes ++ [.finish])).isSome = true ∧
    (∀ v ∈ States step (start threeFiles none none) twoCrashes, v.failed = none) ∧
    ∃ archive,
      (∃ u, exec step (start threeFiles none none) threeFiles.plainRun = some u ∧
        u.sink.dest = some archive) ∧
      ∀ t, exec step (start threeFiles none none) (twoCrashes ++ [.finish]) = some t →
        t.failed = none ∧ t.sink.dest = some archive :=
  ⟨by decide +kernel, resume_same_archive threeFiles none none twoCrashes⟩

end Ps5Upload.ZipStored
