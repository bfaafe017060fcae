import Mathlib.Data.List.Basic
import Mathlib.Tactic.Common
import Ps5Upload.Ava1.ZipStored.Sink

/-!
# Stored zips: what the writes leave in the part file

A `Job` is a download into a Stored zip that `prepare` accepts, with the bytes of its files.
`Job.body n` is the archive up to its `n`-th entry.  The sink of a positioned archive is at one
of two kinds of place: `Closed n`, where exactly `body n` is written, and `Open i t x`, where
the header of entry `i` and the first `x` bytes of it follow `body i`.

* `putData_spec`, `beginFile_spec`, `closeCurrent_spec` — the parts of `append`;
* `append_spec` — the next bytes of the file in flight are taken from every place.
-/

namespace Ps5Upload.ZipStored

open ByteFile Crc32

/-- A download that the sink accepts: what the manifest says, and the bytes of its files. -/
structure Job where
  checkPath : String → Option String
  single : Bool
  base : String
  m : Manifest
  layout : Layout
  content : Nat → Bytes
  shape : checkShape checkPath m single = .ok ()
  built : Layout.build m single base = .ok layout
  whole : ∀ t ∈ layout.slots, (content t.id).length = t.size

namespace Job

variable (J : Job)

def slots : List Slot := J.layout.slots

/-- The checksum of a file. -/
def sum (t : Slot) : UInt32 := crc32 (J.content t.id)

/-- The bytes of an entry: local header, data, data descriptor. -/
def entryBytes (t : Slot) : Bytes := t.header ++ J.content t.id ++ t.descriptor (J.sum t)

/-- The archive up to its `n`-th entry. -/
def body (n : Nat) : Bytes := (J.slots.take n).flatMap J.entryBytes

/-- The archive of an uninterrupted download. -/
def archive : Bytes :=
  J.body J.slots.length
    ++ tailBytes J.layout (J.slots.map J.sum) (J.body J.slots.length).length

/-- The checksums the sink knows with the first `n` entries finished. -/
def sums (n : Nat) : List (Option UInt32) :=
  (J.slots.take n).map (fun t => some (J.sum t)) ++ List.replicate (J.slots.length - n) none

/-- The id of the `n`-th entry, if there is one before the first `n`. -/
def lastOf (n : Nat) : Option Nat := if n = 0 then none else J.slots[n - 1]?.map Slot.id

variable {J}

variable {i : Nat} {t : Slot}

theorem length_content (h : J.slots[i]? = some t) :
    (J.content t.id).length = t.size := J.whole t (List.mem_of_getElem? h)

theorem length_entryBytes (h : J.slots[i]? = some t) :
    (J.entryBytes t).length = t.headerLen + t.size + descLen := by
  simp only [entryBytes, List.length_append, Slot.length_header, Slot.length_descriptor,
    length_content h]

theorem body_zero : J.body 0 = [] := rfl

theorem body_succ (h : J.slots[i]? = some t) : J.body (i + 1) = J.body i ++ J.entryBytes t := by
  rw [body, List.take_add_one, h, List.flatMap_append]
  simp [body]

/-- Where a placed slot's header starts. -/
theorem hdrOff_of_placed {off : Nat} {ts : List Slot} (hp : Placed off ts)
    (hw : ∀ t ∈ ts, (J.content t.id).length = t.size) (h : ts[i]? = some t) :
    t.hdrOff = off + ((ts.take i).flatMap J.entryBytes).length ∧
      t.dataOff = t.hdrOff + t.headerLen ∧ 0 < t.size := by
  induction ts generalizing off i with
  | nil => simp at h
  | cons u ts ih =>
    obtain ⟨hoff, hdata, hsize, hrest⟩ := hp
    cases i with
    | zero =>
      rw [List.getElem?_cons_zero, Option.some.injEq] at h
      subst h
      exact ⟨by simpa using hoff, by rw [hdata, hoff], hsize⟩
    | succ i =>
      rw [List.getElem?_cons_succ] at h
      obtain ⟨h1, h2, h3⟩ := ih hrest (fun t ht => hw t (List.mem_cons_of_mem u ht)) h
      refine ⟨?_, h2, h3⟩
      rw [h1, List.take_succ_cons, List.flatMap_cons, List.length_append, Slot.end_, hdata,
        entryBytes, List.length_append, List.length_append, Slot.length_header,
        Slot.length_descriptor, hw u List.mem_cons_self]
      omega

theorem hdrOff (h : J.slots[i]? = some t) : t.hdrOff = (J.body i).length := by
  have := (hdrOff_of_placed (build_placed J.built) J.whole h).1
  rwa [Nat.zero_add] at this

theorem dataOff (h : J.slots[i]? = some t) : t.dataOff = (J.body i).length + t.headerLen := by
  rw [(hdrOff_of_placed (build_placed J.built) J.whole h).2.1, hdrOff h]

theorem size_pos (h : J.slots[i]? = some t) : 0 < t.size :=
  (hdrOff_of_placed (build_placed J.built) J.whole h).2.2

theorem length_body_succ (h : J.slots[i]? = some t) :
    (J.body (i + 1)).length = (J.body i).length + t.headerLen + t.size + descLen := by
  rw [body_succ h, List.length_append, length_entryBytes h]
  omega

theorem slot_end (h : J.slots[i]? = some t) : t.end_ = (J.body (i + 1)).length := by
  rw [length_body_succ h, Slot.end_, dataOff h]

/-- Ids ascend with the place. -/
theorem id_lt {j : Nat} {u : Slot} (ht : J.slots[i]? = some t) (hu : J.slots[j]? = some u)
    (h : i < j) : t.id < u.id := by
  obtain ⟨hi, rfl⟩ := List.getElem?_eq_some_iff.1 ht
  obtain ⟨hj, rfl⟩ := List.getElem?_eq_some_iff.1 hu
  exact List.pairwise_iff_getElem.1 (build_ids J.built).1 i j hi hj h

theorem id_inj {j : Nat} {u : Slot} (ht : J.slots[i]? = some t) (hu : J.slots[j]? = some u)
    (h : t.id = u.id) : i = j := by
  rcases Nat.lt_trichotomy i j with hij | hij | hij
  · have := id_lt ht hu hij
    omega
  · exact hij
  · have := id_lt hu ht hij
    omega

/-- The place of a slot is found by its id. -/
theorem byId (h : J.slots[i]? = some t) : J.layout.byId t.id = some i := by
  obtain ⟨hi, rfl⟩ := List.getElem?_eq_some_iff.1 h
  rw [Layout.byId, List.findIdx?_eq_some_iff_getElem]
  refine ⟨hi, decide_eq_true rfl, fun j hj => ?_⟩
  have hlt : j < J.slots.length := by omega
  have := id_lt (List.getElem?_eq_getElem hlt) h hj
  simp only [decide_eq_true_eq]
  show ¬ J.slots[j].id = _
  omega

/-- Only slots are found by their id. -/
theorem slot_of_byId {id : Nat} (h : J.layout.byId id = some i) :
    ∃ t, J.slots[i]? = some t ∧ t.id = id := by
  rw [Layout.byId, List.findIdx?_eq_some_iff_getElem] at h
  obtain ⟨hi, ht, -⟩ := h
  exact ⟨J.layout.slots[i], List.getElem?_eq_getElem hi, by simpa using ht⟩

/-- The entry of a slot's file in the manifest. -/
theorem entry (h : J.slots[i]? = some t) :
    ∃ e, (J.m.entry t.id).filter (fun e => e.kind = .file) = some e ∧ e.size ≠ 0 := by
  obtain ⟨e, he, hk, hz⟩ := (build_ids J.built).2 t (List.mem_of_getElem? h)
  refine ⟨e, by simp [he, hk, Option.filter], ?_⟩
  have := size_pos h
  omega

theorem lastOf_succ (h : J.slots[i]? = some t) : J.lastOf (i + 1) = some t.id := by
  simp [lastOf, h]

/-- No file before the `n`-th has an id as large as its. -/
theorem lastOf_lt {n : Nat} (h : J.slots[n]? = some t) :
    (J.lastOf n).any (fun l => t.id ≤ l) = false := by
  cases n with
  | zero => rfl
  | succ i =>
    have hi : i < J.slots.length := by
      have := (List.getElem?_eq_some_iff.1 h).1
      omega
    have hlt := id_lt (List.getElem?_eq_getElem hi) h (Nat.lt_succ_self i)
    rw [lastOf_succ (List.getElem?_eq_getElem hi)]
    simpa using hlt

theorem sums_set (h : J.slots[i]? = some t) :
    (J.sums i).set i (some (J.sum t)) = J.sums (i + 1) := by
  have hi := (List.getElem?_eq_some_iff.1 h).1
  have hlen : ((J.slots.take i).map fun t => some (J.sum t)).length = i := by
    simp
    omega
  have hrep : J.slots.length - i = (J.slots.length - (i + 1)) + 1 := by omega
  rw [sums, sums, List.set_append_right _ _ (by omega), hlen, Nat.sub_self, hrep,
    List.replicate_succ, List.set_cons_zero, List.take_add_one, h]
  simp

theorem sums_zero : J.sums 0 = List.replicate J.slots.length none := rfl

theorem sums_all : J.sums J.slots.length = J.slots.map fun t => some (J.sum t) := by
  simp [sums]

end Job

/-! ## The places a positioned sink can be at -/

/-- The sink has `J`'s manifest, and the archive is open and positioned. -/
structure Ready (J : Job) (s : Sink) : Prop where
  m : s.m = some J.m
  layout : s.layout = J.layout
  opened : s.opened = true
  positioned : s.positioned = true

/-- The first `n` entries are written, and nothing else. -/
structure Closed (J : Job) (s : Sink) (n : Nat) : Prop where
  ready : Ready J s
  le : n ≤ J.slots.length
  part : s.part = some (J.body n)
  pos : s.pos = (J.body n).length
  current : s.current = none
  crcs : s.crcs = J.sums n
  last : s.last = J.lastOf n
  started : s.started = n

/-- The part file with `x` bytes of entry `i` in it. -/
def Job.upTo (J : Job) (i : Nat) (t : Slot) (x : Nat) : Bytes :=
  J.body i ++ t.header ++ (J.content t.id).take x

/-- Entry `i`, whose slot is `t`, is open with its first `x` bytes written. -/
structure Open (J : Job) (s : Sink) (i : Nat) (t : Slot) (x : Nat) : Prop where
  ready : Ready J s
  slot : J.slots[i]? = some t
  le : x ≤ t.size
  part : s.part = some (J.upTo i t x)
  pos : s.pos = (J.upTo i t x).length
  current : s.current = some i
  written : s.written = x
  crc : s.crc = Hasher.new.update ((J.content t.id).take x)
  crcs : s.crcs = J.sums i
  last : s.last = some t.id
  started : s.started = i + 1

variable {J : Job} {s : Sink}

theorem Ready.file (h : Ready J s) : s.file = .ok (s.part.getD []) := by
  rw [Sink.file, if_pos h.opened]

variable {i n x : Nat} {t : Slot} {d : Bytes} {late : Option Nat}

theorem Ready.slotAt (h : Ready J s) (ht : J.slots[i]? = some t) : s.slotAt i = .ok t := by
  have : s.layout.slots[i]? = some t := by rw [h.layout]; exact ht
  rw [Sink.slotAt, this]

theorem Ready.byId (h : Ready J s) (ht : J.slots[i]? = some t) : s.layout.byId t.id = some i := by
  rw [h.layout]
  exact J.byId ht

/-- A whole entry and its descriptor make the archive one entry longer. -/
theorem Job.upTo_size (ht : J.slots[i]? = some t) :
    J.upTo i t t.size ++ t.descriptor (J.sum t) = J.body (i + 1) := by
  rw [J.body_succ ht, Job.upTo, Job.entryBytes, List.take_of_length_le (by rw [J.length_content ht])]
  simp only [List.append_assoc]

/-- What writing the descriptor of a whole entry leaves. -/
theorem Open.closed (h : Open J s i t t.size) : Closed J (s.endSlot i t) (i + 1) := by
  have hi := (List.getElem?_eq_some_iff.1 h.slot).1
  have hcrc : s.crc.finalize = J.sum t := by
    rw [h.crc, List.take_of_length_le (by rw [J.length_content h.slot])]
    rfl
  refine ⟨⟨h.ready.m, h.ready.layout, h.ready.opened, h.ready.positioned⟩, hi, ?_, ?_, rfl, ?_,
    ?_, h.started⟩
  · show some (writeAt (s.part.getD []) s.pos _) = _
    rw [h.part, h.pos, Option.getD_some, writeAt_length, hcrc, J.upTo_size h.slot]
  · show s.pos + descLen = _
    rw [h.pos, ← J.upTo_size h.slot, List.length_append, Slot.length_descriptor]
  · show s.crcs.set i _ = _
    rw [h.crcs, hcrc, J.sums_set h.slot]
  · show s.last = _
    rw [h.last, J.lastOf_succ h.slot]

theorem finishCurrent_spec (h : Open J s i t t.size) :
    ∃ s', s.finishCurrent i = .ok s' ∧ Closed J s' (i + 1) := by
  refine ⟨_, ?_, h.closed⟩
  simp only [Sink.finishCurrent, h.ready.slotAt h.slot, h.ready.file, bind, Except.bind]

/-- The sink stands before the first byte of entry `n`: either everything before it is closed,
or entry `n - 1` is whole and still open. -/
def Before (J : Job) (s : Sink) (n : Nat) : Prop :=
  Closed J s n ∨ ∃ i t, n = i + 1 ∧ Open J s i t t.size

theorem Before.last (h : Before J s n) : s.last = J.lastOf n := by
  rcases h with h | ⟨i, t, rfl, h⟩
  · exact h.last
  · rw [h.last, J.lastOf_succ h.slot]

theorem Before.current_ne (h : Before J s n) : s.current ≠ some n := by
  rcases h with h | ⟨i, t, rfl, h⟩
  · rw [h.current]
    simp
  · rw [h.current]
    simp

theorem closeCurrent_spec (h : Before J s n) : ∃ s', s.closeCurrent = .ok s' ∧ Closed J s' n := by
  rcases h with h | ⟨i, t, rfl, h⟩
  · exact ⟨s, by rw [Sink.closeCurrent, h.current], h⟩
  · obtain ⟨s', hs', hc⟩ := finishCurrent_spec h
    refine ⟨s', ?_, hc⟩
    rw [Sink.closeCurrent, h.current]
    simp only [h.ready.slotAt h.slot, h.written, bind, Except.bind]
    rw [if_neg (not_not.2 rfl)]
    exact hs'

/-- A new file's header is written where the layout puts it. -/
theorem Closed.startSlot (h : Closed J s n) (ht : J.slots[n]? = some t) :
    Open J (s.startSlot t.id n t) n t 0 := by
  refine ⟨⟨h.ready.m, h.ready.layout, h.ready.opened, h.ready.positioned⟩, ht, Nat.zero_le _,
    ?_, ?_, rfl, rfl, rfl, h.crcs, rfl, ?_⟩
  · show some (writeAt (s.part.getD []) s.pos t.header) = _
    rw [h.part, h.pos, Option.getD_some, writeAt_length, Job.upTo, List.take_zero,
      List.append_nil]
  · show s.pos + t.headerLen = _
    rw [h.pos, Job.upTo, List.take_zero, List.append_nil, List.length_append,
      Slot.length_header]
  · show s.started + 1 = _
    rw [h.started]

theorem beginFile_spec (h : Before J s n) (ht : J.slots[n]? = some t) :
    ∃ s', s.beginFile t.id 0 n t = .ok s' ∧ Open J s' n t 0 := by
  obtain ⟨u, hu, hc⟩ := closeCurrent_spec h
  have hnew : s.last.any (fun l => t.id ≤ l) = false := by rw [h.last, J.lastOf_lt ht]
  have hpos : u.pos = t.hdrOff := by rw [hc.pos, J.hdrOff ht]
  refine ⟨u.startSlot t.id n t, ?_, hc.startSlot ht⟩
  rw [Sink.beginFile, hnew, if_neg (by simp), hu]
  simp only [bind, Except.bind]
  rw [if_neg (by simp), if_neg (not_not.2 hpos)]

/-- The next piece of an open file. -/
theorem Open.addData (h : Open J s i t x)
    (hd : d = ((J.content t.id).drop x).take d.length) (hx : x + d.length ≤ t.size) :
    Open J (s.addData d) i t (x + d.length) := by
  have htake : (J.content t.id).take (x + d.length) = (J.content t.id).take x ++ d := by
    rw [List.take_add, ← hd]
  have hup : J.upTo i t (x + d.length) = J.upTo i t x ++ d := by
    rw [Job.upTo, htake, ← List.append_assoc, Job.upTo]
  refine ⟨⟨h.ready.m, h.ready.layout, h.ready.opened, h.ready.positioned⟩, h.slot, hx, ?_, ?_,
    h.current, ?_, ?_, h.crcs, h.last, h.started⟩
  · show some (writeAt (s.part.getD []) s.pos d) = _
    rw [h.part, h.pos, Option.getD_some, writeAt_length, hup]
  · show s.pos + d.length = _
    rw [h.pos, hup, List.length_append]
  · show s.written + d.length = _
    rw [h.written]
  · show s.crc.update d = _
    rw [h.crc, htake, update_append]

/-! ## The calls -/

/-- The sink has taken the first `n` non-empty files whole and `x` bytes of the next one;
`late` is the file that is whole and not closed yet, if there is one. -/
inductive Stands (J : Job) (s : Sink) : Nat → Nat → Option Nat → Prop
  | closed {n : Nat} (h : Closed J s n) : Stands J s n 0 none
  | inFlight {n : Nat} {t : Slot} {x : Nat} (h : Open J s n t x) (hx : x < t.size) :
      Stands J s n x none
  | late {i : Nat} {t : Slot} (h : Open J s i t t.size) : Stands J s (i + 1) 0 (some t.id)

theorem Stands.ready (h : Stands J s n x late) : Ready J s := by
  cases h with
  | closed h => exact h.ready
  | inFlight h hx => exact h.ready
  | late h => exact h.ready

/-- Where `n` files and `x` bytes of a file of size `size` come to stand. -/
def nextPlace (n x size : Nat) : Nat × Nat := if x = size then (n + 1, 0) else (n, x)

theorem putData_spec (h : Open J s n t x)
    (hd : d = ((J.content t.id).drop x).take d.length) (hx : x + d.length ≤ t.size) :
    ∃ s', s.putData t.id n t d = .ok s' ∧
      Stands J s' (nextPlace n (x + d.length) t.size).1 (nextPlace n (x + d.length) t.size).2
        none := by
  have hopen := h.addData hd hx
  rw [Sink.putData, h.written, if_neg (by omega), nextPlace]
  dsimp only
  rw [hopen.written]
  by_cases hend : x + d.length = t.size
  · rw [if_pos hend, if_pos hend]
    rw [hend] at hopen
    exact ⟨_, rfl, .closed hopen.closed⟩
  · rw [if_neg hend, if_neg hend]
    exact ⟨_, rfl, .inFlight hopen (by omega)⟩

/-- The place of a sink is in front of the `n`-th file, or in it. -/
theorem Stands.before_or_open (h : Stands J s n x late) :
    (x = 0 ∧ Before J s n) ∨ ∃ t, Open J s n t x ∧ x < t.size := by
  cases h with
  | closed h => exact .inl ⟨rfl, .inl h⟩
  | inFlight h hx => exact .inr ⟨_, h, hx⟩
  | late h => exact .inl ⟨rfl, .inr ⟨_, _, rfl, h⟩⟩

/-- **The next bytes are taken.**  From every place, the next bytes of the next file bring the
sink to the place after them, with nothing left open behind it. -/
theorem appendFile_spec (h : Stands J s n x late) (ht : J.slots[n]? = some t)
    (hd : d = ((J.content t.id).drop x).take d.length) (hx : x + d.length ≤ t.size) :
    ∃ s', s.appendFile t.id x d = .ok s' ∧
      Stands J s' (nextPlace n (x + d.length) t.size).1 (nextPlace n (x + d.length) t.size).2
        none := by
  rw [Sink.appendFile, h.ready.byId ht]
  simp only [h.ready.slotAt ht, h.ready.file, bind, Except.bind]
  rcases h.before_or_open with ⟨rfl, hb⟩ | ⟨u, ho, hlt⟩
  · obtain ⟨s₁, hs₁, ho⟩ := beginFile_spec hb ht
    rw [if_pos hb.current_ne, hs₁]
    exact putData_spec ho hd hx
  · obtain rfl : u = t := Option.some.inj (ho.slot.symm.trans ht)
    rw [if_neg (not_not.2 ho.current), ho.written, if_neg (by omega), if_neg (by omega)]
    exact putData_spec ho hd hx

/-- The sink as `prepare` leaves it: the part file is as it was found. -/
structure Prepared (J : Job) (s : Sink) : Prop where
  m : s.m = some J.m
  layout : s.layout = J.layout
  opened : s.opened = true
  positioned : s.positioned = false
  current : s.current = none
  crcs : s.crcs = J.sums 0
  started : s.started = 0

theorem Prepared.file (h : Prepared J s) : s.file = .ok (s.part.getD []) := by
  rw [Sink.file, if_pos h.opened]

theorem startOver_spec (h : Prepared J s) : ∃ s', s.startOver = .ok s' ∧ Closed J s' 0 := by
  refine ⟨{ s with
    part := some (setLen (s.part.getD []) 0), pos := 0, positioned := true, current := none,
    written := 0, last := none, started := 0,
    crcs := List.replicate s.layout.slots.length none }, ?_, ?_⟩
  · simp only [Sink.startOver, h.file, bind, Except.bind]
  · refine ⟨⟨h.m, h.layout, h.opened, rfl⟩, Nat.zero_le _, ?_, rfl, rfl, ?_, rfl, rfl⟩
    · show some (setLen _ 0) = some []
      simp [setLen]
    · show List.replicate s.layout.slots.length none = _
      rw [h.layout, J.sums_zero, Job.slots]

/-- The sink has taken the first `n` non-empty files and `x` bytes of the next one, nothing at
all when the archive has not been positioned. -/
def Taken (J : Job) (s : Sink) (n x : Nat) (late : Option Nat) : Prop :=
  (Prepared J s ∧ n = 0 ∧ x = 0 ∧ late = none) ∨ Stands J s n x late

theorem Taken.m (h : Taken J s n x late) : s.m = some J.m := by
  rcases h with ⟨h, -⟩ | h
  · exact h.m
  · exact h.ready.m

/-- The first write of a job nobody positioned starts the archive over. -/
theorem Taken.ensurePositioned (h : Taken J s n x late) :
    ∃ s', s.ensurePositioned = .ok s' ∧ Stands J s' n x late := by
  rcases h with ⟨h, rfl, rfl, rfl⟩ | h
  · obtain ⟨s', hs', hc⟩ := startOver_spec h
    exact ⟨s', by rw [Sink.ensurePositioned, h.positioned, if_neg (by simp), hs'], .closed hc⟩
  · exact ⟨s, by rw [Sink.ensurePositioned, if_pos h.ready.positioned], h⟩

theorem append_spec (h : Taken J s n x late) (ht : J.slots[n]? = some t)
    (hd : d = ((J.content t.id).drop x).take d.length) (hx : x + d.length ≤ t.size) :
    ∃ s', s.append t.id x d = .ok s' ∧
      Stands J s' (nextPlace n (x + d.length) t.size).1 (nextPlace n (x + d.length) t.size).2
        none := by
  obtain ⟨e, he, hsize⟩ := J.entry ht
  obtain ⟨s₁, hs₁, h₁⟩ := h.ensurePositioned
  obtain ⟨s₂, hs₂, h₂⟩ := appendFile_spec h₁ ht hd hx
  refine ⟨s₂, ?_, h₂⟩
  rw [Sink.append, h.m]
  simp only [he]
  rw [if_neg hsize, hs₁]
  exact hs₂

/-- The up-front empty write of an empty file does nothing. -/
theorem append_empty {id : Nat} {e : Entry} (h : s.m = some J.m)
    (he : J.m.entry id = some e)
    (hk : e.kind = .file) (hz : e.size = 0) : s.append id 0 [] = .ok s := by
  have hfile : (J.m.entry id).filter (fun e => e.kind = .file) = some e := by
    simp [he, hk, Option.filter]
  rw [Sink.append, h]
  simp only [hfile]
  rw [if_pos hz, if_pos trivial]

theorem Taken.layout (h : Taken J s n x late) : s.layout = J.layout := by
  rcases h with ⟨h, -⟩ | h
  · exact h.layout
  · exact h.ready.layout

theorem Ready.commit (h : Ready J s) {k : Nat} (ht : J.slots[k]? = some t) : s.commit t.id
      = if s.current = some k ∧ s.written = t.size then s.finishCurrent k else .ok s := by
  rw [Sink.commit, h.byId ht]
  simp only [h.slotAt ht, bind, Except.bind]

/-- **A commit closes the file in flight when it is whole, and does nothing else.** -/
theorem commit_spec (h : Stands J s n x late) (id : Nat) :
    ∃ s', s.commit id = .ok s' ∧ Stands J s' n x (if late = some id then none else late) := by
  cases hk : J.layout.byId id with
  | none =>
    refine ⟨s, by rw [Sink.commit, h.ready.layout, hk], ?_⟩
    have hne : late ≠ some id := by
      rintro rfl
      cases h with
      | late h => exact absurd (J.byId h.slot) (by simp [hk])
    rwa [if_neg hne]
  | some k =>
    obtain ⟨t, ht, rfl⟩ := J.slot_of_byId hk
    rw [h.ready.commit ht]
    cases h with
    | closed hc => exact ⟨s, by rw [hc.current, if_neg (by simp)], .closed hc⟩
    | @inFlight n u x ho hx =>
      refine ⟨s, ?_, .inFlight ho hx⟩
      rw [if_neg]
      rintro ⟨hcur, hwr⟩
      obtain rfl : n = k := Option.some.inj (ho.current.symm.trans hcur)
      obtain rfl : u = t := Option.some.inj (ho.slot.symm.trans ht)
      rw [ho.written] at hwr
      omega
    | @late i u ho =>
      by_cases hid : u.id = t.id
      · obtain rfl := J.id_inj ho.slot ht hid
        obtain rfl : u = t := Option.some.inj (ho.slot.symm.trans ht)
        obtain ⟨s', hs', hc⟩ := finishCurrent_spec ho
        refine ⟨s', ?_, ?_⟩
        · rw [if_pos ⟨ho.current, ho.written⟩, hs']
        · rw [if_pos rfl]
          exact .closed hc
      · refine ⟨s, ?_, ?_⟩
        · rw [if_neg]
          rintro ⟨hcur, -⟩
          obtain rfl : i = k := Option.some.inj (ho.current.symm.trans hcur)
          exact hid (congrArg Slot.id (Option.some.inj (ho.slot.symm.trans ht)))
        · rw [if_neg (by simpa using hid)]
          exact .late ho

/-- Before `position` there is nothing to commit. -/
theorem Prepared.commit (h : Prepared J s) (id : Nat) : s.commit id = .ok s := by
  rw [Sink.commit, h.layout]
  cases hk : J.layout.byId id with
  | none => rfl
  | some k =>
    obtain ⟨t, ht, rfl⟩ := J.slot_of_byId hk
    have hslot : s.layout.slots[k]? = some t := by rw [h.layout]; exact ht
    simp only [Sink.slotAt, hslot, bind, Except.bind]
    rw [h.current, if_neg (by simp)]

theorem Closed.writeTail (h : Closed J s J.slots.length) : s.writeTail.dest = some J.archive := by
  have hcrcs : s.crcs.filterMap id = J.slots.map J.sum := by
    rw [h.crcs, J.sums_all, List.filterMap_map]
    exact List.filterMap_eq_map_iff_forall_eq_some.2 fun t _ => rfl
  have htail : tailBytes s.layout (s.crcs.filterMap id) s.pos
      = tailBytes J.layout (J.slots.map J.sum) (J.body J.slots.length).length := by
    rw [h.ready.layout, hcrcs, h.pos]
  show some (setLen (writeAt (s.part.getD []) s.pos _) (s.pos + _)) = _
  rw [htail, h.part, h.pos, Option.getD_some, writeAt_length, setLen_of_le (by simp),
    ← List.length_append, List.take_length, Job.archive]

theorem Stands.closed_of_all (h : Stands J s J.slots.length x late)
    (hl : late = none) : Closed J s J.slots.length := by
  generalize hn : J.slots.length = n at h
  cases h with
  | closed h => exact hn ▸ h
  | inFlight h hx =>
    have := (List.getElem?_eq_some_iff.1 h.slot).1
    omega
  | late h => simp at hl

/-- What `finish` checks. -/
theorem Taken.complete (h : Taken J s J.slots.length x none) :
    s.current = none ∧ s.started = J.slots.length ∧ s.crcs = J.sums J.slots.length ∧
      s.opened = true := by
  rcases h with ⟨hp, hn, -, -⟩ | h
  · exact ⟨hp.current, hp.started.trans hn.symm, by rw [hn]; exact hp.crcs, hp.opened⟩
  · have hc := h.closed_of_all rfl
    exact ⟨hc.current, hc.started, hc.crcs, hc.ready.opened⟩

/-- **With every entry written and closed, `finish` leaves the archive at the destination.** -/
theorem finish_spec (h : Taken J s J.slots.length x none) :
    ∃ s', s.finish = .ok s' ∧ s'.dest = some J.archive := by
  obtain ⟨hcurrent, hstarted, hcrcs, hopened⟩ := h.complete
  obtain ⟨s', hs', hst⟩ := h.ensurePositioned
  have hcount : ¬ (s.started ≠ s.layout.slots.length ∨ s.crcs.any Option.isNone = true) := by
    rw [hstarted, h.layout, hcrcs, J.sums_all]
    simp [Job.slots]
  refine ⟨s'.writeTail, ?_, (hst.closed_of_all rfl).writeTail⟩
  rw [Sink.finish, h.m]
  simp only [hcurrent]
  rw [if_neg hcount, Sink.file, if_pos hopened, hs']
  rfl

end Ps5Upload.ZipStored
