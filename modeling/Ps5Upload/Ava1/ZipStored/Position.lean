import Mathlib.Data.Finset.Card
import Mathlib.Data.List.Sort
import Mathlib.Tactic.Common
import Ps5Upload.Ava1.ZipStored.Writes

/-!
# Stored zips: a resume rebuilds the sink

After a crash all there is are the part file and the journal.  The journal records the files
that are finished and the byte prefixes of some more (`Mark`, `Records`); the part file holds
at least these bytes (`Agree`) and anything at all elsewhere, so also where the descriptors of
files without a `Done` belong.
-/

namespace Ps5Upload.ZipStored

open ByteFile Crc32

variable {J : Job} {s : Sink}

/-! ## Agreement with the archive -/

/-- Every entry, without the tail. -/
def Job.full (J : Job) : Bytes := J.body J.slots.length

/-- Byte `p` belongs to the descriptor of entry `i`. -/
def Job.InDesc (J : Job) (i p : Nat) : Prop :=
  ∃ t, J.slots[i]? = some t ∧ t.dataOff + t.size ≤ p ∧ p < t.end_

/-- Below `c` the file has the archive's bytes, except perhaps in the descriptors of the
entries from `k` on. -/
def Agree (J : Job) (g : Bytes) (k c : Nat) : Prop :=
  ∀ p, p < c → (∀ i, k ≤ i → ¬ J.InDesc i p) → g[p]? = J.full[p]?

variable {i j p k c n x r : Nat} {t : Slot} {g : Bytes} {done : Finset Nat}
  {durable : BTreeMap Nat RangeSet}

/-- The archive from an entry on. -/
theorem Job.body_split (h : i ≤ j) : ∃ rest, J.body j = J.body i ++ rest := by
  refine ⟨((J.slots.take j).drop i).flatMap J.entryBytes, ?_⟩
  have hcut : J.slots.take j = J.slots.take i ++ (J.slots.take j).drop i := by
    conv_lhs => rw [← List.take_append_drop i (J.slots.take j), List.take_take, min_eq_left h]
  rw [Job.body, hcut, List.flatMap_append, ← hcut]
  rfl

theorem Job.body_mono (h : i ≤ j) : (J.body i).length ≤ (J.body j).length := by
  obtain ⟨rest, hrest⟩ := J.body_split h
  rw [hrest, List.length_append]
  omega

theorem Job.full_split (ht : J.slots[i]? = some t) :
    ∃ rest, J.full = J.body i ++ t.header ++ J.content t.id ++ t.descriptor (J.sum t) ++ rest := by
  obtain ⟨rest, hrest⟩ := J.body_split (List.getElem?_eq_some_iff.1 ht).1
  refine ⟨rest, ?_⟩
  rw [Job.full, hrest, Nat.succ_eq_add_one, J.body_succ ht, Job.entryBytes]
  simp only [List.append_assoc]

/-- Descriptors of other entries are elsewhere: those before end where the entry starts, those
from it on start where its data ends at the earliest. -/
theorem Job.InDesc.disjoint (hd : J.InDesc j p) (ht : J.slots[i]? = some t) :
    (j < i ∧ p < t.hdrOff) ∨ (i ≤ j ∧ t.dataOff + t.size ≤ p) := by
  obtain ⟨u, hu, hlo, hhi⟩ := hd
  rcases Nat.lt_or_ge j i with hji | hij
  · have := Job.body_mono (J := J) (show j + 1 ≤ i from hji)
    rw [J.slot_end hu] at hhi
    rw [J.hdrOff ht]
    exact .inl ⟨hji, by omega⟩
  · refine .inr ⟨hij, ?_⟩
    rcases Nat.eq_or_lt_of_le hij with rfl | hij'
    · obtain rfl : u = t := Option.some.inj (hu.symm.trans ht)
      exact hlo
    · have := Job.body_mono (J := J) (show i + 1 ≤ j from hij')
      rw [J.length_body_succ ht] at this
      rw [J.dataOff hu] at hlo
      rw [J.dataOff ht]
      omega

/-! ## What reads of an agreeing file give -/

/-- The header and the data of an entry are read as the archive has them. -/
theorem Agree.readAt_entry (h : Agree J g k c)
    (ht : J.slots[i]? = some t) {off : Nat} {d : Bytes} (hd : readAt J.full off n = some d)
    (hlo : t.hdrOff ≤ off) (hhi : off + n ≤ t.dataOff + t.size) (hc : off + n ≤ c) :
    readAt g off n = some d := by
  refine readAt_of_agree hd fun p hp hp' => h p (by omega) fun j _ hdesc => ?_
  rcases hdesc.disjoint ht with ⟨-, hlt⟩ | ⟨-, hge⟩
  · omega
  · omega

theorem Agree.headerStands (h : Agree J g k c) (ht : J.slots[i]? = some t) (hc : t.dataOff ≤ c) :
    ZipStored.headerStands g t = .ok true := by
  obtain ⟨rest, hrest⟩ := J.full_split ht
  have hfull : readAt J.full t.hdrOff t.headerLen = some t.header := by
    rw [hrest, J.hdrOff ht, ← Slot.length_header, List.append_assoc, List.append_assoc]
    exact readAt_append _ _ _
  have hoff : t.hdrOff + t.headerLen = t.dataOff := by rw [J.hdrOff ht, J.dataOff ht]
  have := h.readAt_entry ht hfull (Nat.le_refl _) (by omega) (by omega)
  rw [ZipStored.headerStands, this]
  simp

/-- A piece of an entry's data. -/
theorem Agree.readAt_data (h : Agree J g k c)
    (ht : J.slots[i]? = some t) {at_ : Nat} (hn : at_ + n ≤ t.size)
    (hc : t.dataOff + at_ + n ≤ c) :
    readAt g (t.dataOff + at_) n = some (((J.content t.id).drop at_).take n) := by
  obtain ⟨rest, hrest⟩ := J.full_split ht
  have hsize := J.length_content ht
  have hfull : readAt J.full (t.dataOff + at_) n = some (((J.content t.id).drop at_).take n) := by
    have hcut : (J.content t.id).take at_
        ++ (((J.content t.id).drop at_).take n ++ ((J.content t.id).drop at_).drop n)
          = J.content t.id := by
      rw [List.take_append_drop, List.take_append_drop]
    have hlen : (J.body i ++ t.header ++ (J.content t.id).take at_).length
        = t.dataOff + at_ := by
      simp only [List.length_append, Slot.length_header, List.length_take, J.dataOff ht]
      omega
    have hlen' : (((J.content t.id).drop at_).take n).length = n := by
      simp only [List.length_take, List.length_drop]
      omega
    have := readAt_append (J.body i ++ t.header ++ (J.content t.id).take at_)
      (((J.content t.id).drop at_).take n)
      (((J.content t.id).drop at_).drop n ++ t.descriptor (J.sum t) ++ rest)
    rw [hlen, hlen'] at this
    rw [hrest, ← this]
    congr 1
    conv_lhs => rw [← hcut]
    simp only [List.append_assoc]
  have hdata : t.hdrOff ≤ t.dataOff := by rw [J.hdrOff ht, J.dataOff ht]; omega
  exact h.readAt_entry ht hfull (by omega) (by omega) hc

/-- The descriptor of a finished entry. -/
theorem Agree.readAt_descriptor (h : Agree J g k c)
    (ht : J.slots[i]? = some t) (hk : i < k) (hc : t.end_ ≤ c) :
    readAt g (t.end_ - descLen) descLen = some (t.descriptor (J.sum t)) := by
  obtain ⟨rest, hrest⟩ := J.full_split ht
  have hfull : readAt J.full (t.end_ - descLen) descLen = some (t.descriptor (J.sum t)) := by
    have hlen : (J.body i ++ t.header ++ J.content t.id).length = t.end_ - descLen := by
      simp only [List.length_append, Slot.length_header, J.length_content ht, Slot.end_,
        J.dataOff ht]
      omega
    have := readAt_append (J.body i ++ t.header ++ J.content t.id) (t.descriptor (J.sum t)) rest
    rwa [hlen, Slot.length_descriptor, ← hrest] at this
  refine readAt_of_agree hfull fun p hp hp' => h p ?_ fun j hj hdesc => ?_
  · have : descLen ≤ t.end_ := by simp [Slot.end_]
    omega
  · obtain ⟨u, hu, hlo, hhi⟩ := hdesc
    have hmono := Job.body_mono (J := J) (show i + 1 ≤ j by omega)
    rw [← J.slot_end ht] at hmono
    rw [J.dataOff hu] at hlo
    have : descLen ≤ t.end_ := by simp [Slot.end_]
    omega

/-! ## The loops of `position` -/

/-- Reading a file back a buffer at a time gives the checksum of all of it. -/
theorem rebuildCrc_spec {d : Bytes} {dataOff total : Nat}
    (hread : ∀ at_ n, at_ + n ≤ total → readAt g (dataOff + at_) n = some ((d.drop at_).take n))
    (fuel at_ : Nat) (h : Hasher) (hat : at_ ≤ total) (hfuel : total ≤ at_ + fuel) :
    rebuildCrc g dataOff total fuel at_ h = .ok (h.update ((d.take total).drop at_)) := by
  induction fuel generalizing at_ h with
  | zero =>
    rw [rebuildCrc, List.drop_of_length_le (by simp; omega), update_nil]
  | succ fuel ih =>
    rw [rebuildCrc]
    by_cases hlt : at_ < total
    · have hpos : 0 < min (total - at_) readback := by
        have : 0 < readback := by decide
        omega
      have hle : at_ + min (total - at_) readback ≤ total := by omega
      rw [if_pos hlt]
      simp only [hread at_ _ hle]
      rw [ih _ _ hle (by omega), ← update_append]
      congr 2
      -- The buffer and what is left after it are what was left before it.
      rw [List.drop_take, List.drop_take, ← List.drop_drop, ← List.take_add]
      congr 1
      omega
    · rw [if_neg hlt, List.drop_of_length_le (by simp; omega), update_nil]

theorem Agree.readBack (h : Agree J g k c)
    (ht : J.slots[i]? = some t) (hx : x ≤ t.size) (hc : t.dataOff + x ≤ c) :
    ZipStored.readBack g t x = .ok (Hasher.new.update ((J.content t.id).take x)) := by
  have hread : ∀ at_ n, at_ + n ≤ x →
      readAt g (t.dataOff + at_) n = some (((J.content t.id).drop at_).take n) :=
    fun at_ n hn => h.readAt_data ht (by omega) (by omega)
  rw [ZipStored.readBack, h.headerStands ht (by omega)]
  simp only [bind, Except.bind, Bool.true_eq_false, if_false]
  exact rebuildCrc_spec hread x 0 _ (Nat.zero_le x) (by omega)

/-- The checksums of the finished entries are those of their files. -/
theorem Agree.readFinished (h : Agree J g k c) (hk : k ≤ J.slots.length)
    (hc : (J.body k).length ≤ c) (hi : i ≤ k) :
    ZipStored.readFinished g i ((J.slots.take k).drop i) (J.sums i) = .ok (J.sums k) := by
  induction hn : k - i generalizing i with
  | zero =>
    obtain rfl : i = k := by omega
    rw [List.drop_of_length_le (by simp), ZipStored.readFinished]
  | succ n ih =>
    have hlt : i < J.slots.length := by omega
    have ht : J.slots[i]? = some J.slots[i] := List.getElem?_eq_getElem hlt
    have hdrop : (J.slots.take k).drop i = J.slots[i] :: (J.slots.take k).drop (i + 1) := by
      rw [List.drop_eq_getElem_cons (by simp; omega), List.getElem_take]
    have hend : J.slots[i].end_ ≤ c := by
      rw [J.slot_end ht]
      have := Job.body_mono (J := J) (show i + 1 ≤ k by omega)
      omega
    have hdata : J.slots[i].dataOff ≤ c := by
      rw [Slot.end_] at hend
      omega
    rw [hdrop, ZipStored.readFinished, h.headerStands ht hdata]
    simp only [h.readAt_descriptor ht (by omega) hend, Slot.crcOf_descriptor, bind, Except.bind]
    rw [if_neg (by simp), J.sums_set ht]
    exact ih (by omega) (by omega)

/-- Writing the descriptor of entry `k` makes the file agree there too. -/
theorem Agree.writeDescriptor (h : Agree J g k c)
    (ht : J.slots[k]? = some t) (hc : t.end_ ≤ c) (hlen : c ≤ g.length) :
    Agree J (writeAt g (t.dataOff + t.size) (t.descriptor (J.sum t))) (k + 1) c := by
  intro p hp hdesc
  have hoff : t.dataOff + t.size ≤ g.length := by
    rw [Slot.end_] at hc
    omega
  rw [getElem?_writeAt hoff, Slot.length_descriptor]
  split
  · rename_i hin
    obtain ⟨rest, hrest⟩ := J.full_split ht
    have hpre : (J.body k ++ t.header ++ J.content t.id).length = t.dataOff + t.size := by
      simp only [List.length_append, Slot.length_header, J.length_content ht, J.dataOff ht]
    rw [hrest, List.append_assoc, List.getElem?_append_right (by omega), hpre,
      List.getElem?_append_left (by rw [Slot.length_descriptor]; omega)]
  · rename_i hout
    refine h p hp fun i hi hd => ?_
    rcases Nat.eq_or_lt_of_le hi with rfl | hlt
    · obtain ⟨u, hu, hlo, hhi⟩ := hd
      obtain rfl : u = t := Option.some.inj (hu.symm.trans ht)
      exact hout ⟨hlo, hhi⟩
    · exact hdesc i hlt hd

/-- The whole files without a `Done` are closed. -/
theorem closeWhole_spec (hm : s.layout = J.layout)
    (ho : s.opened = true) (hpart : s.part = some g) (h : Agree J g k c)
    (hn : k + n ≤ J.slots.length) (hc : (J.body (k + n)).length ≤ c) (hlen : c ≤ g.length) :
    ∃ g', closeWhole (List.range' k n) s (J.sums k)
        = .ok ({ s with part := some g' }, J.sums (k + n)) ∧
      Agree J g' (k + n) c ∧ g'.length = g.length := by
  induction n generalizing k s g with
  | zero => exact ⟨g, by rw [← hpart]; rfl, h, rfl⟩
  | succ n ih =>
    have hlt : k < J.slots.length := by omega
    have ht : J.slots[k]? = some J.slots[k] := List.getElem?_eq_getElem hlt
    have hend : J.slots[k].end_ ≤ c := by
      rw [J.slot_end ht]
      have := Job.body_mono (J := J) (show k + 1 ≤ k + (n + 1) by omega)
      omega
    have hdata : J.slots[k].dataOff + J.slots[k].size ≤ c := by
      rw [Slot.end_] at hend
      omega
    have hslot : s.slotAt k = .ok J.slots[k] := by
      have : s.layout.slots[k]? = some J.slots[k] := by rw [hm]; exact ht
      rw [Sink.slotAt, this]
    have hfile : s.file = .ok g := by rw [Sink.file, if_pos ho, hpart, Option.getD_some]
    have hback := h.readBack ht (Nat.le_refl _) hdata
    rw [List.take_of_length_le (by rw [J.length_content ht])] at hback
    have hw := h.writeDescriptor ht hend hlen
    have hwlen : (writeAt g (J.slots[k].dataOff + J.slots[k].size)
        (J.slots[k].descriptor (J.sum J.slots[k]))).length = g.length := by
      rw [length_writeAt (by omega), Slot.length_descriptor]
      rw [Slot.end_] at hend
      omega
    obtain ⟨g', hg', ha, hl⟩ := ih (s := s.writeAllAt
      (J.slots[k].descriptor (J.sum J.slots[k])) (J.slots[k].dataOff + J.slots[k].size))
      hm ho (by rw [Sink.writeAllAt, hpart, Option.getD_some]) hw (by omega)
      (by rw [show k + 1 + n = k + (n + 1) by omega]; exact hc) (by omega)
    rw [show k + 1 + n = k + (n + 1) by omega] at hg' ha
    refine ⟨g', ?_, ha, by omega⟩
    rw [List.range'_succ, closeWhole, hslot, hfile]
    simp only [hback, Sink.lift, Except.mapError, bind, Except.bind]
    have hfin : (Hasher.new.update (J.content J.slots[k].id)).finalize = J.sum J.slots[k] := rfl
    rw [hfin, J.sums_set ht, hg']
    rfl

/-! ## What the journal records -/

/-- The state of a download as a journal has it: the first `done` non-empty files are
finished, the next `parts` have recorded bytes and no `Done`; all of these but the last are
whole, and the last has its first `bytes` bytes. -/
structure Mark (J : Job) where
  done : Nat
  parts : Nat
  bytes : Nat
  le : done + parts ≤ J.slots.length
  pos : 0 < parts → 0 < bytes
  fits : ∀ t ∈ J.slots[done + parts - 1]?, 0 < parts → bytes ≤ t.size

/-- How many bytes of entry `i` the journal records. -/
def Mark.bytesOf (mk : Mark J) (i : Nat) (t : Slot) : Nat :=
  if i + 1 = mk.done + mk.parts then mk.bytes else t.size

/-- The two sets `position` is given say `mk`.  Of files that have no slot they may say
anything. -/
def Records (J : Job) (mk : Mark J) (done : Finset Nat) (durable : BTreeMap Nat RangeSet) : Prop :=
  ∀ i (h : i < J.slots.length),
    (J.slots[i].id ∈ done ↔ i < mk.done) ∧
    durable.get J.slots[i].id =
      if mk.done ≤ i ∧ i < mk.done + mk.parts then some [(0, mk.bytesOf i J.slots[i])] else none

instance (mk : Mark J) (done : Finset Nat) (durable : BTreeMap Nat RangeSet) :
    Decidable (Records J mk done durable) := by
  unfold Records
  infer_instance

/-- The parts a mark records, in archive order. -/
def Mark.partsFrom (mk : Mark J) (i n : Nat) : List (Nat × Nat × RangeSet) :=
  (List.range' i n).filterMap fun i =>
    J.slots[i]?.map fun t => (i, t.id, [(0, mk.bytesOf i t)])

theorem Job.lt_of_id_lt {u : Slot} (ht : J.slots[i]? = some t)
    (hu : J.slots[j]? = some u) (h : t.id < u.id) : i < j := by
  by_contra hij
  rcases Nat.eq_or_lt_of_le (Nat.not_lt.1 hij) with rfl | hji
  · obtain rfl : t = u := Option.some.inj (ht.symm.trans hu)
    omega
  · have := J.id_lt hu ht hji
    omega

theorem partsOf_spec {mk : Mark J} (h : Records J mk done durable) :
    partsOf J.layout durable = mk.partsFrom mk.done mk.parts := by
  have : Std.Irrefl fun a b : Nat × Nat × RangeSet => a.1 < b.1 := ⟨fun a => Nat.lt_irrefl a.1⟩
  have : Std.Antisymm fun a b : Nat × Nat × RangeSet => a.1 < b.1 :=
    ⟨fun a b hab hba => absurd hab (Nat.lt_asymm hba)⟩
  have hsorted : (durable.entries.filterMap fun p =>
      (J.layout.byId p.1).map fun k => (k, p.1, p.2)).Pairwise fun a b => a.1 < b.1 := by
    refine durable.sorted.filterMap _ fun p q hpq a ha b hb => ?_
    obtain ⟨i, hi, rfl⟩ := Option.map_eq_some_iff.1 ha
    obtain ⟨j, hj, rfl⟩ := Option.map_eq_some_iff.1 hb
    obtain ⟨t, ht, hti⟩ := J.slot_of_byId hi
    obtain ⟨u, hu, huj⟩ := J.slot_of_byId hj
    exact J.lt_of_id_lt ht hu (by omega)
  have hparts : (mk.partsFrom mk.done mk.parts).Pairwise fun a b => a.1 < b.1 := by
    refine (List.pairwise_lt_range' 1).filterMap _ fun i j hij a ha b hb => ?_
    obtain ⟨t, -, rfl⟩ := Option.map_eq_some_iff.1 ha
    obtain ⟨u, -, rfl⟩ := Option.map_eq_some_iff.1 hb
    exact hij
  rw [partsOf, (hsorted.imp fun hlt => Nat.le_of_lt hlt).insertionSort_eq]
  refine hsorted.eq_of_mem_iff hparts fun a => ?_
  rw [Mark.partsFrom, List.mem_filterMap, List.mem_filterMap]
  constructor
  · rintro ⟨⟨id, rs⟩, hmem, ha⟩
    obtain ⟨i, hi, rfl⟩ := Option.map_eq_some_iff.1 ha
    obtain ⟨t, ht, rfl⟩ := J.slot_of_byId hi
    obtain ⟨hlt, rfl⟩ := List.getElem?_eq_some_iff.1 ht
    have hget := (h i hlt).2
    rw [BTreeMap.get_eq_some.2 hmem] at hget
    split at hget
    · rename_i hin
      refine ⟨i, List.mem_range'_1.2 hin, ?_⟩
      rw [ht, Option.map_some, ← Option.some.inj hget]
    · simp at hget
  · rintro ⟨i, hi, ha⟩
    obtain ⟨t, ht, rfl⟩ := Option.map_eq_some_iff.1 ha
    obtain ⟨hlt, rfl⟩ := List.getElem?_eq_some_iff.1 ht
    have hget := (h i hlt).2
    rw [if_pos (List.mem_range'_1.1 hi)] at hget
    refine ⟨(J.slots[i].id, _), BTreeMap.get_eq_some.1 hget, ?_⟩
    rw [J.byId ht, Option.map_some]

/-- The finished files are found to be the first ones. -/
theorem Records.takeWhile {mk : Mark J} (h : Records J mk done durable) :
    (J.slots.takeWhile fun t => t.id ∈ done).length = mk.done := by
  have hle : mk.done ≤ J.slots.length := by
    have := mk.le
    omega
  have hall : ∀ t ∈ J.slots.take mk.done, (decide (t.id ∈ done)) = true := by
    intro t ht
    obtain ⟨i, hi, rfl⟩ := List.mem_take_iff_getElem.1 ht
    exact decide_eq_true ((h i (by omega)).1.2 (by omega))
  have hcut := List.take_append_drop mk.done J.slots
  rw [← hcut, List.takeWhile_append_of_pos hall]
  have hstop : (J.slots.drop mk.done).takeWhile (fun t => decide (t.id ∈ done)) = [] := by
    by_cases hlt : mk.done < J.slots.length
    · rw [List.drop_eq_getElem_cons hlt, List.takeWhile_cons_of_neg]
      simp [(h mk.done hlt).1]
    · rw [List.drop_of_length_le (by omega), List.takeWhile_nil]
  rw [hstop, List.append_nil, List.length_take, Nat.min_eq_left hle]

theorem Records.card {mk : Mark J} (h : Records J mk done durable) :
    (done.filter fun i => (J.layout.byId i).isSome).card = mk.done := by
  have hle : mk.done ≤ J.slots.length := by
    have := mk.le
    omega
  have hids : (J.slots.take mk.done).map Slot.id |>.Nodup :=
    List.pairwise_map.2 (((build_ids J.built).1.sublist (List.take_sublist _ _)).imp
      fun hlt => Nat.ne_of_lt hlt)
  have : (done.filter fun i => (J.layout.byId i).isSome)
      = ((J.slots.take mk.done).map Slot.id).toFinset := by
    ext id
    rw [Finset.mem_filter, List.mem_toFinset, List.mem_map]
    constructor
    · rintro ⟨hd, hid⟩
      obtain ⟨i, hi⟩ := Option.isSome_iff_exists.1 hid
      obtain ⟨t, ht, rfl⟩ := J.slot_of_byId hi
      obtain ⟨hlt, rfl⟩ := List.getElem?_eq_some_iff.1 ht
      have := (h i hlt).1.1 hd
      exact ⟨J.slots[i], List.mem_take_iff_getElem.2 ⟨i, by omega, rfl⟩, rfl⟩
    · rintro ⟨t, ht, rfl⟩
      obtain ⟨i, hi, rfl⟩ := List.mem_take_iff_getElem.1 ht
      have hlt : i < J.slots.length := by omega
      refine ⟨(h i hlt).1.2 (by omega), ?_⟩
      rw [J.byId (List.getElem?_eq_getElem hlt)]
      rfl
  rw [this, List.toFinset_card_of_nodup hids, List.length_map, List.length_take,
    Nat.min_eq_left hle]

theorem Mark.partsFrom_succ (mk : Mark J) (ht : J.slots[i]? = some t) :
    mk.partsFrom i (n + 1) = (i, t.id, [(0, mk.bytesOf i t)]) :: mk.partsFrom (i + 1) n := by
  rw [Mark.partsFrom, List.range'_succ, List.filterMap_cons_some (b := _) (by rw [ht]; rfl)]
  rfl

/-- The last of the parts. -/
theorem Mark.last {mk : Mark J} (hr : mk.parts = r + 1) :
    ∃ t, J.slots[mk.done + r]? = some t ∧ 0 < mk.bytes ∧ mk.bytes ≤ t.size := by
  have hle := mk.le
  have hlt : mk.done + r < J.slots.length := by omega
  refine ⟨J.slots[mk.done + r], List.getElem?_eq_getElem hlt, mk.pos (by omega),
    mk.fits _ ?_ (by omega)⟩
  rw [show mk.done + mk.parts - 1 = mk.done + r by omega]
  exact List.getElem?_eq_getElem hlt

/-- One round of the scan. -/
theorem scanParts_cons {l : Layout} {id : Nat} {rest : List (Nat × Nat × RangeSet)}
    {c : Cut} {slot : Slot} (hslot : l.slots[k + j]? = some slot) (hx : x ≤ slot.size) :
    scanParts l k j ((k + j, id, [(0, x)]) :: rest) c =
      if rest ≠ [] then
        if x ≠ slot.size then
          .error (invalid s!"file {id} is partly durable but not the last in flight")
        else
          scanParts l k (j + 1) rest
            { c with whole := c.whole ++ [k + j], need := slot.dataOff + slot.size }
      else
        scanParts l k (j + 1) rest
          { c with
            partialBytes := x, cut := slot.dataOff + x, need := slot.dataOff + x,
            inFlight := some (k + j) } := by
  conv_lhs => unfold scanParts
  simp only [hslot, ne_eq, not_true_eq_false, if_false]
  rw [if_neg (Nat.not_lt.2 hx)]

/-- What the scan of the parts finds: all but the last are whole, the last is in flight. -/
theorem scanParts_spec {mk : Mark J} (hr : mk.parts = r + 1)
    (ht : J.slots[mk.done + r]? = some t) (n j : Nat) (hj : j + n = r) (c : Cut) :
    scanParts J.layout mk.done j (mk.partsFrom (mk.done + j) (n + 1)) c =
      .ok { c with
        partialBytes := mk.bytes, cut := t.dataOff + mk.bytes, need := t.dataOff + mk.bytes,
        inFlight := some (mk.done + r),
        whole := c.whole ++ List.range' (mk.done + j) n } := by
  obtain ⟨u, hu, hpos, hfit⟩ := Mark.last hr
  obtain rfl : u = t := Option.some.inj (hu.symm.trans ht)
  induction n generalizing j c with
  | zero =>
    obtain rfl : j = r := by omega
    have hbytes : mk.bytesOf (mk.done + j) u = mk.bytes := by
      rw [Mark.bytesOf, if_pos (by omega)]
    have hslot : J.layout.slots[mk.done + j]? = some u := ht
    rw [mk.partsFrom_succ ht, hbytes, scanParts_cons hslot hfit]
    simp only [Mark.partsFrom, List.range'_zero, List.filterMap_nil]
    rw [if_neg (by simp), scanParts, List.append_nil]
  | succ n ih =>
    have hle := mk.le
    have hlt : mk.done + j < J.slots.length := by omega
    have hlt' : mk.done + j + 1 < J.slots.length := by omega
    have hv : J.slots[mk.done + j]? = some J.slots[mk.done + j] := List.getElem?_eq_getElem hlt
    have hbytes : mk.bytesOf (mk.done + j) J.slots[mk.done + j] = J.slots[mk.done + j].size := by
      rw [Mark.bytesOf, if_neg (by omega)]
    have hslot : J.layout.slots[mk.done + j]? = some J.slots[mk.done + j] := hv
    have hrest : mk.partsFrom (mk.done + j + 1) (n + 1) ≠ [] := by
      rw [mk.partsFrom_succ (List.getElem?_eq_getElem hlt')]
      simp
    rw [mk.partsFrom_succ hv, hbytes, scanParts_cons hslot (Nat.le_refl _), if_pos hrest,
      if_neg (by simp)]
    have := ih (j + 1) (by omega)
      { c with
        whole := c.whole ++ [mk.done + j]
        need := J.slots[mk.done + j].dataOff + J.slots[mk.done + j].size }
    rw [show mk.done + (j + 1) = mk.done + j + 1 by omega] at this
    rw [this, List.range'_succ, List.append_assoc]
    rfl

/-! ## Cutting the file -/

theorem Job.full_take_body (hk : k ≤ J.slots.length) :
    J.full.take (J.body k).length = J.body k := by
  obtain ⟨rest, hrest⟩ := J.body_split hk
  rw [Job.full, hrest, List.take_left]

theorem Job.length_upTo (ht : J.slots[i]? = some t)
    (hx : x ≤ t.size) : (J.upTo i t x).length = t.dataOff + x := by
  have := J.length_content ht
  simp only [Job.upTo, List.length_append, Slot.length_header, List.length_take, J.dataOff ht]
  omega

theorem Job.full_take_upTo (ht : J.slots[i]? = some t)
    (hx : x ≤ t.size) : J.full.take (t.dataOff + x) = J.upTo i t x := by
  obtain ⟨rest, hrest⟩ := J.full_split ht
  have hcut : J.full = J.upTo i t x
      ++ ((J.content t.id).drop x ++ t.descriptor (J.sum t) ++ rest) := by
    rw [hrest, Job.upTo]
    conv_lhs => rw [← List.take_append_drop x (J.content t.id)]
    simp only [List.append_assoc]
  rw [hcut, List.take_left' (J.length_upTo ht hx)]

/-- No descriptor from the one at `k` on reaches below where entry `k` starts. -/
theorem Job.not_inDesc_body (hi : k ≤ i) (hp : p < (J.body k).length) : ¬ J.InDesc i p := by
  rintro ⟨t, ht, hlo, -⟩
  have := Job.body_mono (J := J) hi
  rw [J.dataOff ht] at hlo
  omega

/-- Nor below where the data of entry `k` ends. -/
theorem Job.not_inDesc_data (ht : J.slots[k]? = some t) (hi : k ≤ i)
    (hp : p < t.dataOff + t.size) : ¬ J.InDesc i p := by
  intro hd
  rcases hd.disjoint ht with ⟨hik, -⟩ | ⟨-, hge⟩
  · omega
  · omega

theorem Agree.take (h : Agree J g k c)
    (hno : ∀ i p, k ≤ i → p < c → ¬ J.InDesc i p) : g.take c = J.full.take c := by
  refine List.ext_getElem? fun p => ?_
  by_cases hp : p < c
  · rw [List.getElem?_take_of_lt hp, List.getElem?_take_of_lt hp]
    exact h p hp fun i hi => hno i p hi hp
  · rw [List.getElem?_eq_none (by simp; omega), List.getElem?_eq_none (by simp; omega)]

theorem Agree.length_le (h : Agree J g k c) (hc : c ≤ J.full.length)
    (hlast : 0 < c → ∀ i, k ≤ i → ¬ J.InDesc i (c - 1)) : c ≤ g.length := by
  rcases Nat.eq_zero_or_pos c with rfl | hpos
  · exact Nat.zero_le _
  · have heq := h (c - 1) (by omega) (hlast hpos)
    rw [List.getElem?_eq_getElem (by omega : c - 1 < J.full.length)] at heq
    have := (List.getElem?_eq_some_iff.1 heq).1
    omega

/-- With nothing in flight, the file is cut after the last finished entry. -/
theorem cutTo_closed {c : Cut} (hp : Prepared J s)
    (hpart : s.part = some g) (hk : k ≤ J.slots.length) (h : Agree J g k (J.body k).length)
    (hcut : c.cut = (J.body k).length) (hfl : c.inFlight = none) (hwh : c.whole = []) :
    ∃ s', s.cutTo k c (J.sums k) = .ok s' ∧ Closed J s' k := by
  have htake : setLen g (J.body k).length = J.body k := by
    have hno : ∀ i p, k ≤ i → p < (J.body k).length → ¬ J.InDesc i p :=
      fun i p hi hp => J.not_inDesc_body hi hp
    have hlen : (J.body k).length ≤ J.full.length := Job.body_mono hk
    rw [setLen_of_le (h.length_le hlen fun _ i hi => hno i _ hi (by omega)), h.take hno,
      J.full_take_body hk]
  refine ⟨{ s with
    part := some (J.body k), pos := (J.body k).length, positioned := true, current := none,
    written := c.partialBytes, crc := Hasher.new, crcs := J.sums k, last := J.lastOf k,
    started := k }, ?_, ?_⟩
  · simp only [Sink.cutTo, hp.file, hpart, Option.getD_some, hfl, hwh, hcut, htake, hp.layout,
      List.length_nil, Nat.add_zero, bind, Except.bind]
    rfl
  · exact ⟨⟨hp.m, hp.layout, hp.opened, rfl⟩, hk, rfl, rfl, rfl, rfl, rfl, rfl⟩

/-- With entry `i` in flight, the file is cut after its recorded bytes. -/
theorem cutTo_open {c : Cut} (hp : Prepared J s)
    (hpart : s.part = some g) (ht : J.slots[i]? = some t) (hx : c.partialBytes ≤ t.size)
    (h : Agree J g i (t.dataOff + c.partialBytes)) (hlen : t.dataOff + c.partialBytes ≤ g.length)
    (hcut : c.cut = t.dataOff + c.partialBytes) (hfl : c.inFlight = some i)
    (hwh : k + c.whole.length = i) :
    ∃ s', s.cutTo k c (J.sums i) = .ok s' ∧ Open J s' i t c.partialBytes := by
  have htake : setLen g (t.dataOff + c.partialBytes) = J.upTo i t c.partialBytes := by
    rw [setLen_of_le hlen, h.take fun j p hj hp => J.not_inDesc_data ht hj (by omega),
      J.full_take_upTo ht hx]
  have hslot : s.slotAt i = .ok t := by
    have : s.layout.slots[i]? = some t := by rw [hp.layout]; exact ht
    rw [Sink.slotAt, this]
  refine ⟨{ s with
    part := some (J.upTo i t c.partialBytes), pos := t.dataOff + c.partialBytes,
    positioned := true, current := some i, written := c.partialBytes,
    crc := Hasher.new.update ((J.content t.id).take c.partialBytes), crcs := J.sums i,
    last := some t.id, started := i + 1 }, ?_, ?_⟩
  · simp only [Sink.cutTo, hp.file, hpart, Option.getD_some, hfl, hslot, Sink.lift,
      h.readBack ht hx (Nat.le_refl _), Except.mapError, hcut, htake, hwh, bind, Except.bind]
  · exact ⟨⟨hp.m, hp.layout, hp.opened, rfl⟩, ht, hx, rfl, (J.length_upTo ht hx).symm, rfl, rfl,
      rfl, rfl, rfl, rfl⟩

/-! ## Resume -/

/-- Where the recorded bytes end. -/
def Mark.cut (mk : Mark J) : Nat :=
  match mk.parts with
  | 0 => (J.body mk.done).length
  | r + 1 => J.slots[mk.done + r]?.elim 0 fun t => t.dataOff + mk.bytes

/-- How many files are recorded whole, and how many bytes of the next. -/
def Mark.place (mk : Mark J) : Nat × Nat :=
  match mk.parts with
  | 0 => (mk.done, 0)
  | r + 1 => J.slots[mk.done + r]?.elim (mk.done, 0) fun t =>
      nextPlace (mk.done + r) mk.bytes t.size

/-- The last file with recorded bytes, when it is whole: it stays open until its commit. -/
def Mark.late (mk : Mark J) : Option Nat :=
  match mk.parts with
  | 0 => none
  | r + 1 => J.slots[mk.done + r]?.bind fun t => if mk.bytes = t.size then some t.id else none

theorem Records.empty {mk : Mark J}
    (h : Records J mk done durable) (hd : done = ∅) (he : durable.entries = []) :
    mk.done = 0 ∧ mk.parts = 0 := by
  have hle := mk.le
  have hdone : mk.done = 0 := by
    by_contra hne
    have := (h 0 (by omega)).1.2 (by omega)
    rw [hd] at this
    exact absurd this (Finset.notMem_empty _)
  refine ⟨hdone, ?_⟩
  by_contra hne
  have := (h 0 (by omega)).2
  rw [if_pos (by omega), BTreeMap.get, he] at this
  simp at this

theorem position_eq {mk : Mark J}
    (hp : Prepared J s) (hpart : s.part = some g) (hrec : Records J mk done durable)
    (hne : ¬ (done = ∅ ∧ durable.entries = [])) :
    s.position done durable = s.positionAt g mk.done (mk.partsFrom mk.done mk.parts) := by
  have htake : (J.layout.slots.takeWhile fun t => decide (t.id ∈ done)).length = mk.done :=
    hrec.takeWhile
  rw [Sink.position, hp.file, hpart, Option.getD_some]
  simp only [bind, Except.bind]
  rw [if_neg hne]
  simp only [hp.layout, htake, hrec.card, partsOf_spec hrec, ne_eq, not_true_eq_false, if_false]

/-- Where the finished entries end. -/
theorem Job.end_of_take (hk : k ≤ J.slots.length) :
    (J.layout.slots.take k).getLast?.elim 0 Slot.end_ = (J.body k).length := by
  cases k with
  | zero => rfl
  | succ k =>
    have ht : J.slots[k]? = some J.slots[k] := List.getElem?_eq_getElem hk
    have hlast : (J.layout.slots.take (k + 1)).getLast? = some J.slots[k] := by
      show (J.slots.take (k + 1)).getLast? = _
      rw [List.take_add_one, ht, Option.toList_some, List.getLast?_concat]
    rw [hlast, Option.elim_some, J.slot_end ht]

/-- `position` with finished files only. -/
theorem positionAt_nil (hp : Prepared J s) (hpart : s.part = some g)
    (hk : k ≤ J.slots.length) (h : Agree J g k (J.body k).length) :
    ∃ s', s.positionAt g k [] = .ok s' ∧ Closed J s' k := by
  have hlen : (J.body k).length ≤ g.length :=
    h.length_le (Job.body_mono hk) fun _ i hi => J.not_inDesc_body hi (by omega)
  have hfin : readFinished g 0 (J.layout.slots.take k)
      (List.replicate J.layout.slots.length none) = .ok (J.sums k) :=
    h.readFinished hk (Nat.le_refl _) (Nat.zero_le k)
  obtain ⟨s', hs', hc⟩ := cutTo_closed (c := ⟨(J.body k).length, (J.body k).length, 0, none, []⟩)
    hp hpart hk h rfl rfl rfl
  refine ⟨s', ?_, hc⟩
  rw [Sink.positionAt, hp.layout]
  simp only [J.end_of_take hk, scanParts, Sink.lift, Except.mapError, hfin, List.getLast?_nil,
    closeWhole, bind, Except.bind]
  rw [if_neg (by omega)]
  exact hs'

/-- `position` with parts: the last one is left open with its recorded bytes. -/
theorem positionAt_parts {mk : Mark J} (hp : Prepared J s)
    (hpart : s.part = some g) (hr : mk.parts = r + 1) (ht : J.slots[mk.done + r]? = some t)
    (h : Agree J g mk.done (t.dataOff + mk.bytes)) :
    ∃ s', s.positionAt g mk.done (mk.partsFrom mk.done mk.parts) = .ok s' ∧
      Open J s' (mk.done + r) t mk.bytes := by
  obtain ⟨u, hu, hpos, hfit⟩ := Mark.last hr
  obtain rfl : u = t := Option.some.inj (hu.symm.trans ht)
  have hle := mk.le
  have hbody : (J.body (mk.done + r)).length ≤ u.dataOff + mk.bytes := by
    rw [J.dataOff ht]
    omega
  have hdone := Job.body_mono (J := J) (show mk.done ≤ mk.done + r by omega)
  have hlen : u.dataOff + mk.bytes ≤ g.length := by
    refine h.length_le ?_ fun _ i _ hd => ?_
    · have := Job.body_mono (J := J) (show mk.done + r + 1 ≤ J.slots.length by omega)
      rw [← J.slot_end ht, Slot.end_] at this
      rw [Job.full]
      omega
    · have hoff : u.hdrOff ≤ u.dataOff := by rw [J.hdrOff ht, J.dataOff ht]; omega
      rcases hd.disjoint ht with ⟨-, hlt⟩ | ⟨-, hge⟩
      · omega
      · omega
  have hfin : readFinished g 0 (J.layout.slots.take mk.done)
      (List.replicate J.layout.slots.length none) = .ok (J.sums mk.done) :=
    h.readFinished (by omega) (by omega) (Nat.zero_le _)
  obtain ⟨g', hclose, ha, hg'⟩ :=
    closeWhole_spec hp.layout hp.opened hpart h (n := r) (by omega) hbody hlen
  have hscan := scanParts_spec hr ht r 0 (by omega)
    { cut := (J.body mk.done).length, need := (J.body mk.done).length }
  rw [Nat.add_zero, List.nil_append] at hscan
  obtain ⟨s', hs', ho⟩ := cutTo_open (k := mk.done) (s := { s with part := some g' })
    (c := ⟨u.dataOff + mk.bytes, u.dataOff + mk.bytes, mk.bytes, some (mk.done + r),
      List.range' mk.done r⟩)
    ⟨hp.m, hp.layout, hp.opened, hp.positioned, hp.current, hp.crcs, hp.started⟩ rfl ht hfit ha
    (hg'.symm ▸ hlen) rfl rfl (by simp)
  refine ⟨s', ?_, ho⟩
  rw [Sink.positionAt, hp.layout, hr]
  simp only [J.end_of_take (show mk.done ≤ J.slots.length by omega), hscan, Sink.lift,
    Except.mapError, hfin, hclose, bind, Except.bind]
  rw [if_neg (by omega)]
  exact hs'

/-- **A resume rebuilds the sink.**  On a part file that has the recorded bytes, `position`
succeeds and leaves the sink where they end. -/
theorem position_spec {mk : Mark J}
    (hp : Prepared J s) (hpart : s.part = some g) (hrec : Records J mk done durable)
    (h : Agree J g mk.done mk.cut) :
    ∃ s', s.position done durable = .ok s' ∧ Stands J s' mk.place.1 mk.place.2 mk.late := by
  have hle := mk.le
  by_cases hne : done = ∅ ∧ durable.entries = []
  · obtain ⟨s', hs', hc⟩ := startOver_spec hp
    obtain ⟨hdone, hparts⟩ := hrec.empty hne.1 hne.2
    refine ⟨s', ?_, ?_⟩
    · rw [Sink.position, hp.file]
      simp only [bind, Except.bind]
      rw [if_pos hne, hs']
    · rw [Mark.place, Mark.late, hparts, hdone]
      exact .closed hc
  · rw [position_eq hp hpart hrec hne]
    cases hparts : mk.parts with
    | zero =>
      rw [Mark.cut, hparts] at h
      obtain ⟨s', hs', hc⟩ := positionAt_nil hp hpart (by omega) h
      refine ⟨s', hs', ?_⟩
      rw [Mark.place, Mark.late, hparts]
      exact .closed hc
    | succ r =>
      obtain ⟨t, ht, hpos, hfit⟩ := Mark.last hparts
      rw [Mark.cut, hparts] at h
      simp only [ht, Option.elim_some] at h
      obtain ⟨s', hs', ho⟩ := positionAt_parts hp hpart hparts ht h
      rw [hparts] at hs'
      refine ⟨s', hs', ?_⟩
      rw [Mark.place, Mark.late, hparts]
      simp only [ht, Option.elim_some, Option.bind_some, nextPlace]
      by_cases hend : mk.bytes = t.size
      · rw [if_pos hend, if_pos hend]
        rw [hend] at ho
        exact .late ho
      · rw [if_neg hend, if_neg hend]
        exact .inFlight ho (by omega)

end Ps5Upload.ZipStored
