import Ps5Upload.Fpkg.Exfat.Directory
import Ps5Upload.Fpkg.Exfat.Skip

/-!
# exFAT: directory entries read back

The records the writer makes of a node, and what the reader makes of them.
-/

namespace Ps5Upload.Exfat

open ByteFile Checked Blocks Utf16

/-! ## Names -/

/-- A name the reader lists. -/
def Listed (name : Text) : Prop :=
  name ≠ ['.'] ∧ name ≠ ['.', '.'] ∧ isJunk name = false

instance (name : Text) : Decidable (Listed name) := inferInstanceAs (Decidable (_ ∧ _))

/-- What a name that can be stored is made of. -/
structure Storable (name : Text) : Prop where
  pos : 0 < (encodeUtf16 name).length
  le : (encodeUtf16 name).length ≤ maxNameUnits
  clean : ∀ c ∈ name, isForbidden c = false

variable {name : Text} {units : List Nat} {n : Node}

theorem storable_of_units {isNfc : Text → Bool}
    (h : nameUnits isNfc name = .ok units) : Storable name := by
  unfold nameUnits at h
  dsimp only at h
  split at h
  · cases h
  · rename_i hlen
    rw [not_or] at hlen
    split at h
    · cases h
    · rename_i hbad
      refine ⟨List.length_pos_iff.2 hlen.1, by omega, fun c hc => ?_⟩
      have := List.find?_eq_none.1 hbad c hc
      simpa using this

/-- A unit below the surrogates stands for the character of that number. -/
theorem mem_of_unit {u : Nat} (hu : u < 0xD800) (h : u ∈ encodeUtf16 name) :
    ∃ c ∈ name, c.toNat = u := by
  obtain ⟨c, hc, hmem⟩ := List.mem_flatMap.1 h
  refine ⟨c, hc, ?_⟩
  unfold charUnits at hmem
  split at hmem
  · exact (List.mem_singleton.1 hmem).symm
  · rcases List.mem_cons.1 hmem with rfl | hmem
    · omega
    · rw [List.mem_singleton] at hmem
      omega

theorem Storable.no_unit (h : Storable name) {u : Nat}
    (hu : u < 0x20 ∨ u = '/'.toNat) : u ∉ encodeUtf16 name := by
  intro hmem
  have hlt : u < 0xD800 := by
    have : '/'.toNat = 47 := rfl
    omega
  obtain ⟨c, hc, rfl⟩ := mem_of_unit hlt hmem
  have hclean := h.clean c hc
  unfold isForbidden at hclean
  simp only [Bool.or_eq_false_iff, decide_eq_false_iff_not] at hclean
  rcases hu with hu | hu
  · exact hclean.1 hu
  · have hchar : c = '/' := Char.toNat_inj.1 hu
    subst hchar
    exact hclean.2 (by decide)

/-! ## Records -/

theorem length_fileRecord (isDir : Bool) (nameEntries sum : Nat) :
    (fileRecord isDir nameEntries sum).length = 32 := by
  unfold fileRecord
  simp only [List.length_append, length_le, length_zeros, List.length_cons, List.length_nil]

theorem length_streamRecord (upcase : Bytes) (n : Node) : (streamRecord upcase n).length = 32 := by
  unfold streamRecord
  simp only [List.length_append, length_le, length_zeros, List.length_cons, List.length_nil]

theorem length_units (units : List Nat) : (units.flatMap (le 2)).length = units.length * 2 :=
  length_flatMap_const fun u _ => length_le 2 u

theorem length_nameRecord (h : units.length ≤ 15) : (nameRecord units).length = 32 := by
  unfold nameRecord
  simp only [List.length_append, length_units, length_zeros, List.length_cons, List.length_nil]
  omega

variable (dir : Text)

/-- The first record of a set starts an entry. -/
theorem parse_fileRecord (isDir : Bool) (nameEntries sum : Nat) (cs : List Bytes)
    (pending : Option Pending) (out : List Parsed) :
    parseRecords dir (fileRecord isDir nameEntries sum :: cs) pending out =
      parseRecords dir cs (some ⟨isDir, 0, [], 0, false, 0, 0⟩) out := by
  have hlen := length_fileRecord isDir nameEntries sum
  have hty : leAt (fileRecord isDir nameEntries sum) 0 1 = 0x85 := by
    unfold fileRecord
    simp only [List.append_assoc]
    rfl
  have hattr : leAt (fileRecord isDir nameEntries sum) 4 2 = if isDir then 0x10 else 0x20 := by
    unfold fileRecord
    simp only [List.append_assoc]
    rw [leAt_append _ _ (by simp), leAt_le_append _ _ (by decide), leAt_le_append _ _ (by decide)]
    have hat : 4 - [(0x85 : UInt8)].length - 1 - 2 = 0 := rfl
    rw [hat, leAt_le]
    cases isDir <;> rfl
  rw [parseRecords, field_eq (by omega), ok_bind, hty, if_neg (by decide), if_neg (by decide),
    if_pos rfl, field_eq (by omega), ok_bind, hattr]
  cases isDir <;> rfl

/-- The second gives it the size and where it starts. -/
theorem parse_streamRecord (upcase : Bytes) (hunits : n.units.length ≤ 255)
    (hsize : n.size < 2 ^ 64) (hfirst : n.firstCluster < 2 ^ 32) (cs : List Bytes) (q : Pending)
    (out : List Parsed) :
    parseRecords dir (streamRecord upcase n :: cs) (some q) out =
      parseRecords dir cs (some ⟨q.isDir, n.units.length, q.name, n.firstCluster, false, n.size,
        n.size⟩) out := by
  have hlen := length_streamRecord upcase n
  have hfield : ∀ off w v, leAt (streamRecord upcase n) off w = v →
      off + w ≤ 32 → (field (streamRecord upcase n) off w : Res Nat) = .ok v := fun off w v hv hw => by
    rw [field_eq (by omega), hv]
  have h0 : leAt (streamRecord upcase n) 0 1 = 0xC0 := by
    unfold streamRecord
    simp only [List.append_assoc]
    rfl
  have h1 : leAt (streamRecord upcase n) 1 1 = 0x01 := by
    unfold streamRecord
    simp only [List.append_assoc]
    rfl
  have hsplit : ∃ a b c, streamRecord upcase n =
      a ++ (le 1 n.units.length ++ (b ++ (le 8 n.size ++ (zeros 4 ++ (le 4 n.firstCluster ++
        (le 8 n.size ++ c)))))) ∧ a.length = 3 ∧ b.length = 4 := by
    refine ⟨[0xC0, 0x01, 0], le 2 (nameHash upcase n.units).toNat ++ zeros 2, [], ?_, rfl, ?_⟩
    · unfold streamRecord
      simp only [List.append_assoc, List.append_nil]
    · rw [List.length_append, length_le, length_zeros]
  obtain ⟨a, b, c, hs, ha, hb⟩ := hsplit
  have h3 : leAt (streamRecord upcase n) 3 1 = n.units.length := by
    rw [hs, leAt_append _ _ (by omega), ha, leAt_le, Nat.mod_eq_of_lt (by omega)]
  have h8 : leAt (streamRecord upcase n) 8 8 = n.size := by
    rw [hs, leAt_append _ _ (by omega), ha, leAt_le_append _ _ (by decide), leAt_append _ _ (by omega),
      hb, leAt_le, Nat.mod_eq_of_lt (by omega)]
  have h20 : leAt (streamRecord upcase n) 20 4 = n.firstCluster := by
    rw [hs, leAt_append _ _ (by omega), ha, leAt_le_append _ _ (by decide), leAt_append _ _ (by omega),
      hb, leAt_le_append _ _ (by decide), leAt_append _ _ (by simp), length_zeros,
      leAt_le, Nat.mod_eq_of_lt (by omega)]
  have h24 : leAt (streamRecord upcase n) 24 8 = n.size := by
    rw [hs, leAt_append _ _ (by omega), ha, leAt_le_append _ _ (by decide), leAt_append _ _ (by omega),
      hb, leAt_le_append _ _ (by decide), leAt_append _ _ (by simp), length_zeros,
      leAt_le_append _ _ (by decide), leAt_le, Nat.mod_eq_of_lt (by omega)]
  rw [parseRecords, hfield 0 1 _ h0 (by decide), ok_bind, if_neg (by decide), if_neg (by decide),
    if_neg (by decide)]
  dsimp only
  rw [if_pos rfl, hfield 8 8 _ h8 (by decide), ok_bind, hfield 24 8 _ h24 (by decide), ok_bind,
    hfield 3 1 _ h3 (by decide), ok_bind, hfield 1 1 _ h1 (by decide), ok_bind,
    hfield 20 4 _ h20 (by decide), ok_bind]
  have hvalid : (if n.size = 0 then n.size else min n.size n.size) = n.size := by
    split <;> omega
  refine congrArg (fun x => parseRecords dir cs (some x) out) ?_
  rw [hvalid]
  rfl

/-- What a part of a name adds to it. -/
theorem nameRecord_units (hlen : units.length ≤ 15)
    (hlt : ∀ u ∈ units, u < 2 ^ 16) : (chunks 2 (((nameRecord units).drop 2).take 30)).map fromLe =
      units ++ List.replicate (15 - units.length) 0 := by
  have hbody : ((nameRecord units).drop 2).take 30 =
      units.flatMap (le 2) ++ zeros (30 - 2 * units.length) := by
    unfold nameRecord
    rw [List.append_assoc, List.drop_left' (by rfl), List.take_of_length_le]
    rw [List.length_append, length_units, length_zeros]
    omega
  have hzeros : ∀ k, (chunks 2 (zeros (2 * k))).map fromLe = List.replicate k 0 := by
    intro k
    induction k with
    | zero => rfl
    | succ k ih =>
      have hz : zeros (2 * (k + 1)) = zeros 2 ++ zeros (2 * k) := by
        rw [zeros, zeros, zeros, List.replicate_append_replicate]
        congr 1
        omega
      rw [hz, chunks_append (by decide) (length_zeros 2), List.map_cons, ih]
      rfl
  have happend : ∀ us : List Nat, (∀ u ∈ us, u < 2 ^ 16) → ∀ k,
      (chunks 2 (us.flatMap (le 2) ++ zeros (2 * k))).map fromLe = us ++ List.replicate k 0 := by
    intro us
    induction us with
    | nil => exact fun _ k => hzeros k
    | cons u us ih =>
      intro hus k
      rw [List.flatMap_cons, List.append_assoc, chunks_append (by decide) (length_le 2 u),
        List.map_cons, ih (fun w hw => hus w (List.mem_cons_of_mem u hw)) k, fromLe_le,
        Nat.mod_eq_of_lt (show u < 256 ^ 2 from hus u List.mem_cons_self)]
      rfl
  rw [hbody, show 30 - 2 * units.length = 2 * (15 - units.length) by omega, happend units hlt]

/-- A name record adds as many units as the name still lacks. -/
theorem parse_nameRecord (hlen : units.length ≤ 15)
    (hlt : ∀ u ∈ units, u < 2 ^ 16) (cs : List Bytes) (q : Pending) (out : List Parsed)
    {name : List Nat} (hname : q.name ++ (units ++ List.replicate (15 - units.length) 0).take
      (q.nameLen - q.name.length) = name) :
    parseRecords dir (nameRecord units :: cs) (some q) out =
      if q.nameLen ≤ name.length then
        finish dir { q with name := name } >>= fun done => parseRecords dir cs none (out ++ done)
      else parseRecords dir cs (some { q with name := name }) out := by
  have hl := length_nameRecord hlen
  have hty : leAt (nameRecord units) 0 1 = 0xC1 := by
    unfold nameRecord
    simp only [List.append_assoc]
    rfl
  rw [parseRecords, field_eq (by omega), ok_bind, hty, if_neg (by decide), if_neg (by decide),
    if_neg (by decide)]
  dsimp only
  rw [if_neg (by decide), if_pos rfl, slice_eq (by decide) (by omega), ok_bind,
    show 32 - 2 = 30 from rfl, nameRecord_units hlen hlt, hname]

/-- The records of a name's parts from the `j`-th on. -/
def partsFrom (units : List Nat) (j m : Nat) : List Bytes :=
  (List.range' j m).map fun i => nameRecord ((units.drop (15 * i)).take 15)

theorem partsFrom_succ (units : List Nat) (j m : Nat) : partsFrom units j (m + 1) =
    nameRecord ((units.drop (15 * j)).take 15) :: partsFrom units (j + 1) m := rfl

/-- The parts of a name put it together again, and the last of them ends the entry. -/
theorem parse_parts (hlt : ∀ u ∈ units, u < 2 ^ 16) {q : Pending}
    (hq : q.nameLen = units.length) {m j : Nat} (hj : j + (m + 1) = units.length ⌈/⌉ 15)
    (cs : List Bytes) (out : List Parsed) :
    parseRecords dir (partsFrom units j (m + 1) ++ cs) (some { q with name := units.take (15 * j) })
        out =
      finish dir { q with name := units } >>= fun done => parseRecords dir cs none (out ++ done) := by
  have hge := le_blocks (show 0 < 15 by decide) units.length
  have hgt := blocks_lt (show 0 < 15 by decide) units.length
  induction m generalizing j with
  | zero =>
    have hname : units.take (15 * j) ++ ((units.drop (15 * j)).take 15 ++
        List.replicate (15 - ((units.drop (15 * j)).take 15).length) 0).take
          (q.nameLen - (units.take (15 * j)).length) = units := by
      have hpart : (units.drop (15 * j)).take 15 = units.drop (15 * j) :=
        List.take_of_length_le (by rw [List.length_drop]; omega)
      have hlacks : q.nameLen - (units.take (15 * j)).length = (units.drop (15 * j)).length := by
        rw [List.length_take, List.length_drop]
        omega
      rw [hpart, hlacks, List.take_left, List.take_append_drop]
    rw [partsFrom_succ, List.cons_append, parse_nameRecord dir (by rw [List.length_take]; omega)
      (fun u hu => hlt u (List.mem_of_mem_drop (List.mem_of_mem_take hu))) _ _ _ hname,
      if_pos (Nat.le_of_eq hq)]
    rfl
  | succ m ih =>
    have hname : units.take (15 * j) ++ ((units.drop (15 * j)).take 15 ++
        List.replicate (15 - ((units.drop (15 * j)).take 15).length) 0).take
          (q.nameLen - (units.take (15 * j)).length) = units.take (15 * (j + 1)) := by
      have hlen : ((units.drop (15 * j)).take 15).length = 15 := by
        simp only [List.length_take, List.length_drop]
        omega
      have hall : ((units.drop (15 * j)).take 15).take (q.nameLen - (units.take (15 * j)).length) =
          (units.drop (15 * j)).take 15 := List.take_of_length_le (by
        rw [hlen, List.length_take]
        omega)
      rw [hlen, Nat.sub_self, List.replicate_zero, List.append_nil, hall, Nat.mul_succ, List.take_add]
    rw [partsFrom_succ, List.cons_append, parse_nameRecord dir (by rw [List.length_take]; omega)
      (fun u hu => hlt u (List.mem_of_mem_drop (List.mem_of_mem_take hu))) _ _ _ hname,
      if_neg (by
        show ¬q.nameLen ≤ (units.take (15 * (j + 1))).length
        rw [List.length_take]
        omega)]
    exact ih (by omega)

/-! ## Entries -/

/-- What the reader makes of a node. -/
def parsedOf (n : Node) : Parsed := ⟨n.name, n.size, n.size, n.firstCluster, false, n.isDir⟩

/-- A node whose entry the reader lists. -/
structure Readable (n : Node) : Prop where
  units_eq : n.units = encodeUtf16 n.name
  storable : Storable n.name
  listed : Listed n.name
  size_lt : n.size < 2 ^ 64
  first_lt : n.firstCluster < 2 ^ 32

theorem finish_listed (hn : Readable n) :
    finish dir ⟨n.isDir, n.units.length, n.units, n.firstCluster, false, n.size, n.size⟩ =
      .ok [parsedOf n] := by
  have hpos := hn.storable.pos
  have hname : n.name ≠ [] := by
    intro hnil
    rw [hnil] at hpos
    exact absurd hpos (Nat.lt_irrefl 0)
  unfold finish
  dsimp only
  rw [hn.units_eq, if_neg (hn.storable.no_unit (.inl (by decide))),
    if_neg (hn.storable.no_unit (.inr rfl)), fromUtf16_encodeUtf16]
  dsimp only
  rw [if_neg]
  · rfl
  · rintro (h | h | h | h)
    · exact hname h
    · exact hn.listed.1 h
    · exact hn.listed.2.1 h
    · rw [hn.listed.2.2] at h
      cases h

theorem chunks_flatMap {α : Type} {f : α → Bytes} {k : Nat} (hk : 0 < k) (l : List α)
    (h : ∀ a ∈ l, (f a).length = k) (rest : Bytes) :
    chunks k (l.flatMap f ++ rest) = l.map f ++ chunks k rest := by
  induction l with
  | nil => rfl
  | cons a l ih =>
    rw [List.flatMap_cons, List.append_assoc, chunks_append hk (h a List.mem_cons_self),
      ih fun b hb => h b (List.mem_cons_of_mem a hb)]
    rfl

theorem length_of_mem_nameParts {part : List Nat} (h : part ∈ nameParts units) :
    part.length ≤ 15 := by
  obtain ⟨i, -, rfl⟩ := List.mem_map.1 h
  rw [List.length_take]
  exact Nat.min_le_left _ _

theorem nameParts_records (units : List Nat) :
    (nameParts units).map nameRecord = partsFrom units 0 (units.length ⌈/⌉ 15) := by
  rw [nameParts, List.map_map, List.range_eq_range']
  rfl

theorem length_entrySet (upcase : Bytes) (n : Node) :
    (entrySet upcase n).length = (2 + n.units.length ⌈/⌉ nameUnitsPerEntry) * entryBytes := by
  unfold entrySet otherRecords
  simp only [List.length_append, length_fileRecord, length_streamRecord]
  rw [length_flatMap_const fun part hpart => length_nameRecord (length_of_mem_nameParts hpart),
    nameParts, List.length_map, List.length_range, show entryBytes = 32 from rfl]
  omega

/-- **The set of a node is read as one entry.** -/
theorem parse_entrySet (upcase : Bytes) (hn : Readable n) (rest : Bytes)
    (out : List Parsed) : parseRecords dir (chunks 32 (entrySet upcase n ++ rest)) none out =
      parseRecords dir (chunks 32 rest) none (out ++ [parsedOf n]) := by
  have hpos := hn.storable.pos
  have hle := hn.storable.le
  rw [← hn.units_eq] at hpos hle
  have hparts := blocks_pos (show 0 < 15 by decide) hpos
  have hlt : ∀ u ∈ n.units, u < 2 ^ 16 := fun u hu => encodeUtf16_lt (hn.units_eq ▸ hu)
  unfold entrySet otherRecords
  dsimp only
  rw [List.append_assoc, List.append_assoc, chunks_append (by decide) (length_fileRecord ..),
    chunks_append (by decide) (length_streamRecord ..),
    chunks_flatMap (by decide) _ fun part hpart => length_nameRecord (length_of_mem_nameParts hpart),
    nameParts_records, parse_fileRecord, parse_streamRecord dir upcase hle hn.size_lt hn.first_lt]
  have hloop := parse_parts dir hlt (q := ⟨n.isDir, n.units.length, [], n.firstCluster, false, n.size,
    n.size⟩) rfl (j := 0) (m := n.units.length ⌈/⌉ 15 - 1) (by omega) (chunks 32 rest) out
  rw [Nat.sub_add_cancel hparts] at hloop
  refine Eq.trans hloop ?_
  dsimp only
  rw [finish_listed dir hn]
  rfl

theorem parse_entrySets (upcase : Bytes) (ns : List Node) (hns : ∀ n ∈ ns, Readable n)
    (rest : Bytes) (out : List Parsed) :
    parseRecords dir (chunks 32 (ns.flatMap (entrySet upcase) ++ rest)) none out =
      parseRecords dir (chunks 32 rest) none (out ++ ns.map parsedOf) := by
  induction ns generalizing out with
  | nil => rw [List.flatMap_nil, List.nil_append, List.map_nil, List.append_nil]
  | cons n ns ih =>
    rw [List.flatMap_cons, List.append_assoc, parse_entrySet dir upcase (hns n List.mem_cons_self),
      ih (fun m hm => hns m (List.mem_cons_of_mem n hm)), List.map_cons, List.append_assoc]
    rfl

/-- What follows the entries ends them. -/
theorem parse_zeros (k : Nat) (out : List Parsed) :
    parseRecords dir (chunks 32 (zeros k)) none out = .ok out := by
  by_cases hk : k < 32
  · have hnil : chunks 32 (zeros k) = [] := by
      rw [← List.length_eq_zero_iff, length_chunks, length_zeros]
      omega
    rw [hnil]
    rfl
  · have hz : zeros k = zeros 32 ++ zeros (k - 32) := by
      rw [zeros, zeros, zeros, List.replicate_append_replicate]
      congr 1
      omega
    rw [hz, chunks_append (by decide) (length_zeros 32)]
    rfl

/-- The root's own two records are no entries. -/
theorem parse_rootRecords (l : Layout) (rest : Bytes) (out : List Parsed) :
    parseRecords dir (chunks 32 (rootRecords l ++ rest)) none out =
      parseRecords dir (chunks 32 rest) none out := by
  have hskip : ∀ (b : UInt8) (record : Bytes), record.length = 31 → b.toNat = 0x81 ∨ b.toNat = 0x82 →
      ∀ cs, parseRecords dir ((b :: record) :: cs) none out = parseRecords dir cs none out := by
    intro b record hlen hb cs
    have hty : leAt (b :: record) 0 1 = b.toNat := by
      simp only [leAt, List.drop_zero, List.take_succ_cons, List.take_zero, fromLe]
      omega
    rw [parseRecords, field_eq (by rw [List.length_cons]; omega), ok_bind, hty, if_neg (by omega),
      if_neg (by omega), if_neg (by omega)]
  have hsplit : rootRecords l ++ rest =
      ((0x81 : UInt8) :: (zeros 19 ++ le 4 firstHeapCluster ++ le 8 l.bitmapBytes)) ++
      (((0x82 : UInt8) :: (zeros 3 ++ le 4 (tableChecksum l.upcase).toNat ++ zeros 12 ++
        le 4 l.upcaseCluster ++ le 8 l.upcase.length)) ++ rest) := by
    unfold rootRecords
    simp only [List.append_assoc, List.cons_append, List.nil_append]
  have hbitmap : (zeros 19 ++ le 4 firstHeapCluster ++ le 8 l.bitmapBytes).length = 31 := by
    simp only [List.length_append, length_zeros, length_le]
  have hup : (zeros 3 ++ le 4 (tableChecksum l.upcase).toNat ++ zeros 12 ++ le 4 l.upcaseCluster ++
      le 8 l.upcase.length).length = 31 := by
    simp only [List.length_append, length_zeros, length_le]
  rw [hsplit, chunks_append (by decide) (by rw [List.length_cons, hbitmap]),
    chunks_append (by decide) (by rw [List.length_cons, hup]), hskip _ _ hbitmap (.inl rfl),
    hskip _ _ hup (.inr rfl)]

theorem length_rootRecords (l : Layout) : (rootRecords l).length = 2 * entryBytes := by
  unfold rootRecords
  simp only [List.length_append, length_zeros, length_le, List.length_cons, List.length_nil]
  rfl

/-- The bytes of a folder's entries. -/
theorem length_entries (t : Tree) (d : Nat) (l : Layout) :
    ((if d = 0 then rootRecords l else []) ++
      (kids t d).flatMap fun c => entrySet l.upcase (nodeAt t c)).length = dirBytes t d := by
  rw [List.length_append, List.length_flatMap, dirBytes, Nat.add_comm]
  congr 1
  · exact congrArg List.sum (List.map_congr_left fun c _ => length_entrySet l.upcase (nodeAt t c))
  · split
    · exact length_rootRecords l
    · rfl

/-- **A folder's clusters are read as its kids**, in their order. -/
theorem parseDir_directoryBytes {t : Tree} {d : Nat} (l : Layout)
    (hsize : dirBytes t d ≤ (nodeAt t d).size) (hkids : ∀ k ∈ kids t d, Readable (nodeAt t k)) :
    parseDir (directoryBytes t d l) dir =
      .ok ((kids t d).map fun k => parsedOf (nodeAt t k)) := by
  have hlen := length_entries t d l
  have hentries : ∀ k rest, parseRecords dir (chunks 32 ((if d = 0 then rootRecords l else []) ++
      ((kids t d).flatMap (fun c => entrySet l.upcase (nodeAt t c)) ++ rest))) none k =
      parseRecords dir (chunks 32 rest) none (k ++ (kids t d).map fun k => parsedOf (nodeAt t k)) := by
    intro k rest
    have hsets := parse_entrySets dir l.upcase ((kids t d).map (nodeAt t))
      (fun n hn => by
        obtain ⟨c, hc, rfl⟩ := List.mem_map.1 hn
        exact hkids c hc) rest k
    rw [List.flatMap_map, List.map_map] at hsets
    split
    · rw [parse_rootRecords]
      exact hsets
    · exact hsets
  unfold parseDir directoryBytes setLen
  rw [List.take_of_length_le (by omega), List.append_assoc, hentries]
  exact parse_zeros dir _ _

end Ps5Upload.Exfat
