import Ps5Upload.Fpkg.Inner.Plan
import Ps5Upload.Lib.Tiles
import Ps5Upload.Lib.Utf8Lossy

/-!
# Directory entries in their blocks

A console reads a directory one block at a time, so the entry before a block's end is stretched to it where
the next one would not fit.

* `Packed.stretch`, `Packed.push` — the two steps of `dirent_extents`;
* `direntExtents_packed` — the extents follow one another and none crosses a block;
* `direntExtents32_eq` — none of the sums of 32 bits overflows in a directory below 2 GiB;
* `walkEntries_bytes` — a reader finds the entries that were written;
* `dirents_whole` — all of it.
-/

namespace Ps5Upload.Inner

open ByteFile Checked Utf8

/-! ## Extents -/

/-- A name's entry without a stretch. -/
def entrySize (name : Text) : Nat := (size name + 24) / 8 * 8

/-- What an extent owes to its name. -/
structure Fits (name : Text) (t : Nat × Nat) : Prop where
  size : entrySize name ≤ t.2
  /-- Its first byte and its last one are in one block. -/
  whole : t.1 / block = (t.1 + t.2 - 1) / block
  /-- A stretched entry ends its block. -/
  stretched : entrySize name < t.2 → block ∣ t.1 + t.2

/-- Extents of names that follow one another up to `stop`, each in one block. -/
structure Packed (names : List Text) (ts : List (Nat × Nat)) (stop : Nat) : Prop where
  tiles : Tiles 0 ts stop
  fits : List.Forall₂ Fits names ts

theorem direntSize_eq (name : Text) : direntSize name = (entrySize name : Nat) := by
  rw [direntSize, entrySize]
  omega

theorem entrySize_pos (name : Text) : 0 < entrySize name := by
  rw [entrySize]
  omega

theorem entrySize_le {name : Text} (h : size name ≤ 65519) : entrySize name ≤ block := by
  rw [entrySize, block]
  omega

variable {names : List Text} {name : Text} {ts : List (Nat × Nat)} {stop : Nat}

/-- The next entry, where it has room or starts a block. -/
theorem Packed.push (h : Packed names ts stop) (hle : entrySize name ≤ block)
    (hroom : stop % block = 0 ∨ entrySize name ≤ block - stop % block) :
    Packed (names ++ [name]) (ts ++ [(stop, entrySize name)]) (stop + entrySize name) where
  tiles := h.tiles.append ⟨rfl, rfl⟩
  fits := by
    have hpos := entrySize_pos name
    refine List.rel_append h.fits (List.Forall₂.cons ⟨Nat.le_refl _, ?_, fun h' => absurd h' (Nat.lt_irrefl _)⟩ .nil)
    dsimp only
    rw [block] at *
    omega

/-- The last entry, stretched to the end of its block. -/
def stretch (ts : List (Nat × Nat)) (room : Nat) : List (Nat × Nat) :=
  ts.dropLast ++ (ts.getLast?.map fun t => (t.1, t.2 + room)).toList

theorem stretch_concat (ts : List (Nat × Nat)) (t : Nat × Nat) (room : Nat) :
    stretch (ts ++ [t]) room = ts ++ [(t.1, t.2 + room)] := by
  rw [stretch, List.dropLast_concat, List.getLast?_concat]
  rfl

theorem Packed.stretch (h : Packed names ts stop) (hmid : stop % block ≠ 0) :
    Packed names (stretch ts (block - stop % block)) (stop + (block - stop % block)) := by
  rcases List.eq_nil_or_concat ts with rfl | ⟨init, last, rfl⟩
  · -- nothing has been placed, so the place is the first one
    have hstop : 0 = stop := h.tiles
    rw [← hstop] at hmid
    exact absurd rfl hmid
  · rw [List.concat_eq_append] at h ⊢
    have hnames' := List.forall₂_take_append names init [last] h.fits
    have hrest := List.forall₂_drop_append names init [last] h.fits
    rw [← List.take_append_drop init.length names]
    generalize names.take init.length = names' at hnames'
    generalize names.drop init.length = rest at hrest
    cases hrest with
    | cons hlast hnil =>
      cases hnil
      obtain ⟨b, hinit, hb1, hb2⟩ := h.tiles.of_append
      have hstop : b + last.2 = stop := hb2
      have hpos := Nat.lt_of_lt_of_le (entrySize_pos _) hlast.size
      have hwhole := hlast.whole
      rw [stretch_concat]
      refine ⟨hinit.append ⟨hb1, ?_⟩, List.rel_append hnames' (List.Forall₂.cons ⟨?_, ?_, ?_⟩ .nil)⟩
      · show b + (last.2 + _) = _
        omega
      · have := hlast.size
        dsimp only
        omega
      · dsimp only
        rw [block] at hwhole hmid ⊢
        omega
      · intro _
        dsimp only
        rw [block] at hmid ⊢
        omega

/-! ## The planner's loop -/

/-- Extents as the planner keeps them. -/
def signed (ts : List (Nat × Nat)) : List (Int × Int) := ts.map fun t => ((t.1 : Int), (t.2 : Int))

theorem signed_append (ts ts' : List (Nat × Nat)) : signed (ts ++ ts') = signed ts ++ signed ts' := List.map_append

theorem signed_stretch (ts : List (Nat × Nat)) (room : Nat) :
    signed (stretch ts room) =
      (signed ts).dropLast ++ ((signed ts).getLast?.map fun e => (e.1, e.2 + (room : Int))).toList := by
  rcases List.eq_nil_or_concat ts with rfl | ⟨init, last, rfl⟩
  · rfl
  · rw [List.concat_eq_append, stretch_concat, signed_append, signed_append]
    have hone : signed [last] = [((last.1 : Int), (last.2 : Int))] := rfl
    rw [hone, List.dropLast_concat, List.getLast?_concat]
    rfl

/-- The extents after one name, and where they end. -/
def step (ts : List (Nat × Nat)) (stop : Nat) (name : Text) : List (Nat × Nat) × Nat :=
  if stop % block ≠ 0 ∧ block - stop % block < entrySize name then
    let stop' := stop + (block - stop % block)
    (stretch ts (block - stop % block) ++ [(stop', entrySize name)], stop' + entrySize name)
  else (ts ++ [(stop, entrySize name)], stop + entrySize name)

theorem direntExtents_cons (ts : List (Nat × Nat)) (stop : Nat) (name : Text) (names : List Text) :
    direntExtents (name :: names) stop (signed ts) =
      direntExtents names (step ts stop name).2 (signed (step ts stop name).1) := by
  have hcond : ((stop : Int) % (block : Nat) ≠ 0 ∧ (block : Int) - (stop : Int) % (block : Nat) < direntSize name) ↔
      (stop % block ≠ 0 ∧ block - stop % block < entrySize name) := by
    rw [direntSize_eq, block]
    omega
  rw [direntExtents, step]
  by_cases h : stop % block ≠ 0 ∧ block - stop % block < entrySize name
  · have hroom : (block : Int) - (stop : Int) % (block : Nat) = ((block - stop % block : Nat) : Int) := by
      rw [block]
      omega
    rw [if_pos (hcond.2 h), if_pos h]
    dsimp only
    rw [signed_append, signed_stretch, direntSize_eq, hroom, Int.natCast_add, Int.natCast_add]
    rfl
  · rw [if_neg (fun h' => h (hcond.1 h')), if_neg h, direntSize_eq]
    dsimp only
    rw [signed_append, Int.natCast_add]
    rfl

/-- **One name more.** -/
theorem Packed.step (h : Packed names ts stop) (hle : entrySize name ≤ block) :
    Packed (names ++ [name]) (step ts stop name).1 (step ts stop name).2 := by
  rw [Inner.step]
  split
  · rename_i hmid
    refine (h.stretch hmid.1).push hle (Or.inl ?_)
    rw [block]
    omega
  · rename_i hmid
    refine h.push hle ?_
    rw [not_and_or, not_not, Nat.not_lt] at hmid
    exact hmid

/-- **The extents of a directory's names.** -/
theorem direntExtents_packed : ∀ (names : List Text) {done : List Text} {ts : List (Nat × Nat)} {stop : Nat},
    Packed done ts stop → (∀ name ∈ names, size name ≤ 65519) →
    ∃ ts' stop', direntExtents names stop (signed ts) = signed ts' ∧ Packed (done ++ names) ts' stop' ∧ stop ≤ stop'
  | [], done, ts, stop, h, _ => ⟨ts, stop, rfl, by rw [List.append_nil]; exact h, Nat.le_refl _⟩
  | name :: names, done, ts, stop, h, hnames => by
    have hname := entrySize_le (hnames name List.mem_cons_self)
    obtain ⟨ts', stop', heq, h', hle⟩ := direntExtents_packed names (h.step hname)
      fun n hn => hnames n (List.mem_cons_of_mem name hn)
    refine ⟨ts', stop', (direntExtents_cons ts stop name names).trans heq, ?_, Nat.le_trans ?_ hle⟩
    · rw [List.append_assoc] at h'
      exact h'
    · rw [Inner.step]
      split <;> dsimp only <;> omega

/-! ## Sums of 32 bits -/

/-- A sum of an `i32`, which panics where it overflows. -/
def i32 (n : Int) : Res String Int := if -2 ^ 31 ≤ n ∧ n < 2 ^ 31 then .ok n else panic

/-- `dirent_size` with its 32-bit sums. -/
def direntSize32 (name : Text) : Res String Int := do
  let raw ← i32 ((size name : Int).bmod (2 ^ 32) + 17)
  let up ← i32 (raw + 7)
  i32 (up.tdiv 8 * 8)

/-- The stretch of the last extent. -/
def stretchLast (out : List (Int × Int)) (room : Int) : Res String (List (Int × Int)) :=
  match out.getLast? with
  | none => return out
  | some last => do
    let stretched ← i32 (last.2 + room)
    return out.dropLast ++ [(last.1, stretched)]

/-- `dirent_extents` with its 32-bit sums. -/
def direntExtents32 : List Text → Int → List (Int × Int) → Res String (List (Int × Int))
  | [], _, out => return out
  | name :: names, offset, out => do
    let size ← direntSize32 name
    let room ← i32 (block - offset.tmod block)
    if offset.tmod block ≠ 0 ∧ room < size then do
      let out ← stretchLast out room
      let offset ← i32 (offset + room)
      let next ← i32 (offset + size)
      direntExtents32 names next (out ++ [(offset, size)])
    else do
      let next ← i32 (offset + size)
      direntExtents32 names next (out ++ [(offset, size)])

theorem i32_eq {n : Int} (h : -2 ^ 31 ≤ n ∧ n < 2 ^ 31) : i32 n = .ok n := if_pos h

theorem direntSize32_eq (h : size name ≤ 65519) : direntSize32 name = .ok (entrySize name : Nat) := by
  have hwrap : (size name : Int).bmod (2 ^ 32) = size name := Int.bmod_eq_of_le (by omega) (by omega)
  have hdiv : ((size name : Int) + 17 + 7).tdiv 8 = ((size name : Int) + 17 + 7) / 8 :=
    Int.tdiv_eq_ediv_of_nonneg (by omega)
  have hsize : ((size name : Int) + 17 + 7) / 8 * 8 = (entrySize name : Nat) := by
    rw [entrySize]
    omega
  have hle := entrySize_le h
  rw [block] at hle
  rw [direntSize32, hwrap, i32_eq (by omega), ok_bind, i32_eq (by omega), ok_bind, hdiv, hsize, i32_eq (by omega)]

theorem stretchLast_signed (h : Packed names ts stop) {room : Nat} (hroom : stop + room < 2 ^ 31) :
    stretchLast (signed ts) room = .ok (signed (Inner.stretch ts room)) := by
  rcases List.eq_nil_or_concat ts with rfl | ⟨init, last, rfl⟩
  · rfl
  · rw [List.concat_eq_append] at h ⊢
    have hlast := h.tiles.mem_le last (List.mem_append_right _ (List.mem_singleton_self last))
    have hone : signed [last] = [((last.1 : Int), (last.2 : Int))] := rfl
    rw [stretchLast, stretch_concat, signed_append, signed_append, hone, List.getLast?_concat, List.dropLast_concat]
    dsimp only
    rw [i32_eq (by omega), ok_bind]
    rfl

theorem direntExtents32_cons (h : Packed names ts stop) (hname : size name ≤ 65519)
    (hroom : (Inner.step ts stop name).2 < 2 ^ 31) (rest : List Text) :
    direntExtents32 (name :: rest) stop (signed ts) =
      direntExtents32 rest (Inner.step ts stop name).2 (signed (Inner.step ts stop name).1) := by
  have hmod : (stop : Int).tmod (block : Nat) = (stop % block : Nat) := Int.ofNat_tmod stop block
  have hleft : (block : Int) - (stop % block : Nat) = ((block - stop % block : Nat) : Int) := by
    rw [block]
    omega
  have hsmall : block - stop % block ≤ 0x10000 := Nat.sub_le _ _
  rw [Inner.step] at hroom ⊢
  rw [direntExtents32, direntSize32_eq hname, ok_bind, hmod, hleft, i32_eq (by omega), ok_bind]
  by_cases hcond : stop % block ≠ 0 ∧ block - stop % block < entrySize name
  · rw [if_pos hcond] at hroom ⊢
    dsimp only at hroom ⊢
    rw [if_pos ⟨by exact_mod_cast hcond.1, by exact_mod_cast hcond.2⟩, stretchLast_signed h (by omega), ok_bind,
      i32_eq (by omega), ok_bind, i32_eq (by omega), ok_bind, signed_append, Int.natCast_add, Int.natCast_add]
    rfl
  · rw [if_neg hcond] at hroom ⊢
    dsimp only at hroom ⊢
    rw [if_neg (fun h' => hcond ⟨by exact_mod_cast h'.1, by exact_mod_cast h'.2⟩), i32_eq (by omega), ok_bind,
      signed_append, Int.natCast_add]
    rfl

/-- **No sum overflows** in a directory below 2 GiB. -/
theorem direntExtents32_eq : ∀ (names : List Text) {done : List Text} {ts : List (Nat × Nat)} {stop : Nat},
    Packed done ts stop → (∀ name ∈ names, size name ≤ 65519) →
    (∀ ts' stop', direntExtents names stop (signed ts) = signed ts' → Packed (done ++ names) ts' stop' →
      stop' < 2 ^ 31) →
    direntExtents32 names stop (signed ts) = .ok (direntExtents names stop (signed ts))
  | [], _, _, _, _, _, _ => rfl
  | name :: names, done, ts, stop, h, hnames, htotal => by
    have hname := hnames name List.mem_cons_self
    have hrest : ∀ n ∈ names, size n ≤ 65519 := fun n hn => hnames n (List.mem_cons_of_mem name hn)
    have h' := h.step (entrySize_le hname)
    have hassoc : done ++ [name] ++ names = done ++ name :: names := by rw [List.append_assoc]; rfl
    obtain ⟨ts', stop', heq, hpacked, hle⟩ := direntExtents_packed names h' hrest
    have hlast := htotal ts' stop' ((direntExtents_cons ts stop name names).trans heq) (hassoc ▸ hpacked)
    rw [direntExtents32_cons h hname (by omega), direntExtents_cons]
    refine direntExtents32_eq names h' hrest fun ts'' stop'' heq' hpacked' => ?_
    exact htotal ts'' stop'' ((direntExtents_cons ts stop name names).trans heq') (hassoc ▸ hpacked')

/-! ## Writing and reading -/

/-- A directory entry: its name, its inode and its kind. -/
abbrev Entry := Text × UInt32 × Int8

/-- An entry's bytes over an extent. -/
def entryBytes (d : Entry) (e : Int × Int) : Bytes :=
  le 4 d.2.1.toNat ++ (leInt 4 d.2.2.toInt ++ (le 4 (size d.1) ++ (leInt 4 e.2 ++
    (bytes d.1 ++ List.replicate (e.2.toNat - 16 - size d.1) 0))))

/-- `dirents_bytes`, of entries of any kind. -/
def entriesBytes (dirents : List Entry) : Bytes :=
  (dirents.zip (direntExtents (dirents.map Prod.fst) 0 [])).flatMap fun (d, e) => entryBytes d e

/-- `i32::from_le_bytes` -/
def i32le (b : Bytes) (off : Nat) : Int := (leAt b off 4 : Int).bmod (2 ^ 32)

/-- The loop of `inner::walk` over a directory's entries. -/
def walkEntries (b : Bytes) (o : Nat) : List (Text × Nat × Int) :=
  if o + 16 ≤ b.length then
    let ino := leAt b o 4
    let kind := i32le b (o + 4)
    let nameLen := leAt b (o + 8) 4
    let entSize := leAt b (o + 12) 4
    if _h : entSize = 0 ∨ b.length < o + 16 + nameLen then []
    else (lossy ((b.drop (o + 16)).take nameLen), ino, kind) :: walkEntries b (o + entSize)
  else []
termination_by b.length - o
decreasing_by omega

variable {f : Bytes} {off : Nat} {t : Nat × Nat}

theorem leAt_of_holds {w v : Nat} (h : Holds f off (le w v)) : leAt f off w = v % 256 ^ w := by
  have htake := h.take_drop
  rw [length_le] at htake
  rw [leAt, htake, fromLe_le]

theorem fits_le (h : Fits name t) : t.2 ≤ block ∧ 16 + size name ≤ t.2 := by
  have hsize := h.size
  have hwhole := h.whole
  rw [entrySize] at hsize
  rw [block] at hwhole ⊢
  omega

theorem length_entryBytes {d : Entry} (h : Fits d.1 t) :
    (entryBytes d ((t.1 : Int), (t.2 : Int))).length = t.2 := by
  have hle := fits_le h
  simp only [entryBytes, leInt, List.length_append, length_le, length_bytes, List.length_replicate]
  omega

theorem holds_left {a b : Bytes} (h : Holds f off (a ++ b)) : Holds f off a := by
  obtain ⟨x, y, rfl, rfl⟩ := h
  exact ⟨x, b ++ y, by rw [List.append_assoc], rfl⟩

theorem holds_right {a b : Bytes} (h : Holds f off (a ++ b)) : Holds f (off + a.length) b := by
  obtain ⟨x, y, rfl, rfl⟩ := h
  exact ⟨x ++ a, y, by rw [List.append_assoc, List.append_assoc], List.length_append⟩

/-- A signed byte, widened and written with four. -/
theorem i32le_of_holds {k : Int8} (h : Holds f off (leInt 4 k.toInt)) : i32le f off = k.toInt := by
  have hlo := Int8.le_toInt k
  have hhi := Int8.toInt_lt k
  have hread : leAt f off 4 = (k.toInt % 256 ^ 4).toNat := by
    rw [leInt] at h
    rw [leAt_of_holds h]
    exact Nat.mod_eq_of_lt (by omega)
  refine (congrArg (fun n : Nat => (n : Int).bmod (2 ^ 32)) hread).trans ?_
  rw [Int.toNat_of_nonneg (by omega), Int.bmod_def]
  omega

/-- **An entry is read as it was written.** -/
theorem walkEntries_cons {d : Entry} (h : Fits d.1 t) (pre rest : Bytes) :
    walkEntries (pre ++ (entryBytes d ((t.1 : Int), (t.2 : Int)) ++ rest)) pre.length =
      (d.1, d.2.1.toNat, d.2.2.toInt) ::
        walkEntries (pre ++ (entryBytes d ((t.1 : Int), (t.2 : Int)) ++ rest)) (pre.length + t.2) := by
  have hle := fits_le h
  rw [block] at hle
  have hlen := length_entryBytes h
  have hentry := Holds.of_append pre (entryBytes d ((t.1 : Int), (t.2 : Int))) rest
  generalize pre ++ (entryBytes d ((t.1 : Int), (t.2 : Int)) ++ rest) = f at hentry ⊢
  have hroom := hentry.le_length
  rw [hlen] at hroom
  rw [entryBytes] at hentry
  -- the four numbers, then the name
  have h₁ := holds_right hentry
  have h₂ := holds_right h₁
  have h₃ := holds_right h₂
  have h₄ := holds_right h₃
  simp only [leInt, length_le] at h₁ h₂ h₃ h₄
  have hino : leAt f pre.length 4 = d.2.1.toNat := by
    rw [leAt_of_holds (holds_left hentry)]
    exact Nat.mod_eq_of_lt d.2.1.toNat_lt
  have hkind : i32le f (pre.length + 4) = d.2.2.toInt := i32le_of_holds (holds_left h₁)
  have hname : leAt f (pre.length + 8) 4 = size d.1 := by
    have := leAt_of_holds (holds_left h₂)
    rw [Nat.add_assoc] at this
    rw [this]
    exact Nat.mod_eq_of_lt (by omega)
  have hsize : leAt f (pre.length + 12) 4 = t.2 := by
    have := leAt_of_holds (holds_left h₃)
    rw [Nat.add_assoc, Nat.add_assoc] at this
    rw [this]
    omega
  have htext : (f.drop (pre.length + 16)).take (size d.1) = bytes d.1 := by
    have := (holds_left h₄).take_drop
    rw [length_bytes, Nat.add_assoc, Nat.add_assoc, Nat.add_assoc] at this
    exact this
  rw [walkEntries, if_pos (by omega)]
  dsimp only
  rw [hname, hsize, htext, hino, hkind, lossy_bytes, dif_neg (by omega)]

theorem fromLe_zeros (n : Nat) : fromLe (List.replicate n 0) = 0 := by
  induction n with
  | zero => rfl
  | succ n ih =>
    rw [List.replicate_succ, fromLe, ih]
    rfl

/-- Zeros end the loop. -/
theorem walkEntries_zeros (pre : Bytes) (pad : Nat) : walkEntries (pre ++ List.replicate pad 0) pre.length = [] := by
  rw [walkEntries]
  split
  · have hsize : leAt (pre ++ List.replicate pad 0) (pre.length + 12) 4 = 0 := by
      rw [leAt_append _ _ (Nat.le_add_right _ _), leAt, List.drop_replicate, List.take_replicate, fromLe_zeros]
    dsimp only
    rw [dif_pos (Or.inl hsize)]
  · rfl

/-- **The entries are read as they were written**, whatever stands before them. -/
theorem walkEntries_bytes {ds : List Entry} {ts : List (Nat × Nat)}
    (h : List.Forall₂ (fun d t => Fits d.1 t) ds ts) (pad : Nat) : ∀ pre : Bytes,
    walkEntries (pre ++ ((ds.zip (signed ts)).flatMap (fun (d, e) => entryBytes d e) ++ List.replicate pad 0))
      pre.length = ds.map fun d => (d.1, d.2.1.toNat, d.2.2.toInt) := by
  induction h with
  | nil => exact fun pre => walkEntries_zeros pre pad
  | @cons d t ds ts hfits _ ih =>
    intro pre
    have hzip : ((d :: ds).zip (signed (t :: ts))).flatMap (fun (d, e) => entryBytes d e) =
        entryBytes d ((t.1 : Int), (t.2 : Int)) ++ (ds.zip (signed ts)).flatMap (fun (d, e) => entryBytes d e) := rfl
    have hrest := ih (pre ++ entryBytes d ((t.1 : Int), (t.2 : Int)))
    rw [List.length_append, length_entryBytes hfits, List.append_assoc] at hrest
    rw [hzip, List.append_assoc, walkEntries_cons hfits, hrest, List.map_cons]

theorem length_entriesFlat {ds : List Entry} {ts : List (Nat × Nat)}
    (h : List.Forall₂ (fun d t => Fits d.1 t) ds ts) :
    ((ds.zip (signed ts)).flatMap fun (d, e) => entryBytes d e).length = (ts.map Prod.snd).sum := by
  induction h with
  | nil => rfl
  | @cons d t ds ts hfits _ ih =>
    have hzip : ((d :: ds).zip (signed (t :: ts))).flatMap (fun (d, e) => entryBytes d e) =
        entryBytes d ((t.1 : Int), (t.2 : Int)) ++ (ds.zip (signed ts)).flatMap (fun (d, e) => entryBytes d e) := rfl
    rw [hzip, List.length_append, ih, length_entryBytes hfits, List.map_cons, List.sum_cons]

/-- The length of a directory. -/
def direntsTotal (names : List Text) : Int := ((direntExtents names 0 []).map Prod.snd).sum

theorem sum_signed (ts : List (Nat × Nat)) : ((signed ts).map Prod.snd).sum = ((ts.map Prod.snd).sum : Nat) := by
  induction ts with
  | nil => rfl
  | cons t ts ih =>
    have hcons : (signed (t :: ts)).map Prod.snd = (t.2 : Int) :: (signed ts).map Prod.snd := rfl
    rw [hcons, List.sum_cons, ih, List.map_cons, List.sum_cons, Int.natCast_add]

/-- What the entries of a directory below 2 GiB owe to their names. -/
structure Whole (ds : List Entry) (ts : List (Nat × Nat)) : Prop where
  /-- No sum overflows. -/
  extents : direntExtents32 (ds.map Prod.fst) 0 [] = .ok (signed ts)
  /-- The extents follow one another from 0 to the end of what is written; each is in one block. -/
  packed : Packed (ds.map Prod.fst) ts (entriesBytes ds).length
  /-- A reader finds the entries, whatever zeros follow. -/
  read : ∀ pad, walkEntries (entriesBytes ds ++ List.replicate pad 0) 0 =
    ds.map fun d => (d.1, d.2.1.toNat, d.2.2.toInt)

/-- **No directory entry crosses a block**, and every one is read back. -/
theorem dirents_whole {ds : List Entry} (hnames : ∀ d ∈ ds, size d.1 ≤ 65519)
    (htotal : direntsTotal (ds.map Prod.fst) < 2 ^ 31) : ∃ ts, Whole ds ts := by
  have hnames' : ∀ name ∈ ds.map Prod.fst, size name ≤ 65519 := fun name hname => by
    obtain ⟨d, hd, rfl⟩ := List.mem_map.1 hname
    exact hnames d hd
  have hstart : Packed [] [] 0 := ⟨rfl, .nil⟩
  obtain ⟨ts, stop, heq, hpacked, -⟩ := direntExtents_packed (ds.map Prod.fst) hstart hnames'
  have heq : direntExtents (ds.map Prod.fst) 0 [] = signed ts := heq
  have hstop : 0 + (ts.map Prod.snd).sum = stop := hpacked.tiles.sum_eq
  rw [Nat.zero_add] at hstop
  have hfits : List.Forall₂ (fun d t => Fits d.1 t) ds ts := List.forall₂_map_left_iff.1 hpacked.fits
  have hbytes : entriesBytes ds = (ds.zip (signed ts)).flatMap fun (d, e) => entryBytes d e := by
    rw [entriesBytes, heq]
  have hlen : (entriesBytes ds).length = stop := by rw [hbytes, length_entriesFlat hfits, hstop]
  refine ⟨ts, ?_, hlen ▸ hpacked, fun pad => ?_⟩
  · have hsmall : ∀ ts' stop', direntExtents (ds.map Prod.fst) 0 [] = signed ts' →
        Packed ([] ++ ds.map Prod.fst) ts' stop' → stop' < 2 ^ 31 := fun ts' stop' heq' hpacked' => by
      have hstop' : 0 + (ts'.map Prod.snd).sum = stop' := hpacked'.tiles.sum_eq
      rw [direntsTotal, heq', sum_signed] at htotal
      omega
    exact (direntExtents32_eq (ds.map Prod.fst) hstart hnames' hsmall).trans (congrArg Except.ok heq)
  · have := walkEntries_bytes hfits pad []
    rw [hbytes]
    exact this

/-- The entries of these two names have no room in one block together, so the first is stretched. -/
theorem direntExtents_long {a b : Text} (ha : size a = 40000) (hb : size b = 30000) :
    direntExtents [['.'], a, b] 0 [] = [(0, 24), (24, 65512), (65536, 30024)] := by
  have hdot : direntSize ['.'] = 24 := by decide
  have ha : direntSize a = 40024 := by rw [direntSize, ha]; decide
  have hb : direntSize b = 30024 := by rw [direntSize, hb]; decide
  simp only [direntExtents, hdot, ha, hb]
  decide

/-- They are packed and read back whole. -/
theorem dirents_whole_long : ∃ ts, Whole
    [(['.'], 4, 4), (List.replicate 40000 'a', 5, 3), (List.replicate 30000 'b', 6, 3)] ts := by
  have hsize : ∀ (n : Nat) (c : Char), size (List.replicate n c) = n * c.utf8Size := fun n c => by
    rw [size, List.map_replicate, List.sum_replicate_nat]
  have ha : size (List.replicate 40000 'a') = 40000 := hsize 40000 'a'
  have hb : size (List.replicate 30000 'b') = 30000 := hsize 30000 'b'
  generalize List.replicate 40000 'a' = a at ha ⊢
  generalize List.replicate 30000 'b' = b at hb ⊢
  refine dirents_whole (fun d hd => ?_) ?_
  · simp only [List.mem_cons, List.not_mem_nil, or_false] at hd
    rcases hd with rfl | rfl | rfl
    · decide
    · exact ha ▸ by decide
    · exact hb ▸ by decide
  · rw [direntsTotal, List.map_cons, List.map_cons, List.map_cons, List.map_nil, direntExtents_long ha hb]
    decide

end Ps5Upload.Inner
