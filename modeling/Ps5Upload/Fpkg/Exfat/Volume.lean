import Ps5Upload.Lib.Caching
import Ps5Upload.Lib.Fields

/-!
# exFAT: opening a volume and reading its table

`find_volume`, `ExFat::from_file`, `check_cluster`, `fat_slots` and `fat_link` of
`ps5upload-fpkg/src/exfat.rs`, with the arithmetic of `u32` and `u64` checked.  The image is
untrusted: the volume may lie in a partition of an MBR or GPT table, and every offset is read from
the bytes.

* `from_file_sound` — what the checks of `from_file` leave of a volume that opens;
* `fatLink_computes` — a slot read from the table held in memory and one read from the image on its
  own say the same, and holding the table changes nothing else.
-/

namespace Ps5Upload.Exfat

open ByteFile Checked Caching

abbrev Res (α : Type) := Checked.Res String α

/-! ## The image -/

/-- Bytes of a file: no file is longer than a signed 64-bit offset reaches. -/
structure Image where
  bytes : Bytes
  fits : bytes.length < 2 ^ 63
  deriving DecidableEq

namespace Image

def len (img : Image) : Nat := img.bytes.length

theorem len_lt (img : Image) : img.len < 2 ^ 63 := img.fits

end Image

def hex (n : Nat) : String := "0x" ++ String.ofList (Nat.toDigits 16 n)

/-- Exactly `len` bytes at `off`, or an error if the file is shorter. -/
def readAt (img : Image) (off len : Nat) : Res Bytes :=
  if 2 ^ 64 ≤ off + len ∨ img.len < off + len then
    fail s!"read of {len} bytes at {hex off} past end {hex img.len}"
  else .ok ((img.bytes.drop off).take len)

theorem readAt_eq {img : Image} {off len : Nat} (h : off + len ≤ img.len) :
    readAt img off len = .ok ((img.bytes.drop off).take len) := by
  have hlen := img.len_lt
  rw [readAt, if_neg (by omega)]

theorem readAt_past {img : Image} {off len : Nat} (h : img.len < off + len) :
    ∃ e, readAt img off len = fail e := by
  rw [readAt, if_pos (Or.inr h)]
  exact ⟨_, rfl⟩

theorem readAt_ok {img : Image} {off len : Nat} {bs : Bytes} (h : readAt img off len = .ok bs) :
    off + len ≤ img.len ∧ bs = (img.bytes.drop off).take len := by
  by_cases hle : off + len ≤ img.len
  · rw [readAt_eq hle] at h
    exact ⟨hle, (Except.ok.inj h).symm⟩
  · obtain ⟨e, he⟩ := readAt_past (by omega : img.len < off + len)
    rw [he] at h
    cases h

theorem length_of_readAt {img : Image} {off len : Nat} {bs : Bytes}
    (h : readAt img off len = .ok bs) : bs.length = len := by
  obtain ⟨hle, rfl⟩ := readAt_ok h
  rw [Image.len] at hle
  rw [List.length_take, List.length_drop]
  omega

theorem readAt_cases (img : Image) (off len : Nat) :
    (∃ bs, readAt img off len = .ok bs) ∨ ∃ e, readAt img off len = fail e := by
  by_cases hle : off + len ≤ img.len
  · exact Or.inl ⟨_, readAt_eq hle⟩
  · exact Or.inr (readAt_past (by omega))

theorem safe_readAt (img : Image) (off len : Nat) :
    Safe (fun bs => bs.length = len ∧ off + len ≤ img.len) (readAt img off len) := by
  rcases readAt_cases img off len with ⟨bs, h⟩ | ⟨e, h⟩
  · rw [h]
    exact ⟨length_of_readAt h, (readAt_ok h).1⟩
  · rw [h]
    exact safe_fail e

/-! ## Where the volume starts -/

def oem : Bytes := "EXFAT   ".toUTF8.toList

def efiPart : Bytes := "EFI PART".toUTF8.toList

/-- The Microsoft basic-data GUID a GPT partition table gives an exFAT volume. -/
def basicDataGuid : Bytes :=
  [0x28, 0x73, 0x2A, 0xC1, 0x1F, 0xF8, 0xD2, 0x11, 0xBA, 0x4B, 0x00, 0xA0, 0xC9, 0x3E, 0xC9, 0x3C]

/-- The first sector of the first MBR partition that may hold the volume. -/
def mbrFirst (head : Bytes) : List Nat → Res (Option Nat)
  | [] => .ok none
  | i :: is => do
    let e ← slice head (0x1BE + 16 * i) (0x1BE + 16 * (i + 1))
    let kind ← index e 4
    if kind = 0x07 then do
      let lba ← field e 8 4
      if 0 < lba then .ok (some lba) else mbrFirst head is
    else mbrFirst head is

/-- The first sector of the first GPT partition of the basic-data type, among `left` entries from
the `i`-th on. -/
def gptFirst (img : Image) (entriesLba size : Nat) : Nat → Nat → Res (Option Nat)
  | _, 0 => .ok none
  | i, left + 1 =>
    -- an entry past the range of offsets, or past the image, ends the search
    if 2 ^ 64 ≤ entriesLba * 512 ∨ 2 ^ 64 ≤ entriesLba * 512 + i * size then .ok none
    else match readAt img (entriesLba * 512 + i * size) size with
      | .error (.error _) => .ok none
      | .error .panic => panic
      | .ok entry => do
        let guid ← slice entry 0 16
        if guid = basicDataGuid then do
          let first ← field entry 32 8
          if 0 < first then .ok (some first) else gptFirst img entriesLba size (i + 1) left
        else gptFirst img entriesLba size (i + 1) left

/-- The partition a GPT table gives the volume. -/
def gptSearch (img : Image) : Res (Option Nat) :=
  if img.len < 1024 then .ok none
  else do
    let gpt ← readAt img 512 512
    let signature ← slice gpt 0 8
    if signature = efiPart then do
      let entriesLba ← field gpt 72 8
      let count ← field gpt 80 4
      let size ← field gpt 84 4
      if 128 ≤ size ∧ size ≤ 4096 then gptFirst img entriesLba size 0 (min count 128)
      else .ok none
    else .ok none

/-- The partition an MBR table gives the volume. -/
def mbrSearch (head : Bytes) : Res (Option Nat) := do
  let signature ← slice head 510 512
  if signature = [0x55, 0xAA] then mbrFirst head [0, 1, 2, 3] else .ok none

/-- Where the exFAT volume starts: the image itself, an MBR partition, or a GPT partition of the
basic-data type. -/
def findVolume (img : Image) : Res Nat :=
  if img.len < 512 then fail "the image is smaller than one sector"
  else do
    let head ← readAt img 0 512
    let tag ← slice head 3 11
    if tag = oem then .ok 0
    else do
      match ← mbrSearch head with
      | some lba => mul 64 lba 512
      | none =>
        match ← gptSearch img with
        | some first => mul 64 first 512
        | none => fail "the image holds no exFAT volume (raw, MBR or GPT)"

/-! ## The volume -/

/-- Where the volume lives and how it is shaped. -/
structure Geometry where
  volumeOffset : Nat
  sectorSize : Nat
  clusterSize : Nat
  clusterCount : Nat
  deriving DecidableEq, Repr

/-- What `ExFat` holds and never changes. -/
structure Volume where
  file : Image
  geom : Geometry
  fatOffset : Nat
  heapOffset : Nat
  rootCluster : Nat
  deriving DecidableEq

/-- What `ExFat` changes as it reads: the table once it was read whole, and where the last read of a
chained stream stopped (its first cluster, the cluster index reached and that cluster). -/
structure Held where
  fat : Option (List Nat)
  cursor : Option (Nat × Nat × Nat)
  deriving DecidableEq, Repr

abbrev Reading (α : Type) := Act Held String α

def Held.fresh : Held := ⟨none, none⟩

/-- A table bigger than this is read one slot at a time. -/
def maxCachedFatBytes : Nat := 512 * 2 ^ 20

/-- Values of a slot at or above this mark the end of a chain. -/
def fatEoc : Nat := 0xFFFFFFF7

/-- The refusal of a cluster outside the volume. -/
def outside (v : Volume) (cluster : Nat) : String :=
  s!"cluster {cluster} is outside the volume's {v.geom.clusterCount} clusters"

def checkCluster (v : Volume) (cluster : Nat) : Res Unit :=
  if cluster < 2 then fail (outside v cluster)
  else do
    let past ← add 32 v.geom.clusterCount 2
    if past ≤ cluster then fail (outside v cluster) else .ok ()

/-- The volume in `file`; `label` names it in errors. -/
def fromFile (file : Image) (label : String) : Res Volume := do
  let volumeOffset ← findVolume file
  let boot ← readAt file volumeOffset 512
  let tag ← slice boot 3 11
  if tag ≠ oem then fail s!"{label} +{hex volumeOffset} is not an exFAT volume"
  else do
    let sectorShift ← field boot 108 1
    let clusterShift ← field boot 109 1
    if ¬(9 ≤ sectorShift ∧ sectorShift ≤ 12) then
      fail s!"exFAT sector shift {sectorShift} is out of range"
    -- the specification caps a cluster at 32 MiB
    else if 25 < clusterShift ∨ 25 < sectorShift + clusterShift then
      fail s!"exFAT cluster shift {clusterShift} is out of range for {2 ^ sectorShift}-byte sectors"
    else do
      let sectorSize ← shl 64 1 sectorShift
      let clusterSize ← shl 64 sectorSize clusterShift
      let fatSectors ← field boot 80 4
      let fatBytes ← mul 64 fatSectors sectorSize
      let fatOffset ← add 64 volumeOffset fatBytes
      let heapSectors ← field boot 88 4
      let heapBytes ← mul 64 heapSectors sectorSize
      let heapOffset ← add 64 volumeOffset heapBytes
      let clusterCount ← field boot 92 4
      let rootCluster ← field boot 96 4
      if clusterCount < 2 then fail s!"exFAT declares {clusterCount} clusters"
      else do
        let bytes ← mul 64 clusterCount clusterSize
        -- a sum past the range of offsets saturates
        let heapEnd := min (heapOffset + bytes) (2 ^ 64 - 1)
        if file.len < heapEnd then
          fail s!"exFAT heap ends at {hex heapEnd}, past the image's {hex file.len}"
        else if file.len ≤ fatOffset then
          fail s!"exFAT FAT at {hex fatOffset} is past the image"
        else do
          let this : Volume :=
            ⟨file, ⟨volumeOffset, sectorSize, clusterSize, clusterCount⟩, fatOffset, heapOffset,
              rootCluster⟩
          checkCluster this rootCluster
          return this

/-- The size of a cluster whose two shifts passed the checks. -/
theorem clusterSize_bounds {ss cs a b : Nat} (hss : ¬¬(9 ≤ ss ∧ ss ≤ 12))
    (hcs : ¬(25 < cs ∨ 25 < ss + cs)) (ha : (shl 64 1 ss : Res Nat) = .ok a)
    (hb : (shl 64 a cs : Res Nat) = .ok b) : 512 ≤ b ∧ b ≤ 2 ^ 25 := by
  have hsum : ss + cs ≤ 25 := by omega
  have hpow : 2 ^ (ss + cs) ≤ 2 ^ 25 := Nat.pow_le_pow_right (by omega) hsum
  rw [shl_eq (by omega), Nat.one_shiftLeft, Nat.mod_eq_of_lt] at ha
  · cases ha
    rw [shl_eq (by omega), Nat.shiftLeft_eq, ← pow_add, Nat.mod_eq_of_lt (by omega)] at hb
    cases hb
    have : 2 ^ 9 ≤ 2 ^ (ss + cs) := Nat.pow_le_pow_right (by omega) (by omega)
    exact ⟨by omega, hpow⟩
  · exact Nat.pow_lt_pow_right (by omega) (by omega)

/-- What the checks of `from_file` leave. -/
structure Volume.Sound (v : Volume) : Prop where
  cluster_ge : 512 ≤ v.geom.clusterSize
  cluster_le : v.geom.clusterSize ≤ 2 ^ 25
  count_ge : 2 ≤ v.geom.clusterCount
  count_lt : v.geom.clusterCount + 2 < 2 ^ 32
  heap_le : v.heapOffset + v.geom.clusterCount * v.geom.clusterSize ≤ v.file.len
  fat_lt : v.fatOffset < v.file.len
  root_ge : 2 ≤ v.rootCluster
  root_lt : v.rootCluster < v.geom.clusterCount + 2

def Volume.Inside (v : Volume) (cluster : Nat) : Prop :=
  2 ≤ cluster ∧ cluster < v.geom.clusterCount + 2

instance (v : Volume) (cluster : Nat) : Decidable (v.Inside cluster) :=
  inferInstanceAs (Decidable (_ ∧ _))

theorem checkCluster_ok {v : Volume} {cluster : Nat} (h : checkCluster v cluster = .ok ()) :
    v.Inside cluster ∧ v.geom.clusterCount + 2 < 2 ^ 32 := by
  unfold checkCluster at h
  split at h
  · cases h
  · rename_i hge
    obtain ⟨past, hpast, h⟩ := bind_eq_ok.1 h
    obtain ⟨rfl, hlt⟩ := add_ok hpast
    split at h
    · cases h
    · rename_i hle
      exact ⟨⟨by omega, by omega⟩, hlt⟩

theorem from_file_sound {file : Image} {label : String} {v : Volume}
    (h : fromFile file label = .ok v) : v.Sound := by
  unfold fromFile at h
  obtain ⟨off, -, h⟩ := bind_eq_ok.1 h
  obtain ⟨boot, -, h⟩ := bind_eq_ok.1 h
  obtain ⟨tag, -, h⟩ := bind_eq_ok.1 h
  split at h
  · cases h
  obtain ⟨ss, -, h⟩ := bind_eq_ok.1 h
  obtain ⟨cs, -, h⟩ := bind_eq_ok.1 h
  split at h
  · cases h
  rename_i hss
  split at h
  · cases h
  rename_i hcs
  obtain ⟨sectorSize, hsector, h⟩ := bind_eq_ok.1 h
  obtain ⟨clusterSize, hcluster, h⟩ := bind_eq_ok.1 h
  obtain ⟨fatSectors, -, h⟩ := bind_eq_ok.1 h
  obtain ⟨fatBytes, -, h⟩ := bind_eq_ok.1 h
  obtain ⟨fatOffset, -, h⟩ := bind_eq_ok.1 h
  obtain ⟨heapSectors, -, h⟩ := bind_eq_ok.1 h
  obtain ⟨heapBytes, -, h⟩ := bind_eq_ok.1 h
  obtain ⟨heapOffset, -, h⟩ := bind_eq_ok.1 h
  obtain ⟨count, -, h⟩ := bind_eq_ok.1 h
  obtain ⟨root, -, h⟩ := bind_eq_ok.1 h
  split at h
  · cases h
  rename_i hcount
  obtain ⟨bytes, hbytes, h⟩ := bind_eq_ok.1 h
  obtain ⟨rfl, -⟩ := mul_ok hbytes
  dsimp only at h
  split at h
  · cases h
  rename_i hend
  split at h
  · cases h
  rename_i hfat
  obtain ⟨⟨⟩, hroot, h⟩ := bind_eq_ok.1 h
  obtain ⟨hinside, hlt⟩ := checkCluster_ok hroot
  cases h
  dsimp only [Volume.Inside] at hinside hlt
  have hsize := clusterSize_bounds hss hcs hsector hcluster
  have hlen := file.len_lt
  refine ⟨hsize.1, hsize.2, ?_, hlt, ?_, ?_, hinside.1, hinside.2⟩ <;> dsimp only <;> omega

/-! ## The table -/

/-- What one slot says. -/
inductive FatLink where
  | next (cluster : Nat)
  | endOfChain
  | unmaintained
  deriving DecidableEq, Repr

/-- The numbers of four bytes, one after another. -/
def words (raw : Bytes) : List Nat := (List.range (raw.length / 4)).map fun i => leAt raw (4 * i) 4

/-- The whole table, read on first use; `none` when it is too big to hold. -/
def fatSlots (v : Volume) : Reading (Option (List Nat)) := look fun s =>
  match s.fat with
  | some fat => pure (some fat)
  | none => do
    let slots ← lift (add 64 v.geom.clusterCount 2)
    let bytes ← lift (mul 64 slots 4)
    if maxCachedFatBytes < bytes then pure none
    else do
      let fatEnd ← lift (add 64 v.fatOffset bytes)
      if v.file.len < fatEnd then pure none
      else do
        let raw ← lift (readAt v.file v.fatOffset bytes)
        change fun s => { s with fat := some (words raw) }
        pure (some (words raw))

/-- A cluster's slot, from the table held or from the image. -/
def fatValue (v : Volume) (cluster : Nat) : Reading Nat := do
  match ← fatSlots v with
  | some fat => pure (fat[cluster]?.getD 0)
  | none => lift do
    let step ← mul 64 4 cluster
    let at_ ← add 64 v.fatOffset step
    let raw ← readAt v.file at_ 4
    return fromLe raw

/-- A successor in the heap, an end mark, or a slot the image never filled in (zero, or a number
outside the heap). -/
def classify (v : Volume) (n : Nat) : Res FatLink := do
  let past ← add 32 v.geom.clusterCount 2
  if 2 ≤ n ∧ n < past ∧ n < fatEoc then return .next n
  else if n = 0 ∨ n = 1 then return .unmaintained
  else if fatEoc ≤ n then return .endOfChain
  else return .unmaintained

/-- What the table says about a cluster. -/
def fatLink (v : Volume) (cluster : Nat) : Reading FatLink := do
  let n ← fatValue v cluster
  lift (classify v n)

/-- The next cluster of a chained stream, or `none` at its end. -/
def nextCluster (v : Volume) (cluster : Nat) : Reading (Option Nat) := do
  match ← fatLink v cluster with
  | .next n => pure (some n)
  | _ => pure none

/-! ## The table without a state -/

/-- The table is small enough to hold, and inside the image. -/
def Volume.FatHeld (v : Volume) : Prop :=
  (v.geom.clusterCount + 2) * 4 ≤ maxCachedFatBytes ∧
    v.fatOffset + (v.geom.clusterCount + 2) * 4 ≤ v.file.len

instance (v : Volume) : Decidable v.FatHeld := inferInstanceAs (Decidable (_ ∧ _))

/-- The slot of a cluster in a table inside the image. -/
def Volume.slotIn (v : Volume) (cluster : Nat) : Nat :=
  if cluster < v.geom.clusterCount + 2 then leAt v.file.bytes (v.fatOffset + 4 * cluster) 4 else 0

/-- The slot of a cluster. -/
def Volume.slot (v : Volume) (cluster : Nat) : Res Nat :=
  if v.FatHeld then .ok (v.slotIn cluster)
  else do
    let raw ← readAt v.file (v.fatOffset + 4 * cluster) 4
    return fromLe raw

/-- What the slot of a cluster says. -/
def Volume.link (v : Volume) (cluster : Nat) : Res FatLink := do
  let n ← v.slot cluster
  classify v n

/-- The cluster a cluster's slot leads to: none at an end, at a slot never filled in, or at one that
cannot be read. -/
def Volume.follow (v : Volume) (cluster : Nat) : Option Nat :=
  match v.link cluster with
  | .ok (.next n) => some n
  | _ => none

/-- `n` links from a cluster on. -/
def Volume.followMany (v : Volume) : Nat → Nat → Option Nat
  | 0, cluster => some cluster
  | n + 1, cluster => (v.follow cluster).bind (v.followMany n)

/-- The state says what the image says: the table is the image's, the cursor on its chain. -/
structure Volume.Keeps (v : Volume) (s : Held) : Prop where
  fat : ∀ fat, s.fat = some fat →
    v.FatHeld ∧ ∀ c, fat[c]?.getD 0 = v.slotIn c
  cursor : ∀ f i c, s.cursor = some (f, i, c) → c < 2 ^ 32 ∧ v.followMany i f = some c

theorem keeps_fresh (v : Volume) : v.Keeps Held.fresh := ⟨by nofun, by nofun⟩

/-- The words of a table inside the image are its slots. -/
theorem words_slotIn {v : Volume} {raw : Bytes} (c : Nat)
    (h : readAt v.file v.fatOffset ((v.geom.clusterCount + 2) * 4) = .ok raw) :
    (words raw)[c]?.getD 0 = v.slotIn c := by
  obtain ⟨-, hraw⟩ := readAt_ok h
  have hlen := length_of_readAt h
  have hcount : raw.length / 4 = v.geom.clusterCount + 2 := by omega
  rw [words, hcount, Volume.slotIn]
  by_cases hc : c < v.geom.clusterCount + 2
  · rw [if_pos hc, List.getElem?_map, List.getElem?_range hc, Option.map_some, Option.getD_some,
      hraw, leAt, leAt, List.drop_take, List.take_take, List.drop_drop, Nat.min_eq_left (by omega)]
  · rw [if_neg hc, List.getElem?_eq_none (by simp; omega)]
    rfl

section Links

variable {v : Volume} (hv : v.Sound)
include hv

/-- The table held, where it can be held, and nothing where it cannot. -/
theorem fatSlots_returns : Returns v.Keeps (fatSlots v) fun r =>
    (∃ fat, r = .ok (some fat) ∧ v.FatHeld ∧ ∀ c, fat[c]?.getD 0 = v.slotIn c) ∨
    (r = .ok none ∧ ¬v.FatHeld) := by
  have hcount := hv.count_lt
  have hoff := hv.fat_lt
  have hlen := v.file.len_lt
  intro s hs
  unfold fatSlots
  rw [exec_look]
  cases hfat : s.fat with
  | some fat => exact ⟨Or.inl ⟨fat, rfl, hs.fat fat hfat⟩, hs⟩
  | none =>
    dsimp only
    rw [add_eq (by omega), exec_bind, exec_lift]
    dsimp only
    rw [mul_eq (by omega), exec_bind, exec_lift]
    dsimp only
    split
    · rename_i hbig
      exact ⟨Or.inr ⟨rfl, fun h => absurd h.1 (by omega)⟩, hs⟩
    · rename_i hsmall
      rw [add_eq (by omega), exec_bind, exec_lift]
      dsimp only
      split
      · rename_i hpast
        exact ⟨Or.inr ⟨rfl, fun h => absurd h.2 (by omega)⟩, hs⟩
      · rename_i hin
        have hheld : v.FatHeld := ⟨by omega, by omega⟩
        have hraw := readAt_eq hheld.2
        have hslots := fun c => words_slotIn c hraw
        rw [hraw, exec_bind, exec_lift]
        refine ⟨Or.inl ⟨_, rfl, hheld, hslots⟩, fun fat h => ?_, hs.cursor⟩
        cases h
        exact ⟨hheld, hslots⟩

/-- **A slot is a slot**: from the table or from the image. -/
theorem fatValue_computes {c : Nat} (hc : c < 2 ^ 32) : Computes v.Keeps (fatValue v c) (v.slot c) := by
  have hoff := hv.fat_lt
  have hlen := v.file.len_lt
  refine Returns.bind (fatSlots_returns hv) (fun r hr => ?_) fun e he => ?_
  · rcases hr with ⟨fat, hr, hheld, hslot⟩ | ⟨hr, hheld⟩
    · cases hr
      rw [Volume.slot, if_pos hheld, ← hslot c]
      exact computes_pure _
    · cases hr
      rw [Volume.slot, if_neg hheld]
      dsimp only
      rw [mul_eq (by omega), ok_bind, add_eq (by omega), ok_bind]
      exact computes_lift _
  · rcases he with ⟨fat, he, -⟩ | ⟨he, -⟩ <;> cases he

theorem fatLink_computes {c : Nat} (hc : c < 2 ^ 32) : Computes v.Keeps (fatLink v c) (v.link c) :=
  Computes.bind (fatValue_computes hv hc) fun _ _ => computes_lift _

end Links

end Ps5Upload.Exfat
