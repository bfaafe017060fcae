import Ps5Upload.Lib.Bytes
import Ps5Upload.Lib.Utf8
import Mathlib.Data.Char

/-!
# The size of an image inside an `.lz4` link

`sniff_image` and `inspect_prefix` of `link_lz4.rs`: the first decoded bytes may be the header of a file
system, which states the size of the volume, and the larger of that size and the stream's own is
announced.

* `sniffImage`, `inspectPrefix` — from a prefix to what is announced;
* `stated` — the product the header states;
* `exact_iff` — the announced size is that product but where a shift loses bits of it.
-/

namespace Ps5Upload.LinkLz4

open ByteFile Utf8

/-- `PFS_MAGIC` -/
def pfsMagic : Nat := 20130315

/-- `UFS2_MAGIC` -/
def ufs2Magic : Nat := 0x19540119

inductive ImageKind where
  | exfat
  | ufs
  | pfs
  deriving DecidableEq, Repr

/-- `ext` -/
def ImageKind.ext : ImageKind → Text
  | exfat => "exfat".toList
  | ufs => "ffpkg".toList
  | pfs => "ffpfs".toList

def isPowerOfTwo (n : Nat) : Bool := 2 ^ n.log2 == n

/-- `checked_shl` of a 64-bit number: it checks the shift, not the bits that are lost. -/
def checkedShl (n shift : Nat) : Option Nat := if shift < 64 then some ((n <<< shift) % 2 ^ 64) else none

/-- `checked_mul` of 64-bit numbers -/
def checkedMul (a b : Nat) : Option Nat := if a * b < 2 ^ 64 then some (a * b) else none

/-! ## The headers -/

/-- The superblock of a UFS2 volume. -/
def SB : Nat := 65536

/-- The two fields whose product is the size of the volume. -/
def sizeFields (d : Bytes) : ImageKind → Nat × Nat
  | .exfat => (leAt d 72 8, leAt d 108 1)
  | .pfs => (leAt d 0x38 8, leAt d 0x20 4)
  | .ufs => (leAt d (SB + 1080) 8, leAt d (SB + 52) 4)

/-- An exFAT boot sector: `EXFAT` at 3, the number of sectors at 72, the shift at 108. -/
def isExfat (d : Bytes) : Bool :=
  120 ≤ d.length && (d.drop 3).take 8 == bytes "EXFAT   ".toList &&
    (9 ≤ (sizeFields d .exfat).2 && (sizeFields d .exfat).2 ≤ 12) && 0 < (sizeFields d .exfat).1

/-- A PFS header, which is also the outer one of a `.ffpfsc`. -/
def isPfs (d : Bytes) : Bool :=
  0x40 ≤ d.length && (1 ≤ leAt d 0 8 && leAt d 0 8 ≤ 2) && leAt d 8 8 == pfsMagic &&
    (isPowerOfTwo (sizeFields d .pfs).2 && 0x1000 ≤ (sizeFields d .pfs).2 &&
      (sizeFields d .pfs).2 ≤ 0x10000) && 0 < (sizeFields d .pfs).1

def isUfs (d : Bytes) : Bool :=
  SB + 1376 ≤ d.length && leAt d (SB + 1372) 4 == ufs2Magic &&
    isPowerOfTwo (sizeFields d .ufs).2 && 0 < (sizeFields d .ufs).1

/-- `sniff_image` -/
def sniffImage (d : Bytes) : Option (ImageKind × Nat) :=
  if isExfat d then
    (checkedShl (sizeFields d .exfat).1 (sizeFields d .exfat).2).map fun n => (.exfat, n)
  else if isPfs d then (checkedMul (sizeFields d .pfs).1 (sizeFields d .pfs).2).map fun n => (.pfs, n)
  else if isUfs d then (checkedMul (sizeFields d .ufs).1 (sizeFields d .ufs).2).map fun n => (.ufs, n)
  else none

/-- `is_tar` -/
def isTar (d : Bytes) : Bool := 262 ≤ d.length && (d.drop 257).take 5 == bytes "ustar".toList

/-! ## The name -/

/-- `to_ascii_lowercase` -/
def asciiLower (t : Text) : Text := t.map fun c => if 'A' ≤ c ∧ c ≤ 'Z' then Char.ofNat (c.toNat + 32) else c

/-- `IMAGE_EXTS` -/
def imageExts : List Text := ["exfat".toList, "ffpkg".toList, "ffpfs".toList, "ffpfsc".toList]

/-- `image_ext` -/
def imageExt (name : Text) : Option Text := imageExts.find? fun e => ('.' :: e) <:+ asciiLower name

/-- `unpacked_name` -/
def unpackedName (name : Text) (image : Option ImageKind) : Text :=
  let base := if ".lz4".toList <:+ asciiLower name then name.take (name.length - 4) else name
  let base := if base = [] then "image".toList else base
  match image with
  | some kind => if imageExt base = none then base ++ '.' :: kind.ext else base
  | none => base

/-! ## What is announced -/

/-- Why a link cannot be unpacked on its way. -/
inductive Unsupported where
  /-- "This .lz4 holds a tar archive (a folder)." -/
  | tar
  /-- "This .lz4 does not say how big it unpacks to" -/
  | noSize
  deriving DecidableEq, Repr

structure Lz4Info where
  unpackedSize : Option Nat
  unpackedName : Text
  image : Option ImageKind
  unsupported : Option Unsupported
  /-- The size is the image header's, not the stream's. -/
  sizeFromImage : Bool
  deriving DecidableEq, Repr

/-- `inspect_prefix` -/
def inspectPrefix (name : Text) (contentSize : Option Nat) (decoded : Bytes) : Lz4Info :=
  let sniffed := sniffImage decoded
  let image := sniffed.map Prod.fst
  let imageSize := sniffed.map Prod.snd
  let sizeFromImage := match contentSize, imageSize with
    | some c, some i => decide (c < i)
    | none, some _ => true
    | _, _ => false
  let unpackedSize := if sizeFromImage then imageSize else contentSize
  let unsupported := if unpackedSize.isSome then none
    else if isTar decoded then some .tar
    else some .noSize
  { unpackedSize, unpackedName := unpackedName name image, image, unsupported, sizeFromImage }

/-! ## The size is exact -/

/-- The size of the volume that the header states: exFAT has the size of a sector as a shift. -/
def stated (d : Bytes) : ImageKind → Nat
  | .exfat => (sizeFields d .exfat).1 * 2 ^ (sizeFields d .exfat).2
  | kind => (sizeFields d kind).1 * (sizeFields d kind).2

/-- A size taken from a header is the product it states, which fits 64 bits and is more than the stream's
own size. -/
def Exact (contentSize : Option Nat) (d : Bytes) : Prop :=
  ∀ name, (inspectPrefix name contentSize d).sizeFromImage = true →
    ∃ kind, (inspectPrefix name contentSize d).image = some kind ∧
      (inspectPrefix name contentSize d).unpackedSize = some (stated d kind) ∧
      stated d kind < 2 ^ 64 ∧ ∀ c, contentSize = some c → c < stated d kind

/-- An exFAT header states a size that does not fit 64 bits, and what is left of it is more than the
stream's own size. -/
def Wraps (contentSize : Option Nat) (d : Bytes) : Prop :=
  isExfat d = true ∧ 2 ^ 64 ≤ stated d .exfat ∧
    ∀ c, contentSize = some c → c < stated d .exfat % 2 ^ 64

theorem checkedMul_eq_some {a b n : Nat} : checkedMul a b = some n ↔ n = a * b ∧ a * b < 2 ^ 64 := by
  unfold checkedMul
  split
  · rename_i h
    rw [Option.some.injEq, and_iff_left h, eq_comm]
  · rename_i h
    exact iff_of_false nofun fun he => h he.2

/-- What `sniff_image` finds: the product, or what is left of it for exFAT. -/
theorem sniffImage_eq_some {d : Bytes} {kind : ImageKind} {n : Nat} (h : sniffImage d = some (kind, n)) :
    (kind = .exfat ∧ isExfat d = true ∧ n = stated d .exfat % 2 ^ 64) ∨
      (kind ≠ .exfat ∧ isExfat d = false ∧ n = stated d kind ∧ stated d kind < 2 ^ 64) := by
  unfold sniffImage at h
  split at h
  · rename_i hex
    refine .inl ?_
    have hshift : (sizeFields d .exfat).2 < 64 := by
      simp only [isExfat, Bool.and_eq_true, decide_eq_true_eq] at hex
      omega
    rw [checkedShl, if_pos hshift, Nat.shiftLeft_eq] at h
    cases h
    exact ⟨rfl, hex, rfl⟩
  · rename_i hex
    refine .inr ?_
    split at h
    · obtain ⟨m, hm, heq⟩ := Option.map_eq_some_iff.1 h
      cases heq
      exact ⟨ImageKind.noConfusion, Bool.eq_false_iff.2 hex, checkedMul_eq_some.1 hm⟩
    · split at h
      · obtain ⟨m, hm, heq⟩ := Option.map_eq_some_iff.1 h
        cases heq
        exact ⟨ImageKind.noConfusion, Bool.eq_false_iff.2 hex, checkedMul_eq_some.1 hm⟩
      · cases h

/-- An exFAT header is always taken for one. -/
theorem sniffImage_exfat {d : Bytes} (h : isExfat d = true) :
    sniffImage d = some (.exfat, stated d .exfat % 2 ^ 64) := by
  have hshift : (sizeFields d .exfat).2 < 64 := by
    simp only [isExfat, Bool.and_eq_true, decide_eq_true_eq] at h
    omega
  rw [sniffImage, if_pos h, checkedShl, if_pos hshift, Nat.shiftLeft_eq]
  rfl

/-- Where the header's size is taken, it is announced, and it is more than the stream's. -/
theorem inspectPrefix_of_image (name : Text) (contentSize : Option Nat) {d : Bytes} {kind : ImageKind}
    {n : Nat} (hs : sniffImage d = some (kind, n)) :
    (inspectPrefix name contentSize d).image = some kind ∧
      ((inspectPrefix name contentSize d).sizeFromImage = true ↔ ∀ c, contentSize = some c → c < n) ∧
      ((inspectPrefix name contentSize d).sizeFromImage = true →
        (inspectPrefix name contentSize d).unpackedSize = some n) := by
  unfold inspectPrefix
  rw [hs]
  refine ⟨rfl, ?_, fun h => if_pos h⟩
  cases contentSize with
  | none => exact iff_of_true rfl fun c hc => by cases hc
  | some c =>
    refine decide_eq_true_iff.trans ⟨fun h c' hc' => ?_, fun h => h c rfl⟩
    cases hc'
    exact h

/-- The announced size is the one the header states, but for an exFAT header whose product the shift
cuts. -/
theorem exact_iff (contentSize : Option Nat) (d : Bytes) : Exact contentSize d ↔ ¬ Wraps contentSize d := by
  constructor
  · rintro h ⟨hex, hbig, hmore⟩
    obtain ⟨himage, hfrom, -⟩ := inspectPrefix_of_image [] contentSize (sniffImage_exfat hex)
    obtain ⟨kind, hkind, -, hfits, -⟩ := h [] (hfrom.2 hmore)
    rw [himage, Option.some.injEq] at hkind
    subst hkind
    omega
  · intro hno name hfrom
    cases hs : sniffImage d with
    | none =>
      have hfalse : (inspectPrefix name contentSize d).sizeFromImage = false := by
        unfold inspectPrefix
        rw [hs]
        cases contentSize <;> rfl
      rw [hfalse] at hfrom
      cases hfrom
    | some found =>
      obtain ⟨kind, n⟩ := found
      obtain ⟨himage, hiff, hsize⟩ := inspectPrefix_of_image name contentSize hs
      have hmore := hiff.1 hfrom
      refine ⟨kind, himage, ?_⟩
      rcases sniffImage_eq_some hs with ⟨rfl, hex, rfl⟩ | ⟨-, -, rfl, hfits⟩
      · -- Nothing was cut, or the cut size would not have been taken.
        have hfits : stated d .exfat < 2 ^ 64 := by
          by_contra hbig
          exact hno ⟨hex, Nat.le_of_not_lt hbig, hmore⟩
        rw [Nat.mod_eq_of_lt hfits] at hmore hsize
        exact ⟨hsize hfrom, hfits, hmore⟩
      · exact ⟨hsize hfrom, hfits, hmore⟩

/-- A boot sector of `2 ^ 55 + 1` sectors of 512 bytes. -/
def hugeBoot : Bytes :=
  List.replicate 3 0 ++ bytes "EXFAT   ".toList ++ List.replicate 61 0 ++ le 8 (2 ^ 55 + 1) ++
    List.replicate 28 0 ++ [9] ++ List.replicate 11 0

/-- It is announced as one of 512 bytes. -/
theorem exact_hugeBoot : ¬ Exact none hugeBoot := by
  intro h
  have himage : (inspectPrefix [] none hugeBoot).image = some .exfat := by decide +kernel
  have hfrom : (inspectPrefix [] none hugeBoot).sizeFromImage = true := by decide +kernel
  have hsize : (inspectPrefix [] none hugeBoot).unpackedSize = some 512 := by decide +kernel
  have hstated : stated hugeBoot .exfat = 2 ^ 64 + 512 := by decide +kernel
  obtain ⟨kind, hkind, hannounced, -⟩ := h [] hfrom
  rw [himage, Option.some.injEq] at hkind
  subst hkind
  rw [hsize, hstated] at hannounced
  cases hannounced

end Ps5Upload.LinkLz4
