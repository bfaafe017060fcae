import Ps5Upload.Lib.Bytes

/-!
# Reading a zip's central directory

The model of `ps5upload-core/src/zip_cd.rs`: the end record is looked for backwards from the end of
the file, its zip64 record is taken when a field of it is a sentinel, and the central directory is
read and walked record by record.  A file is the list of its bytes; lengths and offsets of a file
are below 2^64.
-/

namespace Ps5Upload.ZipCd

open ByteFile

def eocdSig : Nat := 0x06054b50
def zip64EocdLocatorSig : Nat := 0x07064b50
def zip64EocdSig : Nat := 0x06064b50
def cdfhSig : Nat := 0x02014b50
def eocdScanWindow : Nat := 65557
def cdfhFixedLen : Nat := 46
def maxCentralDirBytes : Nat := 256 * 1024 * 1024
def zip64SentinelU32 : Nat := 0xFFFFFFFF
def zip64SentinelU16 : Nat := 0xFFFF
def zip64ExtraId : Nat := 0x0001

structure CentralDirEntry where
  name : String
  uncompressedSize : Nat
  isDir : Bool
  deriving DecidableEq, Repr

/-- Why a file is not read; the numbers are those of the message. -/
inductive CdError where
  | tooShort (fileLen : Nat)
  | pastEnd (cdSize cdOffset fileLen : Nat)
  | tooLarge (cdSize : Nat)
  | noEocd (scanLen : Nat)
  | noLocatorRoom
  | notLocator (at_ found : Nat)
  | zip64PastEnd (off : Nat)
  | notZip64Eocd (at_ found : Nat)
  | recordPastEnd (cursor : Nat)
  | noZip64Extra (cursor : Nat)
  deriving DecidableEq, Repr

/-! ## Names -/

/-- IBM code page 437 from 0x80 on. -/
def cp437High : List Nat :=
  [0x00c7, 0x00fc, 0x00e9, 0x00e2, 0x00e4, 0x00e0, 0x00e5, 0x00e7, 0x00ea, 0x00eb, 0x00e8, 0x00ef,
    0x00ee, 0x00ec, 0x00c4, 0x00c5, 0x00c9, 0x00e6, 0x00c6, 0x00f4, 0x00f6, 0x00f2, 0x00fb, 0x00f9,
    0x00ff, 0x00d6, 0x00dc, 0x00a2, 0x00a3, 0x00a5, 0x20a7, 0x0192, 0x00e1, 0x00ed, 0x00f3, 0x00fa,
    0x00f1, 0x00d1, 0x00aa, 0x00ba, 0x00bf, 0x2310, 0x00ac, 0x00bd, 0x00bc, 0x00a1, 0x00ab, 0x00bb,
    0x2591, 0x2592, 0x2593, 0x2502, 0x2524, 0x2561, 0x2562, 0x2556, 0x2555, 0x2563, 0x2551, 0x2557,
    0x255d, 0x255c, 0x255b, 0x2510, 0x2514, 0x2534, 0x252c, 0x251c, 0x2500, 0x253c, 0x255e, 0x255f,
    0x255a, 0x2554, 0x2569, 0x2566, 0x2560, 0x2550, 0x256c, 0x2567, 0x2568, 0x2564, 0x2565, 0x2559,
    0x2558, 0x2552, 0x2553, 0x256b, 0x256a, 0x2518, 0x250c, 0x2588, 0x2584, 0x258c, 0x2590, 0x2580,
    0x03b1, 0x00df, 0x0393, 0x03c0, 0x03a3, 0x03c3, 0x00b5, 0x03c4, 0x03a6, 0x0398, 0x03a9, 0x03b4,
    0x221e, 0x03c6, 0x03b5, 0x2229, 0x2261, 0x00b1, 0x2265, 0x2264, 0x2320, 0x2321, 0x00f7, 0x2248,
    0x00b0, 0x2219, 0x00b7, 0x221a, 0x207f, 0x00b2, 0x25a0, 0x00a0]

def cp437Char (b : UInt8) : Char :=
  if b < 0x80 then Char.ofNat b.toNat else Char.ofNat (cp437High.getD (b.toNat - 0x80) 0)

/-- A name is UTF-8 where it is valid, else code page 437. -/
def zipNameFromRaw (raw : Bytes) : String :=
  match String.fromUTF8? ⟨raw.toArray⟩ with
  | some s => s
  | none => String.ofList (raw.map cp437Char)

/-! ## The end records -/

/-- An end record stands at `i`, with room for its comment. -/
def isEocd (tail : Bytes) (i : Nat) : Bool :=
  leAt tail i 4 = eocdSig && i + 22 + leAt tail (i + 20) 2 ≤ tail.length

/-- The scan backwards from `i`. -/
def scanEocd (tail : Bytes) : Nat → Option Nat
  | 0 => if isEocd tail 0 then some 0 else none
  | i + 1 => if isEocd tail (i + 1) then some (i + 1) else scanEocd tail i

/-- Where the central directory is, how long it is and how many entries it claims. -/
def locateCentralDirectory (file : Bytes) : Except CdError (Nat × Nat × Nat) :=
  let fileLen := file.length
  let scanLen := min eocdScanWindow fileLen
  let scanStart := fileLen - scanLen
  let tail := file.drop scanStart
  match (if 22 ≤ tail.length then scanEocd tail (tail.length - 22) else none) with
  | none => .error (.noEocd scanLen)
  | some off =>
    let eocdAbs := scanStart + off
    let totalEntries := leAt tail (off + 10) 2
    let cdSize := leAt tail (off + 12) 4
    let cdOffset := leAt tail (off + 16) 4
    if !(totalEntries = zip64SentinelU16 || cdSize = zip64SentinelU32
        || cdOffset = zip64SentinelU32) then
      .ok (cdOffset, cdSize, totalEntries)
    else if eocdAbs < 20 then .error .noLocatorRoom
    else
      let locatorAbs := eocdAbs - 20
      if leAt file locatorAbs 4 ≠ zip64EocdLocatorSig then
        .error (.notLocator locatorAbs (leAt file locatorAbs 4))
      else
        let zip64Off := leAt file (locatorAbs + 8) 8
        if 2 ^ 64 ≤ zip64Off + 56 ∨ fileLen < zip64Off + 56 then .error (.zip64PastEnd zip64Off)
        else if leAt file zip64Off 4 ≠ zip64EocdSig then
          .error (.notZip64Eocd zip64Off (leAt file zip64Off 4))
        else
          .ok (leAt file (zip64Off + 48) 8, leAt file (zip64Off + 40) 8, leAt file (zip64Off + 32) 8)

/-! ## The records -/

/-- The loop over the extra fields; every turn takes four bytes. -/
def zip64Uncompressed : Nat → Bytes → Option Nat
  | 0, _ => none
  | turns + 1, extra =>
    if extra.length < 4 then none
    else
      let size := leAt extra 2 2
      if extra.length < 4 + size then none
      else if leAt extra 0 2 = zip64ExtraId ∧ 8 ≤ size then some (leAt extra 4 8)
      else zip64Uncompressed turns (extra.drop (4 + size))

def zip64UncompressedFromExtra (extra : Bytes) : Option Nat := zip64Uncompressed extra.length extra

/-- The walk from `cursor` on, where `rest` is what the directory has from there. -/
def walk : Nat → Nat → Bytes → Except CdError (List CentralDirEntry)
  | 0, _, _ => .ok []
  | turns + 1, cursor, rest =>
    if rest.length < cdfhFixedLen then .ok []
    else if leAt rest 0 4 ≠ cdfhSig then .ok []
    else
      let rawUncompressed := leAt rest 24 4
      let nameLen := leAt rest 28 2
      let extraLen := leAt rest 30 2
      let recordLen := cdfhFixedLen + nameLen + extraLen + leAt rest 32 2
      if rest.length < recordLen then .error (.recordPastEnd cursor)
      else
        let extra := (rest.drop (cdfhFixedLen + nameLen)).take extraLen
        match (if rawUncompressed = zip64SentinelU32 then zip64UncompressedFromExtra extra
          else some rawUncompressed) with
        | none => .error (.noZip64Extra cursor)
        | some size =>
          let name := zipNameFromRaw ((rest.drop cdfhFixedLen).take nameLen)
          match walk turns (cursor + recordLen) (rest.drop recordLen) with
          | .error e => .error e
          | .ok entries => .ok (⟨name, size, name.toList.getLast? = some '/'⟩ :: entries)

def readCentralDirectory (file : Bytes) : Except CdError (List CentralDirEntry) :=
  if file.length < 22 then .error (.tooShort file.length)
  else
    match locateCentralDirectory file with
    | .error e => .error e
    | .ok (cdOffset, cdSize, _) =>
      if cdSize = 0 then .ok []
      else if 2 ^ 64 ≤ cdOffset + cdSize ∨ file.length < cdOffset + cdSize then
        .error (.pastEnd cdSize cdOffset file.length)
      else if maxCentralDirBytes < cdSize then .error (.tooLarge cdSize)
      else walk cdSize 0 ((file.drop cdOffset).take cdSize)

/-! ## Single steps -/

theorem zipNameFromRaw_toUTF8 (s : String) : zipNameFromRaw s.toUTF8.data.toList = s := by
  have hbytes : (⟨s.toUTF8.data.toList.toArray⟩ : ByteArray) = s.toUTF8 := by
    rw [Array.toArray_toList]
  have hread : String.fromUTF8? s.toUTF8 = some s := by
    rw [String.fromUTF8?, String.toUTF8_eq_toByteArray, dif_pos s.isValidUTF8]
    rfl
  rw [zipNameFromRaw, hbytes, hread]

/-- An end record at the place the scan starts from is found. -/
theorem scanEocd_here {tail : Bytes} {i : Nat} (h : isEocd tail i = true) :
    scanEocd tail i = some i := by
  cases i with
  | zero => rw [scanEocd, if_pos h]
  | succ i => rw [scanEocd, if_pos h]

end Ps5Upload.ZipCd
