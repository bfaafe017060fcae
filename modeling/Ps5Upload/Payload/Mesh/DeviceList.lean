import Mathlib.Data.List.ReduceOption
import Ps5Upload.Lib.CText
import Ps5Upload.Payload.Mesh.Fields

/-!
# The device list and its file

The model of the device records of `payload/src/mesh.c` and of `save_devices` and `load_devices`:
one line for each used entry, ten fields with tabs between them.  A text field carries what
`clean_field` makes of it, so a tab, a newline or a NUL cannot be in one.

* `saveText_eq`: the lines always fit the buffer, so the list is always written.
* `loadText_saveText`: loading what was saved gives the used entries back, in order.
-/

namespace Ps5Upload.Mesh

open ByteFile WebuiCodec CText

def meshMaxDevices : Nat := 64
def kindMax : Nat := 16
def osMax : Nat := 48
def appMax : Nat := 24
def nameMax : Nat := 64

/-! ## Stored fields -/

theorem printable_printable (c : UInt8) : printable (printable c) = printable c := by
  by_cases h : c < 0x20 ∨ c = 0x7f
  · simp only [printable, if_pos h]
    decide
  · simp only [printable, if_neg h]

/-- What is stored in a field of `cap` bytes. -/
structure Field (cap : Nat) where
  text : Bytes
  fits : text.length ≤ cap - 1
  stored : ∀ c ∈ text, printable c = c
  deriving DecidableEq, Repr

variable {c : UInt8} {table : DevTable}

theorem mem_dropPartial {kept : Bytes} (h : c ∈ dropPartial kept) : c ∈ kept := by
  rw [dropPartial, List.mem_reverse] at h
  exact List.mem_reverse.1 ((List.dropWhile_sublist _).mem (List.mem_of_mem_tail h))

theorem length_dropPartial_le (kept : Bytes) : (dropPartial kept).length ≤ kept.length := by
  rw [dropPartial, List.length_reverse, List.length_tail]
  have := (List.dropWhile_sublist isCont (l := kept.reverse)).length_le
  rw [List.length_reverse] at this
  omega

theorem cleanField_cases (cap : Nat) (s : Bytes) :
    cleanField cap s = (s.take (cap - 1)).map printable ∨
      cleanField cap s = dropPartial ((s.take (cap - 1)).map printable) := by
  unfold cleanField
  split
  · split
    · exact Or.inr rfl
    · exact Or.inl rfl
  · exact Or.inl rfl

theorem length_cleanField_le (cap : Nat) (s : Bytes) : (cleanField cap s).length ≤ cap - 1 := by
  have hlen : ((s.take (cap - 1)).map printable).length ≤ cap - 1 := by
    rw [List.length_map]
    exact List.length_take_le _ _
  rcases cleanField_cases cap s with h | h
  · rw [h]
    exact hlen
  · rw [h]
    exact (length_dropPartial_le _).trans hlen

theorem printable_of_mem_cleanField {cap : Nat} {s : Bytes} (h : c ∈ cleanField cap s) :
    printable c = c := by
  have hmem : c ∈ (s.take (cap - 1)).map printable := by
    rcases cleanField_cases cap s with he | he
    · exact he ▸ h
    · exact mem_dropPartial (he ▸ h)
  obtain ⟨x, -, rfl⟩ := List.mem_map.1 hmem
  exact printable_printable x

/-- `clean_field` into a field. -/
def Field.clean (cap : Nat) (s : Bytes) : Field cap :=
  ⟨cleanField cap s, length_cleanField_le cap s, fun _ hc => printable_of_mem_cleanField hc⟩

def Field.empty (cap : Nat) : Field cap := ⟨[], Nat.zero_le _, by simp⟩

/-- Cleaning what is stored changes nothing. -/
theorem Field.clean_text {cap : Nat} (f : Field cap) : Field.clean cap f.text = f := by
  obtain ⟨text, fits, stored⟩ := f
  have hmap : text.map printable = text := by
    conv_rhs => rw [← List.map_id text]
    exact List.map_congr_left fun c hc => stored c hc
  have hclean : cleanField cap text = text := by
    simp only [cleanField, List.take_of_length_le fits, List.drop_of_length_le fits, hmap]
  simp only [Field.clean, hclean]

/-! ## Records -/

/-- A used entry of the list. -/
structure Dev where
  key : Key
  first : UInt64
  last : UInt64
  ip : UInt32
  blocked : Bool
  kind : Field kindMax
  os : Field osMax
  app : Field appMax
  name : Field nameMax
  nick : Field nameMax
  deriving DecidableEq

abbrev DevTable := List (Option Dev)

def DevTable.empty : DevTable := List.replicate meshMaxDevices none

/-- The used entries, in order. -/
def entries (table : DevTable) : List Dev := table.reduceOption

/-! ## Keys as text -/

def toHex (key : Key) : Bytes :=
  key.toList.flatMap fun b => [hexDigit (b.toNat / 16), hexDigit (b.toNat % 16)]

def hexPairs : Bytes → Option Bytes
  | a :: b :: cs =>
    match hexval a, hexval b, hexPairs cs with
    | some x, some y, some ks => some (UInt8.ofNat (16 * x + y) :: ks)
    | _, _, _ => none
  | _ => some []

def fromHex (s : Bytes) : Option Key :=
  if s.length ≠ 64 then none
  else
    (hexPairs s).bind fun ks => if h : ks.length = 32 then some ⟨ks.toArray, by simpa using h⟩ else none

theorem hexval_hexDigit : ∀ n < 16, hexval (hexDigit n) = some n := by
  decide

theorem hexPairs_digits (ks : Bytes) :
    hexPairs (ks.flatMap fun b => [hexDigit (b.toNat / 16), hexDigit (b.toNat % 16)]) = some ks := by
  induction ks with
  | nil => rfl
  | cons b ks ih =>
    have hb := b.toNat_lt
    have hsum : 16 * (b.toNat / 16) + b.toNat % 16 = b.toNat := by omega
    simp only [List.flatMap_cons, List.cons_append, List.nil_append, hexPairs,
      hexval_hexDigit _ (show b.toNat / 16 < 16 by omega),
      hexval_hexDigit _ (show b.toNat % 16 < 16 by omega), ih, hsum, UInt8.ofNat_toNat]

theorem length_toHex (key : Key) : (toHex key).length = 64 := by
  simp [toHex, List.length_flatMap]

theorem fromHex_toHex (key : Key) : fromHex (toHex key) = some key := by
  have hlen := length_toHex key
  simp only [fromHex, hlen, ne_eq, not_true_eq_false, if_false]
  rw [toHex, hexPairs_digits, Option.bind_some, dif_pos (by simp)]
  exact congrArg some (Vector.toArray_inj.1 Array.toArray_toList)

theorem hexDigit_printable : ∀ n < 16, printable (hexDigit n) = hexDigit n := by
  decide

theorem printable_of_mem_toHex {key : Key} (h : c ∈ toHex key) : printable c = c := by
  simp only [toHex, List.mem_flatMap, List.mem_cons, List.not_mem_nil, or_false] at h
  obtain ⟨b, -, rfl | rfl⟩ := h
  · exact hexDigit_printable _ (by have := b.toNat_lt; omega)
  · exact hexDigit_printable _ (by omega)

theorem printable_of_mem_dec {n : Nat} (h : c ∈ dec n) : printable c = c := by
  have hc := mem_dec h
  simp only [isDigit, Bool.and_eq_true, decide_eq_true_eq, UInt8.le_iff_toNat_le,
    UInt8.reduceToNat] at hc
  refine if_neg ?_
  simp only [not_or, UInt8.lt_iff_toNat_lt, ← UInt8.toNat_inj, UInt8.reduceToNat]
  omega
/-! ## The file -/

def tab : UInt8 := 0x09
def newline : UInt8 := 0x0a

/-- The ten fields of a record's line. -/
def lineFields (d : Dev) : List Bytes :=
  [toHex d.key, dec d.first.toNat, dec d.last.toNat, dec d.ip.toNat, dec d.blocked.toNat,
    d.kind.text, d.os.text, d.app.text, d.name.text, d.nick.text]

/-- A record's line, without the newline. -/
def line (d : Dev) : Bytes := [tab].intercalate (lineFields d)

/-- Appends to a buffer of `cap` bytes; the last of them is the NUL's. -/
def putf (cap : Nat) (b s : Bytes) : Option Bytes :=
  if s.length ≥ cap - b.length then none else some (b ++ s)

def saveCap : Nat := meshMaxDevices * 512

/-- The text `save_devices` writes. -/
def saveText (table : DevTable) : Option Bytes :=
  (entries table).foldlM (fun b d => putf saveCap b (line d ++ [newline])) []

/-- A record from a line of the file. -/
def parseLine (l : Bytes) : Option Dev :=
  match splitMax tab 10 l with
  | [f0, f1, f2, f3, f4, f5, f6, f7, f8, f9] =>
    (fromHex f0).map fun key =>
      { key := key
        first := strtoull f1
        last := strtoull f2
        ip := (strtoull f3).toUInt32
        blocked := atoi f4 ≠ 0
        kind := Field.clean kindMax f5
        os := Field.clean osMax f6
        app := Field.clean appMax f7
        name := Field.clean nameMax f8
        nick := Field.clean nameMax f9 }
  | _ => none

/-- `strtok_r` on newlines: empty lines are passed over, and a NUL ends the text. -/
def fileLines (text : Bytes) : List Bytes :=
  ((text.takeWhile (· ≠ 0)).splitOn newline).filter (· ≠ [])

/-- The list `load_devices` makes of the file; `none` is a file that is not there. -/
def loadDevices (file : Option Bytes) : DevTable :=
  match file with
  | none => DevTable.empty
  | some text =>
    if meshMaxDevices * 1024 < text.length then DevTable.empty
    else
      let devs := ((fileLines text).filterMap parseLine).take meshMaxDevices
      devs.map some ++ List.replicate (meshMaxDevices - devs.length) none

/-! ## Loading what was saved -/

theorem printable_of_mem_lineFields {d : Dev} {f : Bytes} (hf : f ∈ lineFields d)
    (hc : c ∈ f) : printable c = c := by
  simp only [lineFields, List.mem_cons, List.not_mem_nil, or_false] at hf
  rcases hf with rfl | rfl | rfl | rfl | rfl | rfl | rfl | rfl | rfl | rfl
  · exact printable_of_mem_toHex hc
  · exact printable_of_mem_dec hc
  · exact printable_of_mem_dec hc
  · exact printable_of_mem_dec hc
  · exact printable_of_mem_dec hc
  · exact d.kind.stored c hc
  · exact d.os.stored c hc
  · exact d.app.stored c hc
  · exact d.name.stored c hc
  · exact d.nick.stored c hc

theorem length_line_le (d : Dev) : (line d).length ≤ 335 := by
  have hhex := length_toHex d.key
  have hfirst := length_dec_le (k := 20) (by omega) (d.first.toNat_lt.trans (by omega))
  have hlast := length_dec_le (k := 20) (by omega) (d.last.toNat_lt.trans (by omega))
  have hip := length_dec_le (k := 10) (by omega) (d.ip.toNat_lt.trans (by omega))
  have hblocked : (dec d.blocked.toNat).length ≤ 1 :=
    length_dec_le (by omega) (by have := d.blocked.toNat_lt; omega)
  have hkind := d.kind.fits
  have hos := d.os.fits
  have happ := d.app.fits
  have hname := d.name.fits
  have hnick := d.nick.fits
  simp only [kindMax, osMax, appMax, nameMax] at hkind hos happ hname hnick
  simp only [line, lineFields, List.intercalate_cons_cons, List.intercalate_singleton,
    List.length_append, List.length_cons, List.length_nil]
  omega

theorem line_ne_nil (d : Dev) : line d ≠ [] := by
  have hhex := length_toHex d.key
  intro h
  have := congrArg List.length h
  simp only [line, lineFields, List.intercalate_cons_cons, List.length_append, hhex,
    List.length_nil] at this
  omega

theorem mem_line {d : Dev} (h : c ∈ line d) : c = tab ∨ printable c = c := by
  have hmem : ∀ fs : List Bytes, (∀ f ∈ fs, ∀ x ∈ f, printable x = x) →
      ∀ x ∈ [tab].intercalate fs, x = tab ∨ printable x = x := by
    intro fs
    induction fs with
    | nil => simp
    | cons f fs ih =>
      intro hfs x hx
      cases fs with
      | nil =>
        rw [List.intercalate_singleton] at hx
        exact Or.inr (hfs f List.mem_cons_self x hx)
      | cons g fs =>
        rw [List.intercalate_cons_cons, List.mem_append, List.mem_append, List.mem_singleton] at hx
        rcases hx with (hx | hx) | hx
        · exact Or.inr (hfs f List.mem_cons_self x hx)
        · exact Or.inl hx
        · exact ih (fun y hy => hfs y (List.mem_cons_of_mem _ hy)) x hx
  exact hmem _ (fun f hf x hx => printable_of_mem_lineFields hf hx) c h

theorem parseLine_line (d : Dev) : parseLine (line d) = some d := by
  have hsplit : splitMax tab 10 (line d) = lineFields d := by
    refine splitMax_intercalate (by simp [lineFields]) ?_ (by simp [lineFields])
    intro f hf hc
    exact absurd (printable_of_mem_lineFields hf hc) (by decide)
  have hnum : ∀ n : UInt64, strtoull (dec n.toNat) = n := by
    intro n
    simpa using strtoull_dec n noDigit_nil
  have hip : (strtoull (dec d.ip.toNat)).toUInt32 = d.ip := by
    have := hnum d.ip.toUInt64
    rw [UInt32.toNat_toUInt64] at this
    rw [this]
    simp
  have hblocked : decide (atoi (dec d.blocked.toNat) ≠ 0) = d.blocked := by
    rw [atoi_dec (by have := d.blocked.toNat_lt; omega)]
    cases d.blocked <;> rfl
  rw [parseLine, hsplit]
  simp only [lineFields, fromHex_toHex, Option.map_some, hnum, hip, hblocked, Field.clean_text]

/-- The lines of some records, each with its newline. -/
def linesOf (devs : List Dev) : Bytes := devs.flatMap fun d => line d ++ [newline]

theorem newline_not_mem_line (d : Dev) : newline ∉ line d := by
  intro h
  rcases mem_line h with h | h
  · exact absurd h (by decide)
  · exact absurd h (by decide)

theorem foldlM_putf (devs : List Dev) (b : Bytes) (h : b.length + 336 * devs.length < saveCap) :
    devs.foldlM (fun b d => putf saveCap b (line d ++ [newline])) b = some (b ++ linesOf devs) := by
  induction devs generalizing b with
  | nil => simp [linesOf]
  | cons d devs ih =>
    have hline := length_line_le d
    have hlen : (line d ++ [newline]).length ≤ 336 := by
      rw [List.length_append, List.length_singleton]
      omega
    rw [List.length_cons] at h
    have hput : putf saveCap b (line d ++ [newline]) = some (b ++ (line d ++ [newline])) :=
      if_neg (by omega)
    rw [List.foldlM_cons, hput]
    simp only [Option.bind_eq_bind, Option.bind_some]
    rw [ih _ (by rw [List.length_append]; omega)]
    simp [linesOf]

theorem length_entries_le (table : DevTable) : (entries table).length ≤ table.length :=
  List.reduceOption_length_le table

theorem saveText_eq (h : table.length = meshMaxDevices) :
    saveText table = some (linesOf (entries table)) := by
  have hlen := length_entries_le table
  have hfit : ([] : Bytes).length + 336 * (entries table).length < saveCap := by
    have hcap : saveCap = 32768 := rfl
    have hmax : meshMaxDevices = 64 := rfl
    have hnil : ([] : Bytes).length = 0 := rfl
    omega
  exact foldlM_putf (entries table) [] hfit

theorem length_linesOf_le (devs : List Dev) : (linesOf devs).length ≤ 336 * devs.length := by
  induction devs with
  | nil => simp [linesOf]
  | cons d devs ih =>
    have hline := length_line_le d
    simp only [linesOf, List.flatMap_cons, List.length_append, List.length_cons,
      List.length_nil] at ih ⊢
    omega

theorem fileLines_linesOf (devs : List Dev) : fileLines (linesOf devs) = devs.map line := by
  have hnul : (linesOf devs).takeWhile (· ≠ 0) = linesOf devs := by
    rw [List.takeWhile_eq_self_iff]
    intro c hc
    simp only [linesOf, List.mem_flatMap, List.mem_append, List.mem_singleton] at hc
    obtain ⟨d, -, hc | rfl⟩ := hc
    · rcases mem_line hc with rfl | hp
      · decide
      · simp only [ne_eq, decide_eq_true_eq]
        rintro rfl
        exact absurd hp (by decide)
    · decide
  rw [fileLines, hnul]
  clear hnul
  induction devs with
  | nil => rfl
  | cons d devs ih =>
    have hcons : linesOf (d :: devs) = line d ++ newline :: linesOf devs := by
      simp [linesOf]
    rw [hcons, List.splitOn_append_cons_self_of_not_mem (newline_not_mem_line d),
      List.filter_cons_of_pos (by simpa using line_ne_nil d), ih, List.map_cons]

/-- **Loading what was saved** gives the used entries back, in order. -/
theorem loadDevices_saveText (h : table.length = meshMaxDevices) :
    loadDevices (saveText table) = (entries table).map some ++
      List.replicate (meshMaxDevices - (entries table).length) none := by
  have hcount := length_entries_le table
  have hlen := length_linesOf_le (entries table)
  have hparse : ((entries table).map line).filterMap parseLine = entries table := by
    rw [List.filterMap_map]
    have : parseLine ∘ line = some := funext parseLine_line
    rw [this, List.filterMap_some]
  have hsize : ¬meshMaxDevices * 1024 < (linesOf (entries table)).length := by
    have hmax : meshMaxDevices = 64 := rfl
    omega
  have htake : (entries table).take meshMaxDevices = entries table :=
    List.take_of_length_le (h ▸ hcount)
  rw [saveText_eq h]
  refine (if_neg hsize).trans ?_
  simp only [fileLines_linesOf, hparse, htake]

theorem entries_loadDevices_saveText (h : table.length = meshMaxDevices) :
    entries (loadDevices (saveText table)) = entries table := by
  rw [loadDevices_saveText h]
  simp only [entries, List.reduceOption_append, List.reduceOption_replicate_none, List.append_nil]
  rw [List.reduceOption, List.filterMap_map, Function.id_comp, List.filterMap_some]

theorem length_loadDevices (file : Option Bytes) : (loadDevices file).length = meshMaxDevices := by
  unfold loadDevices
  split
  · exact List.length_replicate
  · split
    · exact List.length_replicate
    · simp only [List.length_append, List.length_map, List.length_replicate]
      have := List.length_take_le meshMaxDevices ((fileLines ‹Bytes›).filterMap parseLine)
      omega

end Ps5Upload.Mesh
