import Mathlib.Data.List.TakeWhile
import Mathlib.Tactic.Common
import Ps5Upload.Lib.Bytes

/-!
# Numbers and separators in C text

What `printf` and the `strto…` functions do with decimal numbers in a C string, and how a line of
fields with one separator byte between them is split again.
-/

namespace Ps5Upload.CText

open ByteFile

/-! ## Decimal numbers -/

/-- `%llu`, `%u` and `%d` of a number that is not negative. -/
def dec (n : Nat) : Bytes := (Nat.toDigits 10 n).map fun c => UInt8.ofNat c.toNat

/-- A digit of a number in base sixteen, in small letters. -/
def hexDigit (n : Nat) : UInt8 := UInt8.ofNat (if n < 10 then 0x30 + n else 0x61 + (n - 10))

def isDigit (c : UInt8) : Bool := 0x30 ≤ c && c ≤ 0x39

/-- `isspace` in the C locale. -/
def isCSpace (c : UInt8) : Bool := c = 0x20 || (0x09 ≤ c && c ≤ 0x0d)

/-- The value of the digits in front, after `acc`. -/
def readDigits (acc : Nat) : Bytes → Nat
  | c :: cs => if isDigit c then readDigits (acc * 10 + (c.toNat - 0x30)) cs else acc
  | [] => acc

/-- The sign and the size of the number at the front of a text. -/
def readNumber (s : Bytes) : Bool × Nat :=
  match s.dropWhile isCSpace with
  | c :: cs =>
    if c = 0x2d then (true, readDigits 0 cs)
    else if c = 0x2b then (false, readDigits 0 cs)
    else (false, readDigits 0 (c :: cs))
  | [] => (false, 0)

/-- `strtoull` in base ten; a number that is too large reads as the largest one. -/
def strtoull (s : Bytes) : UInt64 :=
  let (neg, v) := readNumber s
  if 2 ^ 64 ≤ v then UInt64.ofNat (2 ^ 64 - 1)
  else if neg then 0 - UInt64.ofNat v else UInt64.ofNat v

/-- `atoi`: `strtol`, cut to an `int`. -/
def atoi (s : Bytes) : Int :=
  let (neg, v) := readNumber s
  Int.bmod (if neg then max (-(v : Int)) (-(2 ^ 63)) else min (v : Int) (2 ^ 63 - 1)) (2 ^ 32)

/-- `strstr`: what follows the first place where `needle` stands. -/
def afterFirst (needle : Bytes) : Bytes → Option Bytes
  | [] => if needle = [] then some [] else none
  | c :: cs =>
    if needle.isPrefixOf (c :: cs) then some ((c :: cs).drop needle.length)
    else afterFirst needle cs

/-- A text that does not start with a digit. -/
def NoDigit (s : Bytes) : Prop := ∀ c cs, s = c :: cs → isDigit c = false

theorem noDigit_nil : NoDigit [] := by
  intro c cs h
  cases h

theorem digitByte_toNat {c : Char} (h : c.isDigit) : (UInt8.ofNat c.toNat).toNat = c.toNat := by
  rw [Char.isDigit_iff_toNat] at h
  simp only [UInt8.toNat_ofNat']
  have : '9'.toNat = 57 := rfl
  omega

theorem isDigit_digitByte {c : Char} (h : c.isDigit) : isDigit (UInt8.ofNat c.toNat) = true := by
  have hb := digitByte_toNat h
  rw [Char.isDigit_iff_toNat] at h
  have h0 : '0'.toNat = 48 := rfl
  have h9 : '9'.toNat = 57 := rfl
  simp only [isDigit, Bool.and_eq_true, decide_eq_true_eq, UInt8.le_iff_toNat_le, hb]
  exact ⟨by simpa [h0] using h.1, by simpa [h9] using h.2⟩

variable {n : Nat} {rest : Bytes} {sep : UInt8}

theorem mem_dec {c : UInt8} (h : c ∈ dec n) : isDigit c = true := by
  obtain ⟨d, hd, rfl⟩ := List.mem_map.1 h
  exact isDigit_digitByte (Nat.isDigit_of_mem_toDigits (by omega) (by omega) hd)

theorem dec_ne_nil (n : Nat) : dec n ≠ [] := by
  simp [dec, Nat.toDigits_ne_nil]

theorem length_dec_le {k : Nat} (hk : 0 < k) (h : n < 10 ^ k) : (dec n).length ≤ k := by
  rw [dec, List.length_map]
  exact (Nat.length_toDigits_le_iff (by omega) hk).2 h

theorem readDigits_digits (acc : Nat) (ds : List Char) (hds : ∀ c ∈ ds, c.isDigit) (rest : Bytes) :
    readDigits acc (ds.map (fun c => UInt8.ofNat c.toNat) ++ rest)
      = readDigits (Nat.ofDigitChars 10 ds acc) rest := by
  induction ds generalizing acc with
  | nil => rfl
  | cons d ds ih =>
    have hd := hds d List.mem_cons_self
    rw [List.map_cons, List.cons_append, readDigits, if_pos (isDigit_digitByte hd),
      ih _ fun c hc => hds c (List.mem_cons_of_mem _ hc), Nat.ofDigitChars_cons,
      digitByte_toNat hd, Nat.mul_comm]
    rfl

theorem readDigits_dec (n : Nat) (hrest : NoDigit rest) : readDigits 0 (dec n ++ rest) = n := by
  rw [dec, readDigits_digits 0 _ fun c hc => Nat.isDigit_of_mem_toDigits (by omega) (by omega) hc,
    Nat.ofDigitChars_ten_toDigits]
  cases rest with
  | nil => rfl
  | cons c cs => rw [readDigits, if_neg (by simp [hrest c cs rfl])]

theorem readNumber_dec (n : Nat) (hrest : NoDigit rest) :
    readNumber (dec n ++ rest) = (false, n) := by
  have hval := readDigits_dec n hrest
  cases hd : dec n with
  | nil => exact absurd hd (dec_ne_nil n)
  | cons c cs =>
    have hc : isDigit c = true := mem_dec (n := n) (by rw [hd]; exact List.mem_cons_self)
    simp only [isDigit, Bool.and_eq_true, decide_eq_true_eq, UInt8.le_iff_toNat_le] at hc
    have hns : isCSpace c = false := by
      simp only [isCSpace, Bool.or_eq_false_iff, decide_eq_false_iff_not, Bool.and_eq_false_iff,
        UInt8.le_iff_toNat_le, ← UInt8.toNat_inj]
      simp only [UInt8.reduceToNat] at hc ⊢
      omega
    have hm : c ≠ 0x2d := by rintro rfl; simp at hc
    have hp : c ≠ 0x2b := by rintro rfl; simp at hc
    rw [hd] at hval
    simp only [readNumber, List.cons_append, List.dropWhile_cons, hns, Bool.false_eq_true, if_false,
      if_neg hm, if_neg hp]
    rw [← List.cons_append, hval]

/-- **A printed number is read back**, whatever follows it that is no digit. -/
theorem strtoull_dec (n : UInt64) (hrest : NoDigit rest) : strtoull (dec n.toNat ++ rest) = n := by
  have hlt := n.toNat_lt
  simp only [strtoull, readNumber_dec _ hrest, Bool.false_eq_true, if_false]
  rw [if_neg (by omega)]
  exact UInt64.ofNat_toNat

theorem atoi_dec (h : n < 2 ^ 31) : atoi (dec n) = n := by
  have hr := readNumber_dec n noDigit_nil
  rw [List.append_nil] at hr
  simp only [atoi, hr, Bool.false_eq_true, if_false]
  rw [Int.min_eq_left (by omega), Int.bmod_def]
  omega

/-! ## Fields between separators -/

/-- A line cut at the separator into at most `max` fields; the last one keeps what is left. -/
def splitMax (sep : UInt8) : Nat → Bytes → List Bytes
  | 0, line => [line]
  | 1, line => [line]
  | max + 2, line =>
    match line.dropWhile (· ≠ sep) with
    | [] => [line]
    | _ :: rest => line.takeWhile (· ≠ sep) :: splitMax sep (max + 1) rest

theorem dropWhile_ne_append {f : Bytes} (hf : sep ∉ f) (rest : Bytes) :
    (f ++ sep :: rest).dropWhile (· ≠ sep) = sep :: rest := by
  rw [List.dropWhile_append_of_pos (by
    intro c hc
    simp only [ne_eq, decide_eq_true_eq]
    rintro rfl
    exact hf hc)]
  simp

theorem takeWhile_ne_append {f : Bytes} (hf : sep ∉ f) (rest : Bytes) :
    (f ++ sep :: rest).takeWhile (· ≠ sep) = f := by
  rw [List.takeWhile_append_of_pos (by
    intro c hc
    simp only [ne_eq, decide_eq_true_eq]
    rintro rfl
    exact hf hc)]
  simp

/-- **Joined fields are split again**: there are few enough of them, and none has the separator. -/
theorem splitMax_intercalate {fs : List Bytes} (hne : fs ≠ [])
    (hfs : ∀ f ∈ fs, sep ∉ f) {max : Nat} (hmax : fs.length ≤ max) :
    splitMax sep max ([sep].intercalate fs) = fs := by
  induction fs generalizing max with
  | nil => exact absurd rfl hne
  | cons f fs ih =>
    have hf : sep ∉ f := hfs f List.mem_cons_self
    cases fs with
    | nil =>
      have hline : [sep].intercalate [f] = f := by simp [List.intercalate]
      rw [hline]
      match max, hmax with
      | 1, _ => rfl
      | max + 2, _ =>
        have hdrop : f.dropWhile (· ≠ sep) = [] := by
          rw [List.dropWhile_eq_nil_iff]
          intro c hc
          simp only [ne_eq, decide_eq_true_eq]
          rintro rfl
          exact hf hc
        rw [splitMax, hdrop]
    | cons g fs =>
      have hline : [sep].intercalate (f :: g :: fs) = f ++ sep :: [sep].intercalate (g :: fs) := by
        simp [List.intercalate]
      rw [hline]
      match max, hmax with
      | max + 2, hmax =>
        rw [splitMax, dropWhile_ne_append hf, takeWhile_ne_append hf]
        simp only
        rw [ih (by simp) (fun x hx => hfs x (List.mem_cons_of_mem _ hx)) (by simpa using hmax)]

end Ps5Upload.CText
