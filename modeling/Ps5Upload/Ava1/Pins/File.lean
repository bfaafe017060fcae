import Ps5Upload.Lib.ListAt
import Ps5Upload.Lib.Bytes
import Mathlib.Data.List.Basic
import Mathlib.Data.List.DropRight

/-!
# The pins file

`pinned`, `pin`, `unpin` and `rewrite_pins` of `ps5upload-ava1/src/pool.rs`: a text of lines
`host key`, read and rewritten whole.  How a key is written in hex is a parameter.
-/

namespace Ps5Upload.Pins

open ByteFile

abbrev Text := List Char

/-! ## Texts -/

/-- The Unicode white space, which `trim` takes off. -/
def isWhitespace (c : Char) : Bool :=
  c.toNat ∈ [0x20, 0x85, 0xA0, 0x1680, 0x2028, 0x2029, 0x202F, 0x205F, 0x3000] ||
    (9 ≤ c.toNat && c.toNat ≤ 13) || (0x2000 ≤ c.toNat && c.toNat ≤ 0x200A)

def trim (t : Text) : Text := (t.dropWhile isWhitespace).rdropWhile isWhitespace

/-- A text cut at its first space. -/
def splitOnce (t : Text) : Option (Text × Text) :=
  if ' ' ∈ t then some (t.takeWhile (· ≠ ' '), (t.dropWhile (· ≠ ' ')).drop 1) else none

/-- A line that ended in a line feed, without the carriage return in front of it. -/
def stripCr (l : Text) : Text := if l.getLast? = some '\r' then l.dropLast else l

/-- The lines of a text; the last needs no line feed. -/
def linesOf (t : Text) : List Text :=
  let parts := t.splitOn '\n'
  parts.dropLast.map stripCr ++ (parts.getLast?.toList.filter (· ≠ []))

/-! ## The file -/

def keyBytes : Nat := 32

/-- A public key. -/
abbrev Key := { key : Bytes // key.length = keyBytes }

/-- How keys are written, and which consoles can be reached. -/
structure Ava1 where
  encode : Key → Text
  decode : Text → Option Bytes
  reachable : Text → Bool

/-- A host that has neither a space nor a line feed. -/
def Plain (host : Text) : Prop := ' ' ∉ host ∧ '\n' ∉ host

/-- What hex does, and that no name with a space or a line feed is resolved. -/
structure Ava1.Lawful (ava1 : Ava1) : Prop where
  decode_encode : ∀ key, ava1.decode (ava1.encode key) = some key.val
  no_space : ∀ key, ∀ c ∈ ava1.encode key, isWhitespace c = false
  plain : ∀ host, ava1.reachable host = true → Plain host

section File

variable (ava1 : Ava1)

/-- The key a line gives a host; lines that cannot be attributed give none. -/
def lineKey (host line : Text) : Option Key :=
  match splitOnce line with
  | none => none
  | some (h, k) =>
    if h ≠ host then none
    else match ava1.decode (trim k) with
      | none => none
      | some key => if hlen : key.length = keyBytes then some ⟨key, hlen⟩ else none

/-- The key pinned for a host, if one was recorded. -/
def pinned (file host : Text) : Option Key := (linesOf file).findSome? (lineKey ava1 host)

/-- Lines as the body of the file. -/
def body (lines : List Text) : Text :=
  if lines = [] then [] else ['\n'].intercalate lines ++ ['\n']

/-- The file after its lines were changed. -/
def rewritePins (change : List Text → List Text) (file : Text) : Text := body (change (linesOf file))

def retained (host : Text) (lines : List Text) : List Text :=
  lines.filter fun l => (splitOnce l).map Prod.fst ≠ some host

/-- Records a host's key. -/
def pin (host : Text) (key : Key) (file : Text) : Text :=
  rewritePins (fun lines => retained host lines ++ [host ++ ' ' :: ava1.encode key]) file

/-- Removes the pin for a host. -/
def unpin (host file : Text) : Text := rewritePins (retained host) file

end File

/-! ## Lines -/

theorem intercalate_concat (ls : List Text) (hne : ls ≠ []) :
    ['\n'].intercalate (ls ++ [[]]) = ['\n'].intercalate ls ++ ['\n'] := by
  induction ls with
  | nil => exact absurd rfl hne
  | cons l ls ih =>
    cases ls with
    | nil => simp [List.intercalate, List.intersperse]
    | cons m ls =>
      have hcons : ∀ rest, ['\n'].intercalate (l :: m :: rest) =
          l ++ '\n' :: ['\n'].intercalate (m :: rest) := fun rest => by
        simp [List.intercalate, List.intersperse]
      have hih := ih (List.cons_ne_nil m ls)
      rw [List.cons_append] at hih
      rw [List.cons_append, List.cons_append, hcons, hcons, hih, List.append_assoc]
      rfl

theorem linesOf_body {ls : List Text} (hls : ∀ l ∈ ls, '\n' ∉ l) : linesOf (body ls) = ls.map stripCr := by
  by_cases hne : ls = []
  · subst hne
    rfl
  · have hsplit : (body ls).splitOn '\n' = ls ++ [[]] := by
      rw [body, if_neg hne, ← intercalate_concat ls hne]
      refine List.splitOn_intercalate '\n' (fun l hl => ?_) (List.append_ne_nil_of_right_ne_nil _ (by simp))
      rcases List.mem_append.1 hl with hl | hl
      · exact hls l hl
      · rw [List.mem_singleton.1 hl]
        exact List.not_mem_nil
    rw [linesOf, hsplit]
    simp

/-- No line of a text has a line feed. -/
theorem no_newline {t l : Text} (h : l ∈ linesOf t) : '\n' ∉ l := by
  rw [linesOf] at h
  rcases List.mem_append.1 h with h | h
  · obtain ⟨p, hp, rfl⟩ := List.mem_map.1 h
    have hp' := ListAt.not_mem_of_mem_splitOn (List.dropLast_subset _ hp)
    unfold stripCr
    split
    · exact fun hmem => hp' (List.dropLast_subset _ hmem)
    · exact hp'
  · have hmem := (List.mem_filter.1 h).1
    rw [Option.mem_toList] at hmem
    exact ListAt.not_mem_of_mem_splitOn (List.mem_of_getLast? hmem)

/-! ## What the lines say -/

variable {ava1 : Ava1}

theorem trim_concat (k : Text) {c : Char} (hc : isWhitespace c = true) : trim (k ++ [c]) = trim k := by
  rw [trim, trim, List.dropWhile_append]
  split
  · rename_i hempty
    rw [List.isEmpty_iff.1 hempty, List.dropWhile_cons_of_pos hc]
    rfl
  · rw [List.rdropWhile_concat_pos _ _ _ hc]

theorem splitOnce_append {a : Text} (ha : ' ' ∉ a) (b : Text) : splitOnce (a ++ ' ' :: b) = some (a, b) := by
  have hpos : ∀ x ∈ a, decide (x ≠ ' ') = true := fun x hx => decide_eq_true fun h => ha (h ▸ hx)
  rw [splitOnce, if_pos (List.mem_append_right a List.mem_cons_self), List.takeWhile_append_of_pos hpos,
    List.dropWhile_append_of_pos hpos]
  simp

/-- A line with a space is cut there; what stands behind it is all of the key. -/
theorem lineKey_append {a : Text} (ha : ' ' ∉ a) (host b : Text) : lineKey ava1 host (a ++ ' ' :: b) =
    if a ≠ host then none
    else match ava1.decode (trim b) with
      | none => none
      | some key => if hlen : key.length = keyBytes then some ⟨key, hlen⟩ else none := by
  rw [lineKey, splitOnce_append ha]

theorem lineKey_of_no_space {l : Text} (hl : ' ' ∉ l) (host : Text) : lineKey ava1 host l = none := by
  rw [lineKey, splitOnce, if_neg hl]

/-- A carriage return at the end of a line says nothing. -/
theorem lineKey_stripCr (host l : Text) : lineKey ava1 host (stripCr l) = lineKey ava1 host l := by
  unfold stripCr
  split
  · rename_i hlast
    obtain ⟨x, rfl⟩ : ∃ x, l = x ++ ['\r'] := List.getLast?_eq_some_iff.1 hlast
    rw [List.dropLast_concat]
    by_cases hspace : ' ' ∈ x
    · obtain ⟨a, b, rfl, ha⟩ := List.eq_append_cons_of_mem hspace
      rw [List.append_assoc, List.cons_append, lineKey_append ha, lineKey_append ha,
        trim_concat b (by decide)]
    · rw [lineKey_of_no_space hspace, lineKey_of_no_space fun hmem => ?_]
      rcases List.mem_append.1 hmem with hmem | hmem
      · exact hspace hmem
      · cases List.mem_singleton.1 hmem
  · rfl

/-- **What a rewritten file says** is what its lines say. -/
theorem pinned_body {ls : List Text} (hls : ∀ l ∈ ls, '\n' ∉ l) (host : Text) :
    pinned ava1 (body ls) host = ls.findSome? (lineKey ava1 host) := by
  rw [pinned, linesOf_body hls, List.findSome?_map]
  exact congrArg (List.findSome? · ls) (funext fun l => lineKey_stripCr host l)

theorem findSome?_filter {α β : Type} {f : α → Option β} {p : α → Bool} {l : List α}
    (h : ∀ a ∈ l, p a = false → f a = none) : (l.filter p).findSome? f = l.findSome? f := by
  induction l with
  | nil => rfl
  | cons a l ih =>
    have hl := ih fun b hb => h b (List.mem_cons_of_mem a hb)
    rw [List.filter_cons]
    split
    · rw [List.findSome?_cons, List.findSome?_cons, hl]
    · rename_i hp
      rw [hl, List.findSome?_cons, h a List.mem_cons_self (Bool.eq_false_iff.2 hp)]

/-- A host's lines are kept where another's are taken out. -/
theorem findSome?_retained {host other : Text} (hne : other ≠ host) (ls : List Text) :
    (retained host ls).findSome? (lineKey ava1 other) = ls.findSome? (lineKey ava1 other) := by
  refine findSome?_filter fun l _ hl => ?_
  rw [decide_eq_false_iff_not, not_not] at hl
  rw [lineKey]
  cases hs : splitOnce l with
  | none => rfl
  | some q =>
    rw [hs, Option.map_some, Option.some_inj] at hl
    exact if_pos fun h => hne (h.symm.trans hl)

theorem findSome?_retained_self (host : Text) (ls : List Text) :
    (retained host ls).findSome? (lineKey ava1 host) = none := by
  refine List.findSome?_eq_none_iff.2 fun l hl => ?_
  have hp := of_decide_eq_true (List.mem_filter.1 hl).2
  rw [lineKey]
  cases hs : splitOnce l with
  | none => rfl
  | some q =>
    rw [hs, Option.map_some] at hp
    exact if_pos fun h => hp (congrArg some h)

theorem no_newline_retained {host t : Text} : ∀ l ∈ retained host (linesOf t), '\n' ∉ l := fun _ hl =>
  no_newline (List.mem_filter.1 hl).1

/-! ## Pins read back -/

theorem pinned_unpin_other {host other : Text} (hne : other ≠ host) (file : Text) :
    pinned ava1 (unpin host file) other = pinned ava1 file other := by
  rw [unpin, rewritePins, pinned_body no_newline_retained, findSome?_retained hne, pinned]

theorem pinned_unpin (host file : Text) : pinned ava1 (unpin host file) host = none := by
  rw [unpin, rewritePins, pinned_body no_newline_retained, findSome?_retained_self]

section Lawful

variable (hl : ava1.Lawful)
include hl

theorem no_newline_encode (key : Key) : '\n' ∉ ava1.encode key := fun hmem => by
  have := hl.no_space key _ hmem
  revert this
  decide

theorem trim_encode (key : Key) : trim (ava1.encode key) = ava1.encode key := by
  have hclean := hl.no_space key
  rw [trim]
  generalize ava1.encode key = t at hclean
  have hdrop : t.dropWhile isWhitespace = t := by
    cases t with
    | nil => rfl
    | cons c t => exact List.dropWhile_cons_of_neg (by rw [hclean c List.mem_cons_self]; decide)
  rw [hdrop]
  refine List.rdropWhile_eq_self_iff.2 fun hne => ?_
  rw [hclean _ (List.getLast_mem hne)]
  decide

theorem pinned_pin_eq {host : Text} (hh : Plain host) (key : Key) (file other : Text) :
    pinned ava1 (pin ava1 host key file) other =
      ((retained host (linesOf file)).findSome? (lineKey ava1 other)).or
        (if other = host then some key else none) := by
  rw [pin, rewritePins, pinned_body fun l hmem => ?_, List.findSome?_append, List.findSome?_singleton,
    lineKey_append hh.1, trim_encode hl, hl.decode_encode]
  · congr 1
    by_cases hother : other = host
    · rw [if_neg (by rw [hother, ne_eq, not_not]), if_pos hother]
      exact dif_pos key.property
    · rw [if_pos fun h => hother h.symm, if_neg hother]
  · rcases List.mem_append.1 hmem with hmem | hmem
    · exact no_newline_retained l hmem
    · rw [List.mem_singleton.1 hmem, List.mem_append, List.mem_cons]
      rintro (h | h | h)
      · exact hh.2 h
      · cases h
      · exact no_newline_encode hl key h

/-- **A pin is read back.** -/
theorem pinned_pin {host : Text} (hh : Plain host) (key : Key) (file : Text) :
    pinned ava1 (pin ava1 host key file) host = some key := by
  rw [pinned_pin_eq hl hh, findSome?_retained_self, if_pos rfl]
  rfl

/-- **A pin is its host's only.** -/
theorem pinned_pin_other {host other : Text} (hh : Plain host) (hne : other ≠ host) (key : Key)
    (file : Text) : pinned ava1 (pin ava1 host key file) other = pinned ava1 file other := by
  rw [pinned_pin_eq hl hh, findSome?_retained hne, if_neg hne, Option.or_none, pinned]

end Lawful

end Ps5Upload.Pins
