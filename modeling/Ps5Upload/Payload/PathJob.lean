import Ps5Upload.Payload.WebuiValues

/-!
# The arguments of a job on one path

`webui_path_job_args` of `webui_codec.c` writes the arguments of a job that the console's web page asks for,
and `fsj_json_str` of `fs_jobs.c` reads them.

* `pathJobArgs_read` — a path and a name reach the file operation as they were sent.
-/

namespace Ps5Upload.WebuiCodec

open ByteFile Checked CText JsonSyntax

/-! ## Writing -/

/-- `put_jstr`: `"key":"<escaped>"` or `"key":null`, behind what is written; none where it does not fit. -/
def putJstr (cap : Nat) (out key : Bytes) (s : Option Bytes) : Res (Option Bytes) :=
  match s with
  | none =>
    let piece := 0x22 :: key ++ ascii "\":null"
    return if cap - out.length ≤ piece.length then none else some (out ++ piece)
  | some s =>
    let head := 0x22 :: key ++ ascii "\":\""
    if cap - out.length ≤ head.length then return none
    else do
      let (written, need) ← webuiJsonEscape (cap - (out ++ head).length) s
      return if cap - (out ++ head).length ≤ need ∨ cap - (out ++ head).length - need < 2 then none
        else some (out ++ head ++ written ++ [0x22])

/-- The tail and the closing brace. -/
def putTail (cap : Nat) (out tail : Bytes) : Option Bytes :=
  if cap - out.length ≤ (tail ++ [0x7d]).length then none else some (out ++ tail ++ [0x7d])

/-- `webui_path_job_args` -/
def webuiPathJobArgs (cap : Nat) (path : Bytes) (name : Option Bytes) (tail : Bytes) : Res (Option Bytes) :=
  if path = [] ∨ cap < 2 then return none
  else do
    match ← putJstr cap [0x7b] (ascii "path") (some path) with
    | none => return none
    | some out =>
      match name with
      | none => return putTail cap out tail
      | some name =>
        if cap - out.length < 2 then return none
        else do
          match ← putJstr cap (out ++ [0x2c]) (ascii "name") (some name) with
          | none => return none
          | some out => return putTail cap out tail

/-! ## Reading -/

variable {p key : Bytes} {cap : Nat} {c : UInt8}

theorem length_splitStr {k r : Bytes} (h : splitStr p = some (k, r)) : r.length < p.length := by
  rw [splitStr_eq h, List.length_append, List.length_cons]
  omega

/-- `find_value`: what follows the colon of the first key of the object that is spelled so. -/
def findValue (key : Bytes) (depth : Int) (p : Bytes) : Option Bytes :=
  match p with
  | [] => none
  | c :: cs =>
    if c = 0x22 then
      match _h : splitStr cs with
      | none => none
      | some (k, r) =>
        if depth = 1 ∧ k = key then
          match ws r with
          | 0x3a :: q => some (ws q)
          | _ => findValue key depth r
        else findValue key depth r
    else if c = 0x7b ∨ c = 0x5b then findValue key (depth + 1) cs
    else if c = 0x7d ∨ c = 0x5d then findValue key (depth - 1) cs
    else findValue key depth cs
termination_by p.length
decreasing_by
  all_goals
    first
    | (have hsplit := length_splitStr _h; simp only [List.length_cons]; omega)
    | (simp only [List.length_cons]; omega)

/-- A code unit's bytes. -/
def unitBytes (v : Nat) : Bytes :=
  if v < 0x80 then [UInt8.ofNat v]
  else if v < 0x800 then [UInt8.ofNat (0xc0 + v / 64), UInt8.ofNat (0x80 + v % 64)]
  else [UInt8.ofNat (0xe0 + v / 4096), UInt8.ofNat (0x80 + v / 64 % 64), UInt8.ofNat (0x80 + v % 64)]

/-- The bytes of an escape, and how many characters it takes after the backslash. -/
def unescape : Bytes → Option (Bytes × Nat)
  | [] => none
  | d :: r =>
    if d = 0x6e then some ([0x0a], 1)
    else if d = 0x74 then some ([0x09], 1)
    else if d = 0x72 then some ([0x0d], 1)
    else if d = 0x62 then some ([0x08], 1)
    else if d = 0x66 then some ([0x0c], 1)
    else if d = 0x75 then
      match hex4 r with
      | none => none
      | some v => if v = 0 ∨ (0xd800 ≤ v ∧ v < 0xe000) then none else some (unitBytes v, 5)
    else some ([d], 1)

/-- The loop of `fsj_json_str`, with `n` bytes written. -/
def readStr (cap n : Nat) (p : Bytes) : Option Bytes :=
  match p with
  | [] => none
  | c :: r =>
    if c = 0x22 then some []
    else if c = 0x5c ∧ r ≠ [] then
      match unescape r with
      | none => none
      | some (u, used) => if cap ≤ n + u.length then none else (readStr cap (n + u.length) (r.drop used)).map (u ++ ·)
    else if cap ≤ n + 1 then none
    else (readStr cap (n + 1) r).map (c :: ·)
termination_by p.length
decreasing_by
  · rw [List.length_drop, List.length_cons]
    omega
  · rw [List.length_cons]
    omega

/-- `fsj_json_str`; none where it returns 0. -/
def fsjJsonStr (json key : Bytes) (cap : Nat) : Option Bytes :=
  match findValue key 0 json with
  | some (0x22 :: p) => if cap = 0 then none else readStr cap 0 p
  | _ => none

/-! ## What is written -/

/-- A text of characters other than NUL. -/
structure Text where
  cps : List Nat
  valid : ∀ cp ∈ cps, IsScalar cp ∧ cp ≠ 0

/-- A text in UTF-8. -/
def Text.bytes (t : Text) : Bytes := t.cps.flatMap encode

/-- `"key":"<escaped>"` -/
def member (key : Bytes) (t : Text) : Bytes := 0x22 :: key ++ ascii "\":\"" ++ (escapeText t.cps ++ [0x22])

/-- The name, where there is one. -/
def named (name : Option Text) : Bytes := (name.map fun n => 0x2c :: member (ascii "name") n).getD []

/-- The object that is written. -/
def jobText (path : Text) (name : Option Text) (tail : Bytes) : Bytes :=
  0x7b :: member (ascii "path") path ++ (named name ++ (tail ++ [0x7d]))

/-- What is written of a text, if it has room. -/
def fitting (cap : Nat) (text : Bytes) : Option Bytes := if text.length < cap then some text else none

theorem fitting_none {text : Bytes} (h : cap ≤ text.length) : fitting cap text = none :=
  if_neg (by omega)

theorem fitting_some {text : Bytes} (h : text.length < cap) : fitting cap text = some text := if_pos h

/-- What the escaper needs, and what it writes where there is room. -/
theorem webuiJsonEscape_text (t : Text) (cap : Nat) :
    ∃ written, webuiJsonEscape cap t.bytes = .ok (written, (escapeText t.cps).length) ∧
      ((escapeText t.cps).length < cap → written = escapeText t.cps) := by
  obtain ⟨w, hw, hlen, hwrote⟩ := esc_text t.cps ⟨cap, 0, [], false⟩ fun cp hcp => (t.valid cp hcp).1
  refine ⟨w.wrote, ?_, fun hroom => hwrote rfl (by rw [Nat.zero_add]; exact hroom)⟩
  rw [webuiJsonEscape, Text.bytes, hw, ok_bind, hlen, Nat.zero_add]
  rfl

/-- **A member is written whole or not at all.** -/
theorem putJstr_text (cap : Nat) (out key : Bytes) (t : Text) :
    putJstr cap out key (some t.bytes) =
      .ok (fitting cap (out ++ member key t)) := by
  obtain ⟨written, hesc, hwritten⟩ := webuiJsonEscape_text t
    (cap - (out ++ (0x22 :: key ++ ascii "\":\"")).length)
  have hlen : (out ++ member key t).length =
      (out ++ (0x22 :: key ++ ascii "\":\"")).length + (escapeText t.cps).length + 1 := by
    simp only [member, List.length_append, List.length_cons, List.length_nil]
    omega
  have hhead : (out ++ (0x22 :: key ++ ascii "\":\"")).length =
      out.length + (0x22 :: key ++ ascii "\":\"").length := List.length_append
  rw [putJstr]
  dsimp only
  split
  · rw [fitting_none (by omega)]
    rfl
  · rw [hesc, ok_bind]
    dsimp only
    split
    · rw [fitting_none (by omega)]
      rfl
    · rw [fitting_some (by omega), hwritten (by omega), member, List.append_assoc, List.append_assoc, List.append_assoc]
      rfl

theorem putTail_eq (cap : Nat) (out tail : Bytes) :
    putTail cap out tail = fitting cap (out ++ (tail ++ [0x7d])) := by
  have hlen : (out ++ (tail ++ [0x7d])).length = out.length + (tail ++ [0x7d]).length := List.length_append
  rw [putTail, List.append_assoc]
  split
  · rw [fitting_none (by omega)]
  · rw [fitting_some (by omega)]

/-- What follows the path. -/
theorem putNamed_eq (cap : Nat) (out : Bytes) (name : Option Text) (tail : Bytes) :
    (match name.map Text.bytes with
      | none => return putTail cap out tail
      | some name =>
        if cap - out.length < 2 then return none
        else do
          match ← putJstr cap (out ++ [0x2c]) (ascii "name") (some name) with
          | none => return none
          | some out => return putTail cap out tail : Res (Option Bytes)) =
      .ok (fitting cap (out ++ (named name ++ (tail ++ [0x7d])))) := by
  cases name with
  | none => rw [Option.map_none, putTail_eq]; rfl
  | some name =>
    rw [Option.map_some]
    dsimp only
    have hall : out ++ (named (some name) ++ (tail ++ [0x7d])) =
        out ++ [0x2c] ++ member (ascii "name") name ++ (tail ++ [0x7d]) := by
      rw [named, Option.map_some, Option.getD_some]
      simp
    have hlen : (out ++ [0x2c] ++ member (ascii "name") name ++ (tail ++ [0x7d])).length =
        (out ++ [0x2c] ++ member (ascii "name") name).length + (tail ++ [0x7d]).length := List.length_append
    have hlen' : (out ++ [0x2c] ++ member (ascii "name") name).length =
        out.length + 1 + (member (ascii "name") name).length := by
      rw [List.length_append, List.length_append, List.length_singleton]
    have hpos : 0 < (tail ++ [0x7d]).length := by simp
    rw [hall]
    by_cases htwo : cap - out.length < 2
    · rw [if_pos htwo, fitting_none (by omega)]
      rfl
    · rw [if_neg htwo, putJstr_text, ok_bind]
      by_cases hroom : (out ++ [0x2c] ++ member (ascii "name") name).length < cap
      · rw [fitting_some hroom]
        dsimp only
        rw [putTail_eq]
        rfl
      · rw [fitting_none (Nat.le_of_not_lt hroom), fitting_none (by omega)]
        rfl

/-- **The arguments are written whole or not at all.** -/
theorem webuiPathJobArgs_eq (cap : Nat) (path : Text) (name : Option Text) (tail : Bytes) :
    webuiPathJobArgs cap path.bytes (name.map Text.bytes) tail =
      .ok (if path.bytes = [] then none else fitting cap (jobText path name tail)) := by
  have hlen : (0x7b :: member (ascii "path") path ++ (named name ++ (tail ++ [0x7d]))).length =
      (0x7b :: member (ascii "path") path).length + (named name ++ (tail ++ [0x7d])).length := List.length_append
  have hfirst : [0x7b] ++ member (ascii "path") path = 0x7b :: member (ascii "path") path := rfl
  have htwo : 2 ≤ (0x7b :: member (ascii "path") path).length := by
    rw [List.length_cons, member]
    simp
  rw [webuiPathJobArgs]
  by_cases hnil : path.bytes = []
  · rw [if_pos (Or.inl hnil), if_pos hnil]
    rfl
  · rw [if_neg hnil, jobText]
    by_cases hsmall : cap < 2
    · rw [if_pos (Or.inr hsmall), fitting_none (by omega)]
      rfl
    · rw [if_neg (not_or.2 ⟨hnil, hsmall⟩), putJstr_text, ok_bind, hfirst]
      by_cases hroom : (0x7b :: member (ascii "path") path).length < cap
      · rw [fitting_some hroom]
        exact putNamed_eq cap _ name tail
      · rw [fitting_none (Nat.le_of_not_lt hroom), fitting_none (by omega)]
        rfl

/-! ## What is found -/

theorem findValue_skip (h : c ≠ 0x22 ∧ c ≠ 0x7b ∧ c ≠ 0x5b ∧ c ≠ 0x7d ∧ c ≠ 0x5d)
    (depth : Int) (cs : Bytes) : findValue key depth (c :: cs) = findValue key depth cs := by
  rw [findValue, if_neg h.1, if_neg (not_or.2 ⟨h.2.1, h.2.2.1⟩), if_neg (not_or.2 h.2.2.2)]

theorem findValue_open (key : Bytes) (depth : Int) (cs : Bytes) :
    findValue key depth (0x7b :: cs) = findValue key (depth + 1) cs := by
  rw [findValue, if_neg (by decide), if_pos (Or.inl rfl)]

/-- A string is stepped over unless it is the key, with a colon after it. -/
theorem findValue_string {depth : Int} {cs k r : Bytes} (h : splitStr cs = some (k, r))
    (hno : k = key → (ws r).head? ≠ some 0x3a) :
    findValue key depth (0x22 :: cs) = findValue key depth r := by
  rw [findValue, if_pos rfl]
  split
  · rename_i h'
    rw [h] at h'
    cases h'
  · rename_i h'
    rw [h] at h'
    cases h'
    split
    · rename_i hk
      split
      · rename_i q hq
        rw [hq] at hno
        exact absurd rfl (hno hk.2)
      · rfl
    · rfl

/-- **A key's value** is what follows its colon. -/
theorem findValue_key {cs q : Bytes} (h : splitStr cs = some (key, 0x3a :: q)) :
    findValue key 1 (0x22 :: cs) = some (ws q) := by
  rw [findValue, if_pos rfl]
  split
  · rename_i h'
    rw [h] at h'
    cases h'
  · rename_i h'
    rw [h] at h'
    cases h'
    rw [if_pos ⟨rfl, rfl⟩]
    rfl

/-! ## What is read -/

theorem readStr_quote (cap n : Nat) (p : Bytes) : readStr cap n (0x22 :: p) = some [] := by
  rw [readStr, if_pos rfl]

theorem readStr_plain (h : c ≠ 0x22 ∧ c ≠ 0x5c) (cap n : Nat) (p : Bytes) :
    readStr cap n (c :: p) = if n + 1 < cap then (readStr cap (n + 1) p).map (c :: ·) else none := by
  rw [readStr, if_neg h.1, if_neg (fun h' => h.2 h'.1)]
  split
  · rw [if_neg (by omega)]
  · rw [if_pos (by omega)]

/-- An escape, and the text after it. -/
theorem readStr_escape {e u : Bytes} (h : unescape (e ++ p) = some (u, e.length)) (hne : e ≠ []) (cap n : Nat) :
    readStr cap n (0x5c :: (e ++ p)) =
      if n + u.length < cap then (readStr cap (n + u.length) p).map (u ++ ·) else none := by
  rw [readStr, if_neg (by decide), if_pos ⟨rfl, List.append_ne_nil_of_left_ne_nil hne p⟩]
  split
  · rename_i h'
    rw [h] at h'
    cases h'
  · rename_i h'
    rw [h] at h'
    cases h'
    rw [List.drop_left]
    split
    · rw [if_neg (by omega)]
    · rw [if_pos (by omega)]

/-- Bytes that stand for themselves. -/
theorem readStr_plains {bs : Bytes} (h : ∀ c ∈ bs, c ≠ 0x22 ∧ c ≠ 0x5c) (cap : Nat) (p : Bytes) :
    ∀ n, n < cap → readStr cap n (bs ++ p) =
      if n + bs.length < cap then (readStr cap (n + bs.length) p).map (bs ++ ·) else none := by
  induction bs with
  | nil =>
    intro n hn
    rw [List.length_nil, Nat.add_zero, if_pos hn, List.nil_append]
    simp
  | cons c bs ih =>
    intro n hn
    rw [List.cons_append, readStr_plain (h c List.mem_cons_self), List.length_cons]
    by_cases hroom : n + 1 < cap
    · rw [if_pos hroom, ih (fun d hd => h d (List.mem_cons_of_mem c hd)) _ hroom]
      have hlen : n + 1 + bs.length = n + (bs.length + 1) := by omega
      rw [hlen]
      split
      · rw [Option.map_map]
        rfl
      · rfl
    · rw [if_neg hroom, if_neg (by omega)]

theorem unescape_shortEscape {e : UInt8 × Nat} (h : e ∈ shortEscapes) (p : Bytes) :
    unescape ([e.1] ++ p) = some (encode e.2, 1) := by
  simp only [shortEscapes, List.mem_cons, List.not_mem_nil, or_false] at h
  rcases h with rfl | rfl | rfl | rfl | rfl | rfl | rfl | rfl <;> rfl

/-- The escape of a control character. -/
theorem unescape_code {a b d : UInt8} (h : isHex a ∧ isHex b ∧ isHex c ∧ isHex d)
    (hv : codeUnit a b c d < 0x80) (hz : codeUnit a b c d ≠ 0) (p : Bytes) :
    unescape ([0x75, a, b, c, d] ++ p) = some (encode (codeUnit a b c d), 5) := by
  have hu : unescape ([0x75, a, b, c, d] ++ p) =
      match hex4 (a :: b :: c :: d :: p) with
      | none => none
      | some v => if v = 0 ∨ (0xd800 ≤ v ∧ v < 0xe000) then none else some (unitBytes v, 5) := rfl
  rw [hu, hex4_digits h]
  dsimp only
  rw [if_neg (by omega), unitBytes, encode, if_pos hv, if_pos hv]

/-- **A character is read as it was**, or refused where it does not fit. -/
theorem readStr_char {cp : Nat} (hcp : IsScalar cp ∧ cp ≠ 0) {n : Nat} (hn : n < cap) (p : Bytes) :
    readStr cap n (escapeChar cp ++ p) =
      if n + (encode cp).length < cap then (readStr cap (n + (encode cp).length) p).map (encode cp ++ ·)
      else none := by
  have hlt : cp < 0x110000 := hcp.1.elim (fun h => by omega) fun h => h.2
  rw [escapeChar]
  by_cases hlow : cp < 0x80
  · rw [if_pos hlow]
    have henc : encode cp = [UInt8.ofNat cp] := if_pos hlow
    rcases escapeByte_cases hlow hcp.2 with ⟨e, he, htext, rfl⟩ | ⟨hhex, htext, hvalue⟩ | ⟨htext, hplain⟩
    · rw [htext]
      exact readStr_escape (e := [e.1]) (unescape_shortEscape he p) (List.cons_ne_nil _ _) cap n
    · have hcode := unescape_code ⟨rfl, rfl, hhex.1, hhex.2⟩ (by rw [hvalue]; exact hlow)
        (by rw [hvalue]; exact hcp.2) p
      rw [hvalue] at hcode
      rw [htext]
      exact readStr_escape hcode (List.cons_ne_nil _ _) cap n
    · rw [htext, henc]
      exact readStr_plains (fun c hc => by
        rw [List.mem_singleton.1 hc]
        exact hplain.2) cap p n hn
  · rw [if_neg hlow]
    refine readStr_plains (fun c hc => ?_) cap p n hn
    have hhigh := UInt8.le_iff_toNat_le.1 (encode_high (Nat.le_of_not_lt hlow) hlt c hc)
    constructor <;>
    · rintro rfl
      exact absurd hhigh (by decide)

/-- **Escaped text is read as the text**, or refused where it does not fit. -/
theorem readStr_text (cap : Nat) (p : Bytes) : ∀ (cps : List Nat), (∀ cp ∈ cps, IsScalar cp ∧ cp ≠ 0) →
    ∀ n, n < cap → readStr cap n (escapeText cps ++ 0x22 :: p) =
      if n + (cps.flatMap encode).length < cap then some (cps.flatMap encode) else none
  | [], _, n, hn => by
    have hnil : escapeText [] = [] := rfl
    rw [hnil, List.nil_append, readStr_quote, List.flatMap_nil, List.length_nil, Nat.add_zero, if_pos hn]
  | cp :: cps, hcps, n, hn => by
    have hcons : escapeText (cp :: cps) = escapeChar cp ++ escapeText cps := List.flatMap_cons
    rw [hcons, List.append_assoc, readStr_char (hcps cp List.mem_cons_self) hn, List.flatMap_cons,
      List.length_append]
    by_cases hroom : n + (encode cp).length < cap
    · rw [if_pos hroom, readStr_text cap p cps (fun c hc => hcps c (List.mem_cons_of_mem cp hc)) _ hroom,
        Nat.add_assoc]
      split <;> rfl
    · rw [if_neg hroom, if_neg (by omega)]

/-- A member's text is stepped over as a key or as a value. -/
theorem splitStr_text (t : Text) (p : Bytes) :
    splitStr (escapeText t.cps ++ 0x22 :: p) = some (escapeText t.cps, p) := by
  obtain ⟨s, htext, -⟩ := escapeText_chrs t.valid
  rw [← htext]
  exact splitStr_string s p

/-- A key of letters ends at its closing quote. -/
theorem splitStr_key (h : ∀ c ∈ key, c ≠ 0x5c ∧ c ≠ 0x22) (p : Bytes) :
    splitStr (key ++ 0x22 :: p) = some (key, p) := by
  induction key with
  | nil => exact splitStr_quote p
  | cons c key ih =>
    rw [List.cons_append, splitStr_plain (h c List.mem_cons_self).1 (h c List.mem_cons_self).2,
      ih fun d hd => h d (List.mem_cons_of_mem c hd)]
    rfl

theorem plain_path : ∀ c ∈ ascii "path", c ≠ 0x5c ∧ c ≠ 0x22 := by
  have hall : (ascii "path").all (fun c => c ≠ 0x5c ∧ c ≠ 0x22) = true := by decide
  exact fun c hc => of_decide_eq_true (List.all_eq_true.1 hall c hc)

theorem plain_name : ∀ c ∈ ascii "name", c ≠ 0x5c ∧ c ≠ 0x22 := by
  have hall : (ascii "name").all (fun c => c ≠ 0x5c ∧ c ≠ 0x22) = true := by decide
  exact fun c hc => of_decide_eq_true (List.all_eq_true.1 hall c hc)

theorem member_append (key : Bytes) (t : Text) (p : Bytes) :
    member key t ++ p = 0x22 :: (key ++ 0x22 :: 0x3a :: 0x22 :: (escapeText t.cps ++ 0x22 :: p)) := by
  have hmid : ascii "\":\"" = [0x22, 0x3a, 0x22] := rfl
  rw [member, hmid]
  simp

/-- The string at a key is read as the text it was written from. -/
theorem fsjJsonStr_text {json : Bytes} {t : Text}
    (h : findValue key 0 json = some (0x22 :: (escapeText t.cps ++ 0x22 :: p))) (room : Nat) :
    fsjJsonStr json key room = if t.bytes.length < room then some t.bytes else none := by
  rw [fsjJsonStr, h]
  change (if room = 0 then none else readStr room 0 (escapeText t.cps ++ 0x22 :: p)) = _
  by_cases hz : room = 0
  · rw [if_pos hz, if_neg (by omega)]
  · rw [if_neg hz, readStr_text room p t.cps t.valid 0 (Nat.pos_of_ne_zero hz), Nat.zero_add]
    rfl

theorem findValue_path (path : Text) (name : Option Text) (tail : Bytes) :
    findValue (ascii "path") 0 (jobText path name tail) =
      some (0x22 :: (escapeText path.cps ++ 0x22 :: (named name ++ (tail ++ [0x7d])))) := by
  rw [jobText, List.cons_append, member_append, findValue_open]
  exact findValue_key (splitStr_key plain_path _)

theorem findValue_name (path name : Text) (tail : Bytes) :
    findValue (ascii "name") 0 (jobText path (some name) tail) =
      some (0x22 :: (escapeText name.cps ++ 0x22 :: (tail ++ [0x7d]))) := by
  have hname : named (some name) = 0x2c :: member (ascii "name") name := rfl
  rw [jobText, List.cons_append, member_append, findValue_open,
    findValue_string (splitStr_key plain_path _) (fun h => by cases h), findValue_skip (by decide),
    findValue_string (splitStr_text path _) (fun _ => by rw [hname, List.cons_append, ws_cons rfl]; exact fun h => by cases h), hname,
    List.cons_append, findValue_skip (by decide), member_append]
  exact findValue_key (splitStr_key plain_name _)

/-- **A path and a name reach the file operation as they were sent**, or are refused where they do not fit. -/
theorem pathJobArgs_read (path : Text) (name : Option Text) (tail : Bytes) (cap : Nat) :
    ∃ r, webuiPathJobArgs cap path.bytes (name.map Text.bytes) tail = .ok r ∧ ∀ out, r = some out →
      (∀ room, fsjJsonStr out (ascii "path") room = if path.bytes.length < room then some path.bytes else none) ∧
      ∀ n, name = some n → ∀ room,
        fsjJsonStr out (ascii "name") room = if n.bytes.length < room then some n.bytes else none := by
  refine ⟨_, webuiPathJobArgs_eq cap path name tail, fun out hout => ?_⟩
  have hjob : out = jobText path name tail := by
    split at hout
    · cases hout
    · rw [fitting] at hout
      split at hout
      · exact (Option.some.inj hout).symm
      · cases hout
  subst hjob
  refine ⟨fun room => fsjJsonStr_text (findValue_path path name tail) room, fun n hn room => ?_⟩
  subst hn
  exact fsjJsonStr_text (findValue_name path n tail) room

/-- A text of ASCII characters. -/
def Text.ofAscii (cps : List Nat) (h : ∀ cp ∈ cps, cp < 0x80 ∧ cp ≠ 0) : Text where
  cps := cps
  valid cp hcp := ⟨Or.inl (Nat.lt_trans (h cp hcp).1 (by decide)), (h cp hcp).2⟩

/-- A path with a quote and a line break, a name with a backslash. -/
theorem pathJobArgs_read_quoted :
    ∃ out, webuiPathJobArgs 64 (Text.ofAscii [0x2f, 0x22, 0x0a] (by decide)).bytes
        (some (Text.ofAscii [0x5c] (by decide)).bytes) (ascii ",\"mode\":\"0755\"") = .ok (some out) ∧
      fsjJsonStr out (ascii "path") 8 = some [0x2f, 0x22, 0x0a] ∧
      fsjJsonStr out (ascii "path") 3 = none ∧ fsjJsonStr out (ascii "name") 2 = some [0x5c] := by
  obtain ⟨r, hr, hread⟩ := pathJobArgs_read (Text.ofAscii [0x2f, 0x22, 0x0a] (by decide))
    (some (Text.ofAscii [0x5c] (by decide))) (ascii ",\"mode\":\"0755\"") 64
  have heq := webuiPathJobArgs_eq 64 (Text.ofAscii [0x2f, 0x22, 0x0a] (by decide))
    (some (Text.ofAscii [0x5c] (by decide))) (ascii ",\"mode\":\"0755\"")
  rw [heq] at hr
  obtain ⟨hpath, hname⟩ := hread _ (Except.ok.inj hr).symm
  exact ⟨_, heq, (hpath 8).trans rfl, (hpath 3).trans rfl, (hname _ rfl 2).trans rfl⟩

end Ps5Upload.WebuiCodec
