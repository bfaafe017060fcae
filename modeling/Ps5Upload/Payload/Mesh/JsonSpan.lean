import Ps5Upload.Lib.Json
import Ps5Upload.Payload.WebuiCodec

/-!
# JSON values in a request

`skip_value`, `is_one` and `top_value` of `payload/src/mesh.c`, which find where a value of a
request ends, and check its syntax on the way.  A pointer into the text is the rest of the text
from there.

`skipValueD_print` says what they do with a text a compact writer made: they stop at the end of the
value, or refuse it because it is nested too deep.
-/

namespace Ps5Upload.Mesh

open ByteFile WebuiCodec CText JsonText

/-- `skip_string`, after the opening quote. -/
def stringRest : Bytes → Option Bytes
  | [] => none
  | c :: cs =>
    if c = 0x5c then
      match cs with
      | [] => none
      | _ :: cs' => stringRest cs'
    else if c = 0x22 then some cs
    else if c < 0x20 then none
    else stringRest cs

def skipString : Bytes → Option Bytes
  | c :: cs => if c = 0x22 then stringRest cs else none
  | [] => none

/-- `lit`: moves past a word. -/
def skipLit (w s : Bytes) : Option Bytes := if w.isPrefixOf s then some (s.drop w.length) else none

/-- `digits`: moves past the digits; there is one at least. -/
def skipDigits : Bytes → Option Bytes
  | c :: cs => if isDigit c then some (cs.dropWhile isDigit) else none
  | [] => none

def skipFrac : Bytes → Option Bytes
  | c :: cs => if c = 0x2e then skipDigits cs else some (c :: cs)
  | [] => some []

def skipExp : Bytes → Option Bytes
  | c :: cs =>
    if c = 0x65 ∨ c = 0x45 then
      match cs with
      | d :: ds => if d = 0x2b ∨ d = 0x2d then skipDigits ds else skipDigits (d :: ds)
      | [] => none
    else some (c :: cs)
  | [] => some []

def skipNumber : Bytes → Option Bytes
  | c :: cs =>
    (skipDigits (if c = 0x2d then cs else c :: cs)).bind fun p => (skipFrac p).bind skipExp
  | [] => none

/-- The key of a member and its colon. -/
def skipKey (s : Bytes) : Option Bytes :=
  (skipString (ws s)).bind fun p =>
    match ws p with
    | c :: cs => if c = 0x3a then some cs else none
    | [] => none

mutual

/-- `skip_value_d`.  Every two turns take a byte. -/
def skipValueD : Nat → Nat → Bytes → Option Bytes
  | 0, _, _ => none
  | turns + 1, depth, s =>
    match ws s with
    | [] => none
    | c :: cs =>
      if 32 < depth then none
      else if c = 0x22 then skipString (c :: cs)
      else if c = 0x74 then skipLit (ascii "true") (c :: cs)
      else if c = 0x66 then skipLit (ascii "false") (c :: cs)
      else if c = 0x6e then skipLit (ascii "null") (c :: cs)
      else if c = 0x7b then
        match ws cs with
        | d :: ds => if d = 0x7d then some ds else skipItems turns depth true (d :: ds)
        | [] => none
      else if c = 0x5b then
        match ws cs with
        | d :: ds => if d = 0x5d then some ds else skipItems turns depth false (d :: ds)
        | [] => none
      else skipNumber (c :: cs)

/-- The loop over the members of an object or the items of an array. -/
def skipItems : Nat → Nat → Bool → Bytes → Option Bytes
  | 0, _, _, _ => none
  | turns + 1, depth, isObj, s =>
    match (if isObj then skipKey s else some s) with
    | none => none
    | some p =>
      match skipValueD turns (depth + 1) p with
      | none => none
      | some p =>
        match ws p with
        | [] => none
        | c :: cs =>
          if c = 0x2c then skipItems turns depth isObj cs
          else if c = (if isObj then 0x7d else 0x5d) then some cs
          else none

end

def skipValue (s : Bytes) : Option Bytes := skipValueD (2 * s.length + 2) 0 s

/-- The whole of `s` is one value that opens with `open_`. -/
def isOne (s : Bytes) (open_ : UInt8) : Bool :=
  match ws s with
  | c :: cs =>
    if c ≠ open_ then false
    else
      match skipValue (c :: cs) with
      | some p => (ws p).isEmpty
      | none => false
  | [] => false

/-- The loop of `top_value`: the span of the key's value. -/
def topSpanFrom (key : Bytes) : Nat → Bytes → Option Bytes
  | 0, _ => none
  | turns + 1, s =>
    match skipString (ws s) with
    | none => none
    | some p =>
      match ws p with
      | [] => none
      | c :: cs =>
        if c ≠ 0x3a then none
        else
          let v := ws cs
          match skipValue v with
          | none => none
          | some p' =>
            if (ws s).take ((ws s).length - p.length) = 0x22 :: key ++ [0x22] then
              some (v.take (v.length - p'.length))
            else
              match ws p' with
              | d :: ds => if d = 0x2c then topSpanFrom key turns ds else none
              | [] => none

/-- `top_value`: the text of the value of a top-level key; `none` when it is absent or the object
is malformed. -/
def topSpan (s key : Bytes) : Option Bytes :=
  match ws s with
  | c :: cs => if c = 0x7b then topSpanFrom key s.length cs else none
  | [] => none

/-! ## Compact text -/

/-- What may follow a value inside a compact text. -/
def EndsValue (rest : Bytes) : Prop :=
  rest = [] ∨ ∃ c cs, rest = c :: cs ∧ (c = 0x2c ∨ c = 0x7d ∨ c = 0x5d)

theorem endsValue_comma (cs : Bytes) : EndsValue (0x2c :: cs) := Or.inr ⟨_, cs, rfl, Or.inl rfl⟩

theorem endsValue_brace (cs : Bytes) : EndsValue (0x7d :: cs) :=
  Or.inr ⟨_, cs, rfl, Or.inr (Or.inl rfl)⟩

theorem endsValue_bracket (cs : Bytes) : EndsValue (0x5d :: cs) :=
  Or.inr ⟨_, cs, rfl, Or.inr (Or.inr rfl)⟩

variable {c : UInt8} {rest : Bytes}

theorem hexDigit_plain : ∀ n < 16,
    hexDigit n ≠ 0x5c ∧ hexDigit n ≠ 0x22 ∧ ¬hexDigit n < 0x20 := by
  decide

theorem stringRest_plain (h : c ≠ 0x5c ∧ c ≠ 0x22 ∧ ¬c < 0x20) (cs : Bytes) :
    stringRest (c :: cs) = stringRest cs := by
  simp only [stringRest.eq_def (c :: cs), if_neg h.1, if_neg h.2.1, if_neg h.2.2]

theorem stringRest_escaped (c : UInt8) (cs : Bytes) :
    stringRest (0x5c :: c :: cs) = stringRest cs := by
  simp only [stringRest.eq_def (0x5c :: c :: cs), if_true]

theorem stringRest_quote (cs : Bytes) : stringRest (0x22 :: cs) = some cs := by
  simp [stringRest.eq_def (0x22 :: cs)]

theorem stringRest_escapeByte (c : UInt8) (rest : Bytes) :
    stringRest (escapeByte c ++ rest) = stringRest rest := by
  rcases escapeByte_cases c with ⟨d, h⟩ | ⟨m, hm, n, hn, h⟩ | ⟨h, hplain⟩
  · rw [h]
    exact stringRest_escaped d rest
  · rw [h]
    simp only [List.cons_append, List.nil_append]
    rw [stringRest_escaped, stringRest_plain (by decide), stringRest_plain (by decide),
      stringRest_plain (hexDigit_plain m hm), stringRest_plain (hexDigit_plain n hn)]
  · rw [h]
    exact stringRest_plain hplain rest

theorem skipString_printStr (s rest : Bytes) : skipString (printStr s ++ rest) = some rest := by
  have hbody : stringRest (s.flatMap escapeByte ++ 0x22 :: rest) = some rest := by
    induction s with
    | nil => exact stringRest_quote rest
    | cons c s ih => rw [List.flatMap_cons, List.append_assoc, stringRest_escapeByte, ih]
  simpa [printStr, skipString] using hbody

theorem skipDigits_digits (ds : Digits) (h : NoDigit rest) :
    skipDigits (ds.text ++ rest) = some rest := by
  obtain ⟨text, hne, hdig⟩ := ds
  cases text with
  | nil => exact absurd rfl hne
  | cons c cs =>
    have hrest : rest.dropWhile isDigit = rest := by
      cases rest with
      | nil => rfl
      | cons d ds => rw [List.dropWhile_cons, if_neg (by simp [h d ds rfl])]
    simp only [List.cons_append, skipDigits, hdig c List.mem_cons_self, if_true]
    rw [List.dropWhile_append_of_pos fun d hd => hdig d (List.mem_cons_of_mem _ hd), hrest]

theorem noDigit_cons (h : isDigit c = false) (cs : Bytes) : NoDigit (c :: cs) := by
  rintro d ds ⟨⟩
  exact h

theorem EndsValue.noDigit (h : EndsValue rest) : NoDigit rest := by
  rcases h with rfl | ⟨c, cs, rfl, rfl | rfl | rfl⟩
  · exact noDigit_nil
  · exact noDigit_cons (by decide) cs
  · exact noDigit_cons (by decide) cs
  · exact noDigit_cons (by decide) cs

theorem digits_head (ds : Digits) : ∃ c cs, ds.text = c :: cs ∧ isDigit c = true := by
  obtain ⟨text, hne, hdig⟩ := ds
  cases text with
  | nil => exact absurd rfl hne
  | cons c cs => exact ⟨c, cs, rfl, hdig c List.mem_cons_self⟩

theorem skipExp_text (e : Option (ExpSign × Digits)) (h : EndsValue rest) :
    skipExp ((e.elim [] fun e => 0x65 :: e.1.text ++ e.2.text) ++ rest) = some rest := by
  cases e with
  | none =>
    rcases h with rfl | ⟨c, cs, rfl, rfl | rfl | rfl⟩
    · rfl
    · rfl
    · rfl
    · rfl
  | some e =>
    obtain ⟨sign, ds⟩ := e
    have hds := skipDigits_digits ds h.noDigit
    cases sign with
    | none =>
      obtain ⟨c, cs, htext, hc⟩ := digits_head ds
      have hplain : ¬(c = 0x2b ∨ c = 0x2d) := by
        rintro (rfl | rfl)
        · exact absurd hc (by decide)
        · exact absurd hc (by decide)
      rw [htext] at hds
      simpa [skipExp, ExpSign.text, htext, if_neg hplain] using hds
    | plus => simpa [skipExp, ExpSign.text] using hds
    | minus => simpa [skipExp, ExpSign.text] using hds

/-- What may follow a number's fraction: nothing of a number but its exponent. -/
theorem exp_noDigit (e : Option (ExpSign × Digits)) (h : EndsValue rest) :
    NoDigit ((e.elim [] fun e => 0x65 :: e.1.text ++ e.2.text) ++ rest) := by
  cases e with
  | none => exact h.noDigit
  | some e => exact noDigit_cons (by decide) _

theorem skipFrac_text (f : Option Digits) (e : Option (ExpSign × Digits)) (h : EndsValue rest) :
    skipFrac ((f.elim [] fun ds => 0x2e :: ds.text)
        ++ ((e.elim [] fun e => 0x65 :: e.1.text ++ e.2.text) ++ rest))
      = some ((e.elim [] fun e => 0x65 :: e.1.text ++ e.2.text) ++ rest) := by
  cases f with
  | none =>
    cases e with
    | none =>
      rcases h with rfl | ⟨c, cs, rfl, rfl | rfl | rfl⟩
      · rfl
      · rfl
      · rfl
      · rfl
    | some e => rfl
  | some ds =>
    simpa [skipFrac] using skipDigits_digits ds (exp_noDigit e h)

theorem frac_noDigit (f : Option Digits) (e : Option (ExpSign × Digits)) (h : EndsValue rest) :
    NoDigit ((f.elim [] fun ds => 0x2e :: ds.text)
      ++ ((e.elim [] fun e => 0x65 :: e.1.text ++ e.2.text) ++ rest)) := by
  cases f with
  | none => exact exp_noDigit e h
  | some ds => exact noDigit_cons (by decide) _

theorem skipNumber_text (n : JsonNum) (h : EndsValue rest) :
    skipNumber (n.text ++ rest) = some rest := by
  have htail := skipDigits_digits n.whole (frac_noDigit n.frac n.exp h)
  have hfrac := skipFrac_text n.frac n.exp h
  have hexp := skipExp_text n.exp h
  obtain ⟨c, cs, htext, hc⟩ := digits_head n.whole
  have hminus : c ≠ 0x2d := by
    rintro rfl
    exact absurd hc (by decide)
  simp only [List.cons_append] at htail hfrac hexp
  simp only [JsonNum.text, List.append_assoc, List.cons_append]
  cases n.neg with
  | true =>
    simp only [if_true, List.cons_append, List.nil_append, skipNumber]
    rw [htail, Option.bind_some, hfrac, Option.bind_some, hexp]
  | false =>
    simp only [Bool.false_eq_true, if_false, List.nil_append]
    rw [htext] at htail ⊢
    rw [List.cons_append] at htail ⊢
    rw [skipNumber, if_neg hminus, htail, Option.bind_some, hfrac, Option.bind_some, hexp]

/-- How a number starts: not as any other value does. -/
theorem numText_head (n : JsonNum) : ∃ c cs, n.text = c :: cs ∧ (c = 0x2d ∨ isDigit c = true) := by
  obtain ⟨c, cs, htext, hc⟩ := digits_head n.whole
  cases hneg : n.neg with
  | true => exact ⟨0x2d, _, by simp only [JsonNum.text, hneg, if_true]; rfl, Or.inl rfl⟩
  | false =>
    exact ⟨c, _, by simp only [JsonNum.text, hneg, Bool.false_eq_true, if_false, htext]; rfl, Or.inr hc⟩

theorem numHead_ne {d : UInt8} (h : c = 0x2d ∨ isDigit c = true)
    (hd : d ≠ 0x2d ∧ isDigit d = false) : c ≠ d := by
  rintro rfl
  rcases h with h | h
  · exact hd.1 h
  · rw [hd.2] at h
    cases h

theorem numHead_not_space (h : c = 0x2d ∨ isDigit c = true) : isSpace c = false := by
  have h1 := numHead_ne h (d := 0x20) (by decide)
  have h2 := numHead_ne h (d := 0x09) (by decide)
  have h3 := numHead_ne h (d := 0x0a) (by decide)
  have h4 := numHead_ne h (d := 0x0d) (by decide)
  simp [isSpace, h1, h2, h3, h4]

theorem skipKey_printStr (key rest : Bytes) :
    (if true then skipKey (printStr key ++ 0x3a :: rest) else some (printStr key ++ 0x3a :: rest))
      = some rest := by
  have hquote : ws (printStr key ++ 0x3a :: rest) = printStr key ++ 0x3a :: rest :=
    ws_cons (by decide) _
  simp only [if_true, skipKey, hquote, skipString_printStr, Option.bind_some,
    ws_cons (show isSpace 0x3a = false by decide)]

theorem print_head_members (ms : Members) (h : ms ≠ .nil) (rest : Bytes) :
    ∃ cs, ms.print ++ rest = 0x22 :: cs := by
  cases ms with
  | nil => exact absurd rfl h
  | cons key j tail =>
    cases tail with
    | nil => exact ⟨_, rfl⟩
    | cons key' j' tail => exact ⟨_, rfl⟩

/-- How a value starts: with no blank and no closing bracket. -/
theorem print_head (j : Json) :
    ∃ c cs, j.print = c :: cs ∧ isSpace c = false ∧ c ≠ 0x5d := by
  cases j with
  | null => exact ⟨_, _, rfl, by decide, by decide⟩
  | bool b =>
    cases b with
    | true => exact ⟨_, _, rfl, by decide, by decide⟩
    | false => exact ⟨_, _, rfl, by decide, by decide⟩
  | num n =>
    obtain ⟨c, cs, htext, hc⟩ := numText_head n
    exact ⟨c, cs, htext, numHead_not_space hc, numHead_ne hc (by decide)⟩
  | str s => exact ⟨_, _, rfl, by decide, by decide⟩
  | arr items => exact ⟨_, _, rfl, by decide, by decide⟩
  | obj members => exact ⟨_, _, rfl, by decide, by decide⟩

theorem print_head_items (items : Items) (h : items ≠ .nil) (rest : Bytes) :
    ∃ c cs, items.print ++ rest = c :: cs ∧ isSpace c = false ∧ c ≠ 0x5d := by
  cases items with
  | nil => exact absurd rfl h
  | cons j tail =>
    obtain ⟨c, cs, hj, hc⟩ := print_head j
    cases tail with
    | nil => exact ⟨c, _, by rw [Items.print, hj]; rfl, hc⟩
    | cons j' tail => exact ⟨c, _, by rw [Items.print, hj]; rfl, hc⟩

/-- After a value the loop looks at what follows it. -/
theorem skipItems_value {turns depth : Nat} {isObj : Bool} {s p q : Bytes}
    (hkey : (if isObj then skipKey s else some s) = some p)
    (hvalue : ∀ r, skipValueD turns (depth + 1) p = some r → r = rest)
    (h : skipItems (turns + 1) depth isObj s = some q) :
    (match ws rest with
      | [] => none
      | c :: cs =>
        if c = 0x2c then skipItems turns depth isObj cs
        else if c = (if isObj then 0x7d else 0x5d) then some cs
        else none) = some q := by
  rw [skipItems, hkey] at h
  simp only at h
  cases hv : skipValueD turns (depth + 1) p with
  | none => simp [hv] at h
  | some r =>
    rw [hv] at h
    rw [← hvalue r hv]
    exact h

mutual

/-- **A printed value is passed over exactly**, or refused. -/
theorem skipValueD_print (j : Json) {turns depth : Nat} {rest r : Bytes} (hrest : EndsValue rest)
    (h : skipValueD turns depth (j.print ++ rest) = some r) : r = rest := by
  cases turns with
  | zero => cases h
  | succ turns =>
    by_cases hdepth : 32 < depth
    · obtain ⟨c, cs, hj, hc, -⟩ := print_head j
      rw [hj, List.cons_append, skipValueD, ws_cons hc] at h
      simp [hdepth] at h
    cases j with
    | null =>
      simp [Json.print, skipValueD, ws_cons (show isSpace 0x6e = false by decide), hdepth, skipLit,
        ascii] at h
      exact h.symm
    | bool b =>
      cases b with
      | true =>
        simp [Json.print, skipValueD, ws_cons (show isSpace 0x74 = false by decide), hdepth,
          skipLit, ascii] at h
        exact h.symm
      | false =>
        simp [Json.print, skipValueD, ws_cons (show isSpace 0x66 = false by decide), hdepth,
          skipLit, ascii] at h
        exact h.symm
    | num n =>
      obtain ⟨c, cs, htext, hc⟩ := numText_head n
      have hnum := skipNumber_text n hrest
      rw [Json.print] at h
      rw [htext, List.cons_append] at h hnum
      simp only [skipValueD, ws_cons (numHead_not_space hc), if_neg hdepth,
        if_neg (numHead_ne hc (d := 0x22) (by decide)),
        if_neg (numHead_ne hc (d := 0x74) (by decide)),
        if_neg (numHead_ne hc (d := 0x66) (by decide)),
        if_neg (numHead_ne hc (d := 0x6e) (by decide)),
        if_neg (numHead_ne hc (d := 0x7b) (by decide)),
        if_neg (numHead_ne hc (d := 0x5b) (by decide)), hnum, Option.some.injEq] at h
      exact h.symm
    | str s =>
      have hstr := skipString_printStr s rest
      have hquote : ws (printStr s ++ rest) = printStr s ++ rest := ws_cons (by decide) _
      rw [Json.print, skipValueD, hquote] at h
      have hcons : printStr s ++ rest = 0x22 :: (s.flatMap escapeByte ++ [0x22] ++ rest) := by
        simp [printStr]
      rw [hcons] at h hstr
      simp only [if_neg hdepth, if_true, hstr, Option.some.injEq] at h
      exact h.symm
    | arr items =>
      have hshape : (Json.arr items).print ++ rest = 0x5b :: (items.print ++ 0x5d :: rest) := by
        simp [Json.print]
      rw [hshape, skipValueD, ws_cons (by decide)] at h
      cases items with
      | nil =>
        simp [if_neg hdepth, Items.print, ws_cons (show isSpace 0x5d = false by decide)] at h
        exact h.symm
      | cons j tail =>
        obtain ⟨c, cs, hhead, hc, hne⟩ := print_head_items (.cons j tail) (by simp) (0x5d :: rest)
        simp only [if_neg hdepth, hhead, ws_cons hc, if_neg hne] at h
        rw [← hhead] at h
        exact skipItems_print (.cons j tail) (by simp) (by simpa using h)
    | obj members =>
      have hshape : (Json.obj members).print ++ rest = 0x7b :: (members.print ++ 0x7d :: rest) := by
        simp [Json.print]
      rw [hshape, skipValueD, ws_cons (by decide)] at h
      cases members with
      | nil =>
        simp [if_neg hdepth, Members.print, ws_cons (show isSpace 0x7d = false by decide)] at h
        exact h.symm
      | cons key j tail =>
        obtain ⟨cs, hhead⟩ := print_head_members (.cons key j tail) (by simp) (0x7d :: rest)
        simp only [if_neg hdepth, hhead, ws_cons (show isSpace 0x22 = false by decide)] at h
        rw [← hhead] at h
        exact skipMembers_print (.cons key j tail) (by simp) (by simpa using h)

theorem skipItems_print (items : Items) (hne : items ≠ .nil) {turns depth : Nat} {rest r : Bytes}
    (h : skipItems turns depth false (items.print ++ 0x5d :: rest) = some r) : r = rest := by
  cases turns with
  | zero => cases h
  | succ turns =>
    cases items with
    | nil => exact absurd rfl hne
    | cons j tail =>
      cases tail with
      | nil =>
        have h' := skipItems_value (s := j.print ++ 0x5d :: rest) rfl
          (fun r hr => skipValueD_print j (endsValue_bracket rest) hr) h
        simp [ws_cons (show isSpace 0x5d = false by decide)] at h'
        exact h'.symm
      | cons j' tail =>
        have hshape : (Items.cons j (.cons j' tail)).print ++ 0x5d :: rest
            = j.print ++ 0x2c :: ((Items.cons j' tail).print ++ 0x5d :: rest) := by
          simp [Items.print]
        rw [hshape] at h
        have h' := skipItems_value rfl (fun r hr => skipValueD_print j (endsValue_comma _) hr) h
        rw [ws_cons (by decide)] at h'
        simp only [if_true] at h'
        exact skipItems_print (.cons j' tail) (by simp) h'

theorem skipMembers_print (members : Members) (hne : members ≠ .nil) {turns depth : Nat}
    {rest r : Bytes} (h : skipItems turns depth true (members.print ++ 0x7d :: rest) = some r) :
    r = rest := by
  cases turns with
  | zero => cases h
  | succ turns =>
    cases members with
    | nil => exact absurd rfl hne
    | cons key j tail =>
      cases tail with
      | nil =>
        have hshape : (Members.cons key j .nil).print ++ 0x7d :: rest
            = printStr key ++ 0x3a :: (j.print ++ 0x7d :: rest) := by
          simp [Members.print]
        rw [hshape] at h
        have h' := skipItems_value (skipKey_printStr key _)
          (fun r hr => skipValueD_print j (endsValue_brace rest) hr) h
        simp [ws_cons (show isSpace 0x7d = false by decide)] at h'
        exact h'.symm
      | cons key' j' tail =>
        have hshape : (Members.cons key j (.cons key' j' tail)).print ++ 0x7d :: rest
            = printStr key ++ 0x3a :: (j.print ++ 0x2c ::
              ((Members.cons key' j' tail).print ++ 0x7d :: rest)) := by
          simp [Members.print]
        rw [hshape] at h
        have h' := skipItems_value (skipKey_printStr key _)
          (fun r hr => skipValueD_print j (endsValue_comma _) hr) h
        rw [ws_cons (by decide)] at h'
        simp only [if_true] at h'
        exact skipMembers_print (.cons key' j' tail) (by simp) h'

end

variable {rest : Bytes} {c : UInt8} {n : JsonNum}

theorem skipValue_print (j : Json) {r : Bytes} (hrest : EndsValue rest)
    (h : skipValue (j.print ++ rest) = some r) : r = rest :=
  skipValueD_print j hrest h

/-- The span of a member's value, when the key is the one looked for. -/
theorem topSpanFrom_found {key : Bytes} (hkey : key.flatMap escapeByte = key) {turns : Nat} {j : Json}
    {v : Bytes} (hrest : EndsValue rest)
    (h : topSpanFrom key turns (printStr key ++ 0x3a :: (j.print ++ rest)) = some v) : v = j.print := by
  cases turns with
  | zero => cases h
  | succ turns =>
    obtain ⟨c, cs, hj, hc, -⟩ := print_head j
    have hquote : ws (printStr key ++ 0x3a :: (j.print ++ rest))
        = printStr key ++ 0x3a :: (j.print ++ rest) := ws_cons (by decide) _
    have hvalue : ws (j.print ++ rest) = j.print ++ rest := by
      rw [hj]
      exact ws_cons hc _
    simp only [topSpanFrom, hquote, skipString_printStr, ws_cons (show isSpace 0x3a = false by decide),
      ne_eq, not_true_eq_false, if_false, hvalue] at h
    cases hskip : skipValue (j.print ++ rest) with
    | none => simp [hskip] at h
    | some p =>
      have hp := skipValue_print j hrest hskip
      subst hp
      have hraw : (printStr key ++ 0x3a :: (j.print ++ p)).take
          ((printStr key ++ 0x3a :: (j.print ++ p)).length - (0x3a :: (j.print ++ p)).length)
          = 0x22 :: key ++ [0x22] := by
        rw [List.length_append, Nat.add_sub_cancel, List.take_left, printStr, hkey]
      simp only [hskip, hraw, if_true, Option.some.injEq] at h
      rw [← h, List.length_append, Nat.add_sub_cancel, List.take_left]

/-- A member with another key is passed over. -/
theorem topSpanFrom_next {key other : Bytes} (hraw : printStr other ≠ 0x22 :: key ++ [0x22])
    {turns : Nat} {j : Json} {v : Bytes}
    (h : topSpanFrom key turns (printStr other ++ 0x3a :: (j.print ++ 0x2c :: rest)) = some v) :
    ∃ turns', topSpanFrom key turns' rest = some v := by
  cases turns with
  | zero => cases h
  | succ turns =>
    obtain ⟨c, cs, hj, hc, -⟩ := print_head j
    have hquote : ws (printStr other ++ 0x3a :: (j.print ++ 0x2c :: rest))
        = printStr other ++ 0x3a :: (j.print ++ 0x2c :: rest) := ws_cons (by decide) _
    have hvalue : ws (j.print ++ 0x2c :: rest) = j.print ++ 0x2c :: rest := by
      rw [hj]
      exact ws_cons hc _
    have htake : (printStr other ++ 0x3a :: (j.print ++ 0x2c :: rest)).take
        ((printStr other ++ 0x3a :: (j.print ++ 0x2c :: rest)).length
          - (0x3a :: (j.print ++ 0x2c :: rest)).length) = printStr other := by
      rw [List.length_append, Nat.add_sub_cancel, List.take_left]
    simp only [topSpanFrom, hquote, skipString_printStr, ws_cons (show isSpace 0x3a = false by decide),
      ne_eq, not_true_eq_false, if_false, hvalue, htake, if_neg hraw] at h
    cases hskip : skipValue (j.print ++ 0x2c :: rest) with
    | none => simp [hskip] at h
    | some p =>
      have hp := skipValue_print j (endsValue_comma rest) hskip
      subst hp
      simp only [hskip, ws_cons (show isSpace 0x2c = false by decide), if_true] at h
      exact ⟨turns, h⟩

/-! ## The same text, read by the other reader -/

/-- A byte the bracket counter does not look at. -/
def PlainByte (c : UInt8) : Prop := c ≠ 0x22 ∧ c ≠ 0x7b ∧ c ≠ 0x5b ∧ c ≠ 0x7d ∧ c ≠ 0x5d

instance (c : UInt8) : Decidable (PlainByte c) :=
  inferInstanceAs (Decidable (c ≠ 0x22 ∧ c ≠ 0x7b ∧ c ≠ 0x5b ∧ c ≠ 0x7d ∧ c ≠ 0x5d))

theorem skipBrackets_plain (h : PlainByte c) (depth : Nat) (cs : Bytes) :
    skipBrackets depth false (c :: cs) = skipBrackets depth false cs := by
  obtain ⟨h1, h2, h3, h4, h5⟩ := h
  rw [skipBrackets, if_neg h1, if_neg (by simp [h2, h3]), if_neg (by simp [h4, h5])]

theorem skipBrackets_plain_append (l : Bytes) (h : ∀ c ∈ l, PlainByte c) (depth : Nat) (rest : Bytes) :
    skipBrackets depth false (l ++ rest) = skipBrackets depth false rest := by
  induction l with
  | nil => rfl
  | cons c l ih =>
    rw [List.cons_append, skipBrackets_plain (h c List.mem_cons_self),
      ih fun d hd => h d (List.mem_cons_of_mem _ hd)]

theorem plainByte_null (h : c ∈ Json.null.print) : PlainByte c ∧ isDelim c = false := by
  simp only [Json.print, List.mem_cons, List.not_mem_nil, or_false] at h
  rcases h with rfl | rfl | rfl | rfl <;> decide

theorem plainByte_bool {b : Bool} (h : c ∈ (Json.bool b).print) :
    PlainByte c ∧ isDelim c = false := by
  cases b with
  | true =>
    simp only [Json.print, List.mem_cons, List.not_mem_nil, or_false] at h
    rcases h with rfl | rfl | rfl | rfl <;> decide
  | false =>
    simp only [Json.print, List.mem_cons, List.not_mem_nil, or_false] at h
    rcases h with rfl | rfl | rfl | rfl | rfl <;> decide

theorem print_ne_nil (j : Json) : j.print ≠ [] := by
  obtain ⟨c, cs, hj, -⟩ := print_head j
  simp [hj]

theorem skipBrackets_inString (h : c ≠ 0x5c ∧ c ≠ 0x22) (depth : Nat) (cs : Bytes) :
    skipBrackets depth true (c :: cs) = skipBrackets depth true cs := by
  simp only [skipBrackets.eq_def depth true (c :: cs), if_neg h.1, if_neg h.2]

theorem skipBrackets_escaped (c : UInt8) (depth : Nat) (cs : Bytes) :
    skipBrackets depth true (0x5c :: c :: cs) = skipBrackets depth true cs := by
  simp only [skipBrackets.eq_def depth true (0x5c :: c :: cs), if_true]

theorem skipBrackets_escapeByte (c : UInt8) (depth : Nat) (rest : Bytes) :
    skipBrackets depth true (escapeByte c ++ rest) = skipBrackets depth true rest := by
  rcases escapeByte_cases c with ⟨d, h⟩ | ⟨m, hm, n, hn, h⟩ | ⟨h, hb, hq, -⟩
  · rw [h]
    exact skipBrackets_escaped d depth rest
  · have h1 := hexDigit_plain m hm
    have h2 := hexDigit_plain n hn
    rw [h]
    simp only [List.cons_append, List.nil_append]
    rw [skipBrackets_escaped, skipBrackets_inString (by decide), skipBrackets_inString (by decide),
      skipBrackets_inString ⟨h1.1, h1.2.1⟩, skipBrackets_inString ⟨h2.1, h2.2.1⟩]
  · rw [h]
    exact skipBrackets_inString ⟨hb, hq⟩ depth rest

theorem skipBrackets_printStr (s : Bytes) (depth : Nat) (rest : Bytes) :
    skipBrackets depth false (printStr s ++ rest) = skipBrackets depth false rest := by
  have hbody : skipBrackets depth true (s.flatMap escapeByte ++ 0x22 :: rest)
      = skipBrackets depth false rest := by
    induction s with
    | nil => simp [skipBrackets.eq_def depth true (0x22 :: rest)]
    | cons c s ih => rw [List.flatMap_cons, List.append_assoc, skipBrackets_escapeByte, ih]
  have hopen : skipBrackets depth false (printStr s ++ rest)
      = skipBrackets depth true (s.flatMap escapeByte ++ 0x22 :: rest) := by
    simp [printStr, skipBrackets]
  rw [hopen, hbody]

/-- The bytes a number is written with. -/
theorem mem_numText (h : c ∈ n.text) :
    isDigit c = true ∨ c = 0x2d ∨ c = 0x2b ∨ c = 0x2e ∨ c = 0x65 := by
  simp only [JsonNum.text, List.mem_append] at h
  rcases h with ((h | h) | h) | h
  · cases hneg : n.neg with
    | true =>
      simp only [hneg, if_true, List.mem_singleton] at h
      exact Or.inr (Or.inl h)
    | false => simp [hneg] at h
  · exact Or.inl (n.whole.digits c h)
  · cases hf : n.frac with
    | none => simp [hf] at h
    | some ds =>
      simp only [hf, Option.elim_some, List.mem_cons] at h
      rcases h with rfl | h
      · simp
      · exact Or.inl (ds.digits c h)
  · cases he : n.exp with
    | none => simp [he] at h
    | some e =>
      simp only [he, Option.elim_some, List.mem_cons, List.mem_append] at h
      rcases h with (rfl | h) | h
      · simp
      · cases hs : e.1 with
        | none => simp [hs, ExpSign.text] at h
        | plus =>
          simp only [hs, ExpSign.text, List.mem_singleton] at h
          simp [h]
        | minus =>
          simp only [hs, ExpSign.text, List.mem_singleton] at h
          simp [h]
      · exact Or.inl (e.2.digits c h)

theorem numByte_ne {d : UInt8} (h : c ∈ n.text)
    (hd : isDigit d = false ∧ d ≠ 0x2d ∧ d ≠ 0x2b ∧ d ≠ 0x2e ∧ d ≠ 0x65) : c ≠ d := by
  obtain ⟨hdig, h1, h2, h3, h4⟩ := hd
  rintro rfl
  rcases mem_numText h with h | h | h | h | h
  · rw [hdig] at h
    cases h
  · exact h1 h
  · exact h2 h
  · exact h3 h
  · exact h4 h

theorem plainByte_of_mem_num (h : c ∈ n.text) : PlainByte c :=
  ⟨numByte_ne h (by decide), numByte_ne h (by decide), numByte_ne h (by decide),
    numByte_ne h (by decide), numByte_ne h (by decide)⟩

theorem skipBrackets_close (h : c = 0x7d ∨ c = 0x5d) (depth : Nat) (cs : Bytes) :
    skipBrackets (depth + 2) false (c :: cs) = skipBrackets (depth + 1) false cs := by
  rcases h with rfl | rfl
  · simp [skipBrackets]
  · simp [skipBrackets]

theorem skipBrackets_open (h : c = 0x7b ∨ c = 0x5b) (depth : Nat) (cs : Bytes) :
    skipBrackets depth false (c :: cs) = skipBrackets (depth + 1) false cs := by
  rcases h with rfl | rfl
  · simp [skipBrackets]
  · simp [skipBrackets]

mutual

/-- Inside a container a printed value leaves the count as it is. -/
theorem skipBrackets_print (j : Json) (depth : Nat) (rest : Bytes) :
    skipBrackets (depth + 1) false (j.print ++ rest) = skipBrackets (depth + 1) false rest := by
  cases j with
  | null => exact skipBrackets_plain_append _ (fun c hc => (plainByte_null hc).1) _ rest
  | bool b => exact skipBrackets_plain_append _ (fun c hc => (plainByte_bool hc).1) _ rest
  | num n => exact skipBrackets_plain_append _ (fun c hc => plainByte_of_mem_num hc) _ rest
  | str s => exact skipBrackets_printStr s _ rest
  | arr items =>
    have hshape : (Json.arr items).print ++ rest = 0x5b :: (items.print ++ 0x5d :: rest) := by
      simp [Json.print]
    rw [hshape, skipBrackets_open (Or.inr rfl), skipBrackets_items, skipBrackets_close (Or.inr rfl)]
  | obj members =>
    have hshape : (Json.obj members).print ++ rest = 0x7b :: (members.print ++ 0x7d :: rest) := by
      simp [Json.print]
    rw [hshape, skipBrackets_open (Or.inl rfl), skipBrackets_members,
      skipBrackets_close (Or.inl rfl)]

theorem skipBrackets_items (items : Items) (depth : Nat) (rest : Bytes) :
    skipBrackets (depth + 1) false (items.print ++ rest) = skipBrackets (depth + 1) false rest := by
  cases items with
  | nil => rfl
  | cons j tail =>
    cases tail with
    | nil => exact skipBrackets_print j depth rest
    | cons j' tail =>
      have hshape : (Items.cons j (.cons j' tail)).print ++ rest
          = j.print ++ 0x2c :: ((Items.cons j' tail).print ++ rest) := by
        simp [Items.print]
      rw [hshape, skipBrackets_print, skipBrackets_plain (by decide), skipBrackets_items]

theorem skipBrackets_members (members : Members) (depth : Nat) (rest : Bytes) :
    skipBrackets (depth + 1) false (members.print ++ rest) = skipBrackets (depth + 1) false rest := by
  cases members with
  | nil => rfl
  | cons key j tail =>
    cases tail with
    | nil =>
      have hshape : (Members.cons key j .nil).print ++ rest
          = printStr key ++ 0x3a :: (j.print ++ rest) := by
        simp [Members.print]
      rw [hshape, skipBrackets_printStr, skipBrackets_plain (by decide), skipBrackets_print]
    | cons key' j' tail =>
      have hshape : (Members.cons key j (.cons key' j' tail)).print ++ rest
          = printStr key ++ 0x3a :: (j.print ++ 0x2c :: ((Members.cons key' j' tail).print ++ rest)) := by
        simp [Members.print]
      rw [hshape, skipBrackets_printStr, skipBrackets_plain (by decide), skipBrackets_print,
        skipBrackets_plain (by decide), skipBrackets_members]

end

theorem splitStr_escapeByte {c : UInt8} {cs k p : Bytes} (h : splitStr cs = some (k, p)) :
    splitStr (escapeByte c ++ cs) = some (escapeByte c ++ k, p) := by
  rcases escapeByte_cases c with ⟨d, he⟩ | ⟨m, hm, n, hn, he⟩ | ⟨he, hb, hq, -⟩
  · rw [he]
    simp only [List.cons_append, List.nil_append, splitStr_escape, h, Option.map_some]
  · have h1 := hexDigit_plain m hm
    have h2 := hexDigit_plain n hn
    rw [he]
    simp only [List.cons_append, List.nil_append, splitStr_escape,
      splitStr_plain (show (0x30 : UInt8) ≠ 0x5c by decide) (by decide),
      splitStr_plain h1.1 h1.2.1, splitStr_plain h2.1 h2.2.1, h, Option.map_some]
  · rw [he]
    simp only [List.cons_append, List.nil_append, splitStr_plain hb hq, h, Option.map_some]

theorem splitStr_printed (s rest : Bytes) :
    splitStr (s.flatMap escapeByte ++ 0x22 :: rest) = some (s.flatMap escapeByte, rest) := by
  induction s with
  | nil => exact splitStr_quote rest
  | cons c s ih =>
    rw [List.flatMap_cons, List.append_assoc, splitStr_escapeByte ih]

theorem EndsValue.delim {rest : Bytes} (h : EndsValue rest) :
    rest.dropWhile (fun d => !isDelim d) = rest := by
  rcases h with rfl | ⟨c, cs, rfl, rfl | rfl | rfl⟩
  · rfl
  · rfl
  · rfl
  · rfl

theorem isDelim_of_mem_num {n : JsonNum} {c : UInt8} (h : c ∈ n.text) : isDelim c = false := by
  have h1 := numByte_ne h (d := 0x2c) (by decide)
  have h2 := numByte_ne h (d := 0x7d) (by decide)
  have h3 := numByte_ne h (d := 0x5d) (by decide)
  have h4 := numByte_ne h (d := 0x20) (by decide)
  have h5 := numByte_ne h (d := 0x09) (by decide)
  have h6 := numByte_ne h (d := 0x0a) (by decide)
  have h7 := numByte_ne h (d := 0x0d) (by decide)
  simp [isDelim, isSpace, h1, h2, h3, h4, h5, h6, h7]

/-- A word or a number ends at the separator. -/
theorem skipVal_word {w rest : Bytes} (hne : w ≠ [])
    (hw : ∀ c ∈ w, PlainByte c ∧ isDelim c = false) (hrest : EndsValue rest) :
    skipVal (w ++ rest) = some rest := by
  cases w with
  | nil => exact absurd rfl hne
  | cons c cs =>
    obtain ⟨⟨h1, h2, h3, -, -⟩, hdelim⟩ := hw c List.mem_cons_self
    simp only [List.cons_append, skipVal, if_neg h1, h2, h3, or_self, if_false, hdelim,
      Bool.false_eq_true]
    rw [List.dropWhile_append_of_pos, hrest.delim]
    intro d hd
    simp [(hw d (List.mem_cons_of_mem _ hd)).2]

theorem skipVal_print (j : Json) {rest : Bytes} (hrest : EndsValue rest) :
    skipVal (j.print ++ rest) = some rest := by
  cases j with
  | null => exact skipVal_word (print_ne_nil _) (fun c hc => plainByte_null hc) hrest
  | bool b => exact skipVal_word (print_ne_nil _) (fun c hc => plainByte_bool hc) hrest
  | num n =>
    refine skipVal_word (print_ne_nil _) ?_ hrest
    intro d hd
    exact ⟨plainByte_of_mem_num hd, isDelim_of_mem_num hd⟩
  | str s =>
    have hshape : printStr s ++ rest = 0x22 :: (s.flatMap escapeByte ++ 0x22 :: rest) := by
      simp [printStr]
    rw [Json.print, hshape, skipVal, if_pos rfl, skipStr, splitStr_printed]
    rfl
  | arr items =>
    have hshape : (Json.arr items).print ++ rest = 0x5b :: (items.print ++ 0x5d :: rest) := by
      simp [Json.print]
    have hopen : skipVal (0x5b :: (items.print ++ 0x5d :: rest))
        = skipBrackets 0 false (0x5b :: (items.print ++ 0x5d :: rest)) := rfl
    rw [hshape, hopen, skipBrackets_open (Or.inr rfl), skipBrackets_items]
    rfl
  | obj members =>
    have hshape : (Json.obj members).print ++ rest = 0x7b :: (members.print ++ 0x7d :: rest) := by
      simp [Json.print]
    have hopen : skipVal (0x7b :: (members.print ++ 0x7d :: rest))
        = skipBrackets 0 false (0x7b :: (members.print ++ 0x7d :: rest)) := rfl
    rw [hshape, hopen, skipBrackets_open (Or.inl rfl), skipBrackets_members]
    rfl

/-- The value of a member, when the key is the one looked for. -/
theorem memberValue_found {key : Bytes} (hkey : key.flatMap escapeByte = key) {turns : Nat} {j : Json}
    {rest v : Bytes}
    (h : memberValue key turns (printStr key ++ 0x3a :: (j.print ++ rest)) = some v) :
    v = j.print ++ rest := by
  cases turns with
  | zero => cases h
  | succ turns =>
    obtain ⟨c, cs, hj, hc, -⟩ := print_head j
    have hshape : printStr key ++ 0x3a :: (j.print ++ rest)
        = 0x22 :: (key.flatMap escapeByte ++ 0x22 :: 0x3a :: (j.print ++ rest)) := by
      simp [printStr]
    have hvalue : ws (j.print ++ rest) = j.print ++ rest := by
      rw [hj]
      exact ws_cons hc _
    have hne : j.print ++ rest ≠ [] := by simp [hj]
    have hsplit := splitStr_printed key (0x3a :: (j.print ++ rest))
    rw [hkey] at hsplit
    rw [hshape, hkey] at h
    simp only [memberValue, ws_cons (show isSpace 0x22 = false by decide), ne_eq, not_true_eq_false,
      if_false, hsplit, ws_cons (show isSpace 0x3a = false by decide), hvalue, if_neg hne, if_true,
      Option.some.injEq] at h
    exact h.symm

/-- A member with another key is passed over. -/
theorem memberValue_next {key other : Bytes} (hraw : other.flatMap escapeByte ≠ key) {turns : Nat}
    {j : Json} {rest v : Bytes}
    (h : memberValue key turns (printStr other ++ 0x3a :: (j.print ++ 0x2c :: rest)) = some v) :
    ∃ turns', memberValue key turns' rest = some v := by
  cases turns with
  | zero => cases h
  | succ turns =>
    obtain ⟨c, cs, hj, hc, -⟩ := print_head j
    have hshape : printStr other ++ 0x3a :: (j.print ++ 0x2c :: rest)
        = 0x22 :: (other.flatMap escapeByte ++ 0x22 :: 0x3a :: (j.print ++ 0x2c :: rest)) := by
      simp [printStr]
    have hvalue : ws (j.print ++ 0x2c :: rest) = j.print ++ 0x2c :: rest := by
      rw [hj]
      exact ws_cons hc _
    have hne : j.print ++ 0x2c :: rest ≠ [] := by simp [hj]
    rw [hshape] at h
    simp only [memberValue, ws_cons (show isSpace 0x22 = false by decide), ne_eq, not_true_eq_false,
      if_false, splitStr_printed, ws_cons (show isSpace 0x3a = false by decide), hvalue,
      if_neg hraw, if_neg hne, skipVal_print j (endsValue_comma rest),
      ws_cons (show isSpace 0x2c = false by decide), if_true] at h
    exact ⟨turns, h⟩

end Ps5Upload.Mesh
