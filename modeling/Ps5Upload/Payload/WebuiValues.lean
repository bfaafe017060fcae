import Ps5Upload.Payload.WebuiJson

/-!
# The console's JSON scanner: values

What the readers make of a member's value, and the reader of strings of escaped text.

* `scanner_agrees` — all of it, and no byte past the end of any text.
-/

namespace Ps5Upload.WebuiCodec

open ByteFile Checked CText JsonSyntax

/-! ## Strings -/

variable {c a b d : UInt8} {p rest : Bytes} {cap : Nat} {s t : List Chr}

/-- A byte that stands for itself. -/
theorem decodeLoop_plain (h : 0x20 ≤ c ∧ c ≠ 0x22 ∧ c ≠ 0x5c) (cap o : Nat) (p : Bytes) :
    decodeLoop cap o (c :: p) =
      if cap ≤ o + 1 then .ok none
      else do
        let r ← decodeLoop cap (o + 1) p
        return r.map fun v => (c :: v.1, v.2) := by
  rw [decodeLoop, dif_pos (by simp), index_cons, ok_bind, if_neg h.2.1, if_neg (UInt8.not_lt.2 h.1), if_pos h.2.2]
  rfl

/-- An escape. -/
theorem decodeLoop_escape {cp used : Nat} (hesc : escape p = some (cp, used)) (cap o : Nat) :
    decodeLoop cap o (0x5c :: p) =
      if cp = 0 then .ok none
      else if cap ≤ o + (utf8 cp).length then .ok none
      else do
        let r ← decodeLoop cap (o + (utf8 cp).length) (p.drop used)
        return r.map fun v => (utf8 cp ++ v.1, v.2) := by
  rw [decodeLoop, dif_pos (by simp), index_cons, ok_bind, if_neg (by decide), if_neg (by decide),
    if_neg (by decide), List.drop_one, List.tail_cons, escapeAt_eq, ok_bind, hesc]
  dsimp only
  rw [Nat.add_comm 1 used, List.drop_succ_cons]
  rfl

/-- What is no escape is not read. -/
theorem decodeLoop_stray (hesc : escape p = none) (cap o : Nat) :
    decodeLoop cap o (0x5c :: p) = .ok none := by
  rw [decodeLoop, dif_pos (by simp), index_cons, ok_bind, if_neg (by decide), if_neg (by decide),
    if_neg (by decide), List.drop_one, List.tail_cons, escapeAt_eq, ok_bind, hesc]
  rfl

theorem decodeLoop_quote (cap o : Nat) (rest : Bytes) :
    decodeLoop cap o (0x22 :: rest) = .ok (some ([], rest)) := by
  rw [decodeLoop, dif_pos (by simp)]
  rfl

theorem utf8_eq : utf8 = encode := rfl

theorem hexval_hex (h : isHex c = true) : hexval c = some (hexOf c) := by
  -- no digit of one kind is below the last of the kind before
  have habove : ∀ {a b : UInt8}, b < a → a ≤ c → ¬c ≤ b := fun hlt hle h =>
    UInt8.not_le.2 hlt (UInt8.le_trans hle h)
  simp only [isHex, Bool.or_eq_true, Bool.and_eq_true, decide_eq_true_eq] at h
  rw [hexval, hexOf]
  rcases h with (h | h) | h
  · rw [if_pos h, if_pos h.2]
  · have hdigit := habove (show (0x39 : UInt8) < 0x61 by decide) h.1
    rw [if_neg fun h' => hdigit h'.2, if_pos h, if_neg hdigit, if_pos h.1]
  · have hdigit := habove (show (0x39 : UInt8) < 0x41 by decide) h.1
    have hlower : ¬0x61 ≤ c := fun h' => UInt8.not_le.2 (show (0x46 : UInt8) < 0x61 by decide) (UInt8.le_trans h' h.2)
    rw [if_neg fun h' => hdigit h'.2, if_neg fun h' => hlower h'.1, if_pos h, if_neg hdigit, if_neg hlower]

theorem hex4_digits (h : isHex a ∧ isHex b ∧ isHex c ∧ isHex d) (rest : Bytes) :
    hex4 (a :: b :: c :: d :: rest) = some (codeUnit a b c d) := by
  rw [hex4, hexval_hex h.1, hexval_hex h.2.1, hexval_hex h.2.2.1, hexval_hex h.2.2.2]
  rfl

/-- The escape of a code unit that is no surrogate. -/
theorem escape_code (h : isHex a ∧ isHex b ∧ isHex c ∧ isHex d)
    (hs : ¬(0xd800 ≤ codeUnit a b c d ∧ codeUnit a b c d ≤ 0xdfff)) (rest : Bytes) :
    escape (0x75 :: a :: b :: c :: d :: rest) = some (codeUnit a b c d, 5) := by
  rw [escape_unicode, hex4_digits h]
  dsimp only
  rw [if_neg (by omega), if_neg (by omega)]

/-- The escape of a surrogate pair. -/
theorem escape_pair {a' b' c' d' : UInt8} (h : isHex a ∧ isHex b ∧ isHex c ∧ isHex d)
    (h' : isHex a' ∧ isHex b' ∧ isHex c' ∧ isHex d')
    (hhi : 0xd800 ≤ codeUnit a b c d ∧ codeUnit a b c d ≤ 0xdbff)
    (hlo : 0xdc00 ≤ codeUnit a' b' c' d' ∧ codeUnit a' b' c' d' ≤ 0xdfff) (rest : Bytes) :
    escape (0x75 :: a :: b :: c :: d :: 0x5c :: 0x75 :: a' :: b' :: c' :: d' :: rest) =
      some (0x10000 + (codeUnit a b c d - 0xd800) * 1024 + (codeUnit a' b' c' d' - 0xdc00), 11) := by
  rw [escape_unicode, hex4_digits h]
  simp only [List.drop_succ_cons, List.drop_zero, hex4_digits h']
  rw [if_neg (by omega), if_pos hhi, if_neg (by omega)]

/-- A low surrogate in front is no escape. -/
theorem escape_low (h : isHex a ∧ isHex b ∧ isHex c ∧ isHex d)
    (hlow : 0xdc00 ≤ codeUnit a b c d ∧ codeUnit a b c d ≤ 0xdfff) (rest : Bytes) :
    escape (0x75 :: a :: b :: c :: d :: rest) = none := by
  rw [escape_unicode, hex4_digits h]
  exact if_pos hlow

/-- A high surrogate with a code unit behind it that is no low one. -/
theorem escape_broken {a' b' c' d' : UInt8} (h : isHex a ∧ isHex b ∧ isHex c ∧ isHex d)
    (h' : isHex a' ∧ isHex b' ∧ isHex c' ∧ isHex d')
    (hhi : 0xd800 ≤ codeUnit a b c d ∧ codeUnit a b c d ≤ 0xdbff)
    (hlo : ¬(0xdc00 ≤ codeUnit a' b' c' d' ∧ codeUnit a' b' c' d' ≤ 0xdfff)) (rest : Bytes) :
    escape (0x75 :: a :: b :: c :: d :: 0x5c :: 0x75 :: a' :: b' :: c' :: d' :: rest) = none := by
  rw [escape_unicode, hex4_digits h]
  simp only [List.drop_succ_cons, List.drop_zero, hex4_digits h']
  rw [if_neg (by omega), if_pos hhi, if_pos (by omega)]

/-- A high surrogate with something else behind it. -/
theorem escape_alone (h : isHex a ∧ isHex b ∧ isHex c ∧ isHex d)
    (hhi : 0xd800 ≤ codeUnit a b c d ∧ codeUnit a b c d ≤ 0xdbff)
    (hrest : ∀ q, rest ≠ 0x5c :: 0x75 :: q) : escape (0x75 :: a :: b :: c :: d :: rest) = none := by
  rw [escape_unicode, hex4_digits h]
  -- what follows is no escape of a code unit (`hrest`)
  simp only [List.drop_succ_cons, List.drop_zero]
  rw [if_neg (by omega), if_pos hhi]

theorem escape_shortEscape {e : UInt8 × Nat} (h : e ∈ shortEscapes) (rest : Bytes) :
    escape (e.1 :: rest) = some (e.2, 1) := by
  simp only [shortEscapes, List.mem_cons, List.not_mem_nil, or_false] at h
  rcases h with rfl | rfl | rfl | rfl | rfl | rfl | rfl | rfl <;> rfl

theorem encode_zero_mem : (0 : UInt8) ∈ encode 0 := by decide

/-- What a string means, where that has no NUL and fits behind `o` bytes. -/
def meaning (cap o : Nat) (s : List Chr) : Option Bytes :=
  (stringValue s).filter fun u => o + u.length < cap ∧ (0 : UInt8) ∉ u

theorem meaning_eq_some {o : Nat} {u : Bytes} :
    meaning cap o s = some u ↔ stringValue s = some u ∧ o + u.length < cap ∧ (0 : UInt8) ∉ u := by
  rw [meaning, Option.filter_eq_some_iff, decide_eq_true_eq]

theorem meaning_eq_none {o : Nat} :
    meaning cap o s = none ↔ ∀ u, stringValue s = some u → o + u.length < cap → (0 : UInt8) ∈ u := by
  simp [meaning, Option.filter_eq_none_iff]

theorem meaning_full {o : Nat} (h : cap ≤ o) (s : List Chr) : meaning cap o s = none :=
  meaning_eq_none.2 fun _ _ hroom => by omega

/-- Bytes without a NUL in front of what the rest means. -/
theorem meaning_append {w : Bytes} (h : stringValue t = (stringValue s).map (w ++ ·))
    (hz : (0 : UInt8) ∉ w) (cap o : Nat) :
    meaning cap o t = (meaning cap (o + w.length) s).map (w ++ ·) := by
  rw [meaning, meaning, h]
  cases stringValue s with
  | none => rfl
  | some u =>
    have hroom : o + (w ++ u).length < cap ↔ o + w.length + u.length < cap := by
      rw [List.length_append]
      omega
    simp only [Option.map_some, Option.filter_some, hroom, List.mem_append, hz, false_or]
    split <;> rfl

/-- A NUL in front of what the rest means. -/
theorem meaning_zero (h : stringValue t = (stringValue s).map (encode 0 ++ ·)) (cap o : Nat) :
    meaning cap o t = none := by
  refine meaning_eq_none.2 fun u hu _ => ?_
  rw [h] at hu
  obtain ⟨v, -, rfl⟩ := Option.map_eq_some_iff.1 hu
  exact List.mem_append_left _ encode_zero_mem

/-- An escape is read as what it means, and nothing that means nothing. -/
theorem decodeLoop_chr {q : Bytes} {cp used : Nat} (hesc : escape p = some (cp, used)) (hq : p.drop used = q) (ht : stringValue t = (stringValue s).map (encode cp ++ ·))
    (hs : ∀ o < cap, decodeLoop cap o q = .ok ((meaning cap o s).map (·, rest))) (o : Nat) :
    decodeLoop cap o (0x5c :: p) = .ok ((meaning cap o t).map (·, rest)) := by
  rw [decodeLoop_escape hesc, hq]
  split
  · rename_i hz
    rw [meaning_zero (hz ▸ ht)]
    rfl
  · rename_i hz
    rw [meaning_append ht (utf8_zero_mem hz (escape_lt hesc)), utf8_eq]
    split
    · rename_i hfull
      rw [meaning_full hfull]
      rfl
    · rename_i hroom
      rw [hs _ (Nat.lt_of_not_le hroom), ok_bind]
      cases meaning cap (o + (encode cp).length) s <;> rfl

/-- What a string goes on with after a code unit that no other one follows. -/
theorem next_no_code (h : ∀ a b c d h' r, s = Chr.code a b c d h' :: r → False) (rest q : Bytes) :
    stringText s ++ 0x22 :: rest ≠ 0x5c :: 0x75 :: q := by
  have hshort : ∀ e ∈ shortEscapes, e.1 ≠ 0x75 := by decide
  intro heq
  cases s with
  | nil => cases heq
  | cons e s =>
    cases e with
    | plain c hc => exact hc.2.2 (List.cons.inj heq).1
    | short e he => exact hshort e he (List.cons.inj (List.cons.inj heq).2).1
    | code a b c d h' => exact h a b c d h' s rfl

/-- **A string is read as what its characters mean**, if that has no NUL and fits, and refused
otherwise. -/
theorem decodeLoop_string (cap : Nat) (rest : Bytes) : ∀ (s : List Chr) (o : Nat), o < cap →
    decodeLoop cap o (stringText s ++ 0x22 :: rest) = .ok ((meaning cap o s).map (·, rest)) := by
  intro s
  induction s using stringValue.induct with
  | case1 =>
    intro o ho
    rw [(meaning_eq_some (u := [])).2 ⟨rfl, ho, List.not_mem_nil⟩]
    exact decodeLoop_quote cap o rest
  | case2 c h s ih =>
    intro o ho
    have hcons : stringText (.plain c h :: s) = c :: stringText s := rfl
    have hz : (0 : UInt8) ∉ [c] := by
      rw [List.mem_singleton]
      rintro rfl
      exact absurd h.1 (by decide)
    have ht : stringValue (.plain c h :: s) = (stringValue s).map ([c] ++ ·) := by
      rw [stringValue]
      rfl
    rw [hcons, List.cons_append, decodeLoop_plain h, meaning_append ht hz, List.length_singleton]
    split
    · rename_i hfull
      rw [meaning_full hfull]
      rfl
    · rename_i hroom
      rw [ih (o + 1) (Nat.lt_of_not_le hroom), ok_bind]
      cases meaning cap (o + 1) s <;> rfl
  | case3 e h s ih =>
    intro o _
    have hcons : stringText (.short e h :: s) = 0x5c :: e.1 :: stringText s := rfl
    rw [hcons]
    exact decodeLoop_chr (escape_shortEscape h _) rfl (by rw [stringValue]) ih o
  | case4 a b c d h a' b' c' d' h' s hi hlow =>
    intro o _
    have hvalue : stringValue (.code a b c d h :: .code a' b' c' d' h' :: s) = none := by
      rw [stringValue]
      exact if_pos hlow
    rw [meaning, hvalue]
    exact decodeLoop_stray (escape_low h hlow _) cap o
  | case5 a b c d h a' b' c' d' h' s hi lo hlow hhigh hpair =>
    rename_i ih
    intro o _
    have hcons : stringText (.code a b c d h :: .code a' b' c' d' h' :: s) =
        0x5c :: 0x75 :: a :: b :: c :: d :: 0x5c :: 0x75 :: a' :: b' :: c' :: d' :: stringText s := rfl
    rw [hcons]
    refine decodeLoop_chr (escape_pair h h' hhigh hpair _) rfl ?_ ih o
    rw [stringValue]
    rw [if_neg hlow, if_pos hhigh, if_pos hpair]
  | case6 a b c d h a' b' c' d' h' s hi lo hlow hhigh =>
    rename_i hpair
    intro o _
    have hvalue : stringValue (.code a b c d h :: .code a' b' c' d' h' :: s) = none := by
      rw [stringValue]
      rw [if_neg hlow, if_pos hhigh, if_neg hpair]
    rw [meaning, hvalue]
    exact decodeLoop_stray (escape_broken h h' hhigh hpair _) cap o
  | case7 a b c d h a' b' c' d' h' s hi hlow hhigh ih =>
    intro o _
    have hcons : stringText (.code a b c d h :: .code a' b' c' d' h' :: s) =
        0x5c :: 0x75 :: a :: b :: c :: d :: stringText (.code a' b' c' d' h' :: s) := rfl
    have hcode : ¬(0xd800 ≤ codeUnit a b c d ∧ codeUnit a b c d ≤ 0xdfff) := fun hs => by
      change ¬(0xdc00 ≤ codeUnit a b c d ∧ codeUnit a b c d ≤ 0xdfff) at hlow
      change ¬(0xd800 ≤ codeUnit a b c d ∧ codeUnit a b c d ≤ 0xdbff) at hhigh
      omega
    rw [hcons]
    refine decodeLoop_chr (escape_code h hcode _) rfl ?_ ih o
    rw [stringValue]
    rw [if_neg hlow, if_neg hhigh]
  | case8 a b c d h s hnext cp hsurr =>
    intro o _
    have hvalue : stringValue (.code a b c d h :: s) = none := by
      rw [stringValue]
      · exact if_pos hsurr
      · exact hnext
    rw [meaning, hvalue]
    refine decodeLoop_stray ?_ cap o
    by_cases hlow : 0xdc00 ≤ codeUnit a b c d
    · exact escape_low h ⟨hlow, hsurr.2⟩ _
    · exact escape_alone h ⟨hsurr.1, by omega⟩ (next_no_code hnext rest)
  | case9 a b c d h s hnext cp hsurr ih =>
    intro o _
    have hcons : stringText (.code a b c d h :: s) = 0x5c :: 0x75 :: a :: b :: c :: d :: stringText s := rfl
    rw [hcons]
    refine decodeLoop_chr (escape_code h hsurr _) rfl ?_ ih o
    rw [stringValue]
    · exact if_neg hsurr
    · exact hnext

/-- A quoted string is read, if it has no NUL and fits, and refused otherwise. -/
theorem decodeAt_string (cap : Nat) (s : List Chr) (rest : Bytes) :
    decodeAt cap (0x22 :: (stringText s ++ 0x22 :: rest)) = .ok ((meaning cap 0 s).map (·, rest)) := by
  rw [decodeAt, if_neg (by simp), index_cons, ok_bind]
  split
  · rename_i h
    rw [meaning_full (by simpa using h)]
    rfl
  · rename_i h
    exact decodeLoop_string cap rest s 0 (by omega)

/-! ## Numbers and words -/

theorem le_digitsValue (ds : Bytes) (acc : Nat) : acc ≤ digitsValue acc ds := by
  induction ds generalizing acc with
  | nil => exact Nat.le_refl acc
  | cons c ds ih =>
    have := ih (acc * 10 + (c.toNat - 0x30))
    rw [digitsValue, List.foldl_cons]
    rw [digitsValue] at this
    omega

theorem not_digit_of_delim (h : isDelim c = true) : ¬(0x30 ≤ c ∧ c ≤ 0x39) := by
  rintro ⟨h1, h2⟩
  have hnum : isNumeric c = true := by
    rw [isNumeric, decide_eq_true h1, decide_eq_true h2]
    rfl
  rw [(of_numeric hnum).2] at h
  cases h

/-- **Digits are read as the number they spell**, if it has 64 bits. -/
theorem digitsAt_digits (hrest : Delimited rest) (ds : Bytes) (hds : ∀ c ∈ ds, 0x30 ≤ c ∧ c ≤ 0x39) :
    ∀ v n : Nat, digitsValue v ds < 2 ^ 64 →
      digitsAt v n (ds ++ rest) = .ok (some (digitsValue v ds, n + ds.length, rest)) := by
  induction ds with
  | nil =>
    intro v n _
    rw [List.nil_append]
    cases rest with
    | nil =>
      rw [digitsAt, dif_neg (by simp)]
      rfl
    | cons c cs =>
      rw [digitsAt, dif_pos (by simp), index_cons, ok_bind, if_neg (not_digit_of_delim (hrest c cs rfl))]
      rfl
  | cons c ds ih =>
    intro v n hv
    have hc := hds c List.mem_cons_self
    have hle := le_digitsValue ds (v * 10 + (c.toNat - 0x30))
    have hv' : digitsValue (v * 10 + (c.toNat - 0x30)) ds < 2 ^ 64 := hv
    have h30 := UInt8.le_iff_toNat_le.1 hc.1
    have h39 : c.toNat ≤ 0x39 := UInt8.le_iff_toNat_le.1 hc.2
    rw [List.cons_append, digitsAt, dif_pos (by simp), index_cons, ok_bind, if_pos hc, if_neg (by omega),
      List.drop_one, List.tail_cons, ih (fun d hd => hds d (List.mem_cons_of_mem c hd)) _ _ hv', List.length_cons,
      Nat.add_right_comm, ← Nat.add_assoc]
    rfl

theorem delimAt_delimited (h : Delimited rest) : delimAt rest = .ok true := by
  cases rest with
  | nil => rfl
  | cons c cs =>
    have hc := h c cs rfl
    rw [delimAt, if_neg (by simp), index_cons, ok_bind, hc]
    rfl

theorem wordAt_word {word rest : Bytes} (h : Delimited rest) : wordAt word (word ++ rest) = .ok true := by
  rw [wordAt, if_neg (by rw [List.length_append]; omega), slice_eq (Nat.zero_le _) (by
    rw [List.length_append]
    omega), ok_bind, Nat.sub_zero, List.drop_zero, List.take_left, if_neg (not_not.2 rfl), List.drop_left,
    delimAt_delimited h]

theorem wordAt_false (rest : Bytes) : wordAt (ascii "true") (0x66 :: rest) = .ok false := by
  have hlen : (ascii "true").length = 4 := rfl
  rw [wordAt, hlen]
  split
  · rfl
  · rename_i hlong
    rw [slice_eq (Nat.zero_le _) (by omega), ok_bind]
    exact if_pos fun h => absurd (congrArg List.head? h) (by simp [ascii])

/-! ## Members -/

/-- What follows a member's value may follow a value. -/
theorem delimited_find {key after : Bytes} {r : Value × Bytes} : ∀ {ms : Members}, ms.find key = some r →
    Delimited (r.2 ++ 0x7d :: after)
  | .last _ _ _ _ _ w₂, h => by
    rw [Members.find] at h
    split at h
    · cases h
      exact delimited_blank w₂ (delimited_cons rfl _)
    · cases h
  | .more _ _ _ _ _ w₂ ms, h => by
    rw [Members.find] at h
    split at h
    · cases h
      dsimp only
      rw [List.append_assoc, List.cons_append]
      exact delimited_blank w₂ (delimited_cons rfl _)
    · exact delimited_find h

theorem delimited_object {o : ObjectText} {key : Bytes} {r : Value × Bytes} (h : o.find key = some r) :
    Delimited r.2 := by
  cases o with
  | empty before inner after => cases h
  | members before ms after =>
    obtain ⟨q, hq, rfl⟩ := Option.map_eq_some_iff.1 h
    exact delimited_find hq

theorem topValueAt_object (o : ObjectText) (key : Bytes) :
    topValueAt o.text key = .ok ((o.find key).map fun r => r.1.text ++ r.2) := by
  rw [topValueAt_eq, topValue_object]

section Reader

variable {o : ObjectText} {key follow : Bytes}

theorem webuiJsonStr_object {s : List Chr} (h : o.find key = some (.str s, follow)) (cap : Nat) :
    webuiJsonStr o.text key cap = .ok ((meaning cap 0 s).elim .unusable .found) := by
  rw [webuiJsonStr, topValueAt_object, h, ok_bind, Option.map_some, Value.text]
  dsimp only
  rw [List.cons_append, List.append_assoc, List.singleton_append, decodeAt_string, ok_bind]
  cases meaning cap 0 s <;> rfl

/-- A number written with digits only. -/
def IsNatural (n : Number) : Prop := n.minus = false ∧ n.frac = none ∧ n.exp = none

theorem webuiJsonU64_object {n : Number} (h : o.find key = some (.num n, follow)) (hn : IsNatural n)
    (hlt : digitsValue 0 n.whole.text < 2 ^ 64) :
    webuiJsonU64 o.text key = .ok (.found (digitsValue 0 n.whole.text)) := by
  have htext : n.text = n.whole.text := by
    rw [Number.text, hn.1, hn.2.1, hn.2.2]
    simp
  have hdelim : Delimited follow := delimited_object h
  have hpos : ¬0 + n.whole.text.length = 0 := by
    rw [Nat.zero_add, List.length_eq_zero_iff]
    exact n.whole.nonempty
  rw [webuiJsonU64, topValueAt_object, h, ok_bind, Option.map_some, Value.text, htext]
  dsimp only
  rw [digitsAt_digits hdelim _ n.whole.digits 0 0 hlt, ok_bind]
  dsimp only
  rw [if_neg hpos, delimAt_delimited hdelim]
  rfl

theorem webuiJsonBool_object {b : Bool} (h : o.find key = some (.bool b, follow)) :
    webuiJsonBool o.text key = .ok (.found b) := by
  have hdelim : Delimited follow := delimited_object h
  rw [webuiJsonBool, topValueAt_object, h, ok_bind, Option.map_some]
  dsimp only
  cases b with
  | true =>
    have hword := @wordAt_word (ascii "true") _ hdelim
    rw [show (Value.bool true).text ++ follow = ascii "true" ++ follow from rfl, hword]
    rfl
  | false =>
    have hword := @wordAt_word (ascii "false") _ hdelim
    rw [show (Value.bool false).text ++ follow = 0x66 :: (ascii "alse" ++ follow) from rfl, wordAt_false, ok_bind,
      if_neg Bool.false_ne_true, show 0x66 :: (ascii "alse" ++ follow) = ascii "false" ++ follow from rfl, hword]
    rfl

/-- An array's text is handed out whole. -/
theorem webuiJsonArray_object {v : Value} (h : o.find key = some (v, follow)) (harr : v.isArray = true) :
    webuiJsonArray o.text key = .ok (.found v.text) := by
  have hv : v.text.head? = some 0x5b := by
    cases v with
    | emptyArr w => rfl
    | arr items => rfl
    | _ => cases harr
  have hskip := skipVal_value v (delimited_object h)
  rw [webuiJsonArray, topValueAt_object, h, ok_bind, Option.map_some]
  dsimp only at hskip ⊢
  have hhead : (index (v.text ++ follow) 0 : Res UInt8) = .ok 0x5b := by
    refine index_eq ?_
    cases htext : v.text with
    | nil =>
      rw [htext] at hv
      cases hv
    | cons c cs =>
      rw [htext] at hv
      exact hv
  rw [hhead, ok_bind, if_neg (not_not.2 rfl), skipValAt_eq, hskip, ok_bind]
  dsimp only
  have hlen : (v.text ++ follow).length - follow.length = v.text.length := by
    rw [List.length_append, Nat.add_sub_cancel]
  rw [hlen, slice_eq (Nat.zero_le _) (by rw [List.length_append]; omega), Nat.sub_zero, List.drop_zero,
    List.take_left]
  rfl

end Reader

/-! ## The strings of an array -/

/-- What call after call hands out, and what the call says that hands out nothing; `none` where
there were too few calls. -/
def readAll (arr : Bytes) (cap : Nat) : Nat → Nat → Res (List Bytes × Option Element)
  | 0, _ => .ok ([], none)
  | turns + 1, pos => do
    match ← webuiJsonArrayStr arr cap pos with
    | (.str v, pos) => do
      let rest ← readAll arr cap turns pos
      return (v :: rest.1, rest.2)
    | (last, _) => return ([], some last)

/-- The strings that are handed out, up to the first one that is refused. -/
def handedOut (cap : Nat) : List (List Chr) → List Bytes × Option Element
  | [] => ([], some .done)
  | s :: ss =>
    match meaning cap 0 s with
    | none => ([], some .bad)
    | some u => (u :: (handedOut cap ss).1, (handedOut cap ss).2)

/-- A string with a value that has no NUL and fits. -/
def Readable (cap : Nat) (s : List Chr) (u : Bytes) : Prop :=
  stringValue s = some u ∧ (0 : UInt8) ∉ u ∧ u.length < cap

variable {cap turns n cp : Nat} {s : List Chr} {items : Elems} {ss : List (List Chr)}
  {cps : List Nat}

theorem meaning_readable {u : Bytes} : meaning cap 0 s = some u ↔ Readable cap s u := by
  rw [meaning_eq_some, Readable, Nat.zero_add, and_comm (a := u.length < cap)]

theorem meaning_unreadable : meaning cap 0 s = none ↔ ∀ u, ¬Readable cap s u := by
  simp only [← meaning_readable, Option.eq_none_iff_forall_ne_some, ne_eq]

/-- All are handed out exactly where all are readable. -/
theorem handedOut_done : ∀ {ss : List (List Chr)} {us : List Bytes},
    handedOut cap ss = (us, some .done) ↔ List.Forall₂ (Readable cap) ss us
  | [], us => by
    rw [List.forall₂_nil_left_iff, handedOut, Prod.mk.injEq]
    exact ⟨fun h => h.1.symm, fun h => ⟨h.symm, rfl⟩⟩
  | s :: ss, us => by
    rw [handedOut]
    cases hs : meaning cap 0 s with
    | none =>
      refine ⟨fun h => (nomatch congrArg Prod.snd h), fun h => ?_⟩
      obtain ⟨u, -, hu, -, -⟩ := List.forall₂_cons_left_iff.1 h
      exact absurd hu (meaning_unreadable.1 hs u)
    | some u =>
      rw [List.forall₂_cons_left_iff]
      constructor
      · intro h
        change (u :: (handedOut cap ss).1, (handedOut cap ss).2) = _ at h
        cases us with
        | nil => exact nomatch congrArg Prod.fst h
        | cons v vs =>
          obtain ⟨hv, hvs⟩ := List.cons.inj (congrArg Prod.fst h)
          have hlast : (handedOut cap ss).2 = some .done := congrArg Prod.snd h
          exact ⟨v, vs, meaning_readable.1 (hs.trans (congrArg some hv)), handedOut_done.1 (Prod.ext hvs hlast), rfl⟩
      · rintro ⟨v, vs, hv, hvs, rfl⟩
        obtain rfl : u = v := Option.some.inj (hs.symm.trans (meaning_readable.2 hv))
        have hrest := handedOut_done.2 hvs
        rw [hrest]

/-- Up to the first string that is not readable, the strings are handed out. -/
theorem handedOut_bad {ss₁ ss₂ : List (List Chr)} {us : List Bytes}
    (hus : List.Forall₂ (Readable cap) ss₁ us) (hs : ∀ u, ¬Readable cap s u) :
    handedOut cap (ss₁ ++ s :: ss₂) = (us, some .bad) := by
  induction hus with
  | nil => rw [List.nil_append, handedOut, meaning_unreadable.2 hs]
  | cons hu _ ih => rw [List.cons_append, handedOut, meaning_readable.2 hu, ih]

/-- The elements' text after the first one's value. -/
def afterFirst : Elems → Bytes
  | .last _ _ w' => w'.text
  | .more _ _ w' rest => w'.text ++ 0x2c :: rest.text

theorem strings_cons (h : items.strings = some (s :: ss)) :
    ∃ w : Blank, items.text = w.text ++ 0x22 :: (stringText s ++ 0x22 :: afterFirst items) := by
  cases items with
  | last w v w' =>
    cases v with
    | str t =>
      cases h
      exact ⟨w, by rw [Elems.text, Value.text, afterFirst]; simp⟩
    | _ => cases h
  | more w v w' rest =>
    cases v with
    | str t =>
      rw [Elems.strings] at h
      obtain ⟨ts, -, heq⟩ := Option.map_eq_some_iff.1 h
      cases heq
      exact ⟨w, by rw [Elems.text, Value.text, afterFirst]; simp⟩
    | _ => cases h

/-- The call about the next element, from after the bracket or the comma. -/
theorem element_next (h : items.strings = some (s :: ss))
    (cap : Nat) : ∃ q, wsAt (items.text ++ [0x5d]) = .ok (0x22 :: q) ∧
      decodeAt cap (0x22 :: q) = .ok ((meaning cap 0 s).map (·, afterFirst items ++ [0x5d])) := by
  obtain ⟨w, htext⟩ := strings_cons h
  refine ⟨stringText s ++ 0x22 :: (afterFirst items ++ [0x5d]), ?_, decodeAt_string cap s _⟩
  rw [wsAt_eq, htext, List.append_assoc, List.cons_append, List.append_assoc, List.cons_append,
    ws_blank_cons rfl]

/-- The calls after an element: the others, then the end. -/
theorem readAll_after {arr : Bytes} : ∀ (items : Elems) {s : List Chr} {ss : List (List Chr)}
    {pre : Bytes} {turns : Nat}, items.strings = some (s :: ss) → pre ≠ [] →
    arr = pre ++ (afterFirst items ++ [0x5d]) → ss.length < turns →
    readAll arr cap turns pre.length = .ok (handedOut cap ss)
  | .last w v w', s, ss, pre, turns, hss, hpre, harr, hturns => by
    obtain ⟨turns, rfl⟩ : ∃ t, turns = t + 1 := ⟨turns - 1, by omega⟩
    have hnil : ss = [] := by
      cases v with
      | str t =>
        cases hss
        rfl
      | _ => cases hss
    have hpos := List.length_pos_iff.2 hpre
    have hlen : arr.length = pre.length + (w'.text.length + 1) := by
      rw [harr, List.length_append, afterFirst, List.length_append]
      rfl
    have hdrop : arr.drop pre.length = w'.text ++ [0x5d] := by rw [harr, List.drop_left, afterFirst]
    have hcall : webuiJsonArrayStr arr cap pre.length = .ok (.done, arr.length) := by
      rw [webuiJsonArrayStr, if_neg (by omega), if_neg (by omega), hdrop, wsAt_eq, ok_bind, ws_blank_cons rfl]
      dsimp only
      rw [if_neg (by omega)]
      rfl
    rw [readAll, hcall, hnil]
    rfl
  | .more w v w' rest, s, ss, pre, turns, hss, hpre, harr, hturns => by
    obtain ⟨turns, rfl⟩ : ∃ t, turns = t + 1 := ⟨turns - 1, by omega⟩
    have hrest : rest.strings = some ss := by
      cases v with
      | str t =>
        rw [Elems.strings] at hss
        obtain ⟨ts, hts, heq⟩ := Option.map_eq_some_iff.1 hss
        cases heq
        exact hts
      | _ => cases hss
    cases ss with
    | nil =>
      -- there is always another element after a comma
      cases rest with
      | last w₂ v₂ w₂' => cases v₂ <;> cases hrest
      | more w₂ v₂ w₂' rest₂ =>
        cases v₂ with
        | str t =>
          rw [Elems.strings] at hrest
          obtain ⟨ts, -, heq⟩ := Option.map_eq_some_iff.1 hrest
          cases heq
        | _ => cases hrest
    | cons s₂ ss =>
      obtain ⟨q, hws, hdecode⟩ := element_next hrest cap
      have hpos := List.length_pos_iff.2 hpre
      have hdrop : arr.drop pre.length = w'.text ++ 0x2c :: (rest.text ++ [0x5d]) := by
        rw [harr, List.drop_left, afterFirst, List.append_assoc]
        rfl
      have hlen : arr.length = pre.length + (w'.text.length + (rest.text.length + 1 + 1)) := by
        rw [harr, List.length_append, afterFirst]
        simp only [List.length_append, List.length_cons, List.length_nil]
        omega
      obtain ⟨w₂, htext⟩ := strings_cons hrest
      -- what the calls so far have taken
      let pre' := pre ++ (w'.text ++ 0x2c :: (w₂.text ++ 0x22 :: (stringText s₂ ++ [0x22])))
      have harr' : arr = pre' ++ (afterFirst rest ++ [0x5d]) := by
        rw [harr, afterFirst, htext]
        simp [pre']
      have hlast : arr.length - (afterFirst rest ++ [0x5d]).length = pre'.length := by
        rw [harr', List.length_append, Nat.add_sub_cancel]
      have hcall : webuiJsonArrayStr arr cap pre.length =
          .ok ((meaning cap 0 s₂).elim (.bad, pre.length) fun u => (.str u, pre'.length)) := by
        rw [webuiJsonArrayStr, if_neg (by omega), if_neg (by omega), hdrop, wsAt_eq, ok_bind, ws_blank_cons rfl]
        dsimp only
        rw [if_neg (by omega)]
        change (wsAt (rest.text ++ [0x5d]) >>= fun q => _) = _
        rw [hws, ok_bind, hdecode, ok_bind]
        cases meaning cap 0 s₂ with
        | none => rfl
        | some u =>
          dsimp only [Option.map_some, Option.elim_some]
          rw [hlast]
          rfl
      have hne : pre' ≠ [] := List.append_ne_nil_of_left_ne_nil hpre _
      rw [List.length_cons] at hturns
      have hmore : readAll arr cap turns pre'.length = .ok (handedOut cap ss) :=
        readAll_after rest hrest hne harr' (by omega)
      rw [readAll, hcall, ok_bind, handedOut]
      cases meaning cap 0 s₂ with
      | none => rfl
      | some u =>
        dsimp only [Option.elim_some]
        rw [hmore]
        rfl

/-- **The strings of an array, call after call.** -/
theorem readAll_elems (hss : items.strings = some ss) (cap : Nat) (hturns : ss.length < turns) :
    readAll (Value.arr items).text cap turns 0 = .ok (handedOut cap ss) := by
  obtain ⟨turns, rfl⟩ : ∃ t, turns = t + 1 := ⟨turns - 1, by omega⟩
  cases ss with
  | nil =>
    cases items with
    | last w v w' => cases v <;> cases hss
    | more w v w' rest =>
      cases v with
      | str t =>
        rw [Elems.strings] at hss
        obtain ⟨ts, -, heq⟩ := Option.map_eq_some_iff.1 hss
        cases heq
      | _ => cases hss
  | cons s ss =>
    obtain ⟨q, hws, hdecode⟩ := element_next hss cap
    obtain ⟨w, htext⟩ := strings_cons hss
    have harr : (Value.arr items).text = 0x5b :: (items.text ++ [0x5d]) := rfl
    let pre := 0x5b :: (w.text ++ 0x22 :: (stringText s ++ [0x22]))
    have hsplit : 0x5b :: (items.text ++ [0x5d]) = pre ++ (afterFirst items ++ [0x5d]) := by
      rw [htext]
      simp [pre]
    have hlast : (0x5b :: (items.text ++ [0x5d])).length - (afterFirst items ++ [0x5d]).length = pre.length := by
      rw [hsplit, List.length_append, Nat.add_sub_cancel]
    have hcall : webuiJsonArrayStr (0x5b :: (items.text ++ [0x5d])) cap 0 =
        .ok ((meaning cap 0 s).elim (.bad, 0) fun u => (.str u, pre.length)) := by
      rw [webuiJsonArrayStr, if_neg (by omega), if_neg (by rw [List.length_cons]; omega), List.drop_zero, wsAt_eq,
        ok_bind, ws_cons rfl]
      dsimp only
      rw [if_pos rfl]
      change (wsAt (items.text ++ [0x5d]) >>= fun q => _) = _
      rw [hws, ok_bind]
      change (decodeAt cap (0x22 :: q) >>= _) = _
      rw [hdecode, ok_bind]
      cases meaning cap 0 s with
      | none => rfl
      | some u =>
        dsimp only [Option.map_some, Option.elim_some]
        rw [hlast]
        rfl
    rw [List.length_cons] at hturns
    have hmore : readAll (0x5b :: (items.text ++ [0x5d])) cap turns pre.length = .ok (handedOut cap ss) :=
      readAll_after items hss (List.cons_ne_nil _ _) hsplit (by omega)
    rw [readAll, harr, hcall, ok_bind, handedOut]
    cases meaning cap 0 s with
    | none => rfl
    | some u =>
      dsimp only [Option.elim_some]
      rw [hmore]
      rfl

theorem readAll_empty (w : Blank) (cap : Nat) (hturns : 0 < turns) :
    readAll (Value.emptyArr w).text cap turns 0 = .ok ([], some .done) := by
  obtain ⟨turns, rfl⟩ : ∃ t, turns = t + 1 := ⟨turns - 1, by omega⟩
  have harr : (Value.emptyArr w).text = 0x5b :: (w.text ++ [0x5d]) := rfl
  have hcall : webuiJsonArrayStr (0x5b :: (w.text ++ [0x5d])) cap 0 =
      .ok (.done, (0x5b :: (w.text ++ [0x5d])).length) := by
    rw [webuiJsonArrayStr, if_neg (by omega), if_neg (by rw [List.length_cons]; omega), List.drop_zero, wsAt_eq,
      ok_bind, ws_cons rfl]
    dsimp only
    rw [if_pos rfl]
    change (wsAt (w.text ++ [0x5d]) >>= fun q => _) = _
    rw [wsAt_eq, ok_bind, ws_blank_cons rfl]
    rfl
  rw [readAll, harr, hcall]
  rfl

theorem readAll_value {v : Value} (hss : v.strings = some ss) (cap : Nat)
    (hturns : ss.length < turns) : readAll v.text cap turns 0 = .ok (handedOut cap ss) := by
  cases v with
  | emptyArr w =>
    cases hss
    exact readAll_empty w cap hturns
  | arr items => exact readAll_elems hss cap hturns
  | _ => cases hss

/-! ## Escaped text -/

/-- What is written for a code point: an escape, or its bytes. -/
def escapeChar (cp : Nat) : Bytes := if cp < 0x80 then escapeByte (UInt8.ofNat cp) else encode cp

def escapeText (cps : List Nat) : Bytes := cps.flatMap escapeChar

theorem toNat_ofNat (h : n < 256) : (UInt8.ofNat n).toNat = n := by
  rw [UInt8.toNat_ofNat', Nat.mod_eq_of_lt h]

/-- A continuation byte adds its six bits. -/
theorem utf8Tail_step {s : Bytes} {i x : Nat} (hx : x < 64) (hs : s[i]? = some (UInt8.ofNat (0x80 + x)))
    (todo cp : Nat) : utf8Tail s (todo + 1) i cp = utf8Tail s todo (i + 1) (cp * 64 + x) := by
  have hbyte : (UInt8.ofNat (0x80 + x)).toNat = 0x80 + x := toNat_ofNat (by omega)
  rw [utf8Tail, index_eq hs, ok_bind, hbyte, if_neg (by omega)]
  have hmod : (0x80 + x) % 64 = x := by omega
  rw [hmod]

/-- **A sequence of more bytes is seen whole.** -/
theorem utf8Seq_encode (hlow : 0x80 ≤ cp) (hcp : IsScalar cp) (rest : Bytes) :
    utf8Seq (encode cp ++ rest) = .ok (some (encode cp).length) := by
  have hlt : cp < 0x110000 := hcp.elim (fun h => by omega) fun h => h.2
  have hsur : ¬(0xd800 ≤ cp ∧ cp ≤ 0xdfff) := by
    rcases hcp with h | h <;> omega
  rw [encode, if_neg (by omega)]
  split
  · have hhead : (UInt8.ofNat (0xc0 + cp / 64)).toNat = 0xc0 + cp / 64 := toNat_ofNat (by omega)
    have hvalue : (0xc0 + cp / 64) % 32 * 64 + cp % 64 = cp := by omega
    rw [utf8Seq, List.cons_append, index_cons, ok_bind, hhead]
    dsimp only
    rw [if_pos ⟨by omega, by omega⟩]
    dsimp only
    rw [if_neg (by simp), utf8Tail_step (Nat.mod_lt _ (by decide)) rfl, hvalue, utf8Tail, ok_bind]
    dsimp only
    rw [if_neg (by omega)]
    rfl
  · split
    · have hhead : (UInt8.ofNat (0xe0 + cp / 4096)).toNat = 0xe0 + cp / 4096 := toNat_ofNat (by omega)
      have hvalue : ((0xe0 + cp / 4096) % 16 * 64 + cp / 64 % 64) * 64 + cp % 64 = cp := by omega
      rw [utf8Seq, List.cons_append, index_cons, ok_bind, hhead]
      dsimp only
      rw [if_neg (by omega), if_pos ⟨by omega, by omega⟩]
      dsimp only
      rw [if_neg (by simp), utf8Tail_step (Nat.mod_lt _ (by decide)) rfl,
        utf8Tail_step (Nat.mod_lt _ (by decide)) rfl, hvalue, utf8Tail, ok_bind]
      dsimp only
      rw [if_neg (by omega)]
      rfl
    · have hhead : (UInt8.ofNat (0xf0 + cp / 262144)).toNat = 0xf0 + cp / 262144 := toNat_ofNat (by omega)
      have hvalue : (((0xf0 + cp / 262144) % 8 * 64 + cp / 4096 % 64) * 64 + cp / 64 % 64) * 64 + cp % 64 = cp := by
        omega
      rw [utf8Seq, List.cons_append, index_cons, ok_bind, hhead]
      dsimp only
      rw [if_neg (by omega), if_neg (by omega), if_pos ⟨by omega, by omega⟩]
      dsimp only
      rw [if_neg (by simp), utf8Tail_step (Nat.mod_lt _ (by decide)) rfl,
        utf8Tail_step (Nat.mod_lt _ (by decide)) rfl, utf8Tail_step (Nat.mod_lt _ (by decide)) rfl, hvalue,
        utf8Tail, ok_bind]
      dsimp only
      rw [if_neg (by omega)]
      rfl

theorem encode_high (hlow : 0x80 ≤ cp) (hlt : cp < 0x110000) : ∀ c ∈ encode cp, 0x80 ≤ c := by
  have hbyte : ∀ n, 0x80 ≤ n → n < 256 → (0x80 : UInt8) ≤ UInt8.ofNat n := fun n h1 h2 => by
    rw [UInt8.le_iff_toNat_le, toNat_ofNat h2]
    exact h1
  intro c hc
  rw [encode, if_neg (by omega)] at hc
  split at hc
  · simp only [List.mem_cons, List.not_mem_nil, or_false] at hc
    rcases hc with rfl | rfl <;> exact hbyte _ (by omega) (by omega)
  · split at hc
    · simp only [List.mem_cons, List.not_mem_nil, or_false] at hc
      rcases hc with rfl | rfl | rfl <;> exact hbyte _ (by omega) (by omega)
    · simp only [List.mem_cons, List.not_mem_nil, or_false] at hc
      rcases hc with rfl | rfl | rfl | rfl <;> exact hbyte _ (by omega) (by omega)

theorem two_le_length_encode (hlow : 0x80 ≤ cp) : 2 ≤ (encode cp).length := by
  rw [encode, if_neg (by omega)]
  split
  · exact Nat.le_refl 2
  · split <;> simp

/-- A code point is written as a piece. -/
theorem esc_char (hcp : IsScalar cp) (w : Jw) (rest : Bytes) :
    esc w (encode cp ++ rest) = esc (w.put (escapeChar cp)) rest := by
  have hlt : cp < 0x110000 := hcp.elim (fun h => by omega) fun h => h.2
  by_cases hlow : cp < 0x80
  · have henc : encode cp = [UInt8.ofNat cp] := if_pos hlow
    have hascii : UInt8.ofNat cp < 0x80 := by
      rw [UInt8.lt_iff_toNat_lt, toNat_ofNat (by omega)]
      exact hlow
    rw [henc, List.singleton_append, esc, dif_pos (by simp), index_cons, ok_bind, if_pos hascii, escapeChar,
      if_pos hlow, List.drop_one, List.tail_cons]
  · have htwo := two_le_length_encode (Nat.le_of_not_lt hlow)
    have hhigh := encode_high (Nat.le_of_not_lt hlow) hlt
    have hseq := utf8Seq_encode (Nat.le_of_not_lt hlow) hcp rest
    have hmax : max (encode cp).length 1 = (encode cp).length := by omega
    have hpiece : (slice (encode cp ++ rest) 0 (encode cp).length : Res Bytes) = .ok (encode cp) := by
      rw [slice_eq (Nat.zero_le _) (by rw [List.length_append]; omega), Nat.sub_zero, List.drop_zero, List.take_left]
    rw [esc, dif_pos (by rw [List.length_append]; omega), escapeChar, if_neg hlow]
    obtain ⟨c, cs, hcs⟩ : ∃ c cs, encode cp = c :: cs := by
      cases henc : encode cp with
      | nil => rw [henc] at htwo; simp at htwo
      | cons c cs => exact ⟨c, cs, rfl⟩
    have hfirst : (index (encode cp ++ rest) 0 : Res UInt8) = .ok c := by
      rw [hcs, List.cons_append, index_cons]
    have hnot : ¬c < 0x80 := UInt8.not_lt.2 (hhigh c (hcs ▸ List.mem_cons_self))
    rw [hfirst, ok_bind, if_neg hnot, hseq, ok_bind]
    dsimp only
    rw [hpiece, ok_bind, hmax, List.drop_left]

/-- What a text's pieces take, and what of it is written where it fits. -/
theorem esc_text : ∀ (cps : List Nat) (w : Jw), (∀ cp ∈ cps, IsScalar cp) →
    ∃ w', esc w (cps.flatMap encode) = .ok w' ∧ w'.len = w.len + (escapeText cps).length ∧
      (w.full = false → w.len + (escapeText cps).length < w.cap → w'.wrote = w.wrote ++ escapeText cps)
  | [], w, _ => by
    refine ⟨w, ?_, rfl, fun _ _ => (List.append_nil _).symm⟩
    rw [List.flatMap_nil, esc, dif_neg (by simp)]
  | cp :: cps, w, h => by
    obtain ⟨w', hw', hlen, hwrote⟩ := esc_text cps (w.put (escapeChar cp)) fun c hc => h c (List.mem_cons_of_mem cp hc)
    have hcons : escapeText (cp :: cps) = escapeChar cp ++ escapeText cps := List.flatMap_cons
    have hput : (w.put (escapeChar cp)).len = w.len + (escapeChar cp).length := by
      rw [Jw.put]
      split <;> rfl
    rw [hput] at hlen
    rw [hcons, List.length_append, List.flatMap_cons, esc_char (h cp List.mem_cons_self)]
    refine ⟨w', hw', by omega, fun hfull hroom => ?_⟩
    have hfits : w.put (escapeChar cp) =
        { w with wrote := w.wrote ++ escapeChar cp, len := w.len + (escapeChar cp).length } :=
      if_pos ⟨hfull, by omega, by omega⟩
    rw [hfits] at hwrote
    rw [hwrote hfull (by dsimp only; omega), List.append_assoc]

theorem stringValue_code {a b c d : UInt8} (h : isHex a ∧ isHex b ∧ isHex c ∧ isHex d)
    (hs : ¬(0xd800 ≤ codeUnit a b c d ∧ codeUnit a b c d ≤ 0xdfff)) (s : List Chr) :
    stringValue (.code a b c d h :: s) = (stringValue s).map (encode (codeUnit a b c d) ++ ·) := by
  have hcode : ∀ {t : List Chr}, (∀ a' b' c' d' h' r, t = Chr.code a' b' c' d' h' :: r → False) →
      stringValue (.code a b c d h :: t) = (stringValue t).map (encode (codeUnit a b c d) ++ ·) := fun hnext => by
    rw [stringValue]
    · exact if_neg hs
    · exact hnext
  cases s with
  | nil => exact hcode fun _ _ _ _ _ _ h => by cases h
  | cons e s =>
    cases e with
    | plain c h => exact hcode fun _ _ _ _ _ _ h => by cases h
    | short e h => exact hcode fun _ _ _ _ _ _ h => by cases h
    | code a' b' c' d' h' =>
      rw [stringValue]
      rw [if_neg (by omega), if_neg (by omega)]

/-- A character of one byte is escaped in one of three ways. -/
theorem escapeByte_cases (hn : n < 0x80) (hz : n ≠ 0) :
    (∃ e ∈ shortEscapes, escapeByte (UInt8.ofNat n) = [0x5c, e.1] ∧ e.2 = n) ∨
    ((isHex (hexDigit (n / 16)) = true ∧ isHex (hexDigit (n % 16)) = true) ∧
      escapeByte (UInt8.ofNat n) = [0x5c, 0x75, 0x30, 0x30, hexDigit (n / 16), hexDigit (n % 16)] ∧
      codeUnit 0x30 0x30 (hexDigit (n / 16)) (hexDigit (n % 16)) = n) ∨
    (escapeByte (UInt8.ofNat n) = [UInt8.ofNat n] ∧
      0x20 ≤ UInt8.ofNat n ∧ UInt8.ofNat n ≠ 0x22 ∧ UInt8.ofNat n ≠ 0x5c) := by
  have hc : (UInt8.ofNat n).toNat = n := by
    rw [UInt8.toNat_ofNat']
    omega
  have hshort : ∀ e ∈ shortEscapes, e.2 ≠ 0x2f → escapeByte (UInt8.ofNat e.2) = [0x5c, e.1] ∧ e.2 < 0x80 := by decide
  by_cases hs : ∃ e ∈ shortEscapes, e.2 ≠ 0x2f ∧ e.2 = n
  · obtain ⟨e, he, hne, rfl⟩ := hs
    exact .inl ⟨e, he, (hshort e he hne).1, rfl⟩
  have hoff : ∀ e ∈ shortEscapes, e.2 ≠ 0x2f → UInt8.ofNat n ≠ UInt8.ofNat e.2 := fun e he hne heq => by
    have hlt := (hshort e he hne).2
    have hval := congrArg UInt8.toNat heq
    rw [hc, UInt8.toNat_ofNat'] at hval
    exact hs ⟨e, he, hne, by omega⟩
  have hquote : UInt8.ofNat n ≠ 0x22 := hoff (0x22, 0x22) (by decide) (by decide)
  have hback : UInt8.ofNat n ≠ 0x5c := hoff (0x5c, 0x5c) (by decide) (by decide)
  have hnewline : UInt8.ofNat n ≠ 0x0a := hoff (0x6e, 0x0a) (by decide) (by decide)
  have hreturn : UInt8.ofNat n ≠ 0x0d := hoff (0x72, 0x0d) (by decide) (by decide)
  have htab : UInt8.ofNat n ≠ 0x09 := hoff (0x74, 0x09) (by decide) (by decide)
  have hbell : UInt8.ofNat n ≠ 0x08 := hoff (0x62, 0x08) (by decide) (by decide)
  have hfeed : UInt8.ofNat n ≠ 0x0c := hoff (0x66, 0x0c) (by decide) (by decide)
  have hbyte : escapeByte (UInt8.ofNat n) = if UInt8.ofNat n < 0x20 then
      [0x5c, 0x75, 0x30, 0x30, hexDigit (n / 16), hexDigit (n % 16)] else [UInt8.ofNat n] := by
    rw [escapeByte, if_neg hquote, if_neg hback, if_neg hnewline, if_neg hreturn, if_neg htab, if_neg hbell,
      if_neg hfeed, hc]
  rw [hbyte]
  by_cases hlow : UInt8.ofNat n < 0x20
  · have hhex : ∀ k < 16, isHex (hexDigit k) = true ∧ hexOf (hexDigit k) = k := by decide
    have hhi := hhex (n / 16) (by omega)
    have hlo := hhex (n % 16) (by omega)
    refine .inr (.inl ⟨⟨hhi.1, hlo.1⟩, if_pos hlow, ?_⟩)
    rw [codeUnit, hhi.2, hlo.2, show hexOf 0x30 = 0 from rfl]
    omega
  · exact .inr (.inr ⟨if_neg hlow, UInt8.not_lt.1 hlow, hquote, hback⟩)

/-- A character of one byte is escaped as a character that means it. -/
theorem escapeByte_chr (hn : n < 0x80) (hz : n ≠ 0) :
    ∃ c : Chr, c.text = escapeByte (UInt8.ofNat n) ∧
      ∀ s, stringValue (c :: s) = (stringValue s).map (encode n ++ ·) := by
  have henc : encode n = [UInt8.ofNat n] := if_pos hn
  rcases escapeByte_cases hn hz with ⟨e, he, htext, rfl⟩ | ⟨hhex, htext, hvalue⟩ | ⟨htext, hplain⟩
  · exact ⟨.short e he, htext.symm, fun s => by rw [stringValue]⟩
  · refine ⟨.code 0x30 0x30 _ _ ⟨rfl, rfl, hhex.1, hhex.2⟩, htext.symm, fun s => ?_⟩
    rw [stringValue_code _ (by rw [hvalue]; omega), hvalue]
  · refine ⟨.plain _ hplain, htext.symm, fun s => ?_⟩
    rw [stringValue, henc]
    rfl

/-- Bytes above ASCII stand for themselves. -/
theorem high_chrs {bs : Bytes} (h : ∀ c ∈ bs, 0x80 ≤ c) :
    ∃ cs : List Chr, stringText cs = bs ∧ ∀ s, stringValue (cs ++ s) = (stringValue s).map (bs ++ ·) := by
  induction bs with
  | nil => exact ⟨[], rfl, fun s => by simp⟩
  | cons c bs ih =>
    obtain ⟨cs, htext, hvalue⟩ := ih fun d hd => h d (List.mem_cons_of_mem c hd)
    have hc := UInt8.le_iff_toNat_le.1 (h c List.mem_cons_self)
    have hplain : 0x20 ≤ c ∧ c ≠ 0x22 ∧ c ≠ 0x5c := by
      refine ⟨UInt8.le_iff_toNat_le.2 (Nat.le_trans (by decide) hc), ?_, ?_⟩
      all_goals
        rintro rfl
        exact absurd hc (by decide)
    refine ⟨.plain c hplain :: cs, ?_, fun s => ?_⟩
    · rw [← htext]
      rfl
    · rw [List.cons_append, stringValue, hvalue, Option.map_map]
      rfl

/-- **Escaped text is the text of a string that means it.** -/
theorem escapeText_chrs (hcps : ∀ cp ∈ cps, IsScalar cp ∧ cp ≠ 0) :
    ∃ s : List Chr, stringText s = escapeText cps ∧ stringValue s = some (cps.flatMap encode) := by
  induction cps with
  | nil => exact ⟨[], rfl, rfl⟩
  | cons cp cps ih =>
    obtain ⟨s, htext, hvalue⟩ := ih fun c hc => hcps c (List.mem_cons_of_mem cp hc)
    obtain ⟨hscalar, hz⟩ := hcps cp List.mem_cons_self
    have hlt : cp < 0x110000 := hscalar.elim (fun h => by omega) fun h => h.2
    have hcons : escapeText (cp :: cps) = escapeChar cp ++ escapeText cps := List.flatMap_cons
    rw [hcons, List.flatMap_cons, escapeChar]
    by_cases hlow : cp < 0x80
    · obtain ⟨c, hc, hcv⟩ := escapeByte_chr hlow hz
      refine ⟨c :: s, ?_, by rw [hcv, hvalue]; rfl⟩
      rw [if_pos hlow, ← hc, ← htext]
      rfl
    · obtain ⟨cs, hcs, hcv⟩ := high_chrs (encode_high (Nat.le_of_not_lt hlow) hlt)
      refine ⟨cs ++ s, ?_, by rw [hcv, hvalue]; rfl⟩
      rw [if_neg hlow, ← hcs, ← htext]
      exact List.flatMap_append

theorem zero_not_mem_text (hcps : ∀ cp ∈ cps, IsScalar cp ∧ cp ≠ 0) :
    (0 : UInt8) ∉ cps.flatMap encode := by
  rw [List.mem_flatMap]
  rintro ⟨cp, hcp, hmem⟩
  obtain ⟨hscalar, hz⟩ := hcps cp hcp
  exact utf8_zero_mem hz (hscalar.elim (fun h => by omega) fun h => h.2) hmem

/-- **Escaped text is read back**, where it fits into both buffers. -/
theorem webuiJsonEscape_read (hcps : ∀ cp ∈ cps, IsScalar cp ∧ cp ≠ 0) :
    ∃ e : Bytes, (∀ cap, ∃ written, webuiJsonEscape cap (cps.flatMap encode) = .ok (written, e.length)) ∧
      ∀ cap, e.length < cap → webuiJsonEscape cap (cps.flatMap encode) = .ok (e, e.length) ∧
        ∀ room rest, (cps.flatMap encode).length < room →
          decodeAt room (0x22 :: (e ++ 0x22 :: rest)) = .ok (some (cps.flatMap encode, rest)) := by
  obtain ⟨s, htext, hvalue⟩ := escapeText_chrs hcps
  have hrun : ∀ cap, ∃ w', esc ⟨cap, 0, [], false⟩ (cps.flatMap encode) = .ok w' ∧
      w'.len = (escapeText cps).length ∧ ((escapeText cps).length < cap → w'.wrote = escapeText cps) := fun cap => by
    obtain ⟨w', hw', hlen, hwrote⟩ := esc_text cps ⟨cap, 0, [], false⟩ fun cp hcp => (hcps cp hcp).1
    exact ⟨w', hw', by rw [hlen, Nat.zero_add], fun hroom => hwrote rfl (by rw [Nat.zero_add]; exact hroom)⟩
  refine ⟨escapeText cps, fun cap => ?_, fun cap hcap => ⟨?_, fun room rest hroom => ?_⟩⟩
  · obtain ⟨w', hw', hlen, -⟩ := hrun cap
    exact ⟨w'.wrote, by rw [webuiJsonEscape, hw', ← hlen]; rfl⟩
  · obtain ⟨w', hw', hlen, hwrote⟩ := hrun cap
    rw [webuiJsonEscape, hw', ← hlen, ← hwrote hcap]
    rfl
  · rw [← htext]
    rw [decodeAt_string, meaning_readable.2 ⟨hvalue, zero_not_mem_text hcps, hroom⟩]
    rfl

/-! ## The scanner and JSON -/

theorem webuiJsonStr_readable {o : ObjectText} {key follow : Bytes}
    (h : o.find key = some (.str s, follow)) (cap : Nat) :
    (∀ u, webuiJsonStr o.text key cap = .ok (.found u) ↔ Readable cap s u) ∧
      (webuiJsonStr o.text key cap = .ok .unusable ↔ ∀ u, ¬Readable cap s u) := by
  rw [webuiJsonStr_object h, ← meaning_unreadable]
  simp only [← meaning_readable]
  cases meaning cap 0 s <;> simp

/-- What the scanner and the writer owe to JSON. -/
structure Agrees : Prop where
  /-- A key's value is that of the first member whose key is written so; none without one. -/
  key : ∀ (o : ObjectText) (key : Bytes),
    topValueAt o.text key = .ok ((o.find key).map fun r => r.1.text ++ r.2)
  /-- A string is read exactly where it is readable, and refused otherwise. -/
  str : ∀ (o : ObjectText) (key follow : Bytes) (s : List Chr) (cap : Nat), o.find key = some (.str s, follow) →
    (∀ u, webuiJsonStr o.text key cap = .ok (.found u) ↔ Readable cap s u) ∧
      (webuiJsonStr o.text key cap = .ok .unusable ↔ ∀ u, ¬Readable cap s u)
  u64 : ∀ (o : ObjectText) (key follow : Bytes) (n : Number), o.find key = some (.num n, follow) →
    IsNatural n → digitsValue 0 n.whole.text < 2 ^ 64 →
    webuiJsonU64 o.text key = .ok (.found (digitsValue 0 n.whole.text))
  bool : ∀ (o : ObjectText) (key follow : Bytes) (b : Bool), o.find key = some (.bool b, follow) →
    webuiJsonBool o.text key = .ok (.found b)
  array : ∀ (o : ObjectText) (key follow : Bytes) (v : Value), o.find key = some (v, follow) →
    v.isArray = true → webuiJsonArray o.text key = .ok (.found v.text)
  /-- The calls over an array of strings hand out its strings, then say that there is no other, exactly
  where all are readable; they hand out those in front of the first that is not, and refuse that one. -/
  strings : ∀ (v : Value) (ss : List (List Chr)) (us : List Bytes) (cap turns : Nat), v.strings = some ss →
    ss.length < turns →
    (readAll v.text cap turns 0 = .ok (us, some .done) ↔ List.Forall₂ (Readable cap) ss us) ∧
      ∀ ss₁ s ss₂, ss = ss₁ ++ s :: ss₂ → List.Forall₂ (Readable cap) ss₁ us → (∀ u, ¬Readable cap s u) →
        readAll v.text cap turns 0 = .ok (us, some .bad)
  /-- Escaped text is read back where it fits; `e` is as long as a call without a buffer says. -/
  escaped : ∀ cps : List Nat, (∀ cp ∈ cps, IsScalar cp ∧ cp ≠ 0) →
    ∃ e : Bytes, (∀ cap, ∃ written, webuiJsonEscape cap (cps.flatMap encode) = .ok (written, e.length)) ∧
      ∀ cap, e.length < cap → webuiJsonEscape cap (cps.flatMap encode) = .ok (e, e.length) ∧
        ∀ room rest, (cps.flatMap encode).length < room →
          decodeAt room (0x22 :: (e ++ 0x22 :: rest)) = .ok (some (cps.flatMap encode, rest))
  /-- Of any bytes, none is read at or past the end. -/
  bounds : ∀ (text key : Bytes) (cap pos : Nat),
    topValueAt text key ≠ panic ∧ decodeAt cap text ≠ panic ∧ webuiJsonStr text key cap ≠ panic ∧
    webuiJsonArrayStr text cap pos ≠ panic ∧ webuiJsonU64 text key ≠ panic ∧ webuiJsonBool text key ≠ panic ∧
    webuiJsonNull text key ≠ panic ∧ webuiJsonArray text key ≠ panic ∧ webuiJsonEscape cap text ≠ panic

/-- **The console's scanner agrees with JSON**, and never reads past the end. -/
theorem scanner_agrees : Agrees where
  key := topValueAt_object
  str := fun _ _ _ _ cap h => webuiJsonStr_readable h cap
  u64 := fun _ _ _ _ h hn hlt => webuiJsonU64_object h hn hlt
  bool := fun _ _ _ _ h => webuiJsonBool_object h
  array := fun _ _ _ _ h hv => webuiJsonArray_object h hv
  strings := fun _ _ _ cap _ hss hturns => by
    rw [readAll_value hss cap hturns, Except.ok.injEq]
    refine ⟨handedOut_done, fun ss₁ s ss₂ heq hus hs => ?_⟩
    rw [heq, handedOut_bad hus hs]
  escaped := fun _ hcps => webuiJsonEscape_read hcps
  bounds := fun text key cap pos => ⟨(topValueAt_safe text key).ne_panic, (decodeAt_safe cap text).ne_panic,
    (webuiJsonStr_safe text key cap).ne_panic, (webuiJsonArrayStr_safe text cap pos).ne_panic,
    (webuiJsonU64_safe text key).ne_panic, (webuiJsonBool_safe text key).ne_panic,
    (webuiJsonNull_safe text key).ne_panic, (webuiJsonArray_safe text key).ne_panic,
    (webuiJsonEscape_safe cap text).ne_panic⟩

/-- `{"k":"\u0000"}` -/
def nulMember : ObjectText :=
  let none : Blank := ⟨[], nofun⟩
  .members none (.last none [.plain 0x6b ⟨by decide, by decide, by decide⟩] none none
    (.str [.code 0x30 0x30 0x30 0x30 ⟨rfl, rfl, rfl, rfl⟩]) none) none

/-- **A string with a NUL is not read**, however large the buffer. -/
theorem nul_not_read : ∃ s follow u, nulMember.find [0x6b] = some (.str s, follow) ∧
    stringValue s = some u ∧ u.length = 1 ∧ ∀ cap, webuiJsonStr nulMember.text [0x6b] cap = .ok .unusable := by
  refine ⟨_, _, [0], rfl, rfl, rfl, fun cap => ?_⟩
  have hread : decodeAt cap (0x22 :: 0x5c :: 0x75 :: 0x30 :: 0x30 :: 0x30 :: 0x30 :: [0x22, 0x7d]) = .ok none := by
    rw [decodeAt, if_neg (by simp), index_cons, ok_bind]
    split
    · rfl
    · rw [List.drop_one, List.tail_cons, decodeLoop, dif_pos (by simp), index_cons, ok_bind, if_neg (by decide),
        if_neg (by decide), if_neg (by decide), List.drop_one, List.tail_cons, escapeAt_eq]
      rfl
  rw [webuiJsonStr, topValueAt_object]
  change (decodeAt cap (0x22 :: 0x5c :: 0x75 :: 0x30 :: 0x30 :: 0x30 :: 0x30 :: [0x22, 0x7d]) >>= _) = _
  rw [hread]
  rfl

end Ps5Upload.WebuiCodec
