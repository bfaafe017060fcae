import Ps5Upload.Payload.WebuiBounds
import Ps5Upload.Lib.JsonSyntax
import Ps5Upload.Lib.ListAt

/-!
# The console's JSON scanner and JSON

What the scanner makes of the texts of RFC 8259.
-/

namespace Ps5Upload.WebuiCodec

open ByteFile Checked CText JsonSyntax ListAt

/-! ## Blanks and delimiters -/

theorem ws_blank (w : Blank) (rest : Bytes) : ws (w.text ++ rest) = ws rest :=
  List.dropWhile_append_of_pos w.blank

variable {c : UInt8}

theorem ws_blank_cons (hc : isSpace c = false) (w : Blank) (cs : Bytes) :
    ws (w.text ++ c :: cs) = c :: cs := by
  rw [ws_blank, ws_cons hc]

/-- Bytes that may follow a value. -/
def Delimited (rest : Bytes) : Prop := ∀ c cs, rest = c :: cs → isDelim c = true

theorem delimited_cons (h : isDelim c = true) (cs : Bytes) : Delimited (c :: cs) := by
  intro d ds heq
  cases heq
  exact h

theorem delimited_blank (w : Blank) {rest : Bytes} (h : Delimited rest) : Delimited (w.text ++ rest) := by
  intro c cs heq
  have hblank := w.blank
  cases htext : w.text with
  | nil =>
    rw [htext] at heq
    exact h c cs heq
  | cons d ds =>
    rw [htext] at heq hblank
    obtain ⟨rfl, -⟩ := List.cons.inj heq
    have hd : isSpace d = true := hblank d List.mem_cons_self
    rw [isDelim, hd, Bool.or_true]

/-! ## Strings are stepped over -/

theorem hex_ne (h : isHex c = true) : c ≠ 0x5c ∧ c ≠ 0x22 := by
  constructor <;> rintro rfl <;> exact absurd h (by decide)

/-- **A string ends at its closing quote.** -/
theorem splitStr_string (s : List Chr) (rest : Bytes) :
    splitStr (stringText s ++ 0x22 :: rest) = some (stringText s, rest) := by
  induction s with
  | nil => exact splitStr_quote rest
  | cons c s ih =>
    have hcons : stringText (c :: s) = c.text ++ stringText s := List.flatMap_cons
    rw [hcons, List.append_assoc]
    cases c with
    | plain c h => rw [Chr.text, List.singleton_append, splitStr_plain h.2.2 h.2.1, ih]; rfl
    | short e h =>
      rw [Chr.text, List.cons_append, List.singleton_append, splitStr_escape, ih]
      rfl
    | code a b c d h =>
      have ha := hex_ne h.1
      have hb := hex_ne h.2.1
      have hc := hex_ne h.2.2.1
      have hd := hex_ne h.2.2.2
      simp only [Chr.text, List.cons_append, List.nil_append]
      rw [splitStr_escape, splitStr_plain ha.1 ha.2, splitStr_plain hb.1 hb.2, splitStr_plain hc.1 hc.2,
        splitStr_plain hd.1 hd.2, ih]
      rfl

theorem skipStr_string (s : List Chr) (rest : Bytes) :
    skipStr (stringText s ++ 0x22 :: rest) = some rest := by
  rw [skipStr, splitStr_string]
  rfl

theorem brackets_string (depth : Nat) (s : List Chr) (rest : Bytes) :
    skipBrackets depth false (0x22 :: (stringText s ++ 0x22 :: rest)) = skipBrackets depth false rest := by
  rw [brackets_cons, if_pos rfl, skipBrackets_string, skipStr_string]
  rfl

/-! ## Values are stepped over -/

/-- A byte that neither opens nor closes anything. -/
def isInert (c : UInt8) : Bool := c ≠ 0x22 && c ≠ 0x7b && c ≠ 0x5b && c ≠ 0x7d && c ≠ 0x5d

theorem brackets_inert {bs : Bytes} (h : ∀ c ∈ bs, isInert c = true) (depth : Nat) (rest : Bytes) :
    skipBrackets depth false (bs ++ rest) = skipBrackets depth false rest := by
  induction bs with
  | nil => rfl
  | cons c bs ih =>
    have hc := h c List.mem_cons_self
    simp only [isInert, Bool.and_eq_true, decide_eq_true_eq] at hc
    obtain ⟨⟨⟨⟨h1, h2⟩, h3⟩, h4⟩, h5⟩ := hc
    rw [List.cons_append, brackets_cons, if_neg h1, if_neg (fun h => h.elim h2 h3),
      if_neg (fun h => h.elim h4 h5), ih fun d hd => h d (List.mem_cons_of_mem c hd)]

theorem brackets_one (h : isInert c = true) (depth : Nat) (rest : Bytes) :
    skipBrackets depth false (c :: rest) = skipBrackets depth false rest :=
  @brackets_inert [c] (fun d hd => by rw [List.mem_singleton.1 hd]; exact h) depth rest

theorem inert_blank (w : Blank) : ∀ c ∈ w.text, isInert c = true := by
  intro c hc
  have := w.blank c hc
  simp only [isBlank, Bool.or_eq_true, decide_eq_true_eq] at this
  rcases this with ((rfl | rfl) | rfl) | rfl <;> rfl

/-- A byte of a number. -/
def isNumeric (c : UInt8) : Bool :=
  (0x30 ≤ c && c ≤ 0x39) || c = 0x2b || c = 0x2d || c = 0x2e || c = 0x65 || c = 0x45

theorem numeric_number (n : Number) : ∀ c ∈ n.text, isNumeric c = true := by
  have hdigits : ∀ ds : JsonSyntax.Digits, ∀ c ∈ ds.text, isNumeric c = true := fun ds c hc => by
    obtain ⟨h1, h2⟩ := ds.digits c hc
    rw [isNumeric, decide_eq_true h1, decide_eq_true h2]
    rfl
  intro c hc
  rw [Number.text, List.mem_append, List.mem_append, List.mem_append] at hc
  rcases hc with ((hc | hc) | hc) | hc
  · split at hc
    · rw [List.mem_singleton.1 hc]
      rfl
    · cases hc
  · exact hdigits _ c hc
  · cases hfrac : n.frac with
    | none =>
      rw [hfrac] at hc
      cases hc
    | some ds =>
      rw [hfrac, Option.elim_some] at hc
      rcases List.mem_cons.1 hc with rfl | hc
      · rfl
      · exact hdigits _ c hc
  · cases hexp : n.exp with
    | none =>
      rw [hexp] at hc
      cases hc
    | some e =>
      rw [hexp, Option.elim_some, List.cons_append] at hc
      rcases List.mem_cons.1 hc with rfl | hc
      · rcases e.letter_e with he | he <;> rw [he] <;> rfl
      · rcases List.mem_append.1 hc with hc | hc
        · have hsign := e.sign_ok
          rcases List.mem_cons.1 hsign with hs | hsign
          · rw [hs] at hc
            cases hc
          · rcases List.mem_cons.1 hsign with hs | hsign
            · rw [hs, List.mem_singleton] at hc
              rw [hc]
              rfl
            · rw [List.mem_singleton.1 hsign, List.mem_singleton] at hc
              rw [hc]
              rfl
        · exact hdigits _ c hc

theorem number_ne_nil (n : Number) : n.text ≠ [] := by
  intro h
  rw [Number.text, List.append_eq_nil_iff, List.append_eq_nil_iff, List.append_eq_nil_iff] at h
  exact n.whole.nonempty h.1.1.2

theorem of_numeric (h : isNumeric c = true) : isInert c = true ∧ isDelim c = false := by
  have hall : ∀ n < 256, isNumeric (UInt8.ofNat n) = true →
      isInert (UInt8.ofNat n) = true ∧ isDelim (UInt8.ofNat n) = false := by decide +kernel
  have hc := hall c.toNat c.toNat_lt
  rw [UInt8.ofNat_toNat] at hc
  exact hc h

/-- A container inside another one closes. -/
theorem brackets_close {depth : Nat} (hd : 0 < depth) (hc : c = 0x7d ∨ c = 0x5d) (rest : Bytes) :
    skipBrackets (depth + 1) false (c :: rest) = skipBrackets depth false rest := by
  have hq : c ≠ 0x22 := by rcases hc with rfl | rfl <;> decide
  have hopen : ¬(c = 0x7b ∨ c = 0x5b) := by rcases hc with rfl | rfl <;> decide
  rw [brackets_cons, if_neg hq, if_neg hopen, if_pos hc, if_neg (by omega), Nat.add_sub_cancel]

mutual
/-- **Inside a container a value changes no depth.** -/
theorem brackets_value {depth : Nat} (hd : 0 < depth) (rest : Bytes) :
    ∀ v : Value, skipBrackets depth false (v.text ++ rest) = skipBrackets depth false rest
  | .null => brackets_inert (forall_mem_of_all rfl) depth rest
  | .bool true => brackets_inert (forall_mem_of_all rfl) depth rest
  | .bool false => brackets_inert (forall_mem_of_all rfl) depth rest
  | .num n => brackets_inert (fun c hc => (of_numeric (numeric_number n c hc)).1) depth rest
  | .str s => by
    rw [Value.text, List.cons_append, List.append_assoc]
    exact brackets_string depth s rest
  | .emptyArr w => by
    rw [Value.text, List.cons_append, List.append_assoc, brackets_cons, if_neg (by decide), if_pos (by decide),
      brackets_inert (inert_blank w)]
    exact brackets_close hd (.inr rfl) rest
  | .arr items => by
    rw [Value.text, List.cons_append, List.append_assoc, brackets_cons, if_neg (by decide), if_pos (by decide),
      brackets_elems (Nat.succ_pos depth) _ items]
    exact brackets_close hd (.inr rfl) rest
  | .emptyObj w => by
    rw [Value.text, List.cons_append, List.append_assoc, brackets_cons, if_neg (by decide), if_pos (by decide),
      brackets_inert (inert_blank w)]
    exact brackets_close hd (.inl rfl) rest
  | .obj members => by
    rw [Value.text, List.cons_append, List.append_assoc, brackets_cons, if_neg (by decide), if_pos (by decide),
      brackets_members (Nat.succ_pos depth) _ members]
    exact brackets_close hd (.inl rfl) rest
theorem brackets_elems {depth : Nat} (hd : 0 < depth) (rest : Bytes) :
    ∀ items : Elems, skipBrackets depth false (items.text ++ rest) = skipBrackets depth false rest
  | .last w v w' => by
    rw [Elems.text, List.append_assoc, List.append_assoc, brackets_inert (inert_blank w),
      brackets_value hd _ v, brackets_inert (inert_blank w')]
  | .more w v w' items => by
    rw [Elems.text, List.append_assoc, List.append_assoc, List.append_assoc, brackets_inert (inert_blank w),
      brackets_value hd _ v, brackets_inert (inert_blank w'), List.cons_append, brackets_one rfl,
      brackets_elems hd _ items]
theorem brackets_members {depth : Nat} (hd : 0 < depth) (rest : Bytes) :
    ∀ members : Members, skipBrackets depth false (members.text ++ rest) = skipBrackets depth false rest
  | .last w key w' w₁ v w₂ => by
    rw [Members.text]
    simp only [List.append_assoc, List.cons_append]
    rw [brackets_inert (inert_blank w), brackets_string, brackets_inert (inert_blank w'), brackets_one rfl,
      brackets_inert (inert_blank w₁), brackets_value hd _ v, brackets_inert (inert_blank w₂)]
  | .more w key w' w₁ v w₂ members => by
    rw [Members.text]
    simp only [List.append_assoc, List.cons_append]
    rw [brackets_inert (inert_blank w), brackets_string, brackets_inert (inert_blank w'), brackets_one rfl,
      brackets_inert (inert_blank w₁), brackets_value hd _ v, brackets_inert (inert_blank w₂), brackets_one rfl,
      brackets_members hd _ members]
end

/-! ## A value ends where its text does -/

theorem skipVal_scalar {bs rest : Bytes} (hne : bs ≠ []) (hbs : ∀ c ∈ bs, isInert c = true ∧ isDelim c = false)
    (hrest : Delimited rest) : skipVal (bs ++ rest) = some rest := by
  have hstop : ∀ l : Bytes, (∀ c ∈ l, isDelim c = false) → (l ++ rest).dropWhile (fun d => !isDelim d) = rest := by
    intro l hl
    rw [List.dropWhile_append_of_pos fun c hc => by rw [hl c hc]; rfl]
    cases rest with
    | nil => rfl
    | cons c cs => exact List.dropWhile_cons_of_neg (by rw [hrest c cs rfl]; decide)
  cases bs with
  | nil => exact absurd rfl hne
  | cons c cs =>
    obtain ⟨hinert, hdelim⟩ := hbs c List.mem_cons_self
    simp only [isInert, Bool.and_eq_true, decide_eq_true_eq] at hinert
    obtain ⟨⟨⟨⟨h1, h2⟩, h3⟩, -⟩, -⟩ := hinert
    rw [List.cons_append, skipVal, if_neg h1, if_neg (fun h => h.elim h2 h3), hdelim, if_neg Bool.false_ne_true,
      hstop cs fun d hd => (hbs d (List.mem_cons_of_mem c hd)).2]

theorem brackets_done {c : UInt8} (hc : c = 0x7d ∨ c = 0x5d) (rest : Bytes) :
    skipBrackets 1 false (c :: rest) = some rest := by
  have hq : c ≠ 0x22 := by rcases hc with rfl | rfl <;> decide
  have hopen : ¬(c = 0x7b ∨ c = 0x5b) := by rcases hc with rfl | rfl <;> decide
  rw [brackets_cons, if_neg hq, if_neg hopen, if_pos hc, if_pos rfl]

/-- **A value ends where its text does.** -/
theorem skipVal_value (v : Value) {rest : Bytes} (hrest : Delimited rest) :
    skipVal (v.text ++ rest) = some rest := by
  have hopened : ∀ {o c : UInt8} {inner : Bytes}, o ≠ 0x22 → (o = 0x7b ∨ o = 0x5b) → (c = 0x7d ∨ c = 0x5d) →
      (∀ tail, skipBrackets 1 false (inner ++ tail) = skipBrackets 1 false tail) →
      skipVal (o :: (inner ++ [c]) ++ rest) = some rest := by
    intro o c inner hq ho hc hinner
    rw [List.cons_append, List.append_assoc, skipVal, if_neg hq, if_pos ho, brackets_cons, if_neg hq, if_pos ho,
      hinner, List.singleton_append, brackets_done hc]
  cases v with
  | null => exact skipVal_scalar (by decide) (forall_mem_of_all rfl) hrest
  | bool b => cases b <;> exact skipVal_scalar (by decide) (forall_mem_of_all rfl) hrest
  | num n => exact skipVal_scalar (number_ne_nil n) (fun c hc => of_numeric (numeric_number n c hc)) hrest
  | str s =>
    rw [Value.text, List.cons_append, List.append_assoc]
    exact skipStr_string s rest
  | emptyArr w => exact hopened (by decide) (.inr rfl) (.inr rfl) fun _ => brackets_inert (inert_blank w) 1 _
  | arr items => exact hopened (by decide) (.inr rfl) (.inr rfl) fun _ => brackets_elems Nat.one_pos _ items
  | emptyObj w => exact hopened (by decide) (.inl rfl) (.inl rfl) fun _ => brackets_inert (inert_blank w) 1 _
  | obj members => exact hopened (by decide) (.inl rfl) (.inl rfl) fun _ => brackets_members Nat.one_pos _ members

/-- A value's first byte is no blank. -/
theorem value_head (v : Value) : ∃ c cs, v.text = c :: cs ∧ isSpace c = false := by
  cases v with
  | null => exact ⟨_, _, rfl, rfl⟩
  | bool b => cases b <;> exact ⟨_, _, rfl, rfl⟩
  | num n =>
    cases htext : n.text with
    | nil => exact absurd htext (number_ne_nil n)
    | cons c cs =>
      have hc := (of_numeric (numeric_number n c (htext ▸ List.mem_cons_self))).2
      refine ⟨c, cs, htext, ?_⟩
      rw [isDelim, Bool.or_eq_false_iff] at hc
      exact hc.2
  | str s => exact ⟨_, _, rfl, rfl⟩
  | emptyArr w => exact ⟨_, _, rfl, rfl⟩
  | arr items => exact ⟨_, _, rfl, rfl⟩
  | emptyObj w => exact ⟨_, _, rfl, rfl⟩
  | obj members => exact ⟨_, _, rfl, rfl⟩

theorem ws_value (w : Blank) (v : Value) (rest : Bytes) : ws (w.text ++ (v.text ++ rest)) = v.text ++ rest := by
  obtain ⟨c, cs, htext, hc⟩ := value_head v
  rw [htext, List.cons_append, ws_blank_cons hc]

theorem value_append_ne_nil (v : Value) (rest : Bytes) : v.text ++ rest ≠ [] := by
  obtain ⟨c, cs, htext, -⟩ := value_head v
  rw [htext]
  exact List.cons_ne_nil _ _

/-! ## The first member of a key -/

/-- A turn of the loop over members, at a member: its value, or what follows it. -/
theorem memberValue_member (key : Bytes) (turns : Nat) (w : Blank) (k : List Chr) (w' w₁ : Blank) (v : Value)
    {rest : Bytes} (hrest : Delimited rest) :
    memberValue key (turns + 1)
        (w.text ++ 0x22 :: (stringText k ++ 0x22 :: (w'.text ++ 0x3a :: (w₁.text ++ (v.text ++ rest))))) =
      if stringText k = key then some (v.text ++ rest)
      else match ws rest with
        | c :: cs => if c = 0x2c then memberValue key turns cs else none
        | [] => none := by
  rw [memberValue, ws_blank_cons rfl]
  dsimp only
  rw [if_neg (by decide), splitStr_string]
  dsimp only
  rw [ws_blank_cons rfl]
  dsimp only
  rw [if_neg (by decide), ws_value, if_neg (value_append_ne_nil v rest)]
  cases hr : ws rest with
  | nil => simp only [skipVal_value v hrest, hr]
  | cons c cs => simp only [skipVal_value v hrest, hr]

theorem memberValue_find (key : Bytes) (after : Bytes) : ∀ (ms : Members) (turns : Nat),
    (ms.text ++ 0x7d :: after).length ≤ turns →
    memberValue key turns (ms.text ++ 0x7d :: after) =
      (ms.find key).map fun r => r.1.text ++ (r.2 ++ 0x7d :: after)
  | .last w k w' w₁ v w₂, turns, hturns => by
    obtain ⟨turns, rfl⟩ : ∃ t, turns = t + 1 := ⟨turns - 1, by
      rw [List.length_append, List.length_cons] at hturns
      omega⟩
    have hrest := delimited_blank w₂ (delimited_cons (c := 0x7d) rfl after)
    have hstep := memberValue_member key turns w k w' w₁ v hrest
    rw [Members.text, Members.find]
    simp only [List.append_assoc, List.cons_append]
    rw [hstep, ws_blank_cons rfl]
    split
    · rfl
    · rfl
  | .more w k w' w₁ v w₂ ms, turns, hturns => by
    obtain ⟨turns, rfl⟩ : ∃ t, turns = t + 1 := ⟨turns - 1, by
      rw [List.length_append, List.length_cons] at hturns
      omega⟩
    have hrest := delimited_blank w₂ (delimited_cons (c := 0x2c) rfl (ms.text ++ 0x7d :: after))
    have hstep := memberValue_member key turns w k w' w₁ v hrest
    rw [Members.text] at hturns ⊢
    rw [Members.find]
    simp only [List.append_assoc, List.cons_append, List.length_append, List.length_cons] at hturns ⊢
    rw [hstep, ws_blank_cons rfl]
    split
    · rw [Option.map_some, List.append_assoc, List.cons_append]
    · dsimp only
      rw [if_pos rfl, memberValue_find key after ms turns (by
        rw [List.length_append, List.length_cons]
        omega)]

/-- **A key's value is that of the first member whose key is written so.** -/
theorem topValue_object (o : ObjectText) (key : Bytes) :
    topValue o.text key = (o.find key).map fun r => r.1.text ++ r.2 := by
  rw [topValue]
  cases o with
  | empty before inner after =>
    rw [ObjectText.text, ws_blank_cons rfl]
    dsimp only
    rw [if_pos rfl]
    cases hlen : (before.text ++ 0x7b :: (inner.text ++ 0x7d :: after.text)).length with
    | zero => rfl
    | succ turns =>
      rw [memberValue, ws_blank_cons rfl]
      rfl
  | members before ms after =>
    rw [ObjectText.text, ws_blank_cons rfl]
    dsimp only
    rw [if_pos rfl, memberValue_find key after.text ms _ (by
      simp only [List.length_append, List.length_cons]
      omega), ObjectText.find, Option.map_map]
    rfl

end Ps5Upload.WebuiCodec
