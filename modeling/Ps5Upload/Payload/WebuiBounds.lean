import Ps5Upload.Payload.WebuiScan

/-!
# The console's JSON scanner: no byte past the end

Of any bytes at all, the scanner reads none at or past their end.

* `esc_safe` — text is written as JSON from its own bytes only.
-/

namespace Ps5Upload.WebuiCodec

open ByteFile Checked CText

/-! ## The scanner -/

theorem index_cons (c : UInt8) (cs : Bytes) : (index (c :: cs) 0 : Res UInt8) = .ok c := rfl

theorem wsAt_eq (p : Bytes) : wsAt p = .ok (ws p) := by
  induction p with
  | nil => rw [wsAt, dif_neg (by simp)]; rfl
  | cons c cs ih =>
    rw [wsAt, dif_pos (by simp), index_cons, ok_bind, ws]
    cases hc : isSpace c with
    | true => rw [if_pos rfl, List.dropWhile_cons_of_pos hc, List.drop_one, List.tail_cons, ih, ws]
    | false =>
      rw [if_neg Bool.false_ne_true, List.dropWhile_cons_of_neg (by rw [hc]; exact Bool.false_ne_true)]
      rfl

/-! The loops, character by character. -/

theorem brackets_escape (depth : Nat) (d : UInt8) (cs : Bytes) :
    skipBrackets depth true (0x5c :: d :: cs) = skipBrackets depth true cs := by
  rw [skipBrackets.eq_def]
  exact if_pos rfl

theorem brackets_unquote (depth : Nat) (cs : Bytes) :
    skipBrackets depth true (0x22 :: cs) = skipBrackets depth false cs := by
  rw [skipBrackets.eq_def]
  rfl

theorem brackets_inside {c : UInt8} (hc : c ≠ 0x5c) (hq : c ≠ 0x22) (depth : Nat) (cs : Bytes) :
    skipBrackets depth true (c :: cs) = skipBrackets depth true cs := by
  rw [skipBrackets.eq_def]
  exact (if_neg hc).trans (if_neg hq)

theorem brackets_cons (depth : Nat) (c : UInt8) (cs : Bytes) :
    skipBrackets depth false (c :: cs) =
      if c = 0x22 then skipBrackets depth true cs
      else if c = 0x7b ∨ c = 0x5b then skipBrackets (depth + 1) false cs
      else if c = 0x7d ∨ c = 0x5d then if depth = 1 then some cs else skipBrackets (depth - 1) false cs
      else skipBrackets depth false cs := by
  rw [skipBrackets.eq_def]

theorem splitStr_eq {p k r : Bytes} (h : splitStr p = some (k, r)) : p = k ++ 0x22 :: r := by
  induction p using splitStr.induct generalizing k with
  | case1 => cases h
  | case2 => cases h
  | case3 d cs ih =>
    rw [splitStr_escape] at h
    obtain ⟨⟨k', r'⟩, hrest, heq⟩ := Option.map_eq_some_iff.1 h
    cases heq
    rw [ih hrest]
    rfl
  | case4 cs =>
    rw [splitStr_quote] at h
    cases h
    rfl
  | case5 c cs hc hq ih =>
    rw [splitStr_plain hc hq] at h
    obtain ⟨⟨k', r'⟩, hrest, heq⟩ := Option.map_eq_some_iff.1 h
    cases heq
    rw [ih hrest]
    rfl

theorem skipStrAt_eq (p : Bytes) : skipStrAt p = .ok (skipStr p) := by
  unfold skipStr
  induction p using splitStr.induct with
  | case1 => rw [skipStrAt, dif_neg (by simp)]; rfl
  | case2 => rw [skipStrAt, dif_pos (by simp)]; rfl
  | case3 d cs ih =>
    rw [skipStrAt, dif_pos (by simp), index_cons, ok_bind, if_pos rfl, if_neg (by simp), splitStr_escape,
      List.drop_succ_cons, List.drop_succ_cons, List.drop_zero, ih, Option.map_map]
    rfl
  | case4 cs =>
    rw [skipStrAt, dif_pos (by simp), index_cons, ok_bind, if_neg (by decide), if_pos rfl, splitStr_quote]
    rfl
  | case5 c cs hc hq ih =>
    rw [skipStrAt, dif_pos (by simp), index_cons, ok_bind, if_neg hc, if_neg hq, splitStr_plain hc hq,
      List.drop_one, List.tail_cons, ih, Option.map_map]
    rfl

/-- A string inside a container is stepped over as one of its own. -/
theorem skipBrackets_string (depth : Nat) (p : Bytes) :
    skipBrackets depth true p = (skipStr p).bind (skipBrackets depth false) := by
  unfold skipStr
  induction p using splitStr.induct with
  | case1 => rfl
  | case2 => rfl
  | case3 d cs ih =>
    rw [brackets_escape, splitStr_escape, ih, Option.map_map]
    rfl
  | case4 cs => rw [brackets_unquote, splitStr_quote]; rfl
  | case5 c cs hc hq ih =>
    rw [brackets_inside hc hq, splitStr_plain hc hq, ih, Option.map_map]
    rfl

theorem length_skipStr {p q : Bytes} (h : skipStr p = some q) : q.length < p.length := by
  obtain ⟨⟨k, r⟩, hsplit, rfl⟩ := Option.map_eq_some_iff.1 h
  rw [splitStr_eq hsplit, List.length_append, List.length_cons]
  dsimp only
  omega

theorem skipContainer_eq (turns : Nat) : ∀ (depth : Nat) (p : Bytes), p.length ≤ turns →
    skipContainer turns depth p = .ok (skipBrackets depth false p) := by
  induction turns with
  | zero =>
    intro depth p hp
    cases p with
    | nil => rfl
    | cons c cs => simp at hp
  | succ turns ih =>
    intro depth p hp
    cases p with
    | nil => rfl
    | cons c cs =>
      rw [List.length_cons] at hp
      rw [skipContainer, if_pos (by simp), index_cons, ok_bind, brackets_cons, List.drop_one, List.tail_cons]
      split
      · rw [skipBrackets_string, skipStrAt_eq, ok_bind]
        cases hq : skipStr cs with
        | none => rfl
        | some q =>
          have := length_skipStr hq
          exact ih depth q (by omega)
      · split
        · exact ih _ _ (by omega)
        · split
          · split
            · rfl
            · exact ih _ _ (by omega)
          · exact ih _ _ (by omega)

theorem skipScalar_eq (p : Bytes) : skipScalar p = .ok (p.dropWhile fun d => !isDelim d) := by
  induction p with
  | nil => rw [skipScalar, dif_neg (by simp)]; rfl
  | cons c cs ih =>
    rw [skipScalar, dif_pos (by simp), index_cons, ok_bind]
    cases hc : isDelim c with
    | true => rw [if_pos rfl, List.dropWhile_cons_of_neg (by rw [hc]; decide)]; rfl
    | false =>
      rw [if_neg Bool.false_ne_true, List.dropWhile_cons_of_pos (by rw [hc]; rfl), List.drop_one,
        List.tail_cons, ih]

theorem skipValAt_eq (p : Bytes) : skipValAt p = .ok (skipVal p) := by
  cases p with
  | nil => rfl
  | cons c cs =>
    rw [skipValAt, if_neg (by simp), index_cons, ok_bind, skipVal, List.drop_one, List.tail_cons]
    split
    · exact skipStrAt_eq cs
    · split
      · exact skipContainer_eq _ _ _ (Nat.le_refl _)
      · rw [skipScalar_eq, ok_bind]
        cases hc : isDelim c with
        | true =>
          rw [List.dropWhile_cons_of_neg (by rw [hc]; decide), if_pos rfl, if_neg (Nat.lt_irrefl _)]
          rfl
        | false =>
          have hle : (cs.dropWhile fun d => !isDelim d).length ≤ cs.length :=
            (List.dropWhile_sublist _).length_le
          rw [List.dropWhile_cons_of_pos (by rw [hc]; rfl), if_neg Bool.false_ne_true,
            if_pos (by rw [List.length_cons]; omega)]
          rfl

theorem length_ws_le (p : Bytes) : (ws p).length ≤ p.length := (List.dropWhile_sublist _).length_le

theorem length_skipVal {p q : Bytes} (h : skipVal p = some q) : q.length < p.length := by
  have hcont : ∀ (p : Bytes) (depth : Nat) (inside : Bool) (q : Bytes),
      skipBrackets depth inside p = some q → q.length < p.length := by
    intro p
    induction hn : p.length using Nat.strongRecOn generalizing p with
    | ind n ih =>
      intro depth inside q hq
      have step : ∀ {r : Bytes} {depth : Nat} {inside : Bool}, r.length < n →
          skipBrackets depth inside r = some q → q.length < n := fun hr hskip =>
        Nat.lt_trans (ih _ hr _ rfl _ _ _ hskip) hr
      cases inside with
      | true =>
        rw [skipBrackets_string] at hq
        obtain ⟨r, hr, hskip⟩ := Option.bind_eq_some_iff.1 hq
        exact step (hn ▸ length_skipStr hr) hskip
      | false =>
        cases p with
        | nil => cases hq
        | cons c cs =>
          have hlen : cs.length < n := by rw [← hn, List.length_cons]; omega
          rw [brackets_cons] at hq
          split at hq
          · exact step hlen hq
          · split at hq
            · exact step hlen hq
            · split at hq
              · split at hq
                · cases hq
                  exact hlen
                · exact step hlen hq
              · exact step hlen hq
  cases p with
  | nil => cases h
  | cons c cs =>
    rw [skipVal] at h
    split at h
    · have := length_skipStr h
      rw [List.length_cons]
      omega
    · split at h
      · exact hcont _ _ _ _ h
      · split at h
        · cases h
        · cases h
          have : (cs.dropWhile fun d => !isDelim d).length ≤ cs.length := (List.dropWhile_sublist _).length_le
          rw [List.length_cons]
          omega

theorem memberAt_eq (key : Bytes) (turns : Nat) : ∀ p : Bytes, p.length < turns →
    memberAt key turns p = .ok (memberValue key turns p) := by
  induction turns with
  | zero => exact fun p hp => absurd hp (Nat.not_lt_zero _)
  | succ turns ih =>
    intro p hp
    have hws := length_ws_le p
    rw [memberAt, wsAt_eq, ok_bind, memberValue]
    cases hp₁ : ws p with
    | nil => rfl
    | cons c cs =>
      rw [hp₁, List.length_cons] at hws
      rw [if_neg (by simp), index_cons, ok_bind]
      dsimp only
      split
      · rfl
      rw [List.drop_one, List.tail_cons, skipStrAt_eq, ok_bind, skipStr]
      cases hsplit : splitStr cs with
      | none => rfl
      | some r =>
        obtain ⟨k, ke⟩ := r
        have hcs := splitStr_eq hsplit
        have hke : ke.length < cs.length := by
          rw [hcs, List.length_append, List.length_cons]
          omega
        have hws₂ := length_ws_le ke
        dsimp only [Option.map_some]
        rw [wsAt_eq, ok_bind]
        cases hp₂ : ws ke with
        | nil => rfl
        | cons c₂ cs₂ =>
          rw [hp₂, List.length_cons] at hws₂
          rw [if_neg (by simp), index_cons, ok_bind]
          dsimp only
          split
          · rfl
          have hws₃ := length_ws_le cs₂
          rw [List.drop_one, List.tail_cons, wsAt_eq, ok_bind]
          by_cases hv : ws cs₂ = []
          · rw [hv]
            rfl
          have hwritten : (slice cs 0 (cs.length - ke.length - 1) : Res Bytes) = .ok k := by
            have hcut : cs.length - ke.length - 1 = k.length := by
              rw [hcs, List.length_append, List.length_cons]
              omega
            rw [slice_eq (Nat.zero_le _) (by omega), hcut, hcs, List.drop_zero, Nat.sub_zero, List.take_left]
          rw [if_neg (by rw [List.length_eq_zero_iff]; exact hv), if_neg hv, hwritten, ok_bind]
          split
          · rfl
          rw [skipValAt_eq, ok_bind]
          cases hskip : skipVal (ws cs₂) with
          | none => rfl
          | some q =>
            have hq := length_skipVal hskip
            have hws₄ := length_ws_le q
            dsimp only
            rw [wsAt_eq, ok_bind]
            cases hp₄ : ws q with
            | nil => rfl
            | cons c₄ cs₄ =>
              rw [hp₄, List.length_cons] at hws₄
              rw [if_neg (by simp), index_cons, ok_bind]
              dsimp only
              split
              · exact ih cs₄ (by omega)
              · rfl

/-- **The scanner never reads past the end**, and finds what `topValue` finds. -/
theorem topValueAt_eq (json key : Bytes) : topValueAt json key = .ok (topValue json key) := by
  have hws := length_ws_le json
  rw [topValueAt, wsAt_eq, ok_bind, topValue]
  cases hp : ws json with
  | nil => rfl
  | cons c cs =>
    rw [hp, List.length_cons] at hws
    rw [if_neg (by simp), index_cons, ok_bind]
    dsimp only
    split
    · exact memberAt_eq key _ _ (Nat.lt_of_succ_le hws)
    · rfl

/-! ## Strings -/

theorem hex4At_eq (p : Bytes) : hex4At p = .ok (hex4 p) := by
  match p with
  | [] | [_] | [_, _] | [_, _, _] => rfl
  | a :: b :: c :: d :: rest =>
    rw [hex4At, if_neg (by simp)]
    rfl

theorem escape_short {c : UInt8} (hc : c ≠ 0x75) (cs : Bytes) : escape (c :: cs) = escape [c] := by
  simp only [escape, hc, if_false]

theorem escapeAt_eq (p : Bytes) : escapeAt p = .ok (escape p) := by
  cases p with
  | nil => rfl
  | cons c cs =>
    rw [escapeAt, if_neg (by simp), index_cons, ok_bind]
    by_cases hc : c = 0x75
    · subst hc
      rw [if_neg (by decide), List.drop_one, List.tail_cons, hex4At_eq, ok_bind]
      rw [escape_unicode]
      match cs with
      | [] | [_] | [_, _] | [_, _, _] => rfl
      | a :: b :: d :: e :: rest =>
        cases hv : hex4 (a :: b :: d :: e :: rest) with
        | none => rfl
        | some v =>
          dsimp only [List.drop_succ_cons, List.drop_zero]
          split
          · rfl
          split
          · match rest with
            | [] | [_] | [_, _] | [_, _, _] | [_, _, _, _] | [_, _, _, _, _] =>
              rw [if_pos (by simp)]
              split
              · rename_i hshape
                cases hshape <;> rfl
              · rfl
            | x :: y :: h₁ :: h₂ :: h₃ :: h₄ :: rest =>
              rw [if_neg (by simp)]
              change (if x ≠ 0x5c then _ else _) = _
              split
              · rename_i hx
                split
                · rename_i hshape
                  cases hshape
                  exact absurd rfl hx
                · rfl
              rename_i hx
              change (if y ≠ 0x75 then _ else _) = _
              split
              · rename_i hy
                split
                · rename_i hshape
                  cases hshape
                  exact absurd rfl hy
                · rfl
              rename_i hy
              obtain rfl := not_not.1 hx
              obtain rfl := not_not.1 hy
              rw [hex4At_eq, ok_bind]
              simp only [List.drop_succ_cons, List.drop_zero]
              cases hex4 (h₁ :: h₂ :: h₃ :: h₄ :: rest) with
              | none => rfl
              | some lo =>
                dsimp only
                split <;> rfl
          · rfl
    · rw [if_pos hc]
      exact congrArg Except.ok (escape_short hc cs).symm

theorem decodeFrom_skip (cap skip o : Nat) (p : Bytes) :
    decodeFrom cap skip o p = decodeFrom cap 0 o (p.drop skip) := by
  induction skip generalizing p with
  | zero => rfl
  | succ skip ih =>
    cases p with
    | nil => rfl
    | cons c cs => exact ih cs

/-- The reader of strings reads what `decodeFrom` reads. -/
theorem decodeLoop_eq (cap : Nat) (p : Bytes) : ∀ o : Nat,
    ∃ r, decodeLoop cap o p = .ok r ∧ r.map Prod.fst = decodeFrom cap 0 o p := by
  induction hn : p.length using Nat.strongRecOn generalizing p with
  | ind n ih =>
    intro o
    cases p with
    | nil =>
      rw [decodeLoop, dif_neg (by simp)]
      exact ⟨none, rfl, rfl⟩
    | cons c cs =>
      rw [List.length_cons] at hn
      rw [decodeLoop, dif_pos (by simp), index_cons, ok_bind, List.drop_one, List.tail_cons, decodeFrom]
      by_cases hq : c = 0x22
      · rw [if_pos hq, if_pos hq]
        exact ⟨_, rfl, rfl⟩
      rw [if_neg hq, if_neg hq]
      by_cases hctl : c < 0x20
      · rw [if_pos hctl, if_pos hctl]
        exact ⟨_, rfl, rfl⟩
      rw [if_neg hctl, if_neg hctl]
      by_cases hplain : c ≠ 0x5c
      · rw [if_pos hplain, if_pos hplain]
        by_cases hfull : cap ≤ o + 1
        · rw [if_pos hfull, if_pos hfull]
          exact ⟨_, rfl, rfl⟩
        rw [if_neg hfull, if_neg hfull]
        obtain ⟨r, hr, hfst⟩ := ih cs.length (by omega) cs rfl (o + 1)
        rw [hr, ok_bind, ← hfst]
        refine ⟨_, rfl, ?_⟩
        cases r <;> rfl
      rw [if_neg hplain, if_neg hplain, escapeAt_eq, ok_bind]
      cases hesc : escape cs with
      | none => exact ⟨_, rfl, rfl⟩
      | some e =>
        obtain ⟨cp, used⟩ := e
        dsimp only
        by_cases hz : cp = 0
        · rw [if_pos hz, if_pos hz]
          exact ⟨_, rfl, rfl⟩
        rw [if_neg hz, if_neg hz]
        by_cases hfull : cap ≤ o + (utf8 cp).length
        · rw [if_pos hfull, if_pos hfull]
          exact ⟨_, rfl, rfl⟩
        rw [if_neg hfull, if_neg hfull]
        have hlen : ((c :: cs).drop (1 + used)).length < n := by
          rw [List.length_drop, List.length_cons]
          omega
        obtain ⟨r, hr, hfst⟩ := ih _ hlen _ rfl (o + (utf8 cp).length)
        have hdrop : (c :: cs).drop (1 + used) = cs.drop used := by rw [Nat.add_comm, List.drop_succ_cons]
        rw [hr, ok_bind, decodeFrom_skip, ← hdrop, ← hfst]
        refine ⟨_, rfl, ?_⟩
        cases r <;> rfl

/-- **A string is read within the text**, and is what `decodeStr` reads. -/
theorem decodeAt_eq (cap : Nat) (p : Bytes) :
    ∃ r, decodeAt cap p = .ok r ∧ r.map Prod.fst = decodeStr cap p := by
  cases p with
  | nil => exact ⟨none, rfl, rfl⟩
  | cons c cs =>
    rw [decodeAt, if_neg (by simp), index_cons, ok_bind, decodeStr]
    split
    · exact ⟨none, rfl, rfl⟩
    · exact decodeLoop_eq cap cs 0

theorem decodeAt_safe (cap : Nat) (p : Bytes) : Safe (fun _ => True) (decodeAt cap p) := by
  obtain ⟨r, hr, -⟩ := decodeAt_eq cap p
  rw [hr]
  trivial

theorem wsAt_safe (p : Bytes) : Safe (fun q => q = ws p) (wsAt p) := by
  rw [wsAt_eq]
  exact rfl

theorem topValueAt_safe (json key : Bytes) : Safe (fun r => r = topValue json key) (topValueAt json key) := by
  rw [topValueAt_eq]
  exact rfl

/-! ## The readers -/

theorem delimAt_eq (p : Bytes) : delimAt p = .ok (atDelim p) := by
  cases p <;> rfl

theorem digitsAt_eq (p : Bytes) : ∀ v n : Nat, digitsAt v n p = .ok (digits v n p) := by
  induction p with
  | nil =>
    intro v n
    rw [digitsAt, dif_neg (by simp)]
    rfl
  | cons c cs ih =>
    intro v n
    rw [digitsAt, dif_pos (by simp), index_cons, ok_bind, List.drop_one, List.tail_cons, digits]
    split
    · dsimp only
      split
      · rfl
      · exact ih _ _
    · rfl

theorem wordAt_eq (word p : Bytes) :
    wordAt word p = .ok (word.isPrefixOf p && atDelim (p.drop word.length)) := by
  rw [wordAt]
  split
  · rename_i hshort
    have hno : word.isPrefixOf p = false := Bool.eq_false_iff.2 fun h =>
      Nat.not_lt.2 (List.isPrefixOf_iff_prefix.1 h).length_le hshort
    rw [hno]
    rfl
  · rw [slice_eq (Nat.zero_le _) (by omega), ok_bind, List.drop_zero, Nat.sub_zero, delimAt_eq]
    split
    · rename_i hne
      have hno : word.isPrefixOf p = false := Bool.eq_false_iff.2 fun h =>
        hne (List.prefix_iff_eq_take.1 (List.isPrefixOf_iff_prefix.1 h)).symm
      rw [hno]
      rfl
    · rename_i heq
      have hyes : word.isPrefixOf p = true :=
        List.isPrefixOf_iff_prefix.2 (List.prefix_iff_eq_take.2 (not_not.1 heq).symm)
      rw [hyes, Bool.true_and]

theorem delimAt_safe (p : Bytes) : Safe (fun _ => True) (delimAt p) := by
  rw [delimAt_eq]
  trivial

theorem digitsAt_safe (v n : Nat) (p : Bytes) : Safe (fun _ => True) (digitsAt v n p) := by
  rw [digitsAt_eq]
  trivial

theorem wordAt_safe (word p : Bytes) : Safe (fun _ => True) (wordAt word p) := by
  rw [wordAt_eq]
  trivial

/-- **The readers of strings, numbers and booleans** are those without checks. -/
theorem webuiJsonStr_eq (json : Bytes) (key : String) (cap : Nat) :
    webuiJsonStr json (ascii key) cap = .ok (jsonStr json key cap) := by
  rw [webuiJsonStr, topValueAt_eq, ok_bind, jsonStr]
  cases topValue json (ascii key) with
  | none => rfl
  | some p =>
    obtain ⟨r, hr, hfst⟩ := decodeAt_eq cap p
    dsimp only
    rw [hr, ok_bind, ← hfst]
    cases r <;> rfl

theorem webuiJsonU64_eq (json : Bytes) (key : String) :
    webuiJsonU64 json (ascii key) = .ok (jsonU64 json key) := by
  rw [webuiJsonU64, topValueAt_eq, ok_bind, jsonU64]
  cases topValue json (ascii key) with
  | none => rfl
  | some p =>
    dsimp only
    rw [digitsAt_eq, ok_bind]
    cases digits 0 0 p with
    | none => rfl
    | some r =>
      obtain ⟨v, n, rest⟩ := r
      dsimp only
      rw [delimAt_eq]
      by_cases hn : n = 0
      · rw [if_pos hn, if_pos (.inl hn)]
        rfl
      · rw [if_neg hn, ok_bind]
        cases atDelim rest <;> simp [hn] <;> rfl

theorem webuiJsonBool_eq (json : Bytes) (key : String) :
    webuiJsonBool json (ascii key) = .ok (jsonBool json key) := by
  rw [webuiJsonBool, topValueAt_eq, ok_bind, jsonBool]
  cases topValue json (ascii key) with
  | none => rfl
  | some p =>
    dsimp only
    rw [wordAt_eq, ok_bind, wordAt_eq]
    have htrue : (ascii "true").length = 4 := rfl
    have hfalse : (ascii "false").length = 5 := rfl
    rw [htrue, hfalse]
    split
    · rfl
    · rw [ok_bind]
      split <;> rfl

/-- What is found starts with a byte. -/
theorem topValue_ne_nil {json key v : Bytes} (h : topValue json key = some v) : v ≠ [] := by
  have hmember : ∀ (turns : Nat) (p : Bytes), memberValue key turns p = some v → v ≠ [] := by
    intro turns
    induction turns with
    | zero => exact fun p hp => nomatch hp
    | succ turns ih =>
      intro p hp
      rw [memberValue] at hp
      split at hp
      · cases hp
      split at hp
      · cases hp
      split at hp
      · cases hp
      split at hp
      · cases hp
      split at hp
      · cases hp
      dsimp only at hp
      split at hp
      · cases hp
      split at hp
      · rename_i hne _
        cases hp
        exact hne
      split at hp
      · cases hp
      split at hp
      · split at hp
        · exact ih _ hp
        · cases hp
      · cases hp
  rw [topValue] at h
  split at h
  · split at h
    · exact hmember _ _ h
    · cases h
  · cases h

theorem webuiJsonStr_safe (json key : Bytes) (cap : Nat) : Safe (fun _ => True) (webuiJsonStr json key cap) := by
  refine Safe.bind (topValueAt_safe json key) fun r _ => ?_
  cases r with
  | none => trivial
  | some p =>
    refine Safe.bind (decodeAt_safe cap p) fun r _ => ?_
    cases r <;> trivial

theorem webuiJsonU64_safe (json key : Bytes) : Safe (fun _ => True) (webuiJsonU64 json key) := by
  refine Safe.bind (topValueAt_safe json key) fun r _ => ?_
  cases r with
  | none => trivial
  | some p =>
    refine Safe.bind (digitsAt_safe 0 0 p) fun r _ => ?_
    cases r with
    | none => trivial
    | some r =>
      obtain ⟨v, n, rest⟩ := r
      dsimp only
      split
      · trivial
      · exact Safe.bind (delimAt_safe rest) fun ends _ => by cases ends <;> trivial

theorem webuiJsonBool_safe (json key : Bytes) : Safe (fun _ => True) (webuiJsonBool json key) := by
  refine Safe.bind (topValueAt_safe json key) fun r _ => ?_
  cases r with
  | none => trivial
  | some p =>
    refine Safe.bind (wordAt_safe _ p) fun isTrue _ => ?_
    split
    · trivial
    · refine Safe.bind (wordAt_safe _ p) fun isFalse _ => ?_
      split <;> trivial

theorem webuiJsonNull_safe (json key : Bytes) : Safe (fun _ => True) (webuiJsonNull json key) := by
  refine Safe.bind (topValueAt_safe json key) fun r _ => ?_
  cases r with
  | none => trivial
  | some p => exact wordAt_safe _ p

theorem webuiJsonArray_safe (json key : Bytes) : Safe (fun _ => True) (webuiJsonArray json key) := by
  refine Safe.bind (topValueAt_safe json key) fun r hr => ?_
  cases r with
  | none => trivial
  | some p =>
    have hne := topValue_ne_nil hr.symm
    refine Safe.bind (safe_index (List.length_pos_iff.2 hne)) fun c _ => ?_
    split
    · trivial
    · rw [skipValAt_eq, ok_bind]
      cases skipVal p with
      | none => trivial
      | some q => exact Safe.bind (safe_slice (Nat.zero_le _) (by omega)) fun _ _ => trivial

theorem webuiJsonArrayStr_safe (arr : Bytes) (cap pos : Nat) :
    Safe (fun _ => True) (webuiJsonArrayStr arr cap pos) := by
  have hcloses : ∀ q : Bytes, Safe (fun _ => True)
      (if q.length = 0 then .ok false else do
        let c ← index q 0
        return c = 0x5d : Res Bool) := by
    intro q
    cases q <;> trivial
  rw [webuiJsonArrayStr]
  split
  · trivial
  split
  · trivial
  refine Safe.bind (wsAt_safe _) fun start _ => ?_
  dsimp only
  split
  · split
    · trivial
    refine Safe.bind (safe_index (by omega)) fun c _ => ?_
    split
    · trivial
    refine Safe.bind (wsAt_safe _) fun q _ => ?_
    refine Safe.bind (hcloses q) fun closes _ => ?_
    split
    · trivial
    · refine Safe.bind (decodeAt_safe cap q) fun r _ => ?_
      cases r <;> trivial
  · refine Safe.bind (hcloses start) fun closes _ => ?_
    split
    · trivial
    split
    · trivial
    refine Safe.bind (safe_index (by omega)) fun c _ => ?_
    split
    · trivial
    refine Safe.bind (wsAt_safe _) fun q _ => Safe.bind (decodeAt_safe cap q) fun r _ => ?_
    cases r <;> trivial

/-! ## The writer -/

theorem utf8Tail_safe {s : Bytes} (todo : Nat) : ∀ i cp : Nat, i + todo ≤ s.length →
    Safe (fun _ => True) (utf8Tail s todo i cp) := by
  induction todo with
  | zero => exact fun _ _ _ => trivial
  | succ todo ih =>
    intro i cp hi
    refine Safe.bind (safe_index (by omega)) fun c _ => ?_
    split
    · trivial
    · exact ih _ _ (by omega)

theorem utf8Seq_safe {s : Bytes} (hs : 0 < s.length) :
    Safe (fun r => ∀ k, r = some k → k ≤ s.length) (utf8Seq s) := by
  refine Safe.bind (safe_index hs) fun c _ => ?_
  dsimp only
  split
  · exact fun k h => by cases h
  · split
    · exact fun k h => by cases h
    · rename_i k cp _ hk
      refine Safe.bind (utf8Tail_safe (k - 1) 1 cp (by omega)) fun r _ => ?_
      cases r with
      | none => exact fun k h => by cases h
      | some cp =>
        show ∀ k', _ → _
        intro k' hk'
        split at hk'
        · cases hk'
        · cases hk'
          omega

theorem esc_safe (s : Bytes) : ∀ w : Jw, Safe (fun _ => True) (esc w s) := by
  induction hn : s.length using Nat.strongRecOn generalizing s with
  | ind n ih =>
    intro w
    rw [esc]
    split
    · rename_i hpos
      have hless : ∀ k, (s.drop (k + 1)).length < n := fun k => by
        rw [List.length_drop]
        omega
      refine Safe.bind (safe_index hpos) fun c _ => ?_
      split
      · exact ih _ (hless 0) _ rfl _
      · refine Safe.bind (utf8Seq_safe hpos) fun r hr => ?_
        cases r with
        | none => exact ih _ (hless 0) _ rfl _
        | some k =>
          refine Safe.bind (safe_slice (Nat.zero_le _) (hr k rfl)) fun piece _ => ?_
          refine ih _ ?_ _ rfl _
          rw [List.length_drop]
          omega
    · trivial

theorem webuiJsonEscape_safe (cap : Nat) (s : Bytes) : Safe (fun _ => True) (webuiJsonEscape cap s) :=
  Safe.bind (esc_safe s _) fun _ _ => trivial

end Ps5Upload.WebuiCodec
