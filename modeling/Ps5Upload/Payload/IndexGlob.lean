import Ps5Upload.Lib.Bytes
import Ps5Upload.Lib.Wildcard

/-!
# The file index's patterns

`index_glob.h`, the name match of an index search, and `webui_index_collapse_stars` of `webui_codec.c`,
through which a query passes on its way to it.  A pointer is the text from it on, and the end of a text is
its NUL.

* `indexGlobMatch` — the matcher, with one place to go back to;
* `lang_collapseFrom` — a run of stars is one star.
-/

namespace Ps5Upload.IndexGlob

open ByteFile Wildcard

/-! ## The matcher -/

/-- `'*'` -/
def star : UInt8 := 0x2a

/-- `'?'` -/
def question : UInt8 := 0x3f

/-- `index_glob_lower` -/
def indexGlobLower (c : UInt8) : UInt8 := if 0x41 ≤ c ∧ c ≤ 0x5a then c + 32 else c

/-- `while (*pat == '*') pat++;` -/
def pastStars (pat : Bytes) : Bytes := pat.dropWhile (· = star)

/-- Whether a byte of the pattern takes one of the name. -/
def takes (p c : UInt8) : Bool := p = question || indexGlobLower p = indexGlobLower c

/-- A mismatch: the last star, if any, takes one more byte. -/
def goBack (again : Bytes → Bytes → Option (Bytes × Bytes) → Option Bool) :
    Option (Bytes × Bytes) → Option Bool
  | none => some false
  | some (past, resume) => again past resume.tail (some (past, resume.tail))

/-- The loop, with what is behind the last star and where in the name that star would take one more byte;
none when the turns run out. -/
def matchLoop : Nat → Bytes → Bytes → Option (Bytes × Bytes) → Option Bool
  | 0, _, _, _ => none
  | _ + 1, pat, [], _ => some (decide (pastStars pat = []))
  | turns + 1, [], _ :: _, back => goBack (matchLoop turns) back
  | turns + 1, p :: pat, c :: str, back =>
    if p = star then
      if pastStars pat = [] then some true
      else matchLoop turns (pastStars pat) (c :: str) (some (pastStars pat, c :: str))
    else if takes p c then matchLoop turns pat str back
    else goBack (matchLoop turns) back

/-- `index_glob_match` -/
def indexGlobMatch (pat str : Bytes) : Option Bool :=
  matchLoop ((str.length + 2) * (pat.length + 1)) pat str none

/-- `webui_index_collapse_stars`: the loop, with what is written so far. -/
def collapseFrom (written : Bytes) : Bytes → Bytes
  | [] => written
  | c :: q =>
    if c = star ∧ written.getLast? = some star then collapseFrom written q
    else collapseFrom (written ++ [c]) q

def webuiIndexCollapseStars (q : Bytes) : Bytes := collapseFrom [] q

/-! ## The language -/

/-- A capital letter and its small one. -/
def CaseOf (p c : UInt8) : Prop := (0x41 ≤ p ∧ p ≤ 0x5a) ∧ c = p + 0x20

/-- The bytes that a byte of a pattern other than a star stands for. -/
def stands (p : UInt8) : Set UInt8 :=
  if p = question then Set.univ else {c | c = p ∨ CaseOf p c ∨ CaseOf c p}

/-- What a byte of a pattern stands for. -/
def itemOf (p : UInt8) : Item UInt8 := if p = star then .any else .one (stands p)

/-- A pattern as its items. -/
def items (pat : Bytes) : List (Item UInt8) := pat.map itemOf

theorem items_star (pat : Bytes) : items (star :: pat) = .any :: items pat := rfl

theorem items_byte {p : UInt8} (h : p ≠ star) (pat : Bytes) :
    items (p :: pat) = .one (stands p) :: items pat := by
  rw [items, List.map_cons, itemOf, if_neg h, items]

theorem takes_iff (p c : UInt8) : takes p c = true ↔ c ∈ stands p := by
  unfold takes stands
  by_cases hq : p = question
  · rw [if_pos hq]
    exact iff_of_true (by simp [hq]) trivial
  · rw [if_neg hq, decide_eq_false hq, Bool.false_or, decide_eq_true_eq]
    simp only [indexGlobLower, Set.mem_ofPred_eq, CaseOf]
    grind

theorem pastStars_star (pat : Bytes) : pastStars (star :: pat) = pastStars pat := rfl

theorem pastStars_byte {p : UInt8} (h : p ≠ star) (pat : Bytes) : pastStars (p :: pat) = p :: pat := by
  rw [pastStars, List.dropWhile_cons_of_neg (by rwa [decide_eq_true_eq])]

/-- A star behind a star reads nothing that the first does not. -/
theorem any_any (pat : Bytes) (w : Bytes) :
    w ∈ lang (.any :: .any :: items pat) ↔ w ∈ lang (.any :: items pat) := by
  constructor
  · intro h
    obtain ⟨k, hk, hw⟩ := mem_any.1 h
    exact mem_any_of_drop hw hk
  · exact mem_any_of_mem

theorem any_pastStars (pat : Bytes) (w : Bytes) :
    w ∈ lang (.any :: items (pastStars pat)) ↔ w ∈ lang (.any :: items pat) := by
  induction pat with
  | nil => rfl
  | cons p pat ih =>
    by_cases hp : p = star
    · subst hp
      rw [pastStars_star, ih]
      exact (any_any pat w).symm
    · rw [pastStars_byte hp]

theorem nil_mem_iff (pat : Bytes) : [] ∈ lang (items pat) ↔ pastStars pat = [] := by
  rw [nil_mem]
  induction pat with
  | nil => exact iff_of_true nofun rfl
  | cons p pat ih =>
    by_cases hp : p = star
    · subst hp
      rw [pastStars_star, items_star, ← ih, List.forall_mem_cons]
      exact and_iff_right rfl
    · rw [pastStars_byte hp, items_byte hp]
      exact iff_of_false (fun h => by cases h _ List.mem_cons_self) (List.cons_ne_nil p pat)

/-! ## The loop -/

/-- What is behind the last star has read the name from where that star stopped up to here. -/
def Behind (pat str : Bytes) (back : Option (Bytes × Bytes)) : Prop :=
  ∀ past resume, back = some (past, resume) →
    ∃ n ≤ resume.length, str = resume.drop n ∧ Resumes (items past) n (items pat)

/-- What is still to be found: a match from here, or one behind the last star from a later start. -/
def Open (pat str : Bytes) (back : Option (Bytes × Bytes)) : Prop :=
  str ∈ lang (items pat) ∨ ∃ past resume, back = some (past, resume) ∧
    ∃ k, 0 < k ∧ k ≤ resume.length ∧ resume.drop k ∈ lang (items past)

/-- At a star it is enough to look from that star on. -/
theorem open_star {pat str : Bytes} {back : Option (Bytes × Bytes)} (hback : Behind (star :: pat) str back) :
    Open (star :: pat) str back ↔ Open (pastStars pat) str (some (pastStars pat, str)) := by
  have hstar : str ∈ lang (items (star :: pat)) ↔ Open (pastStars pat) str (some (pastStars pat, str)) := by
    rw [items_star, ← any_pastStars, mem_any]
    constructor
    · rintro ⟨k, hk, hw⟩
      rcases Nat.eq_zero_or_pos k with rfl | hpos
      · exact .inl hw
      · exact .inr ⟨_, _, rfl, k, hpos, hk, hw⟩
    · rintro (hw | ⟨_, _, h, k, -, hk, hw⟩)
      · exact ⟨0, Nat.zero_le _, hw⟩
      · cases h
        exact ⟨k, hk, hw⟩
  rw [← hstar]
  refine ⟨?_, .inl⟩
  rintro (h | ⟨past, resume, h, k, -, hk, hw⟩)
  · exact h
  · obtain ⟨n, -, rfl, hres⟩ := hback past resume h
    rw [items_star] at hres ⊢
    exact superseded hres hk hw

/-- With no match from here, going back loses nothing. -/
theorem open_back {pat str past resume : Bytes} (hno : str ∉ lang (items pat)) (hpos : resume ≠ []) :
    Open past resume.tail (some (past, resume.tail)) ↔ Open pat str (some (past, resume)) := by
  have hlen := List.length_pos_iff.2 hpos
  constructor
  · rintro (hw | ⟨_, _, h, k, hk, hkl, hw⟩)
    · exact .inr ⟨past, resume, rfl, 1, Nat.one_pos, hlen, by rwa [List.drop_one]⟩
    · cases h
      rw [List.length_tail] at hkl
      exact .inr ⟨past, resume, rfl, k + 1, by omega, by omega, by rwa [Nat.add_comm, ← List.drop_drop, List.drop_one]⟩
  · rintro (hw | ⟨_, _, h, k, hk, hkl, hw⟩)
    · exact absurd hw hno
    · cases h
      obtain ⟨k, rfl⟩ := Nat.exists_eq_succ_of_ne_zero (by omega : k ≠ 0)
      rw [Nat.succ_eq_add_one, Nat.add_comm, ← List.drop_drop, List.drop_one] at hw
      rcases Nat.eq_zero_or_pos k with rfl | hk
      · exact .inl hw
      · exact .inr ⟨past, resume.tail, rfl, k, hk, by rw [List.length_tail]; omega, hw⟩

/-- The turns that are left to take: the bytes that the star can still be given, each with a pattern to
read again. -/
def turnsLeft (whole pat str : Bytes) (back : Option (Bytes × Bytes)) : Nat :=
  (back.elim (str.length + 1) fun b => b.2.length) * (whole.length + 1) + pat.length

theorem goBack_spec {whole pat str : Bytes} {back : Option (Bytes × Bytes)} {turns : Nat}
    (ih : ∀ pat str back, pat.length ≤ whole.length → Behind pat str back →
      (∀ past resume, back = some (past, resume) → past.length ≤ whole.length) →
      turnsLeft whole pat str back < turns →
      ∃ b, matchLoop turns pat str back = some b ∧ (b = true ↔ Open pat str back))
    (hback : Behind pat str back) (hpast : ∀ past resume, back = some (past, resume) → past.length ≤ whole.length)
    (hstr : str ≠ []) (hno : str ∉ lang (items pat)) (hturns : turnsLeft whole pat str back < turns + 1) :
    ∃ b, goBack (matchLoop turns) back = some b ∧ (b = true ↔ Open pat str back) := by
  cases back with
  | none =>
    refine ⟨false, rfl, iff_of_false Bool.false_ne_true ?_⟩
    rintro (h | ⟨_, _, h, -⟩)
    · exact hno h
    · cases h
  | some b =>
    obtain ⟨past, resume⟩ := b
    obtain ⟨n, hn, hdrop, -⟩ := hback past resume rfl
    have hpos : resume ≠ [] := fun h => hstr (by rw [hdrop, h, List.drop_nil])
    have hlen : resume.length = resume.tail.length + 1 := by
      rw [List.length_tail]
      have := List.length_pos_iff.2 hpos
      omega
    have hle := hpast past resume rfl
    obtain ⟨b, hb, hiff⟩ := ih past resume.tail (some (past, resume.tail)) hle
      (fun _ _ h => by
        cases h
        exact ⟨0, Nat.zero_le _, rfl, .refl _⟩)
      (fun _ _ h => by
        cases h
        exact hle)
      (by
        simp only [turnsLeft, Option.elim_some] at hturns ⊢
        rw [hlen, Nat.succ_mul] at hturns
        omega)
    exact ⟨b, hb, hiff.trans (open_back hno hpos)⟩

theorem matchLoop_spec (whole : Bytes) (turns : Nat) (pat str : Bytes) (back : Option (Bytes × Bytes))
    (hpat : pat.length ≤ whole.length) (hback : Behind pat str back)
    (hpast : ∀ past resume, back = some (past, resume) → past.length ≤ whole.length)
    (hturns : turnsLeft whole pat str back < turns) :
    ∃ b, matchLoop turns pat str back = some b ∧ (b = true ↔ Open pat str back) := by
  induction turns generalizing pat str back with
  | zero => exact absurd hturns (Nat.not_lt_zero _)
  | succ turns ih =>
    cases str with
    | nil =>
      have hend : matchLoop (turns + 1) pat [] back = some (decide (pastStars pat = [])) := by
        cases pat <;> rfl
      refine ⟨_, hend, ?_⟩
      rw [decide_eq_true_eq, ← nil_mem_iff]
      refine ⟨.inl, ?_⟩
      rintro (h | ⟨past, resume, h, k, hk, hkl, hw⟩)
      · exact h
      · -- The name has run out: a later start leaves less than what is behind the star has read.
        obtain ⟨n, hn, hdrop, hres⟩ := hback past resume h
        have hall : n = resume.length := Nat.le_antisymm hn (List.drop_eq_nil_iff.1 hdrop.symm)
        exact absurd hw ((hall ▸ hres).not_mem hk hkl)
    | cons c str =>
      cases pat with
      | nil => exact goBack_spec ih hback hpast (List.cons_ne_nil c str) (by simp [items, mem_nil]) hturns
      | cons p pat =>
        rw [List.length_cons] at hpat
        by_cases hp : p = star
        · subst hp
          rw [matchLoop, if_pos rfl, open_star hback]
          have hle : (pastStars pat).length ≤ pat.length := (List.dropWhile_sublist _).length_le
          split
          · rename_i hnil
            refine ⟨true, rfl, iff_of_true rfl (.inr ⟨_, _, rfl, (c :: str).length, Nat.succ_pos _,
              Nat.le_refl _, ?_⟩)⟩
            rw [List.drop_length, hnil]
            exact mem_nil.2 rfl
          · refine ih _ _ _ (by omega) (fun _ _ h => ?_) (fun _ _ h => ?_) ?_
            · cases h
              exact ⟨0, Nat.zero_le _, rfl, .refl _⟩
            · cases h
              omega
            · -- The star starts where an earlier one has got to, or further on.
              have hfar : (c :: str).length ≤ back.elim ((c :: str).length + 1) fun b => b.2.length := by
                cases back with
                | none => exact Nat.le_succ _
                | some b =>
                  obtain ⟨n, -, hdrop, -⟩ := hback b.1 b.2 rfl
                  rw [Option.elim_some, hdrop, List.length_drop]
                  exact Nat.sub_le _ _
              have hmul := Nat.mul_le_mul_right (whole.length + 1) hfar
              simp only [turnsLeft, Option.elim_some, List.length_cons] at hturns hmul ⊢
              omega
        · rw [matchLoop, if_neg hp]
          by_cases ht : takes p c = true
          · rw [if_pos ht]
            obtain ⟨b, hb, hiff⟩ := ih pat str back (by omega) (fun past resume h => by
                obtain ⟨n, hn, hdrop, hres⟩ := hback past resume h
                rw [items_byte hp] at hres
                have hlt : n < resume.length := by
                  by_contra hge
                  rw [List.drop_eq_nil_of_le (by omega)] at hdrop
                  cases hdrop
                refine ⟨n + 1, hlt, ?_, hres.step⟩
                rw [← List.drop_drop, ← hdrop, List.drop_one, List.tail_cons]) hpast (by
                cases back <;> simp only [turnsLeft, Option.elim_some, Option.elim_none, List.length_cons] at hturns ⊢
                · rw [Nat.succ_mul] at hturns
                  omega
                · omega)
            refine ⟨b, hb, hiff.trans ?_⟩
            rw [Open, Open, items_byte hp, cons_mem_one]
            exact or_congr_left (and_iff_right ((takes_iff p c).1 ht)).symm
          · rw [if_neg ht]
            exact goBack_spec ih hback hpast (List.cons_ne_nil c str)
              (by rw [items_byte hp, cons_mem_one]; exact fun h => ht ((takes_iff p c).2 h.1)) hturns

/-- The matcher comes to an end, and finds the words of the pattern and no others. -/
theorem indexGlobMatch_eq (pat str : Bytes) :
    ∃ b, indexGlobMatch pat str = some b ∧ (b = true ↔ str ∈ lang (items pat)) := by
  obtain ⟨b, hb, hiff⟩ := matchLoop_spec pat ((str.length + 2) * (pat.length + 1)) pat str none
    (Nat.le_refl _) nofun nofun (by
      simp only [turnsLeft, Option.elim_none]
      rw [Nat.succ_mul (str.length + 1)]
      omega)
  refine ⟨b, hb, hiff.trans ⟨?_, .inl⟩⟩
  rintro (h | ⟨_, _, h, -⟩)
  · exact h
  · cases h

/-! ## Collapsed stars -/

theorem lang_append (u v : Bytes) : lang (items (u ++ v)) = lang (items u) * lang (items v) := by
  rw [items, List.map_append, lang, List.map_append, List.prod_append]
  rfl

theorem lang_collapseFrom (written q : Bytes) :
    lang (items (collapseFrom written q)) = lang (items (written ++ q)) := by
  induction q generalizing written with
  | nil => rw [List.append_nil, collapseFrom]
  | cons c q ih =>
    rw [collapseFrom]
    split
    · rename_i h
      obtain ⟨rfl, hlast⟩ := h
      obtain ⟨u, rfl⟩ := List.getLast?_eq_some_iff.1 hlast
      have hany : lang (items (star :: star :: q)) = lang (items (star :: q)) := by
        ext w
        exact any_any q w
      rw [ih, List.append_assoc, List.append_assoc, lang_append, lang_append u, List.singleton_append,
        List.singleton_append, hany]
    · rw [ih, List.append_assoc, List.singleton_append]

/-- **The search matches its pattern language**, and a collapsed query matches what the query does. -/
theorem indexGlobMatch_iff (pat str : Bytes) :
    (∃ b, indexGlobMatch pat str = some b ∧ (b = true ↔ str ∈ lang (items pat))) ∧
      indexGlobMatch (webuiIndexCollapseStars pat) str = indexGlobMatch pat str := by
  obtain ⟨b, hb, hiff⟩ := indexGlobMatch_eq pat str
  obtain ⟨b', hb', hiff'⟩ := indexGlobMatch_eq (webuiIndexCollapseStars pat) str
  refine ⟨⟨b, hb, hiff⟩, ?_⟩
  rw [webuiIndexCollapseStars, lang_collapseFrom, List.nil_append] at hiff'
  rw [hb, hb', Bool.eq_iff_iff.2 (hiff'.trans hiff.symm)]

-- Two stars and a mark: the second star has to take more than it first does.
example : indexGlobMatch [0x2a, 0x61, 0x3f, 0x2a, 0x42] [0x78, 0x61, 0x61, 0x62] = some true := by decide

end Ps5Upload.IndexGlob
