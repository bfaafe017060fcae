import Ps5Upload.Lib.Wildcard
import Mathlib.Data.Char
import Mathlib.Order.Interval.Set.Defs

/-!
# Pack globs

`glob.rs`: the matcher of the packer's rules, which keeps one star to go back to.

* `fnmatch` — the matcher, over places in the pattern and in the name;
* `items` — what a pattern is made of;
* `fnmatch_iff` — the matcher finds the words of the pattern, and no others.
-/

namespace Ps5Upload.AmprPack

open Wildcard

/-! ## The matcher -/

/-- The loop over the members of a set. -/
def hits (c : Char) : List Char → Bool
  | a :: '-' :: b :: rest => a ≤ c && c ≤ b || hits c rest
  | a :: rest => a == c || hits c rest
  | [] => false

/-- The loop that looks for the end of a set. -/
def setEnd (p : List Char) (at' : Nat) : Nat := at' + ((p.drop at').takeWhile (· ≠ ']')).length

/-- `set`: whether `c` is in the set that starts at `at'`, and where the pattern resumes. -/
def set (p : List Char) (at' : Nat) (c : Char) : Option (Bool × Nat) :=
  let negate := p[at' + 1]? = some '!'
  let start := if negate then at' + 2 else at' + 1
  -- A `]` right at the start is a member, not the end.
  let stop := setEnd p (if p[start]? = some ']' then start + 1 else start)
  if p.length ≤ stop then none
  else some (hits c ((p.drop start).take (stop - start)) != decide negate, stop + 1)

/-- What one turn of the matcher does with the character at hand. -/
inductive Turn where
  | star
  | next (pi : Nat)
  | stuck

/-- The `match` on the pattern's character. -/
def turn (p : List Char) (pi : Nat) (c : Char) : Turn :=
  match p[pi]? with
  | none => .stuck
  | some x =>
    if x = '*' then .star
    else if x = '?' then .next (pi + 1)
    else if x = '[' then
      match set p pi c with
      | some (hit, next) => if hit then .next next else .stuck
      -- An unterminated `[` is a literal.
      | none => if c = '[' then .next (pi + 1) else .stuck
    else if x = c then .next (pi + 1)
    else .stuck

/-- The loop of `fnmatch`; nothing comes out where the first number runs out. -/
def scan (p s : List Char) : Nat → Nat → Nat → Option (Nat × Nat) → Option Bool
  | 0, _, _, _ => none
  | fuel + 1, pi, si, star =>
    match s[si]? with
    | none => some ((p.drop pi).all (· = '*'))
    | some c =>
      match turn p pi c with
      | .star => scan p s fuel (pi + 1) si (some (pi, si))
      | .next pi => scan p s fuel pi (si + 1) star
      | .stuck =>
        match star with
        | some (sp, ss) => scan p s fuel (sp + 1) (ss + 1) (some (sp, ss + 1))
        | none => some false

/-- `fnmatch` -/
def fnmatch (p s : List Char) : Option Bool := scan p s ((s.length + 2) * (p.length + 2)) 0 0 none

/-! ## What a pattern is made of -/

/-- The characters of a set: ranges and single ones. -/
def members : List Char → Set Char
  | a :: '-' :: b :: rest => Set.Icc a b ∪ members rest
  | a :: rest => {a} ∪ members rest
  | [] => ∅

/-- The set behind a bracket and the pattern behind the set, if the set ends. -/
def splitSet (q : List Char) : Option (Set Char × List Char) :=
  let negate := q.head? = some '!'
  match (if negate then q.tail else q) with
  | [] => none
  | a :: r =>
    match r.dropWhile (· ≠ ']') with
    | [] => none
    | _ :: rest =>
      let set := members (a :: r.takeWhile (· ≠ ']'))
      some (if negate then setᶜ else set, rest)

theorem length_splitSet {q rest : List Char} {set : Set Char} (h : splitSet q = some (set, rest)) :
    rest.length < q.length := by
  unfold splitSet at h
  dsimp only at h
  have htail : (if q.head? = some '!' then q.tail else q).length ≤ q.length := by
    split
    · rw [List.length_tail]
      omega
    · exact Nat.le_refl _
  split at h
  · cases h
  · rename_i a r hq
    rw [hq, List.length_cons] at htail
    split at h
    · cases h
    · rename_i b rest' hdrop
      cases h
      have hle := (List.dropWhile_suffix (l := r) fun c => decide (c ≠ ']')).length_le
      rw [hdrop, List.length_cons] at hle
      omega

/-- The items of a pattern. -/
def items : List Char → List (Item Char)
  | [] => []
  | c :: p =>
    if c = '*' then .any :: items p
    else if c = '?' then .one Set.univ :: items p
    else if c = '[' then
      match _h : splitSet p with
      | some (set, rest) => .one set :: items rest
      | none => .one {'['} :: items p
    else .one {c} :: items p
termination_by p => p.length
decreasing_by
  all_goals simp only [List.length_cons]
  · omega
  · omega
  · exact Nat.lt_succ_of_lt (length_splitSet _h)
  · omega
  · omega

/-! ## Sets -/

theorem hits_iff (c : Char) (m : List Char) : hits c m = true ↔ c ∈ members m := by
  induction m using members.induct with
  | case1 a b rest ih => simp [hits, members, ih]
  | case2 a rest hno ih =>
    rw [hits, members, Bool.or_eq_true, beq_iff_eq, ih, Set.mem_union, Set.mem_singleton_iff, eq_comm]
    · exact hno
    · exact hno
  | case3 => simp [hits, members]

theorem drop_eq_cons {p q : List Char} {x : Char} {i : Nat} (h : p.drop i = x :: q) :
    p[i]? = some x ∧ p.drop (i + 1) = q ∧ p.length = i + 1 + q.length := by
  have hlen := congrArg List.length h
  rw [List.length_drop, List.length_cons] at hlen
  refine ⟨?_, ?_, by omega⟩
  · rw [← List.head?_drop, h, List.head?_cons]
  · rw [← List.drop_drop, h, List.drop_one, List.tail_cons]

/-- From a set's first member on: the scan ends at the first `]` behind it. -/
theorem setEnd_eq {p r : List Char} {a : Char} {start : Nat} (h : p.drop start = a :: r) :
    setEnd p (if p[start]? = some ']' then start + 1 else start) =
      start + 1 + (r.takeWhile (· ≠ ']')).length := by
  obtain ⟨hget, hnext, -⟩ := drop_eq_cons h
  rw [hget]
  by_cases ha : a = ']'
  · rw [if_pos (congrArg some ha), setEnd, hnext]
  · rw [if_neg (fun he => ha (Option.some.inj he)), setEnd, h,
      List.takeWhile_cons_of_pos (by simpa using ha), List.length_cons]
    omega

/-- Where the members of a set start. -/
def setStart (q : List Char) (at' : Nat) : Nat := if q.head? = some '!' then at' + 2 else at' + 1

/-- The part of a list up to the first `]`, the rest, and the lengths. -/
theorem cut_bracket (r : List Char) :
    r.take (r.takeWhile (· ≠ ']')).length = r.takeWhile (· ≠ ']') ∧
      r.drop (r.takeWhile (· ≠ ']')).length = r.dropWhile (· ≠ ']') ∧
      (r.takeWhile (· ≠ ']')).length + (r.dropWhile (· ≠ ']')).length = r.length := by
  generalize hn : (fun x => decide (x ≠ ']')) = test
  have hsplit := List.takeWhile_append_dropWhile (p := test) (l := r)
  have htake : (r.takeWhile test ++ r.dropWhile test).take (r.takeWhile test).length = r.takeWhile test :=
    List.take_left
  have hdrop : (r.takeWhile test ++ r.dropWhile test).drop (r.takeWhile test).length = r.dropWhile test :=
    List.drop_left
  rw [hsplit] at htake hdrop
  exact ⟨htake, hdrop, by rw [← List.length_append, hsplit]⟩

/-- What the code makes of a set, from its first member on. -/
theorem set_of_start {p q : List Char} {at' : Nat} (h : p.drop at' = '[' :: q) (c : Char) :
    match (if q.head? = some '!' then q.tail else q) with
    | [] => set p at' c = none
    | a :: r => p.drop (setStart q at') = a :: r ∧
        set p at' c = if r.dropWhile (· ≠ ']') = [] then none
          else some (hits c (a :: r.takeWhile (· ≠ ']')) != decide (q.head? = some '!'),
            setStart q at' + 1 + (r.takeWhile (· ≠ ']')).length + 1) := by
  obtain ⟨-, hq, -⟩ := drop_eq_cons h
  have hneg : p[at' + 1]? = q.head? := by rw [← List.head?_drop, hq]
  have hstart : p.drop (setStart q at') = if q.head? = some '!' then q.tail else q := by
    unfold setStart
    split
    · rw [← hq, List.tail_drop]
    · exact hq
  have hcode : set p at' c =
      let stop := setEnd p (if p[setStart q at']? = some ']' then setStart q at' + 1 else setStart q at')
      if p.length ≤ stop then none
      else some (hits c ((p.drop (setStart q at')).take (stop - setStart q at')) !=
        decide (q.head? = some '!'), stop + 1) := by
    unfold set setStart
    rw [hneg]
  rw [hcode]
  cases hcut : (if q.head? = some '!' then q.tail else q) with
  | nil =>
    rw [hcut] at hstart
    refine if_pos (Nat.le_trans (List.drop_eq_nil_iff.1 hstart) (Nat.le_trans ?_ (Nat.le_add_right _ _)))
    split <;> omega
  | cons a r =>
    rw [hcut] at hstart
    obtain ⟨-, -, hlen⟩ := drop_eq_cons hstart
    obtain ⟨htake, -, hsum⟩ := cut_bracket r
    refine ⟨hstart, ?_⟩
    dsimp only
    rw [setEnd_eq hstart]
    by_cases hend : r.dropWhile (· ≠ ']') = []
    · rw [hend, List.length_nil] at hsum
      rw [if_pos hend, if_pos (by omega)]
    · have hpos := List.length_pos_iff.2 hend
      rw [if_neg hend, if_neg (by omega), hstart, show setStart q at' + 1 +
        (r.takeWhile (· ≠ ']')).length - setStart q at' = (r.takeWhile (· ≠ ']')).length + 1 by omega,
        List.take_succ_cons, htake]

/-- The scan of a set finds what the pattern has there. -/
theorem set_eq {p q : List Char} {at' : Nat} (h : p.drop at' = '[' :: q) (c : Char) :
    match splitSet q with
    | none => set p at' c = none
    | some (T, rest) => ∃ hit next, set p at' c = some (hit, next) ∧ (hit = true ↔ c ∈ T) ∧
        p.drop next = rest ∧ at' < next ∧ next ≤ p.length := by
  have hset := set_of_start h c
  unfold splitSet
  dsimp only
  cases hcut : (if q.head? = some '!' then q.tail else q) with
  | nil =>
    rw [hcut] at hset
    exact hset
  | cons a r =>
    rw [hcut] at hset
    obtain ⟨hstart, hset⟩ := hset
    obtain ⟨-, hr, hlen⟩ := drop_eq_cons hstart
    obtain ⟨-, hback, hsum⟩ := cut_bracket r
    dsimp only
    cases hdrop : r.dropWhile (· ≠ ']') with
    | nil =>
      rw [hdrop, if_pos rfl] at hset
      exact hset
    | cons b rest =>
      rw [hdrop, if_neg (List.cons_ne_nil b rest)] at hset
      rw [hdrop] at hback
      rw [hdrop, List.length_cons] at hsum
      have hat : at' < setStart q at' := by
        unfold setStart
        split <;> omega
      refine ⟨_, _, hset, ?_, ?_, by omega, by omega⟩
      · have hmem := hits_iff c (a :: r.takeWhile (· ≠ ']'))
        rw [bne_iff_ne, ne_eq]
        by_cases hn : q.head? = some '!'
        · rw [if_pos hn, decide_eq_true hn, Set.mem_compl_iff, ← hmem]
        · rw [if_neg hn, decide_eq_false hn, ← hmem, Bool.not_eq_false]
      · rw [Nat.add_assoc, ← List.drop_drop, hr, ← List.drop_drop, hback, List.drop_one, List.tail_cons]

/-! ## Turns -/

theorem items_cons (c : Char) (p : List Char) : items (c :: p) =
    if c = '*' then .any :: items p
    else if c = '?' then .one Set.univ :: items p
    else if c = '[' then
      match splitSet p with
      | some (set, rest) => .one set :: items rest
      | none => .one {'['} :: items p
    else .one {c} :: items p := by
  rw [items]
  split
  · rfl
  split
  · rfl
  split
  · split <;> rename_i h <;> rw [h]
  · rfl

/-- What a turn says of the pattern from where it is. -/
def TurnSpec (p : List Char) (pi : Nat) (c : Char) : Turn → Prop
  | .star => items (p.drop pi) = .any :: items (p.drop (pi + 1)) ∧ pi < p.length
  | .next next => ∃ T, items (p.drop pi) = .one T :: items (p.drop next) ∧ c ∈ T ∧ pi < next ∧
      next ≤ p.length
  | .stuck => ∀ w, c :: w ∉ lang (items (p.drop pi))

theorem turn_spec (p : List Char) (pi : Nat) (c : Char) : TurnSpec p pi c (turn p pi c) := by
  unfold turn
  cases hdrop : p.drop pi with
  | nil =>
    rw [List.getElem?_eq_none (List.drop_eq_nil_iff.1 hdrop)]
    intro w hw
    rw [hdrop, items, mem_nil] at hw
    cases hw
  | cons x q =>
    obtain ⟨hget, hq, hlen⟩ := drop_eq_cons hdrop
    have hitems := items_cons x q
    rw [← hdrop] at hitems
    rw [hget]
    dsimp only
    by_cases hstar : x = '*'
    · rw [if_pos hstar] at hitems ⊢
      exact ⟨by rw [hitems, hq], by omega⟩
    rw [if_neg hstar] at hitems ⊢
    by_cases hany : x = '?'
    · rw [if_pos hany] at hitems ⊢
      exact ⟨_, by rw [hitems, hq], Set.mem_univ c, by omega, by omega⟩
    rw [if_neg hany] at hitems ⊢
    by_cases hset : x = '['
    · rw [if_pos hset] at hitems ⊢
      have hspec := set_eq (hset ▸ hdrop) c
      cases hsplit : splitSet q with
      | none =>
        rw [hsplit] at hitems hspec
        dsimp only at hitems hspec
        rw [hspec]
        dsimp only
        by_cases hc : c = '['
        · rw [if_pos hc]
          exact ⟨_, by rw [hitems, hq], hc, by omega, by omega⟩
        · rw [if_neg hc]
          intro w hw
          rw [hitems, cons_mem_one] at hw
          exact hc hw.1
      | some found =>
        obtain ⟨T, rest⟩ := found
        rw [hsplit] at hitems hspec
        obtain ⟨hit, next, hcode, hhit, hrest, hlt, hle⟩ := hspec
        dsimp only at hitems
        rw [hcode]
        cases hit with
        | true => exact ⟨T, by rw [hitems, hrest], hhit.1 rfl, hlt, hle⟩
        | false =>
          intro w hw
          rw [hitems, cons_mem_one] at hw
          exact absurd (hhit.2 hw.1) Bool.false_ne_true
    rw [if_neg hset] at hitems ⊢
    by_cases hx : x = c
    · rw [if_pos hx]
      exact ⟨_, by rw [hitems, hq], hx.symm, by omega, by omega⟩
    · rw [if_neg hx]
      intro w hw
      rw [hitems, cons_mem_one] at hw
      exact hx hw.1.symm

/-- What is left of the pattern is stars where it has the empty word. -/
theorem all_star_iff (p : List Char) : p.all (· = '*') = true ↔ [] ∈ lang (items p) := by
  induction p with
  | nil => exact iff_of_true rfl (by rw [items, mem_nil])
  | cons x p ih =>
    rw [items_cons, List.all_cons, Bool.and_eq_true, decide_eq_true_eq]
    by_cases hstar : x = '*'
    · rw [if_pos hstar, ih, nil_mem, nil_mem, List.forall_mem_cons]
      exact ⟨fun h => ⟨rfl, h.2⟩, fun h => ⟨hstar, h.2⟩⟩
    · have hone : ∀ (T : Set Char) (is : List (Item Char)), [] ∉ lang (.one T :: is) := fun T is h => by
        obtain ⟨_, _, hw, -⟩ := mem_one.1 h
        cases hw
      refine iff_of_false (fun h => hstar h.1) ?_
      rw [if_neg hstar]
      split
      · exact hone _ _
      split
      · split <;> exact hone _ _
      · exact hone _ _

/-! ## The loop -/

section Loop

variable {p s : List Char}

/-- The star that is remembered: it is behind, and what the pattern has since read is as long as what
the name has. -/
def Remembered (p : List Char) (pi si : Nat) (star : Option (Nat × Nat)) : Prop :=
  ∀ sp ss, star = some (sp, ss) → ss ≤ si ∧ sp < p.length ∧
    Resumes (items (p.drop (sp + 1))) (si - ss) (items (p.drop pi))

/-- What is still to be found: a match from here, or one from a later start behind the star. -/
def Open (p s : List Char) (pi si : Nat) (star : Option (Nat × Nat)) : Prop :=
  s.drop si ∈ lang (items (p.drop pi)) ∨
    ∃ sp ss, star = some (sp, ss) ∧
      ∃ k, ss < k ∧ k ≤ s.length ∧ s.drop k ∈ lang (items (p.drop (sp + 1)))

/-- Each turn lowers this. -/
def scanMeasure (p s : List Char) (pi : Nat) (star : Option (Nat × Nat)) : Nat :=
  ((star.map fun st => s.length - st.2).getD (s.length + 1)) * (p.length + 2) + (p.length - pi)

/-- At a star: it reads nothing, or something. -/
theorem open_star {pi si : Nat} (hitems : items (p.drop pi) = .any :: items (p.drop (pi + 1)))
    (hsi : si ≤ s.length) :
    s.drop si ∈ lang (items (p.drop pi)) ↔ Open p s (pi + 1) si (some (pi, si)) := by
  rw [hitems, mem_any, List.length_drop]
  constructor
  · rintro ⟨k, hk, hw⟩
    rw [List.drop_drop] at hw
    rcases Nat.eq_zero_or_pos k with rfl | hpos
    · exact .inl hw
    · exact .inr ⟨pi, si, rfl, si + k, by omega, by omega, hw⟩
  · rintro (hw | ⟨sp, ss, hst, k, hk, hks, hw⟩)
    · exact ⟨0, Nat.zero_le _, hw⟩
    · cases hst
      refine ⟨k - si, by omega, ?_⟩
      rwa [List.drop_drop, Nat.add_sub_cancel' (Nat.le_of_lt hk)]

/-- Going back: the star reads one letter more, or even more. -/
theorem open_back {pi si sp ss : Nat} (hno : s.drop si ∉ lang (items (p.drop pi))) (hss : ss ≤ si)
    (hlt : si < s.length) :
    Open p s (sp + 1) (ss + 1) (some (sp, ss + 1)) ↔ Open p s pi si (some (sp, ss)) := by
  constructor
  · rintro (hw | ⟨_, _, hst, k, hk, hks, hw⟩)
    · exact .inr ⟨sp, ss, rfl, ss + 1, by omega, by omega, hw⟩
    · cases hst
      exact .inr ⟨sp, ss, rfl, k, by omega, hks, hw⟩
  · rintro (hw | ⟨_, _, hst, k, hk, hks, hw⟩)
    · exact absurd hw hno
    · cases hst
      rcases Nat.eq_or_lt_of_le hk with rfl | hlater
      · exact .inl hw
      · exact .inr ⟨sp, ss + 1, rfl, k, hlater, hks, hw⟩

theorem measure_next (s : List Char) (star : Option (Nat × Nat)) {pi next : Nat} (h : pi < next)
    (hp : next ≤ p.length) : scanMeasure p s next star < scanMeasure p s pi star := by
  unfold scanMeasure
  omega

theorem measure_star {pi si : Nat} {star : Option (Nat × Nat)} (hstar : Remembered p pi si star)
    (hp : pi < p.length) (hs : si ≤ s.length) :
    scanMeasure p s (pi + 1) (some (pi, si)) < scanMeasure p s pi star := by
  have hle : s.length - si ≤ (star.map fun st => s.length - st.2).getD (s.length + 1) := by
    cases star with
    | none => show s.length - si ≤ s.length + 1; omega
    | some st =>
      have hss := (hstar st.1 st.2 rfl).1
      show s.length - si ≤ s.length - st.2
      omega
  have hmul := Nat.mul_le_mul_right (p.length + 2) hle
  unfold scanMeasure
  simp only [Option.map_some, Option.getD_some]
  omega

theorem measure_back (p : List Char) (pi sp : Nat) {ss : Nat} (hs : ss < s.length) :
    scanMeasure p s (sp + 1) (some (sp, ss + 1)) < scanMeasure p s pi (some (sp, ss)) := by
  have hone : s.length - ss = s.length - (ss + 1) + 1 := by omega
  unfold scanMeasure
  simp only [Option.map_some, Option.getD_some]
  rw [hone, Nat.succ_mul]
  omega

theorem scan_spec (fuel pi si : Nat) (star : Option (Nat × Nat)) (hpi : pi ≤ p.length)
    (hsi : si ≤ s.length) (hstar : Remembered p pi si star) (hfuel : scanMeasure p s pi star < fuel) :
    ∃ b, scan p s fuel pi si star = some b ∧ (b = true ↔ Open p s pi si star) := by
  induction fuel generalizing pi si star with
  | zero => exact absurd hfuel (Nat.not_lt_zero _)
  | succ fuel ih =>
    unfold scan
    cases hs : s[si]? with
    | none =>
      have hend : si = s.length := Nat.le_antisymm hsi (List.getElem?_eq_none_iff.1 hs)
      refine ⟨_, rfl, ?_⟩
      rw [all_star_iff]
      have hnil : s.drop si = [] := List.drop_eq_nil_iff.2 (Nat.le_of_eq hend.symm)
      constructor
      · intro h
        exact .inl (hnil ▸ h)
      · rintro (h | ⟨sp, ss, hst, k, hk, hks, hw⟩)
        · exact hnil ▸ h
        · obtain ⟨hss, -, hres⟩ := hstar sp ss hst
          refine absurd ?_ (Resumes.not_mem (w := s.drop ss) (k := k - ss)
            (by rwa [List.length_drop, ← hend]) (by omega) (by rw [List.length_drop]; omega))
          rwa [List.drop_drop, Nat.add_sub_cancel' (Nat.le_of_lt hk)]
    | some c =>
      have hlt : si < s.length := (List.getElem?_eq_some_iff.1 hs).1
      have hcons : s.drop si = c :: s.drop (si + 1) := by
        rw [List.drop_eq_getElem_cons hlt, (List.getElem?_eq_some_iff.1 hs).2]
      have hspec := turn_spec p pi c
      dsimp only
      cases hturn : turn p pi c with
      | star =>
        rw [hturn] at hspec
        obtain ⟨hitems, hpl⟩ := hspec
        have hm := Nat.lt_of_lt_of_le (measure_star hstar hpl hsi) (Nat.le_of_lt_succ hfuel)
        obtain ⟨b, hb, hiff⟩ := ih (pi + 1) si (some (pi, si)) hpl hsi (fun sp ss hst => by
          cases hst
          exact ⟨Nat.le_refl _, hpl, by rw [Nat.sub_self]; exact .refl _⟩) hm
        refine ⟨b, hb, hiff.trans (open_star hitems hsi).symm |>.trans ⟨.inl, ?_⟩⟩
        rintro (h | ⟨sp, ss, hst, k, hk, hks, hw⟩)
        · exact h
        · obtain ⟨hss, -, hres⟩ := hstar sp ss hst
          rw [hitems] at hres ⊢
          have h := superseded hres (w := s.drop ss) (k := k - ss) (by rw [List.length_drop]; omega)
            (by rwa [List.drop_drop, Nat.add_sub_cancel' (Nat.le_of_lt hk)])
          rwa [List.drop_drop, Nat.add_sub_cancel' hss] at h
      | next next =>
        rw [hturn] at hspec
        obtain ⟨T, hitems, hc, hnext, hnp⟩ := hspec
        have hm := Nat.lt_of_lt_of_le (measure_next s star hnext hnp) (Nat.le_of_lt_succ hfuel)
        obtain ⟨b, hb, hiff⟩ := ih next (si + 1) star hnp hlt (fun sp ss hst => by
          obtain ⟨hss, hsp, hres⟩ := hstar sp ss hst
          rw [hitems] at hres
          exact ⟨by omega, hsp, by rw [Nat.sub_add_comm hss]; exact hres.step⟩) hm
        refine ⟨b, hb, hiff.trans ?_⟩
        unfold Open
        rw [hitems, hcons, cons_mem_one, and_iff_right hc]
      | stuck =>
        rw [hturn] at hspec
        have hno : s.drop si ∉ lang (items (p.drop pi)) := hcons ▸ hspec _
        cases star with
        | none =>
          refine ⟨false, rfl, iff_of_false Bool.false_ne_true ?_⟩
          rintro (h | ⟨_, _, hst, -⟩)
          · exact hno h
          · cases hst
        | some st =>
          obtain ⟨sp, ss⟩ := st
          obtain ⟨hss, hsp, hres⟩ := hstar sp ss rfl
          have hm := Nat.lt_of_lt_of_le (measure_back p pi sp (Nat.lt_of_le_of_lt hss hlt))
            (Nat.le_of_lt_succ hfuel)
          obtain ⟨b, hb, hiff⟩ := ih (sp + 1) (ss + 1) (some (sp, ss + 1)) hsp (by omega)
            (fun sp' ss' hst => by
              cases hst
              exact ⟨Nat.le_refl _, hsp, by rw [Nat.sub_self]; exact .refl _⟩) hm
          exact ⟨b, hb, hiff.trans (open_back hno hss hlt)⟩

end Loop

theorem open_start (p s : List Char) : Open p s 0 0 none ↔ s ∈ lang (items p) := by
  refine ⟨?_, .inl⟩
  rintro (h | ⟨_, _, h, -⟩)
  · exact h
  · cases h

theorem fnmatch_eq (p s : List Char) : ∃ b, fnmatch p s = some b ∧ (b = true ↔ Open p s 0 0 none) := by
  have hm : scanMeasure p s 0 none < (s.length + 2) * (p.length + 2) := by
    unfold scanMeasure
    simp only [Option.map_none, Option.getD_none]
    rw [Nat.succ_mul (s.length + 1)]
    omega
  exact scan_spec _ 0 0 none (Nat.zero_le _) (Nat.zero_le _) (fun _ _ h => by cases h) hm

/-- The matcher comes to an end, and finds the words of the pattern and no others. -/
theorem fnmatch_iff (p s : List Char) :
    ∃ b, fnmatch p s = some b ∧ (b = true ↔ s ∈ lang (items p)) := by
  obtain ⟨b, hb, hiff⟩ := fnmatch_eq p s
  exact ⟨b, hb, hiff.trans (open_start p s)⟩

-- A trailing `-` is a member of its set, and a `]` in front too.
example : fnmatch "a*[a-][!]x]?".toList "a/b-zz".toList = some true := by decide

end Ps5Upload.AmprPack
