import Mathlib.Data.List.Basic
import Mathlib.Order.Basic
import Mathlib.Tactic.Common
import Ps5Upload.Engine.MeshDrive.ConflictNames
import Ps5Upload.Engine.MeshDrive.Pass

/-!
# Mesh Drive: what the end of a pass takes away

A pass ends with the folders that its deletes emptied and with the trash of days long gone.

* `get_emptyTrash_today` — the trash of today is not one of a day long gone.
-/

namespace Ps5Upload.MeshDrive

open ByteFile

/-! ## Names -/

/-- A path's last name. -/
def fileName (p : Path) : List Char := (splitDir p.toList).2

theorem fileName_ofList {dir file : List Char} (hdir : IsDir dir) (hfile : '/' ∉ file) :
    fileName (String.ofList (dir ++ file)) = file := by
  rw [fileName, String.toList_ofList, splitDir_append hdir hfile]

theorem fileName_inDir (dir : Path) {n : List Char} (hn : '/' ∉ n) : fileName (inDir dir n) = n := by
  have hcut : dir.toList ++ '/' :: n = (dir.toList ++ ['/']) ++ n := by simp
  rw [inDir, hcut, fileName_ofList (.inr ⟨_, rfl⟩) hn]

variable {w : Nat} {v secs : Int} {p q : Path}

/-- The first day of a year that starts in March. -/
def startOf (y : Int) : Int := 365 * y + y / 4 - y / 100 + y / 400

theorem startOf_mono {y y' : Int} (h : y ≤ y') : startOf y ≤ startOf y' := by
  have hcent : y / 4 - y / 100 ≤ y' / 4 - y' / 100 := by omega
  simp only [startOf]
  omega

theorem startOf_succ (y : Int) : startOf (y + 1) ≤ startOf y + 366 := by
  have hcent : y / 400 = y / 100 / 4 ∧ (y + 1) / 400 = (y + 1) / 100 / 4 := by omega
  simp only [startOf]
  omega

/-- The year of a day of an era. -/
theorem yoe_bounds {doe yoe : Int} (h0 : 0 ≤ doe) (h1 : doe < 146097)
    (hy : yoe = (doe - doe / 1460 + doe / 36524 - doe / 146096) / 365) :
    (0 ≤ yoe ∧ yoe < 400) ∧ startOf yoe ≤ doe ∧ doe < startOf (yoe + 1) := by
  have hyoe : 0 ≤ yoe ∧ yoe < 400 := by omega
  refine ⟨hyoe, ?_, ?_⟩
  · by_contra hlt
    rw [startOf, not_le] at hlt
    have hk : doe / 36524 ≤ yoe / 100 := by omega
    rcases Int.lt_or_le (doe / 1460) (yoe / 4) with hq | hq
    · omega
    · omega
  · by_contra hle
    rw [startOf, not_lt] at hle
    have hlast : yoe + 1 < 400 := by omega
    have hc : 25 * ((yoe + 1) / 100) ≤ (yoe + 1) / 4 := by omega
    have hk : (yoe + 1) / 100 ≤ doe / 36524 := by omega
    rcases Int.lt_or_le ((yoe + 1) / 4) (doe / 1460) with hq | hq
    · omega
    · omega

/-- What a printed date says of its day: the year from March on, the month of that year, and the
day of the month. -/
theorem civil_spec (secs : Int) : ∃ y mp, 0 ≤ mp ∧ mp ≤ 11 ∧
    secs / 86400 + 719468 = startOf y + (153 * mp + 2) / 5 + ((civil secs).2.2 - 1) ∧
    secs / 86400 + 719468 < startOf (y + 1) ∧ 1 ≤ (civil secs).2.2 ∧
    (153 * mp + 2) / 5 + ((civil secs).2.2 - 1) < (153 * (mp + 1) + 2) / 5 ∧
    12 * y + mp = 12 * (civil secs).1 + (civil secs).2.1 - 3 ∧
    1 ≤ (civil secs).2.1 ∧ (civil secs).2.1 ≤ 12 := by
  set z := secs / 86400 + 719468 with hz
  set era := z / 146097 with hera
  set doe := z - era * 146097 with hdoe
  set yoe := (doe - doe / 1460 + doe / 36524 - doe / 146096) / 365 with hyoe
  set doy := doe - (365 * yoe + yoe / 4 - yoe / 100) with hdoy
  set mp := (5 * doy + 2) / 153 with hmp
  have hdoe0 : 0 ≤ doe ∧ doe < 146097 := by omega
  obtain ⟨hy, hstart, hend⟩ := yoe_bounds hdoe0.1 hdoe0.2 hyoe
  have hcivil : civil secs = (if (if mp < 10 then mp + 3 else mp - 9) ≤ 2 then yoe + era * 400 + 1
      else yoe + era * 400, if mp < 10 then mp + 3 else mp - 9, doy - (153 * mp + 2) / 5 + 1) := rfl
  rw [hcivil]
  clear_value z era mp doy yoe doe
  clear hcivil hyoe
  -- Eras are all alike, so the year within one says it all.
  have hera400 : startOf (yoe + 400 * era) = startOf yoe + 146097 * era ∧
      startOf (yoe + 400 * era + 1) = startOf (yoe + 1) + 146097 * era := by
    simp only [startOf]
    omega
  have hdoy' : doy = doe - startOf yoe := by
    simp only [startOf]
    omega
  have hday : 0 ≤ doy ∧ doy ≤ 365 := by
    have := startOf_succ yoe
    omega
  clear hdoy
  generalize startOf yoe = first at *
  generalize startOf (yoe + 1) = next at *
  refine ⟨yoe + 400 * era, mp, by omega, by omega, ?_, ?_, ?_, ?_, ?_, ?_, ?_⟩
  · rw [hera400.1]
    dsimp only
    omega
  · rw [hera400.2]
    omega
  · dsimp only
    omega
  · dsimp only
    omega
  · dsimp only
    omega
  · dsimp only
    omega
  · dsimp only
    omega

theorem days_before (secs : Int) : (secs - trashDays * 86400) / 86400 = secs / 86400 - 30 := by
  simp only [trashDays]
  omega

/-- A date is later than the one thirty days before. -/
theorem civil_lt (secs : Int) : (civil (secs - trashDays * 86400)).1 < (civil secs).1 ∨
    (civil (secs - trashDays * 86400)).1 = (civil secs).1 ∧
      ((civil (secs - trashDays * 86400)).2.1 < (civil secs).2.1 ∨
        (civil (secs - trashDays * 86400)).2.1 = (civil secs).2.1 ∧
          (civil (secs - trashDays * 86400)).2.2 < (civil secs).2.2) := by
  obtain ⟨y, mp, h0, h11, hz, hend, hd, hdm, hm, hm1, hm12⟩ := civil_spec secs
  obtain ⟨y', mp', h0', h11', hz', -, hd', -, hm', hm1', hm12'⟩ :=
    civil_spec (secs - trashDays * 86400)
  rw [days_before] at hz'
  have hy : y' ≤ y := by
    by_contra hlt
    have hyears := startOf_mono (show y + 1 ≤ y' by omega)
    omega
  rcases hy.lt_or_eq with hy | rfl
  · omega
  · have hmp : mp' ≤ mp := by
      by_contra hlt
      omega
    rcases hmp.lt_or_eq with hmp | rfl
    · omega
    · omega

theorem digit_bounds {c : Char} (h : c.isDigit) : 48 ≤ c.toNat ∧ c.toNat ≤ 57 := by
  simp only [Char.isDigit, Bool.and_eq_true, decide_eq_true_eq] at h
  exact ⟨h.1, h.2⟩

theorem ofDigitChars_bounds {l : List Char} (hl : ∀ c ∈ l, c.isDigit) (i : Nat) :
    i * 10 ^ l.length ≤ Nat.ofDigitChars 10 l i ∧
      Nat.ofDigitChars 10 l i < (i + 1) * 10 ^ l.length := by
  induction l generalizing i with
  | nil => simp
  | cons c l ih =>
    have hc := digit_bounds (hl c List.mem_cons_self)
    obtain ⟨hlow, hhigh⟩ := ih (fun d hd => hl d (List.mem_cons_of_mem c hd))
      (10 * i + (c.toNat - '0'.toNat))
    rw [Nat.ofDigitChars_cons, List.length_cons, Nat.pow_succ']
    have h0 : '0'.toNat = 48 := rfl
    constructor
    · refine le_trans ?_ hlow
      rw [← Nat.mul_assoc]
      exact Nat.mul_le_mul_right _ (by omega)
    · refine lt_of_lt_of_le hhigh ?_
      rw [← Nat.mul_assoc]
      exact Nat.mul_le_mul_right _ (by omega)

/-- Among numbers of one width the one that comes first is the smaller. -/
theorem ofDigitChars_lt {l l' : List Char} (hlen : l.length = l'.length) (hl : ∀ c ∈ l, c.isDigit)
    (hl' : ∀ c ∈ l', c.isDigit) (h : l < l') (i : Nat) :
    Nat.ofDigitChars 10 l i < Nat.ofDigitChars 10 l' i := by
  induction l generalizing l' i with
  | nil =>
    rw [List.length_nil, eq_comm, List.length_eq_zero_iff] at hlen
    subst hlen
    exact absurd h (List.lt_irrefl [])
  | cons c l ih =>
    cases l' with
    | nil => simp at hlen
    | cons c' l' =>
      have hlen' : l.length = l'.length := by simpa using hlen
      have hrest : ∀ d ∈ l, d.isDigit := fun d hd => hl d (List.mem_cons_of_mem c hd)
      have hrest' : ∀ d ∈ l', d.isDigit := fun d hd => hl' d (List.mem_cons_of_mem c' hd)
      rw [Nat.ofDigitChars_cons, Nat.ofDigitChars_cons]
      rcases List.cons_lt_cons_iff.1 h with hlt | ⟨rfl, hlt⟩
      · have hc := digit_bounds (hl c List.mem_cons_self)
        have h0 : '0'.toNat = 48 := rfl
        have hcc : c.toNat < c'.toNat := hlt
        refine lt_of_lt_of_le (ofDigitChars_bounds hrest _).2
          (le_trans ?_ (ofDigitChars_bounds hrest' _).1)
        rw [hlen']
        exact Nat.mul_le_mul_right _ (by omega)
      · exact ih hlen' hrest hrest' hlt _

theorem ofDigitChars_padded {v : Nat} : Nat.ofDigitChars 10 (padded w v) 0 = v := by
  have hp : padded w v
      = List.replicate (w - (Nat.toDigits 10 v).length) '0' ++ Nat.toDigits 10 v := by
    rw [padded, if_neg (by omega)]
    simp
  rw [hp, Nat.ofDigitChars_append, Nat.ofDigitChars_replicate_zero, Nat.mul_zero,
    Nat.ofDigitChars_ten_toDigits]

theorem padded_lt {u : Int} (hw : 0 < w) (hu : 0 ≤ u ∧ u < 10 ^ w)
    (hv : 0 ≤ v ∧ v < 10 ^ w) (h : padded w u < padded w v) : u < v := by
  obtain ⟨hlen, hdigits⟩ := padded_digits hw hu.1 hu.2
  obtain ⟨hlen', hdigits'⟩ := padded_digits hw hv.1 hv.2
  obtain ⟨m, rfl⟩ := Int.eq_ofNat_of_zero_le hu.1
  obtain ⟨n, rfl⟩ := Int.eq_ofNat_of_zero_le hv.1
  have hlt := ofDigitChars_lt (hlen.trans hlen'.symm) hdigits hdigits' h 0
  rw [ofDigitChars_padded, ofDigitChars_padded] at hlt
  exact_mod_cast hlt

theorem padded_inj {u : Int} (hu : 0 ≤ u) (hv : 0 ≤ v) (h : padded w u = padded w v) : u = v := by
  obtain ⟨m, rfl⟩ := Int.eq_ofNat_of_zero_le hu
  obtain ⟨n, rfl⟩ := Int.eq_ofNat_of_zero_le hv
  have hval := congrArg (Nat.ofDigitChars 10 · 0) h
  simp only [ofDigitChars_padded] at hval
  rw [hval]

theorem lt_of_append_lt {a a' b b' : List Char} (hlen : a.length = a'.length)
    (h : a ++ b < a' ++ b') : a < a' ∨ a = a' ∧ b < b' := by
  induction a generalizing a' with
  | nil =>
    rw [List.length_nil, eq_comm, List.length_eq_zero_iff] at hlen
    subst hlen
    exact .inr ⟨rfl, h⟩
  | cons c a ih =>
    cases a' with
    | nil => simp at hlen
    | cons c' a' =>
      rcases List.cons_lt_cons_iff.1 h with hlt | ⟨rfl, hlt⟩
      · exact .inl (List.cons_lt_cons_iff.2 (.inl hlt))
      · rcases ih (by simpa using hlen) hlt with ha | ⟨ha, hb⟩
        · exact .inl (List.cons_lt_cons_iff.2 (.inr ⟨rfl, ha⟩))
        · exact .inr ⟨by rw [ha], hb⟩

theorem toList_date (secs : Int) : (dateParts secs).1.toList =
    padded 4 (civil secs).1 ++ ['-'] ++ padded 2 (civil secs).2.1 ++ ['-'] ++
      padded 2 (civil secs).2.2 := by
  simp only [dateParts, civil, String.toList_ofList]

/-- The year of a day after the first day of `y`. -/
theorem year_of_le {y : Int} (h : startOf y ≤ secs / 86400 + 719468) : y ≤ (civil secs).1 := by
  obtain ⟨y', mp, h0, h11, -, hend, -, -, hm, hm1, hm12⟩ := civil_spec secs
  by_contra hlt
  have hyears := startOf_mono (show y' + 1 ≤ y by omega)
  omega

theorem year_of_length (h0 : 0 ≤ (civil secs).1)
    (h : (dateParts secs).1.length = 10) : (civil secs).1 < 10 ^ 4 := by
  by_contra hge
  obtain ⟨hmonth, hday⟩ := civil_bounds secs
  obtain ⟨n, hn⟩ := Int.eq_ofNat_of_zero_le h0
  have hlong : 4 < (padded 4 (civil secs).1).length := by
    have hdigits : 4 < (Nat.toDigits 10 n).length := by
      rw [← not_le, Nat.length_toDigits_le_iff (by decide) (by decide)]
      omega
    rw [hn, padded, List.length_append]
    exact hdigits.trans_le (Nat.le_add_left _ _)
  rw [← String.length_toList, toList_date, List.length_append, List.length_append, List.length_append,
    List.length_append, (padded_digits (by decide) hmonth.1 hmonth.2).1,
    (padded_digits (by decide) hday.1 hday.2).1] at h
  simp only [List.length_cons, List.length_nil] at h
  omega

/-- **Today is not before the day from which the trash is kept.** -/
theorem today_kept {secs : Nat} (h : (dateParts secs).1.length = 10) :
    ¬ (dateParts secs).1 < (dateParts (secs - trashDays * 86400)).1 := by
  intro hlt
  have hstart : startOf 1 = 365 := rfl
  have hy : 0 ≤ (civil secs).1 ∧ (civil secs).1 < 10 ^ 4 := by
    have h0 : 0 ≤ (civil secs).1 := by
      have := @year_of_le secs 1 (by omega)
      omega
    exact ⟨h0, year_of_length h0 h⟩
  have hearlier := civil_lt secs
  have hy' : 0 ≤ (civil (secs - trashDays * 86400)).1 ∧
      (civil (secs - trashDays * 86400)).1 < 10 ^ 4 := by
    have := @year_of_le (secs - trashDays * 86400) 1 (by rw [days_before]; omega)
    omega
  obtain ⟨hm, hd⟩ := civil_bounds secs
  obtain ⟨hm', hd'⟩ := civil_bounds (secs - trashDays * 86400)
  have hlen : ∀ {w : Nat} {u v : Int}, 0 < w → 0 ≤ u ∧ u < 10 ^ w → 0 ≤ v ∧ v < 10 ^ w →
      (padded w u).length = (padded w v).length := fun hw hu hv =>
    (padded_digits hw hu.1 hu.2).1.trans (padded_digits hw hv.1 hv.2).1.symm
  have hlist := String.lt_iff.1 hlt
  rw [toList_date, toList_date] at hlist
  simp only [List.append_assoc] at hlist
  -- The years, then the months, then the days: none is smaller than thirty days before.
  rcases lt_of_append_lt (hlen (by decide) hy hy') hlist with hlist | ⟨heq, hlist⟩
  · have := padded_lt (by decide) hy hy' hlist
    omega
  have hyear := padded_inj hy.1 hy'.1 heq
  rcases lt_of_append_lt rfl hlist with hdash | ⟨-, hlist⟩
  · exact absurd hdash (List.lt_irrefl _)
  rcases lt_of_append_lt (hlen (by decide) hm hm') hlist with hlist | ⟨heq, hlist⟩
  · have := padded_lt (by decide) hm hm' hlist
    omega
  have hmonth := padded_inj hm.1 hm'.1 heq
  rcases lt_of_append_lt rfl hlist with hdash | ⟨-, hlist⟩
  · exact absurd hdash (List.lt_irrefl _)
  · have := padded_lt (by decide) hd hd' hlist
    omega

theorem get_emptyTrash_today {trash : BTreeMap String Folder} {secs : Nat} :
    (emptyTrash trash (dateParts (secs - trashDays * 86400)).1).get (dateParts secs).1
      = trash.get (dateParts secs).1 := by
  rw [emptyTrash, BTreeMap.get_filter, if_pos]
  by_cases h : (dateParts secs).1.length = 10
  · simpa [h] using today_kept h
  · simp [h]

/-! ## Folders that are moved to the trash -/

theorem atOrUnder_iff {dir : Path} :
    atOrUnder p dir = true ↔ p = dir ∨ ∃ rest, p.toList = dir.toList ++ '/' :: rest := by
  rw [atOrUnder, Bool.or_eq_true, decide_eq_true_eq]
  refine or_congr Iff.rfl ?_
  constructor
  · intro h
    split at h
    · rename_i rest hrest
      exact ⟨rest, (List.isPrefixOf?_eq_some_iff_append_eq.1 hrest).symm⟩
    · simp at h
  · rintro ⟨rest, hrest⟩
    rw [List.isPrefixOf?_eq_some_iff_append_eq.2 hrest.symm]
    rfl

/-- A path at or under a folder, and the same one once the folder has another name. -/
theorem rebase_spec {dir : Path} (dest : Path) (h : atOrUnder p dir) :
    ∃ rest, p.toList = dir.toList ++ rest ∧
    (rebase dir dest p).toList = dest.toList ++ rest ∧ atOrUnder (rebase dir dest p) dest := by
  obtain ⟨rest, hp, hrest⟩ : ∃ rest, p.toList = dir.toList ++ rest ∧
      (rest = [] ∨ ∃ r, rest = '/' :: r) := by
    rcases atOrUnder_iff.1 h with rfl | ⟨r, hr⟩
    · exact ⟨[], (List.append_nil _).symm, .inl rfl⟩
    · exact ⟨_, hr, .inr ⟨r, rfl⟩⟩
  have hnew : (rebase dir dest p).toList = dest.toList ++ rest := by
    rw [rebase, String.toList_ofList, hp, List.drop_left]
  refine ⟨rest, hp, hnew, atOrUnder_iff.2 ?_⟩
  rcases hrest with rfl | ⟨r, rfl⟩
  · rw [List.append_nil] at hnew
    exact .inl (String.toList_inj.1 hnew)
  · exact .inr ⟨r, hnew⟩

theorem rebase_inj {dir dest : Path} (hp : atOrUnder p dir) (hq : atOrUnder q dir)
    (h : rebase dir dest p = rebase dir dest q) : p = q := by
  obtain ⟨r, hpr, hpn, -⟩ := rebase_spec dest hp
  obtain ⟨t, hqt, hqn, -⟩ := rebase_spec dest hq
  rw [h, hqn] at hpn
  apply String.toList_inj.1
  rw [hpr, hqt, List.append_cancel_left hpn]

variable {s : Sides} {side : Side} {dir dest : Path} {day : String} {f : File}

theorem not_inUse_get {t : Folder} {others : List Path} (h : inUse t others dest = false)
    (hq : (t.get q).isSome) : atOrUnder q dest = false := by
  rw [inUse, decide_eq_false_iff_not, not_or] at h
  by_contra hunder
  exact h.1 (List.any_eq_true.2 ⟨q, BTreeMap.mem_keys.2 hq, by simpa using hunder⟩)

@[simp] theorem dayTrash_moveToTrash : (s.moveToTrash side dir day dest).dayTrash side day
    = (s.dayTrash side day).insertAll (rebase dir dest)
      ((s.folder side).filter (atOrUnder · dir)).entries := by
  cases side <;> simp [Sides.dayTrash, Sides.moveToTrash, Sides.trash, Sides.setTrash, Sides.setFolder]

/-- **A file of a folder that is moved to the trash is there.** -/
theorem get_moveToTrash (hf : (s.folder side).get p = some f) (hp : atOrUnder p dir) :
    ((s.moveToTrash side dir day dest).dayTrash side day).get (rebase dir dest p) = some f := by
  rw [dayTrash_moveToTrash]
  have hentries : ∀ e ∈ ((s.folder side).filter (atOrUnder · dir)).entries, atOrUnder e.1 dir :=
    fun e he => (List.mem_filter.1 he).2
  refine BTreeMap.get_insertAll_of_mem ?_ (List.mem_filter.2 ⟨BTreeMap.get_eq_some.1 hf, hp⟩)
  have hkeys := ((s.folder side).filter (atOrUnder · dir)).keys_nodup
  refine (List.nodup_map_iff_inj_on ((List.Nodup.of_map _ hkeys))).2 fun e he e' he' heq => ?_
  exact List.inj_on_of_nodup_map hkeys he he'
    (rebase_inj (hentries e he) (hentries e' he') heq)

/-- What was in the trash of the day stays. -/
theorem get_moveToTrash_old {others : List Path}
    (hfree : inUse (s.dayTrash side day) others dest = false)
    (hq : (s.dayTrash side day).get q = some f) :
    ((s.moveToTrash side dir day dest).dayTrash side day).get q = some f := by
  rw [dayTrash_moveToTrash, BTreeMap.get_insertAll_of_ne, hq]
  rintro e he rfl
  obtain ⟨-, -, -, hunder⟩ := rebase_spec dest (List.mem_filter.1 he).2
  rw [not_inUse_get hfree (Option.isSome_of_eq_some hq)] at hunder
  simp at hunder

/-- What is not in the folder stays where it is. -/
theorem get_moveToTrash_folder {side' : Side} (hf : (s.folder side').get p = some f)
    (hp : side' = side → atOrUnder p dir = false) :
    ((s.moveToTrash side dir day dest).folder side').get p = some f := by
  by_cases hside : side' = side
  · subst hside
    have hget : ((s.folder side').filter fun p => ¬ atOrUnder p dir).get p = some f := by
      rw [BTreeMap.get_filter, hp rfl]
      exact hf
    cases side' <;> exact hget
  · cases side <;> cases side' <;> first | exact absurd rfl hside | exact hf

theorem dayTrash_moveToTrash_other {side' : Side} (h : side' ≠ side) :
    (s.moveToTrash side dir day dest).dayTrash side' day = s.dayTrash side' day := by
  cases side <;> cases side' <;> first | exact absurd rfl h | rfl

end Ps5Upload.MeshDrive
