import Mathlib.Computability.Language
import Mathlib.Tactic.Common

/-!
# Wildcard patterns

A pattern is a list of items, each of which stands for one letter of a set or for any letters at all, and
its language is the product of theirs.  A matcher that goes on from the last star alone misses nothing,
since what it leaves behind could be read by that star as well.

* `lang` — the language of a pattern, with one lemma for each first item.
-/

namespace Ps5Upload.Wildcard

variable {α : Type}

inductive Item (α : Type) where
  /-- Any letters. -/
  | any
  /-- One letter of the set. -/
  | one (set : Set α)

def Item.lang : Item α → Language α
  | any => ⊤
  | one set => {w | ∃ a ∈ set, w = [a]}

/-- The words of a pattern. -/
def lang (items : List (Item α)) : Language α := (items.map Item.lang).prod

variable {items items' : List (Item α)} {set : Set α} {w : List α} {n k : Nat}

theorem mem_nil : w ∈ lang ([] : List (Item α)) ↔ w = [] := Language.mem_one w

theorem mem_one : w ∈ lang (.one set :: items) ↔ ∃ a w', w = a :: w' ∧ a ∈ set ∧ w' ∈ lang items := by
  rw [lang, List.map_cons, List.prod_cons, Language.mem_mul]
  constructor
  · rintro ⟨_, ⟨a, ha, rfl⟩, w', hw', rfl⟩
    exact ⟨a, w', rfl, ha, hw'⟩
  · rintro ⟨a, w', rfl, ha, hw'⟩
    exact ⟨[a], ⟨a, ha, rfl⟩, w', hw', rfl⟩

theorem cons_mem_one {a : α} : a :: w ∈ lang (.one set :: items) ↔ a ∈ set ∧ w ∈ lang items := by
  rw [mem_one]
  constructor
  · rintro ⟨_, _, h, ha, hw⟩
    cases h
    exact ⟨ha, hw⟩
  · rintro ⟨ha, hw⟩
    exact ⟨a, w, rfl, ha, hw⟩

theorem mem_any : w ∈ lang (.any :: items) ↔ ∃ k ≤ w.length, w.drop k ∈ lang items := by
  rw [lang, List.map_cons, List.prod_cons, Language.mem_mul]
  constructor
  · rintro ⟨u, -, v, hv, rfl⟩
    refine ⟨u.length, by rw [List.length_append]; omega, ?_⟩
    rwa [List.drop_left]
  · rintro ⟨k, -, hk⟩
    exact ⟨w.take k, trivial, w.drop k, hk, List.take_append_drop k w⟩

theorem mem_any_of_mem (h : w ∈ lang items) : w ∈ lang (.any :: items) :=
  mem_any.2 ⟨0, Nat.zero_le _, h⟩

/-- A star reads what is left out in front. -/
theorem mem_any_of_drop (h : w.drop k ∈ lang (.any :: items)) (hk : k ≤ w.length) :
    w ∈ lang (.any :: items) := by
  obtain ⟨j, hj, hw⟩ := mem_any.1 h
  rw [List.length_drop] at hj
  rw [List.drop_drop] at hw
  exact mem_any.2 ⟨k + j, by omega, hw⟩

/-- The empty word has stars only. -/
theorem nil_mem : [] ∈ lang items ↔ ∀ item ∈ items, item = .any := by
  induction items with
  | nil => exact iff_of_true rfl (nofun)
  | cons item items ih =>
    cases item with
    | any =>
      rw [List.forall_mem_cons, ← ih, mem_any]
      constructor
      · rintro ⟨k, -, hk⟩
        rw [List.drop_nil] at hk
        exact ⟨rfl, hk⟩
      · exact fun h => ⟨0, Nat.le_refl _, h.2⟩
    | one set =>
      refine iff_of_false (fun h => ?_) (fun h => ?_)
      · obtain ⟨a, w, hw, -⟩ := mem_one.1 h
        cases hw
      · cases h _ List.mem_cons_self

/-! ## Going on from the last star -/

/-- A word of `items` has `n` letters, and goes on behind them as a word of `items'`. -/
def Resumes (items : List (Item α)) (n : Nat) (items' : List (Item α)) : Prop :=
  ∀ w ∈ lang items, n ≤ w.length ∧ w.drop n ∈ lang items'

theorem Resumes.refl (items : List (Item α)) : Resumes items 0 items :=
  fun _ hw => ⟨Nat.zero_le _, hw⟩

theorem Resumes.step (h : Resumes items n (.one set :: items')) : Resumes items (n + 1) items' := by
  intro w hw
  obtain ⟨hn, hdrop⟩ := h w hw
  obtain ⟨a, w', hcons, -, hw'⟩ := mem_one.1 hdrop
  have hlen := congrArg List.length hcons
  rw [List.length_drop, List.length_cons] at hlen
  refine ⟨by omega, ?_⟩
  rw [← List.drop_drop, hcons]
  exact hw'

/-- A later start leaves fewer letters than there are. -/
theorem Resumes.not_mem (h : Resumes items w.length items') (hk : 0 < k) (hkw : k ≤ w.length) :
    w.drop k ∉ lang items := by
  intro hw
  have hle := (h _ hw).1
  rw [List.length_drop] at hle
  omega

/-- What is a word from a later start on is one that the star met now reads. -/
theorem superseded (h : Resumes items n (.any :: items')) (hk : k ≤ w.length)
    (hw : w.drop k ∈ lang items) : w.drop n ∈ lang (.any :: items') := by
  obtain ⟨hle, hdrop⟩ := h _ hw
  rw [List.length_drop] at hle
  rw [List.drop_drop, Nat.add_comm, ← List.drop_drop] at hdrop
  exact mem_any_of_drop hdrop (by rw [List.length_drop]; omega)

end Ps5Upload.Wildcard
