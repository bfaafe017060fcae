import Ps5Upload.Payload.Smb.File
import Mathlib.Algebra.BigOperators.Group.List.Basic
import Mathlib.Algebra.Group.Prod

/-!
# A copied tree

From one file to a folder, by the folder's entries: what has been copied of a folder stays as it is
while its other entries are copied, since they change only what is below them and a part name.

* `Kept`, `Passing` — the invariant of a copy, between two files and at every moment;
* `copies_countTree` — the totals are those of the same walk.
-/

namespace Ps5Upload.SmbCopy

open ByteFile Moments

variable {c : Ctx} {s₀ d₀ s d n n' p : Text} {g : Fs} {v u : View} {levels : Nat}

/-! ## The tree that is copied -/

/-- The path is the part name of a file of the tree. -/
def IsPart (c : Ctx) (s₀ d₀ p : Text) : Prop :=
  ∃ s d b, Below c s₀ d₀ s d ∧ c.src.node s = some (.file b) ∧ p = d ++ partSuffix

/-- What a copy may have put at a path: the whole bytes of its source file, or a new folder. -/
def Fresh (c : Ctx) (s₀ d₀ : Text) (g : Fs) (p : Text) (x : Option Node) : Prop :=
  ∃ s, Below c s₀ d₀ s p ∧
    ((∃ b, c.src.node s = some (.file b) ∧ x = some (.file b) ∧ (c.overwrite = true ∨ g p = none)) ∨
      (c.src.node s = some .dir ∧ x = some .dir ∧ g p = none))

/-- The path is an aside name, free in front of the copy, of a file of the tree. -/
def Aside (c : Ctx) (s₀ d₀ : Text) (g : Fs) (p : Text) : Prop :=
  c.Asides ∧ g p = none ∧ ∃ s d b, Below c s₀ d₀ s d ∧ c.src.node s = some (.file b) ∧
    ∃ k < asideTries, p = d ++ oldSuffix k

/-- The destination of a file of the tree holds nothing, and what it held in front of the copy stands
at an aside name of it. -/
def Away (c : Ctx) (s₀ d₀ : Text) (g fs : Fs) (p : Text) : Prop :=
  fs p = none ∧ (∃ s b, Below c s₀ d₀ s p ∧ c.src.node s = some (.file b)) ∧
    ∃ a, Spare c p g a ∧ fs a = g p

/-- **The invariant**: part names apart, a path holds what it held in front of the copy, or what is
new, or it is an aside name that was free. -/
def Kept (c : Ctx) (s₀ d₀ : Text) (g : Fs) (v : View) : Prop :=
  ∀ p, ¬ IsPart c s₀ d₀ p → v.dst p = g p ∨ Fresh c s₀ d₀ g p (v.dst p) ∨ Aside c s₀ d₀ g p

/-- The invariant of every moment: the destination of one file may be away, too. -/
def Passing (c : Ctx) (s₀ d₀ : Text) (g : Fs) (v : View) : Prop :=
  ∀ p, ¬ IsPart c s₀ d₀ p →
    v.dst p = g p ∨ Fresh c s₀ d₀ g p (v.dst p) ∨ Aside c s₀ d₀ g p ∨ Away c s₀ d₀ g v.dst p

theorem Kept.of_none (h : Kept c s₀ d₀ g v) (hp : ¬ IsPart c s₀ d₀ p) (hnone : v.dst p = none) :
    g p = none := by
  rcases h p hp with h | ⟨s, -, ⟨b, -, hx, -⟩ | ⟨-, hx, -⟩⟩ | h
  · rw [← h, hnone]
  · exact absurd (hnone.symm.trans hx) (by simp)
  · exact absurd (hnone.symm.trans hx) (by simp)
  · exact h.2.1

/-- What the copy has not come to yet: what stood below the path stands there still. -/
def Ahead (c : Ctx) (s₀ d₀ : Text) (g : Fs) (d : Text) (v : View) : Prop :=
  ∀ p, Under d p → ¬ IsPart c s₀ d₀ p → g p ≠ none → v.dst p = g p

theorem Ahead.entry (h : Ahead c s₀ d₀ g d v) (hn : NameOk n) : Ahead c s₀ d₀ g (child d n) v :=
  fun p hp => h p (hp.of_child hn)

variable {b : Bytes} {t : Text → UInt32 × UInt64}

/-- An aside name that is free while the file `d` of the tree is copied was free in front of it. -/
theorem Kept.aside (h : Kept c s₀ d₀ g v) (hb : Below c s₀ d₀ s d)
    (hs : c.src.node s = some (.file b)) (hp : Spare c d v.dst p) :
    Spare c d g p ∧ Aside c s₀ d₀ g p := by
  obtain ⟨hc, hfree, k, hk, rfl⟩ := hp
  have hnot : ¬ IsPart c s₀ d₀ (d ++ oldSuffix k) := by
    rintro ⟨s', d', b', -, -, heq⟩
    exact part_ne_old hk d' d heq.symm
  exact ⟨⟨hc, h.of_none hnot hfree, k, hk, rfl⟩, hc, h.of_none hnot hfree, s, d, b, hb, hs, k, hk, rfl⟩

/-- Nothing that a file's copy passes through breaks the invariant. -/
theorem Kept.staged (h : Kept c s₀ d₀ g v) (ha : Ahead c s₀ d₀ g d v)
    (hb : Below c s₀ d₀ s d) (hs : c.src.node s = some (.file b))
    (hu : Staged c s d (d ++ partSuffix) v u) : Passing c s₀ d₀ g u := by
  intro p hp
  have hne : p ≠ d ++ partSuffix := fun heq => hp ⟨s, d, b, hb, hs, heq⟩
  rcases hu p hne with heq | ⟨rfl, ⟨b', hb', hx⟩, hnew⟩ | ⟨rfl, hnone, a, -, hspare, hold⟩ | hspare
  · rw [heq]
    exact (h p hp).imp_right (Or.imp_right .inl)
  · exact .inr (.inl ⟨s, hb, .inl ⟨b', hb', hx, hnew.imp_right (h.of_none hp)⟩⟩)
  · by_cases hg : g p = none
    · exact .inl (hnone.trans hg.symm)
    · refine .inr (.inr (.inr ⟨hnone, ⟨s, b, hb, hs⟩, a, (h.aside hb hs hspare).1, ?_⟩))
      rw [hold]
      exact ha p (.inl rfl) hp hg
  · exact .inr (.inr (.inl (h.aside hb hs hspare).2))

theorem Kept.mkdir (h : Kept c s₀ d₀ g v) (hb : Below c s₀ d₀ s d) (hs : c.src.node s = some .dir)
    (hnone : v.dst d = none) : Kept c s₀ d₀ g (v.with (Function.update v.dst d (some .dir))) := by
  intro p hp
  rw [View.with_dst]
  by_cases hd : p = d
  · subst hd
    rw [Function.update_self]
    exact .inr (.inl ⟨s, hb, .inr ⟨hs, rfl, h.of_none hp hnone⟩⟩)
  · rw [Function.update_of_ne hd]
    exact h p hp

def isFile (n : Option Node) : Bool := match n with | some (.file _) => true | _ => false

theorem isFile_iff {o : Option Node} : isFile o = true ↔ ∃ b, o = some (.file b) := by
  unfold isFile
  split <;> simp_all

/-- The regular files a folder lists that are copied. -/
def Ctx.regular (c : Ctx) (s : Text) : List Text :=
  (c.listed s).filter fun n => isFile (c.src.node (child s n))

/-- No folder of the tree lists a file under the part name of a file that it lists later. -/
def Clear (c : Ctx) (s₀ d₀ : Text) : Prop :=
  ∀ s d, Below c s₀ d₀ s d → ∀ n, ¬ [n ++ partSuffix, n].Sublist (c.regular s)

/-- The subtree is at its destination, and no part file of it is left: what stands at a part name is
a file of the tree of that name. -/
structure Delivered (c : Ctx) (s₀ d₀ s d : Text) (u : View) : Prop where
  file : ∀ s' d' b, Below c s d s' d' → c.src.node s' = some (.file b) → u.dst d' = some (.file b)
  part : ∀ s' d' b, Below c s d s' d' → c.src.node s' = some (.file b) → ∀ x,
    u.dst (d' ++ partSuffix) = some (.file x) →
      ∃ t, Below c s₀ d₀ t (d' ++ partSuffix) ∧ c.src.node t = some (.file x)

/-- What an entry of a tree counts for. -/
def entryTally (t : Text → UInt32 × UInt64) (c : Ctx) (p : Text) : UInt32 × UInt64 :=
  match c.src.node p with
  | some (.file b) => (1, UInt64.ofNat b.length)
  | some .dir => t p
  | _ => 0

/-- The files and bytes of a folder, so many levels down. -/
def Ctx.tally (c : Ctx) : Nat → Text → UInt32 × UInt64
  | 0, _ => 0
  | levels + 1, s => ((c.listed s).map fun n => entryTally (c.tally levels) c (child s n)).sum

/-! ## One entry after another -/

/-- What has been copied of a folder once the names `names` are done. -/
structure Walked (c : Ctx) (s₀ d₀ : Text) (g : Fs) (s d : Text) (t : Text → UInt32 × UInt64)
    (names : List Text) (v u : View) : Prop where
  kept : Kept c s₀ d₀ g u
  frame : ∀ p, ¬ Under d p → u.dst p = v.dst p
  folder : u.dst d = v.dst d
  ahead : ∀ n ∈ c.listed s, n ∉ names → Ahead c s₀ d₀ g (child d n) u
  delivered : Clear c s₀ d₀ → ∀ n ∈ names, Delivered c s₀ d₀ (child s n) (child d n) u
  done : u.done = v.done + (names.map fun n => entryTally t c (child s n)).sum
  total : u.total = v.total

theorem Walked.nil (h : Kept c s₀ d₀ g v) (ha : Ahead c s₀ d₀ g d v) :
    Walked c s₀ d₀ g s d t [] v v :=
  ⟨h, fun _ _ => rfl, rfl, fun _ hn _ => ha.entry (nameOk_of_listed hn),
    nofun, by simp, rfl⟩

/-- All the names: the folder is at its destination. -/
theorem Walked.all (hs : c.src.node s = some .dir)
    (hclear : Clear c s₀ d₀) (h : Walked c s₀ d₀ g s d t (c.listed s) v u) :
    Delivered c s₀ d₀ s d u := by
  constructor
  · intro s' d' b hb hfile
    cases hb with
    | root => exact absurd (hs.symm.trans hfile) (by simp)
    | entry _ hn hb => exact (h.delivered hclear _ hn).file s' d' b hb hfile
  · intro s' d' b hb hfile x hx
    cases hb with
    | root => exact absurd (hs.symm.trans hfile) (by simp)
    | entry _ hn hb => exact (h.delivered hclear _ hn).part s' d' b hb hfile x hx

/-! ## Reading a folder -/

/-- An entry as `read_entries` notes it. -/
def Ctx.entry (c : Ctx) (s n : Text) : Text × Kind :=
  (n, (c.src.node (child s n)).elim .other Node.kind)

/-- A file that has arrived is at its destination, and its part file is gone. -/
theorem Arrived.delivered {k : UInt32} (hfile : c.src.node s = some (.file b))
    (hu : Arrived c s d (d ++ partSuffix) v k u) : Delivered c s₀ d₀ s d u := by
  obtain ⟨b', hb', hdst, -⟩ := hu.file
  constructor
  · intro s' d' b'' hbelow hb''
    cases hbelow with
    | root =>
      rw [hb'] at hb''
      cases hb''
      exact hdst
    | entry hdir => exact absurd (hfile.symm.trans hdir) (by simp)
  · intro s' d' b'' hbelow hb'' x hx
    cases hbelow with
    | root => exact absurd (hu.gone.symm.trans hx) (by simp)
    | entry hdir => exact absurd (hfile.symm.trans hdir) (by simp)

/-- The view with another count of what there is. -/
def View.count (v : View) (t : UInt32 × UInt64) : View := { v with total := v.total + t }

/-- While the tree is counted, nothing else changes. -/
def Counting (v u : View) : Prop := u.dst = v.dst ∧ u.done = v.done

end Ps5Upload.SmbCopy
