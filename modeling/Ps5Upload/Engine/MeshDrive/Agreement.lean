import Mathlib.Data.List.Basic
import Mathlib.Logic.Function.Basic
import Mathlib.Tactic.Common
import Ps5Upload.Engine.MeshDrive.Moves
import Ps5Upload.Lib.Runs

/-!
# Mesh Drive: what is recorded as agreed

An entry of the base says that the two sides held the same bytes when each of them had the size
and time of the entry.  A pass takes these from different moments: from its listings, from a
status before an upload, from statuses after a copy, and from two more listings at the end.
Between such a look and the moment the bytes went, a change goes unnoticed, and the entry then
pairs files that differ (`saved_disagrees`): neither side is seen as changed again.

Runs are carried out with their history (`track`): every size and time each path has had on each
side, or had there by the base of a pass.  A step is `Kept` when what it puts somewhere has a size and time that path did not have
there before, and leaves the bytes of a file that the pass has yet to look at again as they were:

* `Pc.exposed` — the files between the copy of their bytes and the pass's next look at them;
* `Pc.marks` — what the operations left, which the listings at the end may match within two
  seconds;
* `GuessRight` — a pass through a linked console, which takes a file of the size agreed on for the
  one agreed on, takes none of other bytes for it;
* `saved_agrees` — in every run under it, both sides hold the same bytes wherever they have what
  the saved base says.
-/

namespace Ps5Upload.MeshDrive

open ByteFile

/-! ## The history of a run -/

/-- Every size and time that a path has had on a side, or had there by a base. -/
abbrev Seen := List (Side × Path × Meta)

def versionsOf (side : Side) (f : Folder) : Seen := f.entries.map fun e => (side, e.1, e.2.stat)

def entryVersions (p : Path) (b : BaseEntry) : Seen := [(.member, p, b.m), (.hub, p, b.h)]

def versions (s : Sides) : Seen :=
  versionsOf .member s.member ++ versionsOf .hub s.hub ++
    s.base.entries.flatMap fun e => entryVersions e.1 e.2

variable {δ : Type}

/-- A step, with the history. -/
def track [DecidableEq δ] (c : Cfg δ) (t : World × Seen) (a : Act) : Option (World × Seen) :=
  (step c t.1 a).map fun w' => (w', t.2 ++ versions w'.sides)

/-- Sent in a batch, and not yet recorded. -/
def Run.sent (r : Run) (p : Path) : Bool := p ∈ r.batched ∧ Op.upload p ∈ r.ops

/-- What the operations on `p` left on one side. -/
def Run.marks (r : Run) (side : Side) (p : Path) : List (Option Meta) :=
  ((r.touched.get p).map fun t => side.pick t.1 t.2).toList

/-- The sides of the operation at hand that the pass has yet to look at again. -/
def At.exposed (r : Run) (o : Op) : At → Side → Bool
  | .start, .hub => o.isUpload ∧ o.path ∈ r.batched
  | .upSent _, .hub | .upAfter _, .hub | .batchAfter, .hub | .fetched _ _, .hub
  | .checked _ _, .hub | .cleared _, .hub | .placed, .hub => true
  | .upAfter _, .member | .batchAfter, .member => o.path ∉ r.edited
  | .placed, .member | .hashed _, .member => true
  | _, _ => false

/-- The files whose bytes the pass has copied or compared, and that it has yet to look at
again for the record. -/
def Pc.exposed : Pc → Side → Path → Bool
  | .next r, side, p => side = .hub ∧ r.sent p
  | .batch r chunk rest, side, p => side = .hub ∧ (r.sent p ∨ p ∈ chunk ∧ p ∉ rest)
  | .batchRead r chunk rest q _, side, p =>
    side = .hub ∧ (r.sent p ∨ p ∈ chunk ∧ p ∉ rest ∧ p ≠ q)
  | .op r o _ at_, side, p => side = .hub ∧ r.sent p ∨ p = o.path ∧ at_.exposed r o side
  | .touch r q, side, p => side = .hub ∧ r.sent p ∨ p = q
  | .touchHub r q _, side, p => side = .hub ∧ (r.sent p ∨ p = q)
  | _, _, _ => false

/-- What the listings at the end have yet to be matched with. -/
def Pc.marks : Pc → Side → Path → List (Option Meta)
  | .next r, side, p | .batch r _ _, side, p | .batchRead r _ _ _ _, side, p
  | .op r _ _ _, side, p | .touch r _, side, p | .closing r, side, p => r.marks side p
  | .touchHub r q m, side, p => (if side = .member ∧ p = q then [m] else []) ++ r.marks side p
  | .closingHub r _, side, p => if side = .hub then r.marks side p else []
  | _, _, _ => []

/-- A file that a step put at `p`: of a size and time that are new there, and where the pass has
yet to look at it again (or may take it for what an operation left), with the bytes that were
there. -/
def KeptAt (seen : Seen) (pc : Pc) (s : Sides) (side : Side) (p : Path) (f : File) : Prop :=
  (side, p, f.stat) ∉ seen ∧
    (pc.exposed side p → ∃ g ∈ (s.folder side).get p, g.bytes = f.bytes) ∧
    ∀ t ∈ pc.marks side p, close (some f.stat) t →
      ∃ g ∈ (s.folder side).get p, close (some g.stat) t ∧ g.bytes = f.bytes

/-- Every file that a step changed is as `KeptAt` says. -/
def Kept (seen : Seen) (pc : Pc) (s s' : Sides) : Prop :=
  (∀ e ∈ s'.member.entries,
      s.member.get e.1 = some e.2 ∨ KeptAt seen pc s .member e.1 e.2) ∧
    ∀ e ∈ s'.hub.entries, s.hub.get e.1 = some e.2 ∨ KeptAt seen pc s .hub e.1 e.2

/-- Both sides hold the same bytes wherever the member has what its folder agreed on with its own
console, and the linked console a file of the size agreed on. -/
def GuessRight (s : Sides) (e : Env) : Prop :=
  ∀ home ∈ e.seed, ∀ b ∈ (seedViaBase home (walk s.hub e.unread)).entries,
    ∀ f ∈ s.member.get b.1, ∀ g ∈ s.hub.get b.1, f.stat = b.2.m → g.stat = b.2.h →
      f.bytes = g.bytes

/-- The condition on what a pass starts from. -/
def StartsRight (s : Sides) : Act → Prop
  | .plan e => GuessRight s e
  | _ => True

/-- The condition on a step. -/
def NoLateChange [DecidableEq δ] (c : Cfg δ) (t : World × Seen) (a : Act) : Prop :=
  match step c t.1 a with
  | none => True
  | some w' => Kept t.2 t.1.pc t.1.sides w'.sides ∧ StartsRight t.1.sides a

instance (seen : Seen) (pc : Pc) (s : Sides) (side : Side) (p : Path) (f : File) :
    Decidable (KeptAt seen pc s side p f) :=
  inferInstanceAs (Decidable (_ ∧ _ ∧ _))

instance (seen : Seen) (pc : Pc) (s s' : Sides) : Decidable (Kept seen pc s s') :=
  inferInstanceAs (Decidable (_ ∧ _))

instance (s : Sides) (e : Env) : Decidable (GuessRight s e) :=
  inferInstanceAs (Decidable (∀ home ∈ e.seed, _))

instance (s : Sides) : ∀ a, Decidable (StartsRight s a)
  | .plan e => inferInstanceAs (Decidable (GuessRight s e))
  | .edit _ _ _ | .list _ | .go _ | .halt _ | .die => .isTrue trivial

instance [DecidableEq δ] (c : Cfg δ) (t : World × Seen) (a : Act) :
    Decidable (NoLateChange c t a) :=
  match h : step c t.1 a with
  | none => .isTrue (by simp [NoLateChange, h])
  | some w' => decidable_of_iff
      (Kept t.2 t.1.pc t.1.sides w'.sides ∧ StartsRight t.1.sides a) (by simp [NoLateChange, h])

theorem Kept.get {seen : Seen} {pc : Pc} {s s' : Sides} (h : Kept seen pc s s') {side : Side}
    {p : Path} {f : File} (hf : (s'.folder side).get p = some f) :
    (s.folder side).get p = some f ∨ KeptAt seen pc s side p f := by
  cases side with
  | member => exact h.1 (p, f) (BTreeMap.get_eq_some.1 hf)
  | hub => exact h.2 (p, f) (BTreeMap.get_eq_some.1 hf)

theorem mem_versions {s : Sides} {side : Side} {p : Path} {f : File}
    (h : (s.folder side).get p = some f) : (side, p, f.stat) ∈ versions s := by
  cases side with
  | member =>
    exact List.mem_append_left _ (List.mem_append_left _
      (List.mem_map.2 ⟨(p, f), BTreeMap.get_eq_some.1 h, rfl⟩))
  | hub =>
    exact List.mem_append_left _ (List.mem_append_right _
      (List.mem_map.2 ⟨(p, f), BTreeMap.get_eq_some.1 h, rfl⟩))

theorem entry_mem_versions {s : Sides} {p : Path} {b : BaseEntry} (h : s.base.get p = some b)
    {v : Side × Path × Meta} (hv : v ∈ entryVersions p b) : v ∈ versions s :=
  List.mem_append_right _ (List.mem_flatMap.2 ⟨(p, b), BTreeMap.get_eq_some.1 h, hv⟩)

/-! ## What can be known of the files of a path

Each of these survives a kept step: because the bytes may not change now, because a size and
time that was seen does not come back, or because it may not come close to what was left. -/

/-- The file there, if any, has these bytes. -/
def Holds (s : Sides) (side : Side) (p : Path) (bytes : Bytes) : Prop :=
  ∀ f, (s.folder side).get p = some f → f.bytes = bytes

/-- It does if it has this size and time. -/
def HoldsAs (s : Sides) (side : Side) (p : Path) (x : Option Meta) (bytes : Bytes) : Prop :=
  ∀ f, (s.folder side).get p = some f → some f.stat = x → f.bytes = bytes

/-- It does if it is close to what was left. -/
def Near (s : Sides) (side : Side) (p : Path) (x : Option Meta) (bytes : Bytes) : Prop :=
  ∀ f, (s.folder side).get p = some f → close (some f.stat) x → f.bytes = bytes

/-- The hub's file has the bytes of the member's, if that has this size and time. -/
def Sent (s : Sides) (p : Path) (x : Option Meta) : Prop :=
  ∀ f g, s.member.get p = some f → s.hub.get p = some g → some f.stat = x → f.bytes = g.bytes

/-- Both sides have the same bytes, if both have the file. -/
def Same (s : Sides) (p : Path) : Prop :=
  ∀ f g, s.member.get p = some f → s.hub.get p = some g → f.bytes = g.bytes

/-- Both sides have the same bytes, if both have what the entry says. -/
def Agree (s : Sides) (p : Path) (b : BaseEntry) : Prop :=
  ∀ f g, s.member.get p = some f → s.hub.get p = some g → f.stat = b.m → g.stat = b.h →
    f.bytes = g.bytes

def Known (seen : Seen) (side : Side) (p : Path) (x : Option Meta) : Prop :=
  ∀ m, x = some m → (side, p, m) ∈ seen

/-- An entry of a base that is right, about sizes and times that were seen. -/
structure EntryOk (seen : Seen) (s : Sides) (p : Path) (b : BaseEntry) : Prop where
  member : (.member, p, b.m) ∈ seen
  hub : (.hub, p, b.h) ∈ seen
  agree : Agree s p b

section Kept

variable {seen seen' : Seen} {pc : Pc} {s s' : Sides} {side : Side} {p : Path} {x : Option Meta}
  {bytes : Bytes}

theorem Kept.of_known (hk : Kept seen pc s s') (side : Side) {f : File}
    (hf : (s'.folder side).get p = some f) (hseen : (side, p, f.stat) ∈ seen) : (s.folder side).get p = some f := by
  rcases hk.get hf with h | h
  · exact h
  · exact absurd hseen h.1

theorem Kept.of_exposed (hk : Kept seen pc s s') (side : Side) {f : File}
    (hf : (s'.folder side).get p = some f) (hexp : pc.exposed side p) :
    ∃ g, (s.folder side).get p = some g ∧ g.bytes = f.bytes := by
  rcases hk.get hf with h | h
  · exact ⟨f, h, rfl⟩
  · exact h.2.1 hexp

theorem Holds.kept (h : Holds s side p bytes) (hk : Kept seen pc s s')
    (hexp : pc.exposed side p) : Holds s' side p bytes := by
  intro f hf
  obtain ⟨g, hg, hb⟩ := hk.of_exposed side hf hexp
  exact hb ▸ h g hg

theorem HoldsAs.kept (h : HoldsAs s side p x bytes) (hk : Kept seen pc s s')
    (hx : Known seen side p x) : HoldsAs s' side p x bytes :=
  fun f hf hfx => h f (hk.of_known side hf (hx f.stat hfx.symm)) hfx

theorem Near.kept (h : Near s side p x bytes) (hk : Kept seen pc s s')
    (hx : x ∈ pc.marks side p) : Near s' side p x bytes := by
  intro f hf hclose
  rcases hk.get hf with hf | hf
  · exact h f hf hclose
  · obtain ⟨g, hg, hgc, hb⟩ := hf.2.2 x hx hclose
    exact hb ▸ h g hg hgc

theorem Sent.kept (h : Sent s p x) (hk : Kept seen pc s s') (hx : Known seen .member p x)
    (hexp : pc.exposed .hub p) : Sent s' p x := by
  intro f g hf hg hfx
  obtain ⟨g', hg', hb⟩ := hk.of_exposed .hub hg hexp
  have hf' : s.member.get p = some f := hk.of_known .member hf (hx f.stat hfx.symm)
  exact hb ▸ h f g' hf' hg' hfx

theorem Same.kept (h : Same s p) (hk : Kept seen pc s s') (hm : pc.exposed .member p)
    (hh : pc.exposed .hub p) : Same s' p := by
  intro f g hf hg
  obtain ⟨f', hf', hfb⟩ := hk.of_exposed .member hf hm
  obtain ⟨g', hg', hgb⟩ := hk.of_exposed .hub hg hh
  exact hfb ▸ hgb ▸ h f' g' hf' hg'

theorem EntryOk.kept {b : BaseEntry} (h : EntryOk seen s p b) (hk : Kept seen pc s s')
    (hseen : ∀ v ∈ seen, v ∈ seen') : EntryOk seen' s' p b where
  member := hseen _ h.member
  hub := hseen _ h.hub
  agree := by
    intro f g hf hg hfm hgh
    refine h.agree f g (hk.of_known .member hf ?_) (hk.of_known .hub hg ?_)
      hfm hgh
    · rw [hfm]
      exact h.member
    · rw [hgh]
      exact h.hub

theorem holds_of_get (side : Side) {f : File} (hf : (s.folder side).get p = some f) :
    Holds s side p f.bytes := by
  intro g hg
  have hgf : g = f := Option.some.inj (hg.symm.trans hf)
  rw [hgf]

theorem Holds.as (h : Holds s side p bytes) (x : Option Meta) : HoldsAs s side p x bytes :=
  fun f hf _ => h f hf

theorem Same.sent (h : Same s p) (x : Option Meta) : Sent s p x := fun f g hf hg _ => h f g hf hg

theorem entryOk_of_sent {y : Option Meta} {b : BaseEntry} (h : Sent s p x)
    (hx : Known seen .member p x) (hy : Known seen .hub p y) (hm : x = some b.m)
    (hh : y = some b.h) : EntryOk seen s p b where
  member := hx b.m hm
  hub := hy b.h hh
  agree := fun f g hf hg hfm _ => h f g hf hg (by rw [hm, hfm])

theorem Known.mono (h : Known seen side p x) (hseen : ∀ v ∈ seen, v ∈ seen') :
    Known seen' side p x :=
  fun m hm => hseen _ (h m hm)

end Kept

/-! ## What holds of a pass -/

/-- What a listing shows was seen. -/
def ListingSeen (seen : Seen) (side : Side) (l : Listing) : Prop :=
  ∀ p, Known seen side p (l.get p)

/-- What is close to what the operations left is what they left, the same on both sides. -/
def TouchedFacts (s : Sides) (r : Run) : Prop :=
  ∀ p t, r.touched.get p = some t →
    ∃ bytes, Near s .member p t.1 bytes ∧ Near s .hub p t.2 bytes

structure RunFacts (seen : Seen) (s : Sides) (r : Run) : Prop where
  member : ListingSeen seen .member r.member
  hub : ListingSeen seen .hub r.hub
  sent : ∀ p, r.sent p → Sent s p (r.member.get p)
  touched : TouchedFacts s r

/-- What holds where an operation is. -/
def AtFacts (seen : Seen) (s : Sides) (r : Run) (o : Op) : At → Prop
  | .start => o.isUpload → o.path ∈ r.batched → Sent s o.path (r.member.get o.path)
  | .upBefore before | .upTrash before => Known seen .member o.path before
  | .upRead before bytes =>
    Known seen .member o.path before ∧ HoldsAs s .member o.path before bytes
  | .upSent before => Known seen .member o.path before ∧ Sent s o.path before
  | .upAfter before =>
    Known seen .member o.path before ∧ Sent s o.path before ∧ (o.path ∉ r.edited → Same s o.path)
  | .batchAfter => Sent s o.path (r.member.get o.path) ∧ (o.path ∉ r.edited → Same s o.path)
  | .fetched _ bytes | .checked _ bytes | .cleared bytes => Holds s .hub o.path bytes
  | .placed => Same s o.path
  | .hashed bytes => Holds s .member o.path bytes
  | _ => True

def PcFacts (seen : Seen) (s : Sides) : Pc → Prop
  | .listed member _ => ListingSeen seen .member member
  | .next r => RunFacts seen s r
  | .batch r chunk rest =>
    RunFacts seen s r ∧ ∀ p ∈ chunk, p ∉ rest → Sent s p (r.member.get p)
  | .batchRead r chunk rest q bytes =>
    RunFacts seen s r ∧ (∀ p ∈ chunk, p ∉ rest → p ≠ q → Sent s p (r.member.get p)) ∧
      HoldsAs s .member q (r.member.get q) bytes
  | .op r o _ at_ => RunFacts seen s r ∧ AtFacts seen s r o at_
  | .touch r p => RunFacts seen s r ∧ Same s p
  | .touchHub r p m =>
    RunFacts seen s r ∧ ∃ bytes, Near s .member p m bytes ∧ Holds s .hub p bytes
  | .closing r => TouchedFacts s r
  | .closingHub r sideNow =>
    ListingSeen seen .member sideNow ∧
      ∀ p t, r.touched.get p = some t → close (sideNow.get p) t.1 →
        ∃ bytes, HoldsAs s .member p (sideNow.get p) bytes ∧ Near s .hub p t.2 bytes
  | _ => True

structure Facts (seen : Seen) (w : World) : Prop where
  current : ∀ side p f, (w.sides.folder side).get p = some f → (side, p, f.stat) ∈ seen
  base : ∀ p b, w.sides.base.get p = some b → EntryOk seen w.sides p b
  saved : ∀ p b, w.sides.saved.get p = some b → EntryOk seen w.sides p b
  pc : PcFacts seen w.sides w.pc

section Facts

variable {seen seen' : Seen} {pc : Pc} {s s' : Sides}

variable {r : Run} {w w' : World} {s' : Sides}

theorem TouchedFacts.kept (h : TouchedFacts s r) (hk : Kept seen pc s s')
    (hmarks : ∀ side p, ∀ t ∈ r.marks side p, t ∈ pc.marks side p) : TouchedFacts s' r := by
  intro p t ht
  obtain ⟨bytes, hm, hh⟩ := h p t ht
  have hmark : ∀ side : Side, side.pick t.1 t.2 ∈ pc.marks side p := fun side =>
    hmarks side p _ (by rw [Run.marks, ht]; exact List.mem_singleton_self _)
  exact ⟨bytes, hm.kept hk (hmark .member), hh.kept hk (hmark .hub)⟩

theorem RunFacts.kept (h : RunFacts seen s r) (hk : Kept seen pc s s')
    (hseen : ∀ v ∈ seen, v ∈ seen') (hexp : ∀ p, r.sent p → pc.exposed .hub p)
    (hmarks : ∀ side p, ∀ t ∈ r.marks side p, t ∈ pc.marks side p) : RunFacts seen' s' r where
  member := fun p => (h.member p).mono hseen
  hub := fun p => (h.hub p).mono hseen
  sent := fun p hp => (h.sent p hp).kept hk (h.member p) (hexp p hp)
  touched := h.touched.kept hk hmarks

theorem AtFacts.kept {o : Op} {agreed : Option BaseEntry} {at_ : At}
    (h : AtFacts seen s r o at_) (hr : RunFacts seen s r)
    (hk : Kept seen (.op r o agreed at_) s s') (hseen : ∀ v ∈ seen, v ∈ seen') :
    AtFacts seen' s' r o at_ := by
  have hexp : ∀ side, at_.exposed r o side → (Pc.op r o agreed at_).exposed side o.path := by
    intro side hside
    simp [Pc.exposed, hside]
  cases at_ with
  | start =>
    intro hup hb
    exact (h hup hb).kept hk (hr.member _) (hexp .hub (by simp [At.exposed, hup, hb]))
  | upBefore before => exact Known.mono h hseen
  | upTrash before => exact Known.mono h hseen
  | upRead before bytes => exact ⟨h.1.mono hseen, h.2.kept hk h.1⟩
  | upSent before => exact ⟨h.1.mono hseen, h.2.kept hk h.1 (hexp .hub rfl)⟩
  | upAfter before =>
    refine ⟨h.1.mono hseen, h.2.1.kept hk h.1 (hexp .hub rfl), fun he => ?_⟩
    exact (h.2.2 he).kept hk (hexp .member (by simp [At.exposed, he])) (hexp .hub rfl)
  | batchAfter =>
    refine ⟨h.1.kept hk (hr.member _) (hexp .hub rfl), fun he => ?_⟩
    exact (h.2 he).kept hk (hexp .member (by simp [At.exposed, he])) (hexp .hub rfl)
  | fetch expect => trivial
  | fetched expect bytes => exact Holds.kept h hk (hexp .hub rfl)
  | checked expect bytes => exact Holds.kept h hk (hexp .hub rfl)
  | cleared bytes => exact Holds.kept h hk (hexp .hub rfl)
  | placed => exact Same.kept h hk (hexp .member rfl) (hexp .hub rfl)
  | hashed bytes => exact Holds.kept h hk (hexp .member rfl)
  | differ => trivial
  | copy name => trivial

/-- A kept change to the folders, wherever the pass is. -/
theorem PcFacts.kept (h : PcFacts seen s pc) (hk : Kept seen pc s s')
    (hseen : ∀ v ∈ seen, v ∈ seen') : PcFacts seen' s' pc := by
  cases pc with
  | idle => trivial
  | listed member unread => exact fun p => (h p).mono hseen
  | next r =>
    exact RunFacts.kept h hk hseen (fun p hp => by simp [Pc.exposed, hp]) fun _ _ _ ht => ht
  | batch r chunk rest =>
    obtain ⟨hr, hsent⟩ := h
    refine ⟨hr.kept hk hseen (fun p hp => by simp [Pc.exposed, hp]) fun _ _ _ ht => ht,
      fun p hp hrest => ?_⟩
    exact (hsent p hp hrest).kept hk (hr.member p) (by simp [Pc.exposed, hp, hrest])
  | batchRead r chunk rest q bytes =>
    obtain ⟨hr, hsent, hread⟩ := h
    refine ⟨hr.kept hk hseen (fun p hp => by simp [Pc.exposed, hp]) fun _ _ _ ht => ht,
      fun p hp hrest hq => ?_, hread.kept hk (hr.member q)⟩
    exact (hsent p hp hrest hq).kept hk (hr.member p) (by simp [Pc.exposed, hp, hrest, hq])
  | op r o agreed at_ =>
    obtain ⟨hr, hat⟩ := h
    exact ⟨hr.kept hk hseen (fun p hp => by simp [Pc.exposed, hp]) fun _ _ _ ht => ht,
      hat.kept hr hk hseen⟩
  | touch r p =>
    obtain ⟨hr, hsame⟩ := h
    exact ⟨hr.kept hk hseen (fun p hp => by simp [Pc.exposed, hp]) fun _ _ _ ht => ht,
      hsame.kept hk (by simp [Pc.exposed]) (by simp [Pc.exposed])⟩
  | touchHub r p m =>
    obtain ⟨hr, bytes, hm, hh⟩ := h
    refine ⟨hr.kept hk hseen (fun p hp => by simp [Pc.exposed, hp])
      fun _ _ _ ht => List.mem_append_right _ ht, bytes, hm.kept hk ?_, hh.kept hk ?_⟩
    · simp [Pc.marks]
    · simp [Pc.exposed]
  | closing r => exact TouchedFacts.kept h hk fun _ _ _ ht => ht
  | closingHub r sideNow =>
    refine ⟨fun p => (h.1 p).mono hseen, fun p t ht hclose => ?_⟩
    obtain ⟨bytes, hm, hh⟩ := h.2 p t ht hclose
    refine ⟨bytes, hm.kept hk (h.1 p), hh.kept hk ?_⟩
    simp [Pc.marks, Run.marks, ht, Side.pick]
  | _ => trivial

theorem Known.of_stat (h : Facts seen w) (side : Side) (p : Path) :
    Known seen side p (w.sides.stat side p) := by
  intro m hm
  obtain ⟨f, hf, rfl⟩ := Option.map_eq_some_iff.1 hm
  exact h.current side p f hf

theorem ListingSeen.walk (h : Facts seen w) (side : Side) (unread : List Path) :
    ListingSeen seen side (walk (w.sides.folder side) unread) :=
  fun p m hm => Known.of_stat h side p m (get_walk_eq_some hm)

theorem RunFacts.renamed (h : RunFacts seen s r) (p : Path) :
    RunFacts seen s { r with member := r.member.erase p } where
  member := by
    intro q m hm
    rw [BTreeMap.get_erase] at hm
    split at hm
    · simp at hm
    · exact h.member q m hm
  hub := h.hub
  sent := by
    intro q hq f g hf hg hfx
    dsimp only at hfx
    rw [BTreeMap.get_erase] at hfx
    split at hfx
    · simp at hfx
    · exact h.sent q hq f g hf hg hfx
  touched := h.touched

/-- The member's size and time, read where both sides have the same bytes. -/
theorem Same.left {p : Path} (h : Same s p) :
    ∃ bytes, Near s .member p (s.stat .member p) bytes ∧ Holds s .hub p bytes := by
  cases hf : s.member.get p with
  | none =>
    have hnear : ∀ bytes, Near s .member p (s.stat .member p) bytes := by
      intro bytes f hf'
      exact absurd (hf.symm.trans hf') (by simp)
    cases hg : s.hub.get p with
    | none => exact ⟨[], hnear [], fun g hg' => absurd (hg.symm.trans hg') (by simp)⟩
    | some g => exact ⟨g.bytes, hnear g.bytes, holds_of_get .hub hg⟩
  | some f =>
    exact ⟨f.bytes, fun f' hf' _ => holds_of_get .member hf f' hf', fun g hg =>
      (h f g hf hg).symm⟩

/-- An entry of the base after an agreement is recorded. -/
theorem record_entry {p q : Path} {m h : Option Meta} {b : BaseEntry}
    (hb : (s.record p m h).base.get q = some b) :
    s.base.get q = some b ∨ q = p ∧ m = some b.m ∧ h = some b.h := by
  unfold Sides.record at hb
  split at hb
  · rename_i m h
    by_cases hq : q = p
    · subst hq
      have hbq : (s.base.insert q ⟨m, h⟩).get q = some b := hb
      rw [BTreeMap.get_insert_self, Option.some.injEq] at hbq
      subst hbq
      exact .inr ⟨rfl, rfl, rfl⟩
    · have hbq : (s.base.insert p ⟨m, h⟩).get q = some b := hb
      rw [BTreeMap.get_insert_of_ne _ _ hq] at hbq
      exact .inl hbq
  · exact .inl hb

/-- An entry of the base after it is refreshed from two listings. -/
theorem refresh_entry {sideNow hubNow : Listing} {base : Base}
    {touched : BTreeMap Path (Option Meta × Option Meta)} {p : Path} {b : BaseEntry}
    (hb : (refresh sideNow hubNow base touched).get p = some b) :
    base.get p = some b ∨ ∃ t, touched.get p = some t ∧ close (sideNow.get p) t.1 ∧
      close (hubNow.get p) t.2 ∧ sideNow.get p = some b.m ∧ hubNow.get p = some b.h := by
  have hfold : ∀ (l : List (Path × (Option Meta × Option Meta))) (base : Base),
      (l.foldl (refreshOne sideNow hubNow) base).get p = some b →
      base.get p = some b ∨ ∃ t, (p, t) ∈ l ∧ close (sideNow.get p) t.1 ∧
        close (hubNow.get p) t.2 ∧ sideNow.get p = some b.m ∧ hubNow.get p = some b.h := by
    intro l
    induction l with
    | nil => exact fun base hb => .inl hb
    | cons e l ih =>
      intro base hb
      rcases ih _ hb with hb | ⟨t, ht, hrest⟩
      · unfold refreshOne at hb
        split at hb
        · rename_i hclose
          split at hb
          · rename_i m h hm hh
            by_cases hp : p = e.1
            · subst hp
              rw [BTreeMap.get_insert_self, Option.some.injEq] at hb
              subst hb
              exact .inr ⟨e.2, List.mem_cons_self, hclose.1, hclose.2, hm, hh⟩
            · rw [BTreeMap.get_insert_of_ne _ _ hp] at hb
              exact .inl hb
          · exact .inl hb
        · exact .inl hb
      · exact .inr ⟨t, List.mem_cons_of_mem e ht, hrest⟩
  rcases hfold touched.entries base hb with h | ⟨t, ht, hrest⟩
  · exact .inl h
  · exact .inr ⟨t, BTreeMap.get_eq_some.2 ht, hrest⟩

/-! ## The steps -/

/-- The facts after a step, from those about its new entries and its new place. -/
theorem Facts.next (h : Facts seen w) (hk : Kept seen w.pc w.sides w'.sides)
    (hbase : ∀ p b, w'.sides.base.get p = some b → w.sides.base.get p = some b ∨
      w.sides.saved.get p = some b ∨ EntryOk (seen ++ versions w'.sides) w'.sides p b)
    (hsaved : w'.sides.saved = w.sides.saved ∨ w'.sides.saved = w'.sides.base)
    (hpc : PcFacts (seen ++ versions w'.sides) w'.sides w'.pc) :
    Facts (seen ++ versions w'.sides) w' := by
  have hseen : ∀ v ∈ seen, v ∈ seen ++ versions w'.sides := fun v hv => List.mem_append_left _ hv
  have hbase' : ∀ p b, w'.sides.base.get p = some b →
      EntryOk (seen ++ versions w'.sides) w'.sides p b := by
    intro p b hb
    rcases hbase p b hb with hb | hb | hb
    · exact (h.base p b hb).kept hk hseen
    · exact (h.saved p b hb).kept hk hseen
    · exact hb
  refine ⟨fun side p f hf => List.mem_append_right _ (mem_versions hf), hbase', ?_, hpc⟩
  intro p b hb
  rcases hsaved with hs | hs
  · rw [hs] at hb
    exact (h.saved p b hb).kept hk hseen
  · rw [hs] at hb
    exact hbase' p b hb

/-- The facts after an operation. -/
theorem done_facts {x : Outcome} {p : Path}
    (hd : Done x s' r p w') (h : Facts seen w) (hk : Kept seen w.pc w.sides w'.sides)
    (hbase : ∀ q b, s'.base.get q = some b → w.sides.base.get q = some b ∨
      EntryOk (seen ++ versions w'.sides) w'.sides q b)
    (hsaved : s'.saved = w.sides.saved) (hr : RunFacts (seen ++ versions w'.sides) w'.sides r)
    (hsame : p ∉ r.edited → (s'.base.get p).isSome → Same w'.sides p) :
    Facts (seen ++ versions w'.sides) w' := by
  cases hd with
  | touch hedited hsome =>
    refine h.next hk (fun q b hb => ?_) (.inl hsaved) ⟨hr, hsame hedited hsome⟩
    rcases hbase q b hb with hb | hb
    · exact .inl hb
    · exact .inr (.inr hb)
  | next =>
    refine h.next hk (fun q b hb => ?_) ?_ hr
    · rw [Sides.checkpoint_base] at hb
      rcases hbase q b hb with hb | hb
      · exact .inl hb
      · exact .inr (.inr hb)
    · rw [Sides.checkpoint_base]
      rcases s'.checkpoint_saved r x with hs | hs
      · exact .inl (hs.trans hsaved)
      · exact .inr hs

theorem done_folders {x : Outcome} {p : Path}
    (hd : Done x s' r p w') : w'.sides.member = s'.member ∧ w'.sides.hub = s'.hub := by
  cases hd with
  | touch => exact ⟨rfl, rfl⟩
  | next => exact ⟨s'.checkpoint_member r x, s'.checkpoint_hub r x⟩

/-- The facts after an operation that recorded an agreement. -/
theorem recorded_facts {out : Outcome} {p : Path} {x y : Option Meta}
    (hd : Done out (w.sides.record p x y) r p w') (h : Facts seen w)
    (hk : Kept seen w.pc w.sides w'.sides) (hr : RunFacts (seen ++ versions w'.sides) w'.sides r)
    (hx : Known (seen ++ versions w'.sides) .member p x)
    (hy : Known (seen ++ versions w'.sides) .hub p y) (hsent : Sent w'.sides p x)
    (hsame : p ∉ r.edited → Same w'.sides p) : Facts (seen ++ versions w'.sides) w' := by
  refine done_facts hd h hk (fun q b hb => ?_) (by simp) hr fun he _ => hsame he
  rcases record_entry hb with hb | ⟨rfl, hm, hh⟩
  · exact .inl hb
  · exact .inr (entryOk_of_sent hsent hx hy hm hh)

/-- The facts after an operation that forgot the agreement. -/
theorem forgotten_facts {x : Outcome} {p : Path}
    (hd : Done x (s'.forget p) r p w') (h : Facts seen w)
    (hk : Kept seen w.pc w.sides w'.sides) (hbase : s'.base = w.sides.base)
    (hsaved : s'.saved = w.sides.saved) (hr : RunFacts (seen ++ versions w'.sides) w'.sides r) :
    Facts (seen ++ versions w'.sides) w' := by
  refine done_facts hd h hk (fun q b hb => .inl ?_) hsaved hr fun _ hsome => ?_
  · rw [Sides.forget_base, BTreeMap.get_erase] at hb
    split at hb
    · simp at hb
    · rw [← hbase]
      exact hb
  · rw [Sides.forget_base, BTreeMap.get_erase_self] at hsome
    simp at hsome

/-- The facts after an operation that failed. -/
theorem Facts.failed {x : Outcome}
    (hw : w' = ⟨s'.checkpoint x r, .next r⟩) (h : Facts seen w) (hk : Kept seen w.pc w.sides w'.sides) (hbase : s'.base = w.sides.base)
    (hsaved : s'.saved = w.sides.saved) (hr : RunFacts (seen ++ versions w'.sides) w'.sides r) :
    Facts (seen ++ versions w'.sides) w' := by
  subst hw
  refine h.next hk (fun q b hb => .inl ?_) ?_ hr
  · rw [Sides.checkpoint_base, hbase] at hb
    exact hb
  · rw [Sides.checkpoint_base]
    rcases s'.checkpoint_saved r x with hs | hs
    · exact .inl (hs.trans hsaved)
    · exact .inr hs

/-- The facts after a step that leaves both bases alone. -/
theorem Facts.go_on (h : Facts seen w) (hk : Kept seen w.pc w.sides w'.sides)
    (hbase : w'.sides.base = w.sides.base) (hsaved : w'.sides.saved = w.sides.saved)
    (hpc : PcFacts (seen ++ versions w'.sides) w'.sides w'.pc) :
    Facts (seen ++ versions w'.sides) w' :=
  h.next hk (fun _ _ hb => .inl (hbase ▸ hb)) (.inl hsaved) hpc

end Facts

/-- **What one step of a run under the condition keeps.** -/
theorem move_facts {c : Cfg δ} (hhash : Function.Injective c.hash) {seen : Seen} {w w' : World}
    {a : Act} (hm : Move c w a w') (h : Facts seen w)
    (hk : Kept seen w.pc w.sides w'.sides) (hstart : StartsRight w.sides a) :
    Facts (seen ++ versions w'.sides) w' := by
  have hseen : ∀ v ∈ seen, v ∈ seen ++ versions w'.sides := fun v hv => List.mem_append_left _ hv
  -- All that was known is known of the new folders; each case goes on from there.
  have hpc : PcFacts (seen ++ versions w'.sides) w'.sides w.pc := h.pc.kept hk hseen
  have hcur : ∀ side p, Known (seen ++ versions w'.sides) side p (w.sides.stat side p) :=
    fun side p => (Known.of_stat h side p).mono hseen
  cases hm with
  | edit s pc side p f =>
    refine h.go_on hk ?_ ?_ hpc
    · cases side <;> rfl
    · cases side <;> rfl
  | list s unread =>
    exact h.go_on hk rfl rfl fun p => (ListingSeen.walk h .member unread p).mono hseen
  | plan s member unread e =>
    refine h.next hk (fun p b hb => .inr ?_) (.inl rfl) ⟨hpc, ?_, ?_, ?_⟩
    · have hentry : ∀ v ∈ entryVersions p b, v ∈ seen ++ versions { s with
          base := e.base s.saved (walk s.hub e.unread) } :=
        fun v hv => List.mem_append_right _ (entry_mem_versions hb hv)
      cases hseed : e.seed with
      | none =>
        rw [Env.base, hseed] at hb
        exact .inl hb
      | some home =>
        refine .inr ⟨hentry _ (by simp [entryVersions]), hentry _ (by simp [entryVersions]), ?_⟩
        intro f g hf hg hfm hgh
        rw [Env.base, hseed] at hb
        exact hstart home hseed (p, b) (BTreeMap.get_eq_some.1 hb) f hf g hg hfm hgh
    · exact fun p => (ListingSeen.walk h .hub e.unread p).mono hseen
    · exact fun p hp => absurd hp (by simp [Run.sent, Cfg.begin])
    · exact fun p t ht => absurd ht (by simp [Cfg.begin])
  | halt s r hh =>
    refine h.go_on hk rfl rfl ⟨hpc.member, hpc.hub, fun p hp => ?_, hpc.touched⟩
    simp [Run.sent] at hp
  | die s pc => exact h.go_on hk rfl rfl trivial
  | loopEnd s r x pc hpc' =>
    refine h.go_on hk rfl rfl ?_
    rcases hpc' with rfl | rfl | rfl
    · trivial
    · exact hpc.touched
    · trivial
  | noBatch s r x => exact h.go_on hk rfl rfl ⟨hpc.member, hpc.hub, hpc.sent, hpc.touched⟩
  | startBatch s r x o rest chunk =>
    exact h.go_on hk rfl rfl ⟨hpc, fun p hp hrest => absurd hp hrest⟩
  | startOp s r x o rest hops =>
    refine h.go_on hk rfl rfl ⟨⟨hpc.member, hpc.hub, fun p hp => hpc.sent p ?_, hpc.touched⟩, ?_⟩
    · simp only [Run.sent, decide_eq_true_eq] at hp ⊢
      rw [hops]
      exact ⟨hp.1, List.mem_cons_of_mem o hp.2⟩
    · intro hup hb
      refine hpc.sent o.path ?_
      simp only [Run.sent, decide_eq_true_eq]
      rw [hops]
      cases o with
      | upload p => exact ⟨hb, List.mem_cons_self⟩
      | _ => simp [Op.isUpload] at hup
  | batchDone s r x chunk =>
    refine h.go_on hk rfl rfl ⟨hpc.1.member, hpc.1.hub, fun p hp => ?_, hpc.1.touched⟩
    simp only [Run.sent, decide_eq_true_eq, List.mem_append] at hp
    rcases hp.1 with hb | hb
    · exact hpc.1.sent p (by simp [Run.sent, hb, hp.2])
    · exact hpc.2 p hb List.not_mem_nil
  | batchFail s r x chunk rest =>
    exact h.go_on hk rfl rfl ⟨hpc.1.member, hpc.1.hub, hpc.1.sent, hpc.1.touched⟩
  | batchRead s r x chunk rest q f hf =>
    refine h.go_on hk rfl rfl ⟨hpc.1, fun p hp hrest hq => hpc.2 p hp ?_, (holds_of_get .member hf).as _⟩
    rw [List.mem_cons, not_or]
    exact ⟨hq, hrest⟩
  | batchSent s r x chunk rest q bytes _ hw hpc' =>
    obtain ⟨s', pc'⟩ := w'
    dsimp only at hw hpc'
    subst hw
    obtain ⟨hr, hsent, hread⟩ := hpc
    rcases hpc' with rfl | rfl
    · refine h.go_on hk (by simp) (by simp) ⟨hr, fun p hp hrest => ?_⟩
      by_cases hq : p = q
      · subst hq
        intro f g hf hg hfx
        rw [Sides.place_hub_hub, BTreeMap.get_insert_self, Option.some.injEq] at hg
        rw [← hg]
        exact hread f hf hfx
      · exact hsent p hp hrest hq
    · exact h.go_on hk (by simp) (by simp) ⟨hr.member, hr.hub, hr.sent, hr.touched⟩
  | batchLost s r x chunk rest q bytes =>
    exact h.go_on hk rfl rfl ⟨hpc.1.member, hpc.1.hub, hpc.1.sent, hpc.1.touched⟩
  | fails s r x o agreed at_ => exact Facts.failed rfl h hk rfl rfl hpc.1
  | uploadBatched s r x p agreed hb =>
    have hsent : Sent s p (r.member.get p) := hpc.2 rfl hb
    split
    · rename_i hne
      exact h.go_on hk rfl rfl ⟨⟨hpc.1.member, hpc.1.hub, hpc.1.sent, hpc.1.touched⟩, hsent,
        fun he => absurd (List.mem_cons_self) he⟩
    · rename_i heq
      rw [not_not] at heq
      refine h.go_on hk rfl rfl ⟨⟨hpc.1.member, hpc.1.hub, hpc.1.sent, hpc.1.touched⟩, hsent,
        fun _ f g hf hg => hsent f g hf hg ?_⟩
      exact (s.stat_eq .member hf).symm.trans heq
  | uploadStart s r x p agreed at_ hat =>
    refine h.go_on hk rfl rfl ⟨hpc.1, ?_⟩
    rcases hat with rfl | rfl
    · exact hcur .member p
    · exact hcur .member p
  | upTrash s r x o agreed before t _ hw =>
    cases hw with
    | on => exact h.go_on hk (by simp) (by simp) ⟨hpc.1, hpc.2⟩
    | failed => exact Facts.failed rfl h hk (by simp) (by simp) hpc.1
  | downloadStart s r x p agreed => exact h.go_on hk rfl rfl ⟨hpc.1, trivial⟩
  | choose s r x o agreed at_ name => exact h.go_on hk rfl rfl ⟨hpc.1, trivial⟩
  | compareStart s r x p agreed f hf =>
    exact h.go_on hk rfl rfl ⟨hpc.1, holds_of_get .member hf⟩
  | deleteMember s r x p agreed t _ hw =>
    rcases hw with hw | hw
    · exact forgotten_facts hw h hk (by simp) (by simp)
        ⟨hpc.1.member, hpc.1.hub, hpc.1.sent, hpc.1.touched⟩
    · exact Facts.failed hw h hk (by simp) (by simp) hpc.1
  | deleteHub s r x p agreed t _ hw =>
    rcases hw with hw | hw
    · exact forgotten_facts hw h hk (by simp) (by simp)
        ⟨hpc.1.member, hpc.1.hub, hpc.1.sent, hpc.1.touched⟩
    · exact Facts.failed hw h hk (by simp) (by simp) hpc.1
  | forget s r x p agreed _ hw => exact forgotten_facts hw h hk rfl rfl hpc.1
  | upRead s r x o agreed before f hf =>
    exact h.go_on hk rfl rfl ⟨hpc.1, hpc.2, (holds_of_get .member hf).as before⟩
  | upSend s r x o agreed before bytes _ hw =>
    obtain ⟨hr, hknown, hread⟩ := hpc
    cases hw with
    | on =>
      refine h.go_on hk rfl rfl ⟨⟨hr.member, hr.hub, hr.sent, hr.touched⟩, hknown, ?_⟩
      intro f g hf hg hfx
      have hg' : (s.hub.insert o.path ⟨bytes, x.mtime⟩).get o.path = some g := hg
      rw [BTreeMap.get_insert_self, Option.some.injEq] at hg'
      rw [← hg']
      exact hread f hf hfx
    | failed => exact Facts.failed rfl h hk rfl rfl hr
  | upAfter s r x o agreed before =>
    obtain ⟨hknown, hsent⟩ := hpc.2
    split
    · exact h.go_on hk rfl rfl ⟨⟨hpc.1.member, hpc.1.hub, hpc.1.sent, hpc.1.touched⟩, hknown,
        hsent, fun he => absurd (List.mem_cons_self) he⟩
    · rename_i heq
      rw [not_not] at heq
      refine h.go_on hk rfl rfl ⟨hpc.1, hknown, hsent, fun _ f g hf hg => hsent f g hf hg ?_⟩
      exact (s.stat_eq .member hf).symm.trans heq
  | upDone s r x o agreed before _ hw =>
    exact recorded_facts hw h hk hpc.1 hpc.2.1 (hcur .hub _) hpc.2.2.1 hpc.2.2.2
  | batchedDone s r x o agreed _ hw =>
    exact recorded_facts hw h hk hpc.1 (hpc.1.member _) (hcur .hub _) hpc.2.1 hpc.2.2
  | fetchRead s r x o agreed expect f hf =>
    exact h.go_on hk rfl rfl ⟨hpc.1, holds_of_get .hub hf⟩
  | fetchCheck s r x o agreed expect bytes => exact h.go_on hk rfl rfl ⟨hpc.1, hpc.2⟩
  | fetchClear s r x o agreed expect bytes _ hw =>
    cases hw with
    | on => exact h.go_on hk rfl rfl ⟨hpc.1, hpc.2⟩
    | failed => exact Facts.failed rfl h hk rfl rfl hpc.1
  | fetchPlace s r x o agreed at_ bytes _ hat hw =>
    have hhub : Holds w'.sides .hub o.path bytes := by
      rcases hat with ⟨expect, rfl⟩ | rfl
      · exact hpc.2
      · exact hpc.2
    cases hw with
    | on =>
      refine h.go_on hk rfl rfl ⟨hpc.1, fun f g hf hg => ?_⟩
      have hf' : (s.member.insert o.path ⟨bytes, x.mtime⟩).get o.path = some f := hf
      rw [BTreeMap.get_insert_self, Option.some.injEq] at hf'
      rw [← hf', hhub g hg]
    | failed => exact Facts.failed rfl h hk rfl rfl hpc.1
  | fetchDone s r x o agreed _ hw =>
    have hr : RunFacts (seen ++ versions w'.sides) w'.sides r.counted :=
      ⟨hpc.1.member, hpc.1.hub, hpc.1.sent, hpc.1.touched⟩
    exact recorded_facts hw h hk hr (hcur .member _) (hpc.1.hub _) (Same.sent hpc.2 _)
      fun _ => hpc.2
  | same s r x o agreed bytes f hf heq _ hw =>
    have hsame : Same w'.sides o.path := by
      intro f' g hf' hg
      rw [(done_folders hw).2, Sides.record_hub, hf, Option.some.injEq] at hg
      rw [hpc.2 f' hf', ← hg, hhash heq]
    exact recorded_facts hw h hk hpc.1 (hpc.1.member _) (hpc.1.hub _) (hsame.sent _) fun _ => hsame
  | differ s r x o agreed bytes => exact h.go_on hk rfl rfl ⟨hpc.1, trivial⟩
  | rename s r x o agreed name f hf _ hw =>
    cases hw with
    | on => exact h.go_on hk rfl rfl ⟨hpc.1.renamed o.path, trivial⟩
    | failed => exact Facts.failed rfl h hk rfl rfl hpc.1
  | touch s r x p => exact h.go_on hk rfl rfl ⟨hpc.1, Same.left hpc.2⟩
  | touchHub s r r' x p m hr =>
    subst hr
    obtain ⟨hr, bytes, hm, hh⟩ := hpc
    refine Facts.failed rfl h hk rfl rfl ⟨hr.member, hr.hub, hr.sent, fun q t ht => ?_⟩
    by_cases hq : q = p
    · subst hq
      rw [BTreeMap.get_insert_self, Option.some.injEq] at ht
      subst ht
      exact ⟨bytes, hm, fun f hf _ => hh f hf⟩
    · rw [BTreeMap.get_insert_of_ne _ _ hq] at ht
      exact hr.touched q t ht
  | closing s r x =>
    refine h.go_on hk rfl rfl ⟨fun p => (ListingSeen.walk h .member x.unread p).mono hseen, ?_⟩
    intro p t ht hclose
    obtain ⟨bytes, hm, hh⟩ := hpc p t ht
    refine ⟨bytes, fun f hf hfx => hm f hf ?_, hh⟩
    rw [hfx]
    exact hclose
  | noRefresh s pc r x hpc' => exact h.go_on hk rfl rfl trivial
  | refresh s r x sideNow =>
    refine h.next hk (fun p b hb => ?_) (.inl rfl) trivial
    rcases refresh_entry hb with hb | ⟨t, ht, hm, hh, hbm, hbh⟩
    · exact .inl hb
    · obtain ⟨bytes, hmem, hhub⟩ := hpc.2 p t ht hm
      refine .inr (.inr ⟨hpc.1 p _ hbm, hcur .hub p _ (get_walk_eq_some hbh), ?_⟩)
      intro f g hf hg hfm hgh
      rw [hmem f hf (by rw [hfm, hbm]), hhub g hg (by rw [hgh, ← hbh]; exact hh)]
  | pruned s pc r x todo hpc' => exact h.go_on hk rfl rfl trivial
  | pruneEnd s r x => exact h.go_on hk rfl rfl trivial
  | clearStart s r x todo dir names => exact h.go_on hk rfl rfl trivial
  | clear s s' r x todo dir n names hs =>
    rcases hs with rfl | rfl
    · exact h.go_on hk rfl rfl trivial
    · exact h.go_on hk rfl rfl trivial
  | moveStart s r x todo side dir dest => exact h.go_on hk rfl rfl trivial
  | move s s' r x todo side dir dest again pc hs hpc' =>
    have hrest : PcFacts (seen ++ versions s') s' pc := by
      rcases hpc' with rfl | ⟨dest', rfl⟩
      · trivial
      · trivial
    rcases hs with rfl | ⟨rfl, -⟩
    · exact h.go_on hk rfl rfl hrest
    · exact h.go_on hk (s.moveToTrash_base side dir _ dest) (s.moveToTrash_saved side dir _ dest)
        hrest
  | save s r x =>
    refine h.next hk (fun p b hb => .inl ?_) ?_ trivial
    · rw [Sides.finish_base] at hb
      exact hb
    · rw [Sides.finish_base]
      exact s.finish_saved r x

/-! ## Whole runs -/

open Runs

variable [DecidableEq δ]

theorem track_facts {c : Cfg δ} (hhash : Function.Injective c.hash) {t t' : World × Seen} {a : Act}
    (h : Facts t.2 t.1) (hok : NoLateChange c t a) (hs : track c t a = some t') :
    Facts t'.2 t'.1 := by
  obtain ⟨w', hw, rfl⟩ := Option.map_eq_some_iff.1 hs
  rw [NoLateChange, hw] at hok
  exact move_facts hhash (step_move hw) h hok.1 hok.2

/-- **What is saved as agreed is the same on both sides.**  From folders whose saved base is
right, in every state of every run under the condition (any number of passes, any of their
operations failing, users changing files in between): where both sides have what an entry of
the saved base says, they hold the same bytes. -/
theorem saved_agrees (c : Cfg δ) (hhash : Function.Injective c.hash) (s : Sides) (seen : Seen)
    (hseen : ∀ side p f, (s.folder side).get p = some f → (side, p, f.stat) ∈ seen)
    (hsaved : ∀ p b, s.saved.get p = some b → EntryOk seen s p b) (as : List Act)
    (hm : Meets (track c) (NoLateChange c) (⟨{ s with base := s.saved }, .idle⟩, seen) as) :
    ∀ t ∈ States (track c) (⟨{ s with base := s.saved }, .idle⟩, seen) as,
      ∀ p b, t.1.sides.saved.get p = some b → Agree t.1.sides p b := by
  have hinit : Facts seen ⟨{ s with base := s.saved }, .idle⟩ := by
    have hentry : ∀ p b, s.saved.get p = some b →
        EntryOk seen { s with base := s.saved } p b := fun p b hb =>
      ⟨(hsaved p b hb).member, (hsaved p b hb).hub, (hsaved p b hb).agree⟩
    exact ⟨fun side p f hf => hseen side p f (by cases side <;> exact hf), hentry, hentry, trivial⟩
  intro t ht p b hb
  have hfacts : Facts t.2 t.1 :=
    exec_forall_inv_of_meets (P := fun t : World × Seen => Facts t.2 t.1)
      (fun _ _ _ h hok hs => track_facts hhash h hok hs) hinit hm t ht
  exact (hfacts.saved p b hb).agree

/-- A folder on this device. -/
def phone : Cfg Bytes := ⟨"Pixel", false, id, false, id, false⟩

/-- A new file on the member. -/
def memberNew : Sides := ⟨BTreeMap.empty.insert "a" ⟨[1], 10⟩, ∅, ∅, ∅, ∅, ∅⟩

/-- The file is saved again while it goes up; the next pass sends it again. -/
def editedWhileSent : List Act :=
  [.list [], .plan { now := 1000 }, .go {}, .go {}, .go {},
    .edit .member "a" (some ⟨[1, 2], 1002⟩), .go { mtime := 1003 }, .go {}, .go {}, .go {}, .go {},
    .go {}, .list [], .plan { now := 2000 }, .go {}, .go {}, .go {}, .go { mtime := 2001 }, .go {},
    .go {}, .go {}, .go {}, .go {}, .go {}, .go {}, .go {}, .go {}]

/-- The last state of the run. -/
def editedWhileSentEnd : World × Seen :=
  (exec (track phone) (⟨memberNew, .idle⟩, versions memberNew) editedWhileSent).getD
    (⟨memberNew, .idle⟩, [])

theorem saved_agrees_editedWhileSent :
    editedWhileSentEnd.1.pc = .idle ∧
      editedWhileSentEnd.1.sides.saved.get "a" = some ⟨⟨2, 1002⟩, ⟨2, 2001⟩⟩ ∧
      editedWhileSentEnd.1.sides.stat .member "a" = some ⟨2, 1002⟩ ∧
      editedWhileSentEnd.1.sides.stat .hub "a" = some ⟨2, 2001⟩ ∧
      Agree editedWhileSentEnd.1.sides "a" ⟨⟨2, 1002⟩, ⟨2, 2001⟩⟩ :=
  ⟨by decide +kernel, by decide +kernel, by decide +kernel, by decide +kernel,
    saved_agrees phone Function.injective_id memberNew (versions memberNew)
      (fun _ _ _ hf => mem_versions hf) (fun _ _ hb => absurd hb (by simp [memberNew]))
      editedWhileSent (by decide +kernel) editedWhileSentEnd (by decide +kernel) "a" _
      (by decide +kernel)⟩

/-- Every change a user makes gives the file a size and time it did not have there before. -/
def EditIsNew (t : World × Seen) : Act → Prop
  | .edit side p (some f) => (side, p, f.stat) ∉ t.2
  | _ => True

instance (t : World × Seen) : ∀ a, Decidable (EditIsNew t a)
  | .edit _ _ (some _) => inferInstanceAs (Decidable (_ ∉ _))
  | .edit _ _ none | .list _ | .plan _ | .go _ | .halt _ | .die => .isTrue trivial

/-- A new file on the hub. -/
def hubNew : Sides := ⟨∅, BTreeMap.empty.insert "a" ⟨[2], 20⟩, ∅, ∅, ∅, ∅⟩

/-- The file is fetched, and saved again on the member before its status is read. -/
def editedBeforeStat : List Act :=
  [.list [], .plan { now := 1000 }, .go {}, .go {}, .go {}, .go {}, .go { mtime := 1001 },
    .edit .member "a" (some ⟨[7, 7], 1002⟩), .go {}, .go {}, .go {}, .go {}, .go {}, .go {}, .go {},
    .go {}]

/-- Without the condition a change that was never transferred is recorded as agreed. -/
theorem saved_disagrees :
    ¬ ∀ as, Meets (track phone) EditIsNew (⟨hubNew, .idle⟩, versions hubNew) as →
      ∀ t ∈ States (track phone) (⟨hubNew, .idle⟩, versions hubNew) as, t.1.pc = .idle →
        ∀ p b, t.1.sides.saved.get p = some b → Agree t.1.sides p b := by
  intro h
  have hagree := h editedBeforeStat (by decide +kernel)
    ((exec (track phone) (⟨hubNew, .idle⟩, versions hubNew) editedBeforeStat).getD
      (⟨hubNew, .idle⟩, [])) (by decide +kernel) (by decide +kernel) "a" ⟨⟨2, 1002⟩, ⟨1, 20⟩⟩
    (by decide +kernel)
  have hbytes := hagree ⟨[7, 7], 1002⟩ ⟨[2], 20⟩ (by decide +kernel) (by decide +kernel) rfl rfl
  exact absurd hbytes (by decide)

end Ps5Upload.MeshDrive
