import Ps5Upload.Payload.Smb.Paths

/-!
# One file of a copy

What the calls of a copy do to the part of the world that matters, the destination and the counts,
and from it what `copyFile` does: whatever fails and wherever it stops, only the part name and the
destination have changed, and the destination holds what it held or the whole file.  Where a share
replaces a file, an aside name that was free may hold the old file meanwhile, and the destination nothing.
-/

namespace Ps5Upload.SmbCopy

open ByteFile Moments

/-! ## The part of the world that matters -/

/-- The destination, and the files and bytes copied and counted. -/
structure View where
  dst : Fs
  done : UInt32 × UInt64
  total : UInt32 × UInt64

def World.view (w : World) : View :=
  ⟨w.dst, (w.pr.filesDone, w.pr.bytesDone), (w.pr.filesTotal, w.pr.bytesTotal)⟩

abbrev Quiet {α : Type} (p : Prog α) (φ : α → Prop) : Prop := Moments.Quiet World.view p φ

/-! ## Calls -/

section Calls

variable {c : Ctx} {J P : View → Prop} {v : View} {e : XErr} {α : Type}

/-- The view with another destination. -/
def View.with (v : View) (fs : Fs) : View := { v with dst := fs }

@[simp] theorem View.with_dst (v : View) (fs : Fs) : (v.with fs).dst = fs := rfl

end Calls

/-! ## The part file -/

section File

variable {c : Ctx} {sp dp part : Text} {b data : Bytes} {v u : View} {n off k : Nat}

/-- A file that is there is moved aside before it is replaced. -/
def Ctx.Asides (c : Ctx) : Prop := c.overwrite = true ∧ c.dstSide.share = true

/-- An aside name of the destination that is free. -/
def Spare (c : Ctx) (dp : Text) (fs : Fs) (p : Text) : Prop :=
  c.Asides ∧ fs p = none ∧ ∃ k < asideTries, p = dp ++ oldSuffix k

/-- While a file is copied, everything but its part name is as it was at the start, or the
destination is the whole file already, or what it held stands at a name that was free. -/
def Staged (c : Ctx) (sp dp part : Text) (v u : View) : Prop :=
  ∀ p, p ≠ part → u.dst p = v.dst p ∨
    (p = dp ∧ (∃ b, c.src.node sp = some (.file b) ∧ u.dst p = some (.file b)) ∧
      (c.overwrite = true ∨ v.dst dp = none)) ∨
    (p = dp ∧ u.dst p = none ∧ ∃ a, a ≠ part ∧ Spare c dp v.dst a ∧ u.dst a = v.dst dp) ∨
    Spare c dp v.dst p

theorem Staged.refl (c : Ctx) (sp dp part : Text) (v : View) : Staged c sp dp part v v :=
  fun _ _ => .inl rfl

/-- What happens to the part file alone does not matter. -/
theorem Staged.update_part (h : Staged c sp dp part v u) (x : Option Node) :
    Staged c sp dp part v (u.with (Function.update u.dst part x)) := by
  intro p hp
  rw [View.with_dst, Function.update_of_ne hp]
  refine (h p hp).imp_right (Or.imp_right (Or.imp_left ?_))
  rintro ⟨rfl, hnone, a, ha, hspare, hold⟩
  exact ⟨rfl, hnone, a, ha, hspare, by rw [Function.update_of_ne ha, hold]⟩

/-- The part file holds the first bytes of the source, `off` of them at least, and `n` are counted. -/
def Filled (v : View) (part : Text) (b : Bytes) (n off : Nat) (u : View) : Prop :=
  ∃ k, off ≤ k ∧ u = ⟨Function.update v.dst part (some (.file (b.take k))),
    (v.done.1, v.done.2 + UInt64.ofNat n), v.total⟩

theorem Filled.staged (h : Filled v part b n off u) : Staged c sp dp part v u := by
  obtain ⟨k, -, rfl⟩ := h
  exact fun p hp => .inl (Function.update_of_ne hp _ _)

/-- What a file that is given up leaves behind. -/
def Failed (J : View → Prop) (r : Except XErr Unit) (u : View) : Prop :=
  (∃ e, r = .error e) ∧ J u

/-- The file is at its destination, `count` more of them than at the start. -/
structure Arrived (c : Ctx) (sp dp part : Text) (v : View) (count : UInt32) (u : View) : Prop where
  file : ∃ b, c.src.node sp = some (.file b) ∧ u.dst dp = some (.file b) ∧
    u.done = (v.done.1 + count, v.done.2 + UInt64.ofNat b.length)
  new : c.overwrite = true ∨ v.dst dp = none
  gone : u.dst part = none
  frame : ∀ p, p ≠ dp → p ≠ part → u.dst p = v.dst p ∨ Spare c dp v.dst p
  total : u.total = v.total

theorem Arrived.staged {count : UInt32} (h : Arrived c sp dp part v count u) :
    Staged c sp dp part v u := by
  intro p hp
  by_cases hd : p = dp
  · subst hd
    obtain ⟨b, hb, hdst, -⟩ := h.file
    exact .inr (.inl ⟨rfl, ⟨b, hb, hdst⟩, h.new⟩)
  · exact (h.frame p hd hp).imp_right fun hs => .inr (.inr hs)

/-- The part file is whole, and what the destination held is at the name `a`. -/
structure Aloft (c : Ctx) (dp part : Text) (v : View) (b : Bytes) (a : Text) (u : View) : Prop where
  away : u.dst dp = none
  old : u.dst a = v.dst dp
  ne : a ≠ part
  spare : Spare c dp v.dst a
  ready : u.dst part = some (.file b)
  frame : ∀ p, p ≠ dp → p ≠ part → p ≠ a → u.dst p = v.dst p
  counts : (u.done, u.total) = ((v.done.1, v.done.2 + UInt64.ofNat b.length), v.total)

theorem Spare.ne {fs : Fs} {a : Text} (h : Spare c dp fs a) : a ≠ dp := by
  obtain ⟨-, -, k, hk, rfl⟩ := h
  exact old_ne hk dp

theorem Aloft.staged {a : Text} (h : Aloft c dp part v b a u) : Staged c sp dp part v u := by
  intro p hp
  by_cases hd : p = dp
  · exact .inr (.inr (.inl ⟨hd, hd ▸ h.away, a, h.ne, h.spare, h.old⟩))
  · by_cases ha : p = a
    · exact .inr (.inr (.inr (ha ▸ h.spare)))
    · exact .inl (h.frame p hd hp ha)

/-- One move onto a free name. -/
def Moved (p q : Text) (u w : View) : Prop :=
  u.dst p ≠ none ∧ u.dst q = none ∧ w = u.with (Function.update (Function.update u.dst q (u.dst p)) p none)

/-- What is known in front of the last rename: the part file is whole, and what the destination held
is there or at an aside name. -/
def Whole (c : Ctx) (dp part : Text) (v : View) (b : Bytes) (u : View) : Prop :=
  Filled v part b b.length b.length u ∨ ∃ a, Aloft c dp part v b a u

theorem Whole.staged (h : Whole c dp part v b u) : Staged c sp dp part v u :=
  h.elim Filled.staged fun ⟨_, h⟩ => h.staged

theorem Filled.dst_of_ne {p : Text} (h : Filled v part b n off u) (hp : p ≠ part) :
    u.dst p = v.dst p := by
  obtain ⟨k, -, rfl⟩ := h
  exact Function.update_of_ne hp _ _

theorem Filled.ready (h : Filled v part b n b.length u) : u.dst part = some (.file b) := by
  obtain ⟨k, hk, rfl⟩ := h
  simp [List.take_of_length_le hk]

theorem Filled.counts (h : Filled v part b n off u) :
    (u.done, u.total) = ((v.done.1, v.done.2 + UInt64.ofNat n), v.total) := by
  obtain ⟨k, -, rfl⟩ := h
  rfl

section Rename

variable {a : Text} {w : View}

/-- What is moved to the destination from a free aside name is what it held. -/
theorem Whole.putBack (hu : Whole c dp part v b u) (ha : a ≠ part) (hs : Spare c dp v.dst a)
    (h : Moved a dp u w) : Staged c sp dp part v w := by
  obtain ⟨hthere, -, rfl⟩ := h
  rcases hu with hu | ⟨a', hu⟩
  · rw [hu.dst_of_ne ha] at hthere
    exact absurd hs.2.1 hthere
  · obtain rfl : a = a' := by
      by_contra hother
      exact hthere ((hu.frame a hs.ne ha hother).trans hs.2.1)
    intro p hp
    rw [View.with_dst]
    by_cases hpa : p = a
    · exact .inr (.inr (.inr (hpa ▸ hs)))
    · rw [Function.update_of_ne hpa]
      by_cases hd : p = dp
      · rw [hd, Function.update_self]
        exact .inl hu.old
      · rw [Function.update_of_ne hd]
        exact .inl (hu.frame p hd hp hpa)

end Rename

/-- The part file created or emptied, or left alone where that fails. -/
def Begun (v : View) (part : Text) (u : View) : Prop :=
  u = v ∨ u = v.with (Function.update v.dst part (some (.file [])))

theorem Begun.staged (h : Begun v part u) : Staged c sp dp part v u := by
  rcases h with rfl | rfl
  · exact .refl _ _ _ _ _
  · exact (Staged.refl _ _ _ _ _).update_part _

end File

end Ps5Upload.SmbCopy
