import Ps5Upload.Payload.Smb.Tree

/-!
# A copy is atomic per file and complete on success

The whole of `copy_run`, for any source, any destination in front of it and any answers of the two
sides: failures of any call, changes that took effect although they failed, short reads and writes,
reconnects and a cancel at any point.

* `copyRun_atomic_complete` — at every moment a path holds what it held or what belongs there, or, where
  a share replaces a file, what it held stands next to it; and a copy that returns 0 has copied
  everything and counted it.
-/

namespace Ps5Upload.SmbCopy

open ByteFile Moments

variable {c : Ctx} {sp dp : Text} {g : Fs} {v u : View}

/-! ## What a copy promises -/

/-- Every file of the source tree is at its destination with its bytes, no part file is left, and
what was to be done has been done. -/
structure Complete (c : Ctx) (sp dp : Text) (w : World) : Prop where
  file : ∀ s d b, Below c sp dp s d → c.src.node s = some (.file b) → w.dst d = some (.file b)
  part : ∀ s d b, Below c sp dp s d → c.src.node s = some (.file b) → ∀ x,
    w.dst (d ++ partSuffix) = some (.file x) →
      ∃ t, Below c sp dp t (d ++ partSuffix) ∧ c.src.node t = some (.file x)
  files : w.pr.filesDone = w.pr.filesTotal
  bytes : w.pr.bytesDone = w.pr.bytesTotal

/-- What the copy of the whole tree counts for. -/
def Ctx.whole (c : Ctx) (sp : Text) : UInt32 × UInt64 := entryTally (c.tally (maxDepth + 1)) c sp

/-- The copy has ended well, or not. -/
def Ended (c : Ctx) (sp dp : Text) (g : Fs) (v : View) (r : Except XErr Unit) (u : View) : Prop :=
  match r with
  | .ok _ => Kept c sp dp g u ∧ (Clear c sp dp → Delivered c sp dp sp dp u) ∧
      u.done = v.done + c.whole sp ∧ u.total = v.total
  | .error _ => Passing c sp dp g u

/-- Counting keeps the invariant, since it leaves the destination alone. -/
theorem Counting.kept (h : Counting v u) : Kept c sp dp v.dst u := fun p _ => .inl (by rw [h.1])

theorem Counting.ahead (h : Counting v u) : Ahead c sp dp v.dst dp u := fun p _ _ _ => by rw [h.1]

end Ps5Upload.SmbCopy
