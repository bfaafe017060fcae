import Mathlib.Data.List.Basic
import Mathlib.Data.List.TakeWhile
import Mathlib.Tactic.Common
import Ps5Upload.Engine.MeshDrive.Pass

/-!
# Mesh Drive: what one step can do

`Move` lists the steps of `step` one by one, each with what it reads and what it changes; the
steps of an operation that fail without an effect are one case, `fails`, whatever they are.
`step_move` is the only place where the functions of the pass are taken apart: every invariant
of a pass is a case analysis over `Move`.
-/

namespace Ps5Upload.MeshDrive

open ByteFile

variable {δ : Type}

/-- An operation has succeeded: its path is looked at again, or the loop goes on. -/
inductive Done (x : Outcome) (s : Sides) (r : Run) (p : Path) : World → Prop
  | touch (hedited : p ∉ r.edited) (hbase : (s.base.get p).isSome) :
      Done x s r p ⟨s, .touch r p⟩
  | next : Done x s r p ⟨s.checkpoint x r, .next r⟩

/-- A step that changed the sides to `s'`: it went on to `at_`, or failed after all. -/
inductive Went (x : Outcome) (s' : Sides) (r r' : Run) (o : Op) (agreed : Option BaseEntry)
    (at_ : At) : World → Prop
  | on : Went x s' r r' o agreed at_ ⟨s', .op r' o agreed at_⟩
  | failed : Went x s' r r' o agreed at_ ⟨s'.checkpoint x r, .next r⟩

inductive Move (c : Cfg δ) : World → Act → World → Prop
  | edit (s : Sides) (pc : Pc) (side : Side) (p : Path) (f : Option File) :
      Move c ⟨s, pc⟩ (.edit side p f)
        ⟨s.setFolder side (editFolder (s.folder side) p f), pc⟩
  | list (s : Sides) (unread : List Path) :
      Move c ⟨s, .idle⟩ (.list unread) ⟨s, .listed (walk s.member unread) unread⟩
  | plan (s : Sides) (member : Listing) (unread : List Path) (e : Env) :
      Move c ⟨s, .listed member unread⟩ (.plan e)
        ⟨{ s with base := e.base s.saved (walk s.hub e.unread) },
          .next (c.begin { e with unread := unread ++ e.unread } member (walk s.hub e.unread)
            (e.base s.saved (walk s.hub e.unread)))⟩
  | halt (s : Sides) (r : Run) (h : Halt) :
      Move c ⟨s, .next r⟩ (.halt h) ⟨s, .next { r with ops := [], halt := some h }⟩
  | die (s : Sides) (pc : Pc) : Move c ⟨s, pc⟩ .die ⟨s, .idle⟩
  | loopEnd (s : Sides) (r : Run) (x : Outcome) (pc : Pc)
      (hpc : pc = .saving r ∨ pc = .closing r ∨ pc = .pruning r r.emptied) :
      Move c ⟨s, .next r⟩ (.go x) ⟨s, pc⟩
  | noBatch (s : Sides) (r : Run) (x : Outcome) :
      Move c ⟨s, .next r⟩ (.go x) ⟨s, .next { r with batching := false }⟩
  | startBatch (s : Sides) (r : Run) (x : Outcome) (o : Op) (rest : List Op) (chunk : List Path)
      (hops : r.ops = o :: rest) (hchunk : chunk = batchChunk r.member 0 0 (o :: rest)) :
      Move c ⟨s, .next r⟩ (.go x) ⟨s, .batch r chunk chunk⟩
  | startOp (s : Sides) (r : Run) (x : Outcome) (o : Op) (rest : List Op)
      (hops : r.ops = o :: rest) :
      Move c ⟨s, .next r⟩ (.go x)
        ⟨s, .op { r with ops := rest } o (s.base.get o.path) .start⟩
  | batchDone (s : Sides) (r : Run) (x : Outcome) (chunk : List Path) :
      Move c ⟨s, .batch r chunk []⟩ (.go x) ⟨s, .next { r with batched := r.batched ++ chunk }⟩
  | batchFail (s : Sides) (r : Run) (x : Outcome) (chunk rest : List Path) :
      Move c ⟨s, .batch r chunk rest⟩ (.go x) ⟨s, .next { r with batching := false }⟩
  | batchRead (s : Sides) (r : Run) (x : Outcome) (chunk rest : List Path) (p : Path) (f : File)
      (hf : s.member.get p = some f) :
      Move c ⟨s, .batch r chunk (p :: rest)⟩ (.go x) ⟨s, .batchRead r chunk rest p f.bytes⟩
  | batchSent (s : Sides) (r : Run) (x : Outcome) (chunk rest : List Path) (p : Path)
      (bytes : Bytes) (w' : World)
      (hw : w'.sides = s.place .hub p ⟨bytes, x.mtime⟩)
      (hpc : w'.pc = .batch r chunk rest ∨ w'.pc = .next { r with batching := false }) :
      Move c ⟨s, .batchRead r chunk rest p bytes⟩ (.go x) w'
  | batchLost (s : Sides) (r : Run) (x : Outcome) (chunk rest : List Path) (p : Path)
      (bytes : Bytes) :
      Move c ⟨s, .batchRead r chunk rest p bytes⟩ (.go x) ⟨s, .next { r with batching := false }⟩
  | fails (s : Sides) (r : Run) (x : Outcome) (o : Op) (agreed : Option BaseEntry) (at_ : At) :
      Move c ⟨s, .op r o agreed at_⟩ (.go x) ⟨s.checkpoint x r, .next r⟩
  | uploadBatched (s : Sides) (r : Run) (x : Outcome) (p : Path) (agreed : Option BaseEntry)
      (hb : p ∈ r.batched) :
      Move c ⟨s, .op r (.upload p) agreed .start⟩ (.go x)
        ⟨s, .op (if s.stat .member p ≠ r.member.get p then r.counted.markEdited p else r.counted)
          (.upload p) agreed .batchAfter⟩
  | uploadStart (s : Sides) (r : Run) (x : Outcome) (p : Path) (agreed : Option BaseEntry)
      (at_ : At)
      (hat : at_ = .upBefore (s.stat .member p) ∨ at_ = .upTrash (s.stat .member p)) :
      Move c ⟨s, .op r (.upload p) agreed .start⟩ (.go x) ⟨s, .op r (.upload p) agreed at_⟩
  | downloadStart (s : Sides) (r : Run) (x : Outcome) (p : Path) (agreed : Option BaseEntry) :
      Move c ⟨s, .op r (.download p) agreed .start⟩ (.go x)
        ⟨s, .op r (.download p) agreed (.fetch (r.member.get p))⟩
  | choose (s : Sides) (r : Run) (x : Outcome) (o : Op) (agreed : Option BaseEntry) (at_ : At)
      (name : Path) (hname : name = c.conflictCopy x s r.stamp o.path)
      (hid : '/' ∉ x.newId.toList) (hfree : s.member.get name = none) :
      Move c ⟨s, .op r o agreed at_⟩ (.go x) ⟨s, .op r o agreed (.copy name)⟩
  | compareStart (s : Sides) (r : Run) (x : Outcome) (p : Path) (agreed : Option BaseEntry)
      (f : File) (hf : s.member.get p = some f) :
      Move c ⟨s, .op r (.compare p) agreed .start⟩ (.go x)
        ⟨s, .op r (.compare p) agreed (.hashed f.bytes)⟩
  | deleteMember (s : Sides) (r : Run) (x : Outcome) (p : Path) (agreed : Option BaseEntry)
      (t : BTreeMap String Folder) (w' : World)
      (hw : Done x (((s.remove .member p).setTrash .member t).forget p) (r.deleted .member p) p
          w' ∨ w' = ⟨((s.remove .member p).setTrash .member t).checkpoint x r, .next r⟩) :
      Move c ⟨s, .op r (.deleteMember p) agreed .start⟩ (.go x) w'
  | deleteHub (s : Sides) (r : Run) (x : Outcome) (p : Path) (agreed : Option BaseEntry)
      (t : BTreeMap String Folder) (w' : World)
      (hw : Done x (((s.remove .hub p).setTrash .hub t).forget p) (r.deleted .hub p) p w' ∨
        w' = ⟨((s.remove .hub p).setTrash .hub t).checkpoint x r, .next r⟩) :
      Move c ⟨s, .op r (.deleteHub p) agreed .start⟩ (.go x) w'
  | forget (s : Sides) (r : Run) (x : Outcome) (p : Path) (agreed : Option BaseEntry) (w' : World)
      (hw : Done x (s.forget p) r p w') :
      Move c ⟨s, .op r (.forget p) agreed .start⟩ (.go x) w'
  | upTrash (s : Sides) (r : Run) (x : Outcome) (o : Op) (agreed : Option BaseEntry)
      (before : Option Meta) (t : BTreeMap String Folder) (w' : World)
      (hw : Went x ((s.remove .hub o.path).setTrash .hub t) r r o agreed (.upBefore before) w') :
      Move c ⟨s, .op r o agreed (.upTrash before)⟩ (.go x) w'
  | upRead (s : Sides) (r : Run) (x : Outcome) (o : Op) (agreed : Option BaseEntry)
      (before : Option Meta) (f : File) (hf : s.member.get o.path = some f) :
      Move c ⟨s, .op r o agreed (.upBefore before)⟩ (.go x)
        ⟨s, .op r o agreed (.upRead before f.bytes)⟩
  | upSend (s : Sides) (r : Run) (x : Outcome) (o : Op) (agreed : Option BaseEntry)
      (before : Option Meta) (bytes : Bytes) (w' : World)
      (hw : Went x (s.place .hub o.path ⟨bytes, x.mtime⟩) r r.counted o agreed (.upSent before) w') :
      Move c ⟨s, .op r o agreed (.upRead before bytes)⟩ (.go x) w'
  | upAfter (s : Sides) (r : Run) (x : Outcome) (o : Op) (agreed : Option BaseEntry)
      (before : Option Meta) :
      Move c ⟨s, .op r o agreed (.upSent before)⟩ (.go x)
        ⟨s, .op (if s.stat .member o.path ≠ before then r.markEdited o.path else r) o agreed
          (.upAfter before)⟩
  | upDone (s : Sides) (r : Run) (x : Outcome) (o : Op) (agreed : Option BaseEntry)
      (before : Option Meta) (w' : World)
      (hw : Done x (s.record o.path before (s.stat .hub o.path)) r o.path w') :
      Move c ⟨s, .op r o agreed (.upAfter before)⟩ (.go x) w'
  | batchedDone (s : Sides) (r : Run) (x : Outcome) (o : Op) (agreed : Option BaseEntry)
      (w' : World)
      (hw : Done x (s.record o.path (r.member.get o.path) (s.stat .hub o.path)) r o.path w') :
      Move c ⟨s, .op r o agreed .batchAfter⟩ (.go x) w'
  | fetchRead (s : Sides) (r : Run) (x : Outcome) (o : Op) (agreed : Option BaseEntry)
      (expect : Option Meta) (f : File) (hf : s.hub.get o.path = some f) :
      Move c ⟨s, .op r o agreed (.fetch expect)⟩ (.go x)
        ⟨s, .op r o agreed (.fetched expect f.bytes)⟩
  | fetchCheck (s : Sides) (r : Run) (x : Outcome) (o : Op) (agreed : Option BaseEntry)
      (expect : Option Meta) (bytes : Bytes) (hexpect : s.stat .member o.path = expect) :
      Move c ⟨s, .op r o agreed (.fetched expect bytes)⟩ (.go x)
        ⟨s, .op r o agreed (.checked expect bytes)⟩
  | fetchClear (s : Sides) (r : Run) (x : Outcome) (o : Op) (agreed : Option BaseEntry)
      (expect : Option Meta) (bytes : Bytes) (w' : World)
      (hw : Went x (s.remove .member o.path) r r o agreed (.cleared bytes) w') :
      Move c ⟨s, .op r o agreed (.checked expect bytes)⟩ (.go x) w'
  | fetchPlace (s : Sides) (r : Run) (x : Outcome) (o : Op) (agreed : Option BaseEntry)
      (at_ : At) (bytes : Bytes) (w' : World)
      (hat : (∃ expect, at_ = .checked expect bytes) ∨ at_ = .cleared bytes)
      (hw : Went x (s.place .member o.path ⟨bytes, x.mtime⟩) r r o agreed .placed w') :
      Move c ⟨s, .op r o agreed at_⟩ (.go x) w'
  | fetchDone (s : Sides) (r : Run) (x : Outcome) (o : Op) (agreed : Option BaseEntry)
      (w' : World)
      (hw : Done x (s.record o.path (s.stat .member o.path) (r.hub.get o.path)) r.counted o.path
        w') :
      Move c ⟨s, .op r o agreed .placed⟩ (.go x) w'
  | same (s : Sides) (r : Run) (x : Outcome) (o : Op) (agreed : Option BaseEntry) (bytes : Bytes)
      (f : File) (hf : s.hub.get o.path = some f) (heq : c.hash f.bytes = c.hash bytes)
      (w' : World)
      (hw : Done x (s.record o.path (r.member.get o.path) (r.hub.get o.path)) r o.path w') :
      Move c ⟨s, .op r o agreed (.hashed bytes)⟩ (.go x) w'
  | differ (s : Sides) (r : Run) (x : Outcome) (o : Op) (agreed : Option BaseEntry)
      (bytes : Bytes) :
      Move c ⟨s, .op r o agreed (.hashed bytes)⟩ (.go x) ⟨s, .op r o agreed .differ⟩
  | rename (s : Sides) (r : Run) (x : Outcome) (o : Op) (agreed : Option BaseEntry)
      (name : Path) (f : File) (hf : s.member.get o.path = some f) (w' : World)
      (hw : Went x ((s.remove .member o.path).place .member name f) r
        { r with member := r.member.erase o.path } o agreed (.fetch none) w') :
      Move c ⟨s, .op r o agreed (.copy name)⟩ (.go x) w'
  | touch (s : Sides) (r : Run) (x : Outcome) (p : Path) :
      Move c ⟨s, .touch r p⟩ (.go x) ⟨s, .touchHub r p (s.stat .member p)⟩
  | touchHub (s : Sides) (r r' : Run) (x : Outcome) (p : Path) (m : Option Meta)
      (hr : r' = { r with touched := r.touched.insert p (m, s.stat .hub p) }) :
      Move c ⟨s, .touchHub r p m⟩ (.go x) ⟨s.checkpoint x r', .next r'⟩
  | closing (s : Sides) (r : Run) (x : Outcome) :
      Move c ⟨s, .closing r⟩ (.go x) ⟨s, .closingHub r (walk s.member x.unread)⟩
  | noRefresh (s : Sides) (pc : Pc) (r : Run) (x : Outcome)
      (hpc : pc = .closing r ∨ ∃ now, pc = .closingHub r now) :
      Move c ⟨s, pc⟩ (.go x) ⟨s, .pruning r r.emptied⟩
  | refresh (s : Sides) (r : Run) (x : Outcome) (sideNow : Listing) :
      Move c ⟨s, .closingHub r sideNow⟩ (.go x)
        ⟨{ s with base := MeshDrive.refresh sideNow (walk s.hub x.unread) s.base r.touched },
          .pruning r r.emptied⟩
  | pruned (s : Sides) (pc : Pc) (r : Run) (x : Outcome) (todo : List (Side × Path))
      (hpc : (∃ d, pc = .pruning r (d :: todo)) ∨ ∃ dir, pc = .clearing r todo dir []) :
      Move c ⟨s, pc⟩ (.go x) ⟨s, .pruning r todo⟩
  | pruneEnd (s : Sides) (r : Run) (x : Outcome) :
      Move c ⟨s, .pruning r []⟩ (.go x) ⟨s, .saving r⟩
  | clearStart (s : Sides) (r : Run) (x : Outcome) (todo : List (Side × Path)) (dir : Path)
      (names : List (List Char)) (hside : c.console = false)
      (hnames : ∀ n ∈ names, isOsClutter n ∧ '/' ∉ n) :
      Move c ⟨s, .pruning r ((.member, dir) :: todo)⟩ (.go x) ⟨s, .clearing r todo dir names⟩
  | clear (s s' : Sides) (r : Run) (x : Outcome) (todo : List (Side × Path)) (dir : Path)
      (n : List Char) (names : List (List Char)) (hs : s' = s ∨ s' = s.remove .member (inDir dir n)) :
      Move c ⟨s, .clearing r todo dir (n :: names)⟩ (.go x) ⟨s', .clearing r todo dir names⟩
  | moveStart (s : Sides) (r : Run) (x : Outcome) (todo : List (Side × Path)) (side : Side)
      (dir dest : Path) :
      Move c ⟨s, .pruning r ((side, dir) :: todo)⟩ (.go x) ⟨s, .moving r todo side dir dest false⟩
  | move (s s' : Sides) (r : Run) (x : Outcome) (todo : List (Side × Path)) (side : Side)
      (dir dest : Path) (again : Bool) (pc : Pc)
      (hs : s' = s ∨ s' = s.moveToTrash side dir r.today dest ∧
        inUse (s.dayTrash side r.today) x.others dest = false)
      (hpc : pc = .pruning r todo ∨ ∃ dest', pc = .moving r todo side dir dest' true) :
      Move c ⟨s, .moving r todo side dir dest again⟩ (.go x) ⟨s', pc⟩
  | save (s : Sides) (r : Run) (x : Outcome) :
      Move c ⟨s, .saving r⟩ (.go x) ⟨s.finish r x, .idle⟩

theorem done_afterStep (x : Outcome) (o : Op) (agreed : Option BaseEntry) (s : Sides) (r : Run) :
    Done x s r o.path (afterStep x o agreed (.ok s r)) := by
  rw [afterStep]
  split
  · rename_i h
    exact .touch h.1 h.2.1
  · exact .next

theorem went_effect (x : Outcome) (o : Op) (agreed : Option BaseEntry) (s s' : Sides) (r r' : Run)
    (at_ : At) :
    Went x s' r r' o agreed at_ (afterStep x o agreed (.effect x s s' r (.goto s' r' at_))) ∨
      afterStep x o agreed (.effect x s s' r (.goto s' r' at_)) = ⟨s.checkpoint x r, .next r⟩ := by
  cases hx : x.fault with
  | none =>
    simp only [OpResult.effect, hx]
    exact .inl .on
  | before =>
    simp only [OpResult.effect, hx]
    exact .inr rfl
  | after =>
    simp only [OpResult.effect, hx]
    exact .inl .failed

/-- A read of a file: it is there, or the operation fails. -/
theorem read_cases (x x' : Outcome) (o : Op) (agreed : Option BaseEntry) (s : Sides) (r : Run)
    (f : Option File) (next : File → OpResult) :
    (∃ file, f = some file ∧
        afterStep x o agreed (.read x' s r f next) = afterStep x o agreed (next file)) ∨
      afterStep x o agreed (.read x' s r f next) = ⟨s.checkpoint x r, .next r⟩ := by
  cases hx : x'.fault with
  | none =>
    cases f with
    | none => exact .inr (by simp [OpResult.read, hx, afterStep])
    | some file => exact .inl ⟨file, rfl, by simp [OpResult.read, hx]⟩
  | _ => exact .inr (by simp [OpResult.read, hx, afterStep])

variable {c : Cfg δ} {x : Outcome} {s : Sides} {r : Run} {res : OpResult} {o : Op}
  {agreed : Option BaseEntry} {w' : World}

theorem toTrash_eq_some {s' : Sides} {side : Side} {p : Path}
    {f : File} {day : String} (h : c.toTrash x s side p f day = some s') :
    ∃ t, s' = (s.remove side p).setTrash side t := by
  simp only [Cfg.toTrash] at h
  generalize freeName p _ x.newId = dest at h
  split at h
  · simp at h
  · exact ⟨_, (Option.some.inj h).symm⟩

/-- A file goes to the trash, or the operation fails and it stays. -/
theorem trashOp_cases (c : Cfg δ) (x : Outcome) (o : Op) (agreed : Option BaseEntry) (s : Sides)
    (r : Run) (side : Side) (p : Path) (next : Sides → OpResult) :
    (∃ t, afterStep x o agreed (c.trashOp x s r side p next) = afterStep x o agreed
        (.effect x s ((s.remove side p).setTrash side t) r
          (next ((s.remove side p).setTrash side t)))) ∨
      afterStep x o agreed (c.trashOp x s r side p next) = ⟨s.checkpoint x r, .next r⟩ := by
  rw [Cfg.trashOp]
  rcases read_cases x x.first o agreed s r ((s.folder side).get p) _ with ⟨f, -, heq⟩ | heq
  · rw [heq]
    split
    · exact .inr rfl
    · rename_i s' hs'
      obtain ⟨t, rfl⟩ := toTrash_eq_some hs'
      exact .inl ⟨t, rfl⟩
  · exact .inr heq

/-- A delete that went through: it has succeeded, or has failed after all. -/
theorem effect_ok_cases (x : Outcome) (o : Op) (agreed : Option BaseEntry) (s s' s'' : Sides)
    (r r' : Run) :
    (Done x s'' r' o.path (afterStep x o agreed (.effect x s s' r (.ok s'' r'))) ∨
      afterStep x o agreed (.effect x s s' r (.ok s'' r')) = ⟨s'.checkpoint x r, .next r⟩) ∨
      afterStep x o agreed (.effect x s s' r (.ok s'' r')) = ⟨s.checkpoint x r, .next r⟩ := by
  cases hx : x.fault with
  | none =>
    simp only [OpResult.effect, hx]
    exact .inl (.inl (done_afterStep x o agreed s'' r'))
  | before =>
    simp only [OpResult.effect, hx]
    exact .inr rfl
  | after =>
    simp only [OpResult.effect, hx]
    exact .inl (.inr rfl)

theorem chooseCopy_eq_some {p : Path} (h : c.chooseCopy x s r p = some res) :
    s.member.get (c.conflictCopy x s r.stamp p) = none ∧ '/' ∉ x.newId.toList ∧
      res = .goto s r (.copy (c.conflictCopy x s r.stamp p)) := by
  rw [Cfg.chooseCopy] at h
  split at h
  · simp at h
  · rename_i hfree
    rw [not_or] at hfree
    exact ⟨by simpa using hfree.1, hfree.2, (Option.some.inj h).symm⟩

/-- What the first step of an operation comes to. -/
theorem opStart_move (h : c.opStart x s r o = some res) :
    Move c ⟨s, .op r o agreed .start⟩ (.go x) (afterStep x o agreed res) := by
  cases o with
  | upload p =>
    simp only [Cfg.opStart] at h
    split at h
    · rename_i hb
      rw [← Option.some.inj h]
      exact .uploadBatched s r x p agreed hb
    · split at h
      · rw [← Option.some.inj h]
        exact .uploadStart s r x p agreed _ (.inr rfl)
      · rw [← Option.some.inj h]
        exact .uploadStart s r x p agreed _ (.inl rfl)
  | download p =>
    rw [← Option.some.inj h]
    exact .downloadStart s r x p agreed
  | conflict p =>
    obtain ⟨hfree, hid, rfl⟩ := chooseCopy_eq_some h
    exact .choose s r x (.conflict p) agreed .start _ rfl hid hfree
  | compare p =>
    rw [← Option.some.inj h]
    rcases read_cases x x (.compare p) agreed s r (s.member.get p)
      fun f => .goto s r (.hashed f.bytes) with ⟨f, hf, heq⟩ | heq
    · rw [heq]
      exact .compareStart s r x p agreed f hf
    · rw [heq]
      exact .fails s r x (.compare p) agreed .start
  | deleteMember p =>
    rw [← Option.some.inj h]
    rcases trashOp_cases c x (.deleteMember p) agreed s r .member p
      fun s' => .ok (s'.forget p) (r.deleted .member p) with ⟨t, heq⟩ | heq
    · rw [heq]
      rcases effect_ok_cases x (.deleteMember p) agreed s ((s.remove .member p).setTrash .member t)
        (((s.remove .member p).setTrash .member t).forget p) r (r.deleted .member p) with hw | heq
      · exact .deleteMember s r x p agreed t _ hw
      · rw [heq]
        exact .fails s r x (.deleteMember p) agreed .start
    · rw [heq]
      exact .fails s r x (.deleteMember p) agreed .start
  | deleteHub p =>
    rw [← Option.some.inj h]
    rcases trashOp_cases c x (.deleteHub p) agreed s r .hub p
      fun s' => .ok (s'.forget p) (r.deleted .hub p) with ⟨t, heq⟩ | heq
    · rw [heq]
      rcases effect_ok_cases x (.deleteHub p) agreed s ((s.remove .hub p).setTrash .hub t)
        (((s.remove .hub p).setTrash .hub t).forget p) r (r.deleted .hub p) with hw | heq
      · exact .deleteHub s r x p agreed t _ hw
      · rw [heq]
        exact .fails s r x (.deleteHub p) agreed .start
    · rw [heq]
      exact .fails s r x (.deleteHub p) agreed .start
  | forget p =>
    rw [← Option.some.inj h]
    exact .forget s r x p agreed _ (done_afterStep x (.forget p) agreed _ _)

theorem placeFetched_move {at_ : At} {bytes : Bytes}
    (hat : (∃ expect, at_ = .checked expect bytes) ∨ at_ = .cleared bytes) :
    Move c ⟨s, .op r o agreed at_⟩ (.go x)
      (afterStep x o agreed (c.placeFetched x s r o.path bytes)) := by
  rw [Cfg.placeFetched]
  split
  · exact .fails s r x o agreed at_
  · rcases went_effect x o agreed s (s.place .member o.path ⟨bytes, x.mtime⟩) r r .placed
      with hw | heq
    · exact .fetchPlace s r x o agreed at_ bytes _ hat hw
    · rw [heq]
      exact .fails s r x o agreed at_

theorem namesIn_slash {f : Folder} {others : List Path} {dir : Path} {n : List Char}
    (h : n ∈ namesIn f others dir) : '/' ∉ n := by
  obtain ⟨p, -, hp⟩ := List.mem_filterMap.1 (List.mem_dedup.1 h)
  split at hp
  · rw [← Option.some.inj hp]
    intro hmem
    simpa using List.mem_takeWhile_imp hmem
  · simp at hp

theorem prune_move {todo : List (Side × Path)}
    {side : Side} {dir : Path} (h : c.prune x s r todo side dir = some w') :
    Move c ⟨s, .pruning r ((side, dir) :: todo)⟩ (.go x) w' := by
  have hskip : Move c ⟨s, .pruning r ((side, dir) :: todo)⟩ (.go x) ⟨s, .pruning r todo⟩ :=
    .pruned s _ r x todo (.inl ⟨_, rfl⟩)
  simp only [Cfg.prune] at h
  split at h
  · rw [← Option.some.inj h]
    exact hskip
  · split at h
    · split at h
      · simp at h
      · split at h
        · rw [← Option.some.inj h]
          exact .moveStart s r x todo side dir _
        · rw [← Option.some.inj h]
          exact hskip
    · rename_i hside
      split at h
      · rename_i hall
        cases side with
        | hub => exact absurd rfl hside
        | member =>
          rw [← Option.some.inj h]
          exact .clearStart s r x todo dir _ (by simpa [Cfg.onConsole] using hside)
            fun n hn => ⟨List.all_eq_true.1 hall n hn, namesIn_slash hn⟩
      · rw [← Option.some.inj h]
        exact hskip

theorem moveDir_move (x : Outcome) (s : Sides) (r : Run) (todo : List (Side × Path))
    (side : Side) (dir dest : Path) (again : Bool) :
    Move c ⟨s, .moving r todo side dir dest again⟩ (.go x)
      (moveDir x s r todo side dir dest again) := by
  have hfailed : ∀ pc, pc = (if again then Pc.pruning r todo
      else .moving r todo side dir (dest ++ " (" ++ x.newId ++ ")") true) →
      pc = .pruning r todo ∨ ∃ dest', pc = .moving r todo side dir dest' true := by
    rintro pc rfl
    cases again with
    | true => exact .inl rfl
    | false => exact .inr ⟨_, rfl⟩
  simp only [moveDir]
  split
  · exact .move s s r x todo side dir dest again _ (.inl rfl) (hfailed _ rfl)
  · rename_i hgo
    rw [not_or, Bool.not_eq_true] at hgo
    refine .move s _ r x todo side dir dest again _ (.inr ⟨rfl, hgo.2⟩) ?_
    split
    · exact .inl rfl
    · exact hfailed _ rfl

variable [DecidableEq δ]

/-- What a later step of an operation comes to. -/
theorem opStep_move {at_ : At} (h : c.opStep x s r o.path at_ = some res) :
    Move c ⟨s, .op r o agreed at_⟩ (.go x) (afterStep x o agreed res) := by
  cases at_ with
  | start => simp [Cfg.opStep] at h
  | upTrash before =>
    rw [← Option.some.inj h]
    rcases trashOp_cases c x o agreed s r .hub o.path fun s' => .goto s' r (.upBefore before)
      with ⟨t, heq⟩ | heq
    · rw [heq]
      rcases went_effect x o agreed s ((s.remove .hub o.path).setTrash .hub t) r r
        (.upBefore before) with hw | heq
      · exact .upTrash s r x o agreed before t _ hw
      · rw [heq]
        exact .fails s r x o agreed _
    · rw [heq]
      exact .fails s r x o agreed _
  | upBefore before =>
    rw [← Option.some.inj h]
    rcases read_cases x x o agreed s r (s.member.get o.path)
      fun f => .goto s r (.upRead before f.bytes) with ⟨f, hf, heq⟩ | heq
    · rw [heq]
      exact .upRead s r x o agreed before f hf
    · rw [heq]
      exact .fails s r x o agreed _
  | upRead before bytes =>
    rw [← Option.some.inj h]
    rcases went_effect x o agreed s (s.place .hub o.path ⟨bytes, x.mtime⟩) r r.counted
      (.upSent before) with hw | heq
    · exact .upSend s r x o agreed before bytes _ hw
    · rw [heq]
      exact .fails s r x o agreed _
  | upSent before =>
    rw [← Option.some.inj h]
    exact .upAfter s r x o agreed before
  | upAfter before =>
    rw [← Option.some.inj h]
    exact .upDone s r x o agreed before _ (done_afterStep x o agreed _ _)
  | batchAfter =>
    rw [← Option.some.inj h]
    exact .batchedDone s r x o agreed _ (done_afterStep x o agreed _ _)
  | fetch expect =>
    rw [← Option.some.inj h]
    rcases read_cases x x o agreed s r (s.hub.get o.path)
      fun f => .goto s r (.fetched expect f.bytes) with ⟨f, hf, heq⟩ | heq
    · rw [heq]
      exact .fetchRead s r x o agreed expect f hf
    · rw [heq]
      exact .fails s r x o agreed _
  | fetched expect bytes =>
    rw [Cfg.opStep] at h
    split at h
    · rw [← Option.some.inj h]
      exact .fails s r x o agreed _
    · rename_i hwhy
      rw [← Option.some.inj h]
      exact .fetchCheck s r x o agreed expect bytes (by
        rw [not_or, not_not, not_not] at hwhy
        exact hwhy.2)
  | checked expect bytes =>
    rw [Cfg.opStep] at h
    split at h
    · rw [← Option.some.inj h]
      rcases went_effect x o agreed s (s.remove .member o.path) r r (.cleared bytes)
        with hw | heq
      · exact .fetchClear s r x o agreed expect bytes _ hw
      · rw [heq]
        exact .fails s r x o agreed _
    · rw [← Option.some.inj h]
      exact placeFetched_move (.inl ⟨expect, rfl⟩)
  | cleared bytes =>
    rw [← Option.some.inj h]
    exact placeFetched_move (.inr rfl)
  | placed =>
    rw [← Option.some.inj h]
    exact .fetchDone s r x o agreed _ (done_afterStep x o agreed _ _)
  | hashed bytes =>
    rw [← Option.some.inj h]
    rcases read_cases x x o agreed s r (s.hub.get o.path) (fun f =>
      if c.hash f.bytes = c.hash bytes then
        .ok (s.record o.path (r.member.get o.path) (r.hub.get o.path)) r
      else .goto s r .differ) with ⟨f, hf, heq⟩ | heq
    · rw [heq]
      split
      · rename_i hsame
        exact .same s r x o agreed bytes f hf hsame _ (done_afterStep x o agreed _ _)
      · exact .differ s r x o agreed bytes
    · rw [heq]
      exact .fails s r x o agreed _
  | differ =>
    obtain ⟨hfree, hid, rfl⟩ := chooseCopy_eq_some h
    exact .choose s r x o agreed .differ _ rfl hid hfree
  | copy name =>
    rw [← Option.some.inj h]
    rcases read_cases x x.first o agreed s r (s.member.get o.path) (fun f =>
      if c.console ∧ (s.member.get name).isSome then .err s r
      else .effect x s ((s.remove .member o.path).place .member name f) r
        (.goto ((s.remove .member o.path).place .member name f)
          { r with member := r.member.erase o.path } (.fetch none))) with ⟨f, hf, heq⟩ | heq
    · rw [heq]
      split
      · exact .fails s r x o agreed _
      · rcases went_effect x o agreed s ((s.remove .member o.path).place .member name f) r
          { r with member := r.member.erase o.path } (.fetch none) with hw | heq
        · exact .rename s r x o agreed name f hf _ hw
        · rw [heq]
          exact .fails s r x o agreed _
    · rw [heq]
      exact .fails s r x o agreed _

theorem go_move {w : World} (h : go c x w = some w') : Move c w (.go x) w' := by
  obtain ⟨s, pc⟩ := w
  cases pc with
  | idle => simp [go] at h
  | listed member unread => simp [go] at h
  | next r =>
    simp only [go] at h
    split at h
    · split at h
      · rw [← Option.some.inj h]
        exact .loopEnd s r x _ (.inl rfl)
      · split at h
        · rw [← Option.some.inj h]
          exact .loopEnd s r x _ (.inr (.inl rfl))
        · rw [← Option.some.inj h]
          exact .loopEnd s r x _ (.inr (.inr rfl))
    · rename_i o rest hops
      split at h
      · split at h
        · rw [← Option.some.inj h]
          exact .noBatch s r x
        · rw [← Option.some.inj h]
          exact .startBatch s r x o rest _ hops rfl
      · rw [← Option.some.inj h]
        exact .startOp s r x o rest hops
  | batch r chunk rest =>
    simp only [go] at h
    split at h
    · rw [← Option.some.inj h]
      exact .batchFail s r x chunk rest
    · split at h
      · rw [← Option.some.inj h]
        exact .batchDone s r x chunk
      · rename_i p rest
        split at h
        · rw [← Option.some.inj h]
          exact .batchFail s r x chunk _
        · rename_i f hf
          rw [← Option.some.inj h]
          exact .batchRead s r x chunk rest p f hf
  | batchRead r chunk rest p bytes =>
    simp only [go] at h
    split at h
    · rw [← Option.some.inj h]
      exact .batchSent s r x chunk rest p bytes _ rfl (.inl rfl)
    · rw [← Option.some.inj h]
      exact .batchLost s r x chunk rest p bytes
    · rw [← Option.some.inj h]
      exact .batchSent s r x chunk rest p bytes _ rfl (.inr rfl)
  | op r o agreed at_ =>
    have hstep : at_ = .start ∧ (c.opStart x s r o).map (afterStep x o agreed) = some w' ∨
        (c.opStep x s r o.path at_).map (afterStep x o agreed) = some w' := by
      cases at_ with
      | start => exact .inl ⟨rfl, h⟩
      | _ => exact .inr h
    rcases hstep with ⟨rfl, hstep⟩ | hstep
    · obtain ⟨res, hres, rfl⟩ := Option.map_eq_some_iff.1 hstep
      exact opStart_move hres
    · obtain ⟨res, hres, rfl⟩ := Option.map_eq_some_iff.1 hstep
      exact opStep_move hres
  | touch r p =>
    rw [← Option.some.inj h]
    exact .touch s r x p
  | touchHub r p m =>
    rw [← Option.some.inj h]
    exact .touchHub s r _ x p m rfl
  | closing r =>
    simp only [go] at h
    split at h
    · rw [← Option.some.inj h]
      exact .closing s r x
    · rw [← Option.some.inj h]
      exact .noRefresh s _ r x (.inl rfl)
  | closingHub r sideNow =>
    simp only [go] at h
    split at h
    · rw [← Option.some.inj h]
      exact .refresh s r x sideNow
    · rw [← Option.some.inj h]
      exact .noRefresh s _ r x (.inr ⟨sideNow, rfl⟩)
  | pruning r todo =>
    cases todo with
    | nil =>
      rw [← Option.some.inj h]
      exact .pruneEnd s r x
    | cons d todo => exact prune_move h
  | clearing r todo dir names =>
    cases names with
    | nil =>
      rw [← Option.some.inj h]
      exact .pruned s _ r x todo (.inr ⟨dir, rfl⟩)
    | cons n names =>
      rw [← Option.some.inj h]
      refine .clear s _ r x todo dir n names ?_
      split
      · exact .inl rfl
      · exact .inr rfl
  | moving r todo side dir dest again =>
    rw [← Option.some.inj h]
    exact moveDir_move x s r todo side dir dest again
  | saving r =>
    rw [← Option.some.inj h]
    exact .save s r x

/-- **Every step is one of the moves.** -/
theorem step_move {w : World} {a : Act} (h : step c w a = some w') : Move c w a w' := by
  cases a with
  | edit side p f =>
    rw [← Option.some.inj h]
    exact .edit w.sides w.pc side p f
  | list unread =>
    obtain ⟨s, pc⟩ := w
    cases pc with
    | idle =>
      rw [← Option.some.inj h]
      exact .list s unread
    | _ => simp [step] at h
  | plan e =>
    obtain ⟨s, pc⟩ := w
    cases pc with
    | listed member unread =>
      rw [← Option.some.inj h]
      exact .plan s member unread e
    | _ => simp [step] at h
  | go x => exact go_move h
  | halt hh =>
    obtain ⟨s, pc⟩ := w
    cases pc with
    | next r =>
      rw [← Option.some.inj h]
      exact .halt s r hh
    | _ => simp [step] at h
  | die =>
    rw [← Option.some.inj h]
    exact .die w.sides w.pc

end Ps5Upload.MeshDrive
