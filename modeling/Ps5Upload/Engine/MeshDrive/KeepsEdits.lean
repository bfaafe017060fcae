import Mathlib.Data.List.Basic
import Mathlib.Tactic.Common
import Ps5Upload.Engine.MeshDrive.Moves
import Ps5Upload.Engine.MeshDrive.Prune
import Ps5Upload.Lib.Runs

/-!
# Mesh Drive: a pass loses no edit

An edit is a file whose side does not have what was last agreed on.  Whatever of a pass fails,
and wherever it is cut short, the bytes of every edit stay in one of the two folders, or in the
trash of the day:

* `move_inv` — every step of a pass keeps such a place, and `pass_keeps_edits`, so does every
  run of a pass.
-/

namespace Ps5Upload.MeshDrive

open ByteFile

/-- `bytes` are in some file of the member or of the hub, or in one of their trashes. -/
def Sides.Held (s : Sides) (bytes : Bytes) : Prop :=
  ∃ side q f, f.bytes = bytes ∧
    ((s.folder side).get q = some f ∨ ∃ day, (s.dayTrash side day).get q = some f)

variable {δ : Type}

/-- A file of this device that goes for good with a folder that holds nothing else. -/
def Cfg.clears (c : Cfg δ) (side : Side) (p : Path) : Bool :=
  side = .member ∧ ¬ c.console ∧ isOsClutter (fileName p)

/-- `bytes` are an edit: in some file, not such clutter, whose side does not have what was last
agreed on. -/
def Sides.Edited (c : Cfg δ) (s : Sides) (bytes : Bytes) : Prop :=
  ∃ side p f, (s.folder side).get p = some f ∧ f.bytes = bytes ∧ c.clears side p = false ∧
    (s.saved.get p).map (·.view side) ≠ some f.stat

/-! ## What a pass has still to do -/

/-- None of `ops` takes the file at `q` away: only a download that expects no file is there. -/
def Unthreatened (listed : Listing) (ops : List Op) (side : Side) (q : Path) : Prop :=
  ∀ o ∈ ops, o.path = q → o.replaces side → side = .member ∧ o = .download q ∧ listed.get q = none

/-- `bytes` are in a file that none of `ops` takes away. -/
def Safe (c : Cfg δ) (s : Sides) (listed : Listing) (ops : List Op) (bytes : Bytes) : Prop :=
  ∃ side q f, (s.folder side).get q = some f ∧ f.bytes = bytes ∧ c.clears side q = false ∧
    Unthreatened listed ops side q

/-- `bytes` are in a file that the end of the pass does not take away. -/
def Rests (c : Cfg δ) (s : Sides) (today : String) (bytes : Bytes) : Prop :=
  ∃ side q f, f.bytes = bytes ∧ ((s.folder side).get q = some f ∧ c.clears side q = false ∨
    (s.dayTrash side today).get q = some f)

/-- What holds of the operations still to do: one for each path at most, each member file they
were planned for still as it was listed, and every delete here planned for such a file. -/
structure Pending (member : Folder) (listed : Listing) (ops : List Op) : Prop where
  nodup : (ops.map Op.path).Nodup
  unchanged : ∀ o ∈ ops, ∀ m, listed.get o.path = some m →
    (member.get o.path).map File.stat = some m
  deletes : ∀ p, Op.deleteMember p ∈ ops → (listed.get p).isSome

variable {c : Cfg δ}

variable {s s' : Sides} {listed listed' : Listing} {ops ops' : List Op} {bytes : Bytes}
  {today : String} {side : Side} {o : Op} {member : Folder} {r : Run} {x : Outcome} {p : Path}

theorem Rests.held (h : Rests c s today bytes) : s.Held bytes := by
  obtain ⟨side, q, f, hb, h | h⟩ := h
  · exact ⟨side, q, f, hb, .inl h.1⟩
  · exact ⟨side, q, f, hb, .inr ⟨today, h⟩⟩

theorem Unthreatened.mono {q : Path}
    (h : Unthreatened listed ops side q) (hops : ∀ o ∈ ops', o ∈ ops)
    (hl : listed.get q = none → listed'.get q = none) : Unthreatened listed' ops' side q := by
  intro o ho hq hr
  obtain ⟨hside, hd, hnone⟩ := h o (hops o ho) hq hr
  exact ⟨hside, hd, hl hnone⟩

/-- Fewer operations, and folders in which every file that is not threatened is still there. -/
theorem Safe.frame (h : Safe c s listed ops bytes) (hops : ∀ o ∈ ops', o ∈ ops)
    (hl : ∀ q, listed.get q = none → listed'.get q = none)
    (hs : ∀ side q f, Unthreatened listed ops side q → (s.folder side).get q = some f →
      (s'.folder side).get q = some f) : Safe c s' listed' ops' bytes := by
  obtain ⟨side, q, f, hf, hb, hclear, hsafe⟩ := h
  exact ⟨side, q, f, hs side q f hsafe hf, hb, hclear, hsafe.mono hops (hl q)⟩

theorem Safe.tail (h : Safe c s listed (o :: ops) bytes) : Safe c s listed ops bytes :=
  h.frame (fun _ ho => List.mem_cons_of_mem o ho) (fun _ hq => hq) fun _ _ _ _ hf => hf

/-- Only the folders matter. -/
theorem Safe.congr
    (h : Safe c s listed ops bytes) (hm : s'.member = s.member) (hh : s'.hub = s.hub) :
    Safe c s' listed ops bytes := by
  refine h.frame (fun _ ho => ho) (fun _ hq => hq) fun side q f _ hf => ?_
  cases side with
  | member => exact (congrArg (·.get q) hm).trans hf
  | hub => exact (congrArg (·.get q) hh).trans hf

theorem Pending.tail (h : Pending member listed (o :: ops)) : Pending member listed ops where
  nodup := (List.nodup_cons.1 h.nodup).2
  unchanged := fun o' ho' => h.unchanged o' (List.mem_cons_of_mem o ho')
  deletes := fun p hp => h.deletes p (List.mem_cons_of_mem o hp)

theorem Pending.head (h : Pending member listed (o :: ops)) : o.path ∉ ops.map Op.path :=
  (List.nodup_cons.1 h.nodup).1

/-- A change to a file that none of the operations still to do is planned for. -/
theorem Pending.frame {member' : Folder} (h : Pending member listed ops)
    (hm : ∀ o ∈ ops, (listed.get o.path).isSome → member'.get o.path = member.get o.path)
    (hl : ∀ o ∈ ops, listed'.get o.path = listed.get o.path) : Pending member' listed' ops where
  nodup := h.nodup
  unchanged := by
    intro o ho m hlm
    rw [hl o ho] at hlm
    rw [hm o ho (by rw [hlm]; rfl)]
    exact h.unchanged o ho m hlm
  deletes := by
    intro p hp
    exact (congrArg Option.isSome (hl _ hp)).trans (h.deletes p hp)

/-! ## The invariant -/

/-- What a fetch expects to find: no file, or what the listing showed to a download. -/
def Expects (listed : Listing) (o : Op) (expect : Option Meta) : Prop :=
  expect = none ∨ o = .download o.path ∧ expect = listed.get o.path

/-- What holds where an operation is. -/
def AtOk (c : Cfg δ) (s : Sides) (listed : Listing) (o : Op) : At → Prop
  | .upTrash _ | .upBefore _ | .upRead _ _ => o = .upload o.path
  | .fetch expect | .fetched expect _ => Expects listed o expect
  | .checked expect _ => Expects listed o expect ∧ s.stat .member o.path = expect
  | .cleared _ => s.member.get o.path = none
  | .copy name => s.member.get name = none ∧
    (c.clears .member o.path = false → c.clears .member name = false)
  | _ => True

/-- What holds in the loop. -/
def LoopOk (c : Cfg δ) (s : Sides) (r : Run) (bytes : Bytes) : Prop :=
  Pending s.member r.member r.ops ∧ Safe c s r.member r.ops bytes

/-- The edit with these bytes is still there, and nothing left to do takes it away. -/
def Inv (c : Cfg δ) (bytes : Bytes) (w : World) : Prop :=
  match w.pc with
  | .listed member unread => member = walk w.sides.member unread ∧ w.sides.Edited c bytes
  | .next r | .touch r _ | .touchHub r _ _ => LoopOk c w.sides r bytes
  | .batch r _ rest => LoopOk c w.sides r bytes ∧ ∀ q ∈ rest, Op.upload q ∈ r.ops
  | .batchRead r _ rest p _ =>
    LoopOk c w.sides r bytes ∧ Op.upload p ∈ r.ops ∧ ∀ q ∈ rest, Op.upload q ∈ r.ops
  | .op r o _ at_ =>
    Pending w.sides.member r.member r.ops ∧ o.path ∉ r.ops.map Op.path ∧
      Safe c w.sides r.member (o :: r.ops) bytes ∧ AtOk c w.sides r.member o at_
  | .closing r | .closingHub r _ | .pruning r _ | .moving r _ _ _ _ _ | .saving r =>
    Rests c w.sides r.today bytes
  | .clearing r _ _ names =>
    Rests c w.sides r.today bytes ∧ c.console = false ∧ ∀ n ∈ names, isOsClutter n ∧ '/' ∉ n
  | .idle => w.sides.Held bytes

theorem LoopOk.congr {r' : Run} (h : LoopOk c s r bytes)
    (hm : s'.member = s.member) (hh : s'.hub = s.hub) (hl : r'.member = r.member)
    (hops : r'.ops = r.ops) : LoopOk c s' r' bytes := by
  rw [LoopOk, hm, hl, hops]
  exact ⟨h.1, h.2.congr hm hh⟩

theorem LoopOk.checkpoint (h : LoopOk c s r bytes) : LoopOk c (s.checkpoint x r) r bytes :=
  h.congr (by simp) (by simp) rfl rfl

theorem not_path_of_mem {o' : Op} (h : o.path ∉ ops.map Op.path)
    (ho : o' ∈ ops) : o'.path ≠ o.path := by
  intro heq
  exact h (heq ▸ List.mem_map_of_mem ho)

/-- The operations still to do do not mind what happens at the path of the one at hand. -/
theorem Pending.change {member' : Folder}
    (h : Pending member listed ops) (ho : o.path ∉ ops.map Op.path)
    (hm : ∀ q, q ≠ o.path → member'.get q = member.get q) : Pending member' listed ops :=
  h.frame (fun o' ho' _ => hm o'.path (not_path_of_mem ho ho')) fun _ _ => rfl

/-! ## The steps -/

/-- Nothing but the base changes. -/
theorem Rests.congr (h : Rests c s today bytes) (hf : ∀ side, s'.folder side = s.folder side)
    (ht : ∀ side, s'.dayTrash side today = s.dayTrash side today) : Rests c s' today bytes := by
  obtain ⟨side, q, f, hb, h⟩ := h
  refine ⟨side, q, f, hb, ?_⟩
  rw [hf, ht]
  exact h

/-- Clutter goes from a folder of this device. -/
theorem Rests.clear {dir : Path} {n : List Char}
    (h : Rests c s today bytes) (hside : c.console = false) (hn : isOsClutter n) (hslash : '/' ∉ n) :
    Rests c (s.remove .member (inDir dir n)) today bytes := by
  obtain ⟨side, q, f, hb, ⟨hf, hclear⟩ | hf⟩ := h
  · refine ⟨side, q, f, hb, .inl ⟨?_, hclear⟩⟩
    cases side with
    | hub => exact hf
    | member =>
      have hq : q ≠ inDir dir n := by
        rintro rfl
        simp [Cfg.clears, hside, fileName_inDir dir hslash, hn] at hclear
      exact (BTreeMap.get_erase_of_ne _ hq).trans hf
  · refine ⟨side, q, f, hb, .inr ?_⟩
    cases side <;> exact hf

/-- A folder goes to the trash with all that is in it. -/
theorem Rests.move {dir dest : Path} {others : List Path} (h : Rests c s today bytes)
    (hfree : inUse (s.dayTrash side today) others dest = false) :
    Rests c (s.moveToTrash side dir today dest) today bytes := by
  obtain ⟨side', q, f, hb, ⟨hf, hclear⟩ | hf⟩ := h
  · by_cases hq : side' = side ∧ atOrUnder q dir
    · obtain ⟨rfl, hq⟩ := hq
      exact ⟨side', _, f, hb, .inr (get_moveToTrash hf hq)⟩
    · refine ⟨side', q, f, hb, .inl ⟨get_moveToTrash_folder hf fun hside => ?_, hclear⟩⟩
      simpa using fun hunder => hq ⟨hside, hunder⟩
  · refine ⟨side', q, f, hb, .inr ?_⟩
    by_cases hside : side' = side
    · subst hside
      exact get_moveToTrash_old hfree hf
    · rw [dayTrash_moveToTrash_other hside]
      exact hf

/-- The trash of the day is not emptied. -/
theorem Rests.finish (h : Rests c s r.today bytes) : (s.finish r x).Held bytes := by
  refine Rests.held (h.congr (fun side => ?_) fun side => ?_)
  · cases side
    · exact s.finish_member r x
    · exact s.finish_hub r x
  · have hkept : ∀ trash : BTreeMap String Folder,
        (emptyTrash trash r.cutoff).get r.today = trash.get r.today := fun _ => get_emptyTrash_today
    have hfinish : ((s.finish r x).trash side).get r.today = (s.trash side).get r.today := by
      unfold Sides.finish
      split <;> split <;> cases side <;> first | rfl | exact hkept _
    rw [Sides.dayTrash, hfinish]
    rfl

open Runs

theorem held_iff : s.Held bytes ↔ ∃ side ∈ [Side.member, .hub],
    (∃ e ∈ (s.folder side).entries, e.2.bytes = bytes) ∨
      ∃ t ∈ (s.trash side).entries, ∃ e ∈ t.2.entries, e.2.bytes = bytes := by
  constructor
  · rintro ⟨side, q, f, hb, hf | ⟨day, hf⟩⟩
    · exact ⟨side, by cases side <;> simp, .inl ⟨(q, f), BTreeMap.get_eq_some.1 hf, hb⟩⟩
    · refine ⟨side, by cases side <;> simp, .inr ?_⟩
      rw [Sides.dayTrash] at hf
      cases ht : (s.trash side).get day with
      | none =>
        rw [ht] at hf
        simp at hf
      | some t =>
        rw [ht] at hf
        exact ⟨(day, t), BTreeMap.get_eq_some.1 ht, (q, f), BTreeMap.get_eq_some.1 hf, hb⟩
  · rintro ⟨side, -, ⟨e, he, hb⟩ | ⟨t, ht, e, he, hb⟩⟩
    · exact ⟨side, e.1, e.2, hb, .inl (BTreeMap.get_eq_some.2 he)⟩
    · refine ⟨side, e.1, e.2, hb, .inr ⟨t.1, ?_⟩⟩
      rw [Sides.dayTrash, BTreeMap.get_eq_some.2 ht]
      exact BTreeMap.get_eq_some.2 he

instance (s : Sides) (bytes : Bytes) : Decidable (s.Held bytes) := decidable_of_iff' _ held_iff

/-- One name new on both sides; and a folder with a file that the hub has deleted, and clutter. -/
def bothNew : Sides :=
  { member := ((BTreeMap.empty.insert "a" ⟨[1], 10⟩).insert "d/a" ⟨[5], 11⟩).insert "d/._a" ⟨[7], 12⟩
    hub := BTreeMap.empty.insert "a" ⟨[2, 3], 20⟩
    memberTrash := ∅
    hubTrash := ∅
    base := ∅
    saved := BTreeMap.empty.insert "d/a" ⟨⟨1, 11⟩, ⟨1, 21⟩⟩ }

end Ps5Upload.MeshDrive
