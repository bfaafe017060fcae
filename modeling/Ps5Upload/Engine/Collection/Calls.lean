import Ps5Upload.Engine.Collection.Placed

/-!
# What the organizer's operations keep

Rules for the operations of a tree and for the programs that `apply` and `revert` share, for any
assertion `P` about the state: questions leave it alone, a removal keeps what is `Prunable`, the
folders made on the way to a path keep what their making keeps, and a rename leads from `P` to `Q`,
or leaves open which where its answer is lost.

* `shows_exists`, `shows_renameNew` — a question, and a rename.
-/

namespace Ps5Upload.Collection

open Moments

/-- What holds after a change that leads from `P` to `Q`. -/
def After (P Q : State → Prop) : Except OpError Unit → State → Prop
  | .ok _, v => Q v
  | .error .lost, v => P v ∨ Q v
  | .error _, v => P v

/-- Files of Finder's and empty folders may go. -/
def Prunable (server : Bool) (P : State → Prop) : Prop :=
  ∀ v, P v → ∀ keep : Path × Node → Bool, (∀ n ∈ v.tree, solid server n = true → keep n = true) →
    P { v with tree := v.tree.filter keep }

section Calls

variable {J P Q : State → Prop} {α : Type}

theorem shows_call {f : Fate → State → α × State} {R : α → State → Prop}
    (h : ∀ fate v, P v → J (f fate v).2 ∧ R (f fate v).1 (f fate v).2) :
    Shows World.view J P (call f) R :=
  Keeps.act fun w hw => h (w.fates 0) w.view hw

/-- A question leaves the state alone, and its answer is right. -/
theorem shows_ask {r : Tree → α} (hJ : ∀ v, P v → J v) :
    Shows World.view J P (ask r) fun a v => P v ∧ ∀ b, a = .ok b → r v.tree = b := by
  refine shows_call fun fate v hv => ⟨hJ v hv, hv, fun b hb => ?_⟩
  cases fate with
  | works => exact Except.ok.inj hb
  | fails => cases hb
  | lost => cases hb
  | lostAfter => cases hb

theorem shows_exists (p : Path) (hJ : ∀ v, P v → J v) :
    Shows World.view J P (exists' p) fun a v => P v ∧ ∀ b, a = .ok b → v.tree.has p = b :=
  shows_ask hJ

/-- A question whose answer does not matter. -/
theorem Shows.ask_bind {β : Type} {r : Tree → α} {f : Except OpError α → Act β} {R : β → State → Prop}
    (hJ : ∀ v, P v → J v) (hf : ∀ a, Shows World.view J P (f a) R) :
    Shows World.view J P (ask r >>= f) R :=
  Shows.bind (shows_ask hJ) fun a => (hf a).pre fun _ h => h.1

theorem shows_change {r : State → Except OpError State} (hP : ∀ v, P v → J v) (hQ : ∀ v, Q v → J v)
    (h : ∀ v v', P v → r v = .ok v' → Q v') : Shows World.view J P (change r) (After P Q) := by
  refine shows_call fun fate v hv => ?_
  have herr : ∀ e, J v ∧ After P Q (.error e) v := by
    intro e
    refine ⟨hP v hv, ?_⟩
    cases e with
    | exists' => exact hv
    | lost => exact .inl hv
    | other => exact hv
  cases hr : r v with
  | error e =>
    cases fate with
    | works => exact herr e
    | fails => exact herr .other
    | lost => exact herr .lost
    | lostAfter => exact herr .lost
  | ok v' =>
    have hv' := h v v' hv hr
    cases fate with
    | works => exact ⟨hQ v' hv', hv'⟩
    | fails => exact herr .other
    | lost => exact herr .lost
    | lostAfter => exact ⟨hQ v' hv', .inr hv'⟩

theorem After.same {a : Except OpError Unit} {v : State} (h : After P P a v) : P v := by
  rcases a with e | u
  · cases e with
    | exists' => exact h
    | lost => exact h.elim id id
    | other => exact h
  · exact h

/-- The log takes its name on the disk, or nothing changes. -/
theorem shows_writeLog (log : UndoLog) (hP : ∀ v, P v → J v)
    (hQ : ∀ v, P v → Q { v with disk := some log }) (hJ : ∀ v, Q v → J v) :
    Shows World.view J P (writeLog log) fun a v => if a = .ok () then Q v else P v := by
  refine shows_call fun fate v hv => ?_
  by_cases hf : fate = .works
  · simp only [hf]
    exact ⟨hJ _ (hQ v hv), hQ v hv⟩
  · simp only [hf]
    exact ⟨hP v hv, hv⟩

/-! ## Renames -/

/-- **A rename**: where it has happened the new name was free and something was at the old one. -/
theorem shows_renameNew {src dst : Path} (hP : ∀ v, P v → J v) (hQ : ∀ v, Q v → J v)
    (h : ∀ v, P v → v.tree.has dst = false → v.tree.has src = true → ¬ src <+: dst →
      Q { v with tree := v.tree.rename src dst }) :
    Shows World.view J P (renameNew src dst) (After P Q) := by
  refine Shows.bind (shows_exists dst hP) fun a => ?_
  rcases a with e | b
  · refine Shows.pure fun v hv => ?_
    cases e with
    | exists' => exact hv.1
    | lost => exact .inl hv.1
    | other => exact hv.1
  · cases b with
    | true => exact Shows.pure fun v hv => hv.1
    | false =>
      have hren : Shows World.view J (fun v => P v ∧ v.tree.has dst = false) (fsRename src dst)
          (After (fun v => P v ∧ v.tree.has dst = false) Q) := by
        refine shows_change (fun v hv => hP v hv.1) hQ fun v v' hv hr => ?_
        simp only [Bool.and_eq_true, Bool.not_eq_true', decide_eq_true_eq, decide_eq_false_iff_not] at hr
        split at hr
        · next hc =>
          obtain ⟨⟨⟨hhas, -⟩, -⟩, hin⟩ := hc
          have := h v hv.1 hv.2 hhas hin
          rw [← Except.ok.inj hr]
          simpa only [hv.2, Bool.or_false] using this
        · cases hr
      refine (hren.pre fun v hv => ⟨hv.1, hv.2 false rfl⟩).post fun a v ha => ?_
      rcases a with e | u
      · cases e with
        | exists' => exact ha.1
        | lost => exact ha.imp_left And.left
        | other => exact ha.1
      · exact ha

/-! ## Folders made -/

theorem shows_createDir {p : Path} (hJ : ∀ v, P v → J v)
    (h : ∀ v, P v → P { v with tree := v.tree ++ [(p, .dir)] }) :
    Shows World.view J P (createDir p) fun _ v => P v := by
  refine Shows.post (shows_change hJ hJ fun v v' hv hr => ?_) fun _ _ => After.same
  split at hr
  · exact Except.ok.inj hr ▸ hv
  · split at hr
    · cases hr
    · split at hr
      · exact Except.ok.inj hr ▸ h v hv
      · cases hr

theorem shows_makeDirsFrom (hJ : ∀ v, P v → J v) (below : List Name) :
    ∀ (at' : Path) (known : List Path),
      (∀ q, q <+: at' ++ below → ∀ v, P v → P { v with tree := v.tree ++ [(q, .dir)] }) →
      Shows World.view J P (makeDirsFrom at' below known) fun _ v => P v := by
  induction below with
  | nil => exact fun at' known _ => Shows.pure fun _ hv => hv
  | cons name below ih =>
    intro at' known h
    have hat : at' ++ [name] <+: at' ++ name :: below := ⟨below, by simp⟩
    have hnext := fun known => ih (at' ++ [name]) known (by simpa using h)
    rw [makeDirsFrom]
    split
    · exact hnext known
    · refine Shows.bind (shows_createDir hJ (h _ hat)) fun a => ?_
      rcases a with e | u
      · exact Shows.pure fun _ hv => hv
      · exact hnext _

/-- The folders on the way to `dir`. -/
theorem shows_makeDirs {dir : Path} (known : List Path) (hJ : ∀ v, P v → J v)
    (h : ∀ q, q <+: dir → ∀ v, P v → P { v with tree := v.tree ++ [(q, .dir)] }) :
    Shows World.view J P (makeDirs dir known) fun _ v => P v :=
  shows_makeDirsFrom hJ dir [] known h

/-! ## Removals -/

variable {server : Bool}

theorem shows_isRemovable (p : Path) (hJ : ∀ v, P v → J v) :
    Shows World.view J P (isRemovable server p) fun _ v => P v := by
  rw [isRemovable]
  split
  · exact Shows.pure fun _ hv => hv
  · refine Shows.ask_bind hJ fun a => ?_
    rcases a with e | junk
    · exact Shows.pure fun _ hv => hv
    · exact Shows.pure fun _ hv => hv

variable (hprune : Prunable server P) (hJ : ∀ v, P v → J v)

include hprune hJ

theorem shows_removeJunk (p : Path) :
    Shows World.view J P (removeJunk server p) fun _ v => P v := by
  refine Shows.bind (shows_isRemovable p hJ) fun junk => ?_
  cases junk with
  | false => exact Shows.pure fun _ hv => hv
  | true =>
    refine Shows.bind (shows_change hJ hJ fun v v' hv hr => ?_) fun _ =>
      Shows.pure fun _ ha => After.same ha
    rw [← Except.ok.inj hr]
    exact hprune v hv _ fun n _ hs => by simp [hs]

theorem shows_removeDir (p : Path) : Shows World.view J P (removeDir p) fun _ v => P v := by
  refine Shows.post (shows_change hJ hJ fun v v' hv hr => ?_) fun _ _ => After.same
  split at hr
  · rw [← Except.ok.inj hr]
    refine hprune v hv _ fun n _ hs => ?_
    rw [decide_eq_true_eq]
    rintro rfl
    simp [solid] at hs
  · cases hr

omit hprune in
theorem shows_anyOther (dir : Path) (names : List Name) :
    Shows World.view J P (anyOther server dir names) fun _ v => P v := by
  induction names with
  | nil => exact Shows.pure fun _ hv => hv
  | cons name names ih =>
    refine Shows.bind (shows_isRemovable _ hJ) fun junk => ?_
    cases junk with
    | false => exact Shows.pure fun _ hv => hv
    | true => exact ih

theorem shows_removeAll (dir : Path) (names : List Name) :
    Shows World.view J P (removeAll server dir names) fun _ v => P v := by
  induction names with
  | nil => exact Shows.pure fun _ hv => hv
  | cons name names ih => exact Shows.bind (shows_removeJunk hprune hJ _) fun _ => ih

omit hprune in
theorem shows_list (dir : Path) : Shows World.view J P (list dir) fun _ v => P v := by
  refine Shows.ask_bind hJ fun a => ?_
  rcases a with e | names
  · exact Shows.pure fun _ hv => hv
  · exact Shows.pure fun _ hv => hv

theorem shows_tryRemoveDir (dir : Path) :
    Shows World.view J P (tryRemoveDir server dir) fun _ v => P v := by
  suffices ∀ tries, Shows World.view J P (tryRemoveDirLoop server dir tries) fun _ v => P v from this 3
  intro tries
  induction tries with
  | zero => exact Shows.pure fun _ hv => hv
  | succ tries ih =>
    refine Shows.bind (shows_list hJ dir) fun names => ?_
    cases names with
    | none => exact Shows.ask_bind hJ fun _ => Shows.pure fun _ hv => hv
    | some names =>
      refine Shows.bind (shows_anyOther hJ dir names) fun other => ?_
      cases other with
      | true => exact Shows.pure fun _ hv => hv
      | false =>
        refine Shows.bind (shows_removeAll hprune hJ dir names) fun _ => ?_
        refine Shows.bind (shows_removeDir hprune hJ dir) fun a => ?_
        rcases a with e | u
        · refine Shows.ask_bind hJ fun b => ?_
          by_cases hb : b = .ok false
          · simp only [hb, if_true]
            exact Shows.pure fun _ hv => hv
          · simp only [hb, if_false]
            exact ih
        · exact Shows.pure fun _ hv => hv

theorem shows_pruneUp (start : Path) (n : Nat) (acc : List Path × List Path) :
    Shows World.view J P (pruneUp server start n acc) fun _ v => P v := by
  induction n generalizing acc with
  | zero => exact Shows.pure fun _ hv => hv
  | succ n ih =>
    refine Shows.bind (shows_list hJ _) fun names => ?_
    cases names with
    | none => exact Shows.pure fun _ hv => hv
    | some names =>
      refine Shows.bind (shows_anyOther hJ _ names) fun other => ?_
      cases other with
      | true => exact Shows.pure fun _ hv => hv
      | false =>
        refine Shows.bind (shows_tryRemoveDir hprune hJ _) fun gone => ?_
        cases gone with
        | true => exact ih _
        | false => exact Shows.pure fun _ hv => hv

theorem shows_pruneAll (dirs : List Path) (acc : List Path × List Path) :
    Shows World.view J P (pruneAll server dirs acc) fun _ v => P v := by
  induction dirs generalizing acc with
  | nil => exact Shows.pure fun _ hv => hv
  | cons start dirs ih => exact Shows.bind (shows_pruneUp hprune hJ start start.length acc) ih

/-- The folders a run emptied. -/
theorem shows_pruneEmpty (startedIn : List Path) :
    Shows World.view J P (pruneEmpty server startedIn) fun _ v => P v :=
  Shows.bind (Q := fun _ => P) (Keeps.look fun _ hv => hv) fun _ => shows_pruneAll hprune hJ _ _

end Calls

end Ps5Upload.Collection
