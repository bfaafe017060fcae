import Mathlib.Data.List.Nodup
import Ps5Upload.Engine.Collection.Applied
import Ps5Upload.Engine.Collection.Undo

/-!
# Undo puts the library back

What an attempt to undo leaves: the moves that have happened are among those it still has to put
back, and when none of these has had a problem the files are home.  `revert` goes by the names where
the log says nothing, so this needs the two names of a move to speak of its own files (`Separate`) and
the questions about them to be answered (`Answered`).

* `undo_restores` — in every run with its crashes and attempts, nothing is ever replaced, an undo
  without problems has restored the tree, and no log is marked before that;
* `undo_chain` — two moves of which one ends where the other began: the mark is set with a file left
  at its new name.
-/

namespace Ps5Upload.Collection

open Moments

/-! ## The questions of the guess -/

/-- The moves `revert` asks nothing about. -/
abbrev UndoLog.Settled (log : UndoLog) (done : List Move) (mv : Move) : Prop :=
  mv ∈ done ∨ log.ruledOut mv = true ∨ mv.Contained = false

/-- How many questions `guess` asks of a tree that answers. -/
def questions (log : UndoLog) (t : Tree) : List Move → List Move → Nat
  | [], _ => 0
  | mv :: moves, done =>
    if log.Settled done mv then questions log t moves done
    else if t.has mv.dst then
      if t.has mv.src then 2 + questions log t moves done
      else 2 + questions log t moves (done ++ [mv])
    else 1 + questions log t moves done

/-- What it answers then. -/
def guessed (log : UndoLog) (t : Tree) : List Move → List Move → List Move
  | [], done => done
  | mv :: moves, done =>
    if log.Settled done mv then guessed log t moves done
    else if t.has mv.dst then
      if t.has mv.src then guessed log t moves done else guessed log t moves (done ++ [mv])
    else guessed log t moves done

/-- The tree answers every question that `revert` asks to guess with; the first two operations of an
attempt open the tree and ask for the folder itself. -/
def Answered (w : World UndoLog) : Prop :=
  ∀ log, w.view.disk = some log → ∀ n < questions log w.view.tree log.moves log.completed,
    w.fates (n + 2) = .works

theorem subset_guessed (log : UndoLog) (t : Tree) (ms : List Move) :
    ∀ done, ∀ m ∈ done, m ∈ guessed log t ms done := by
  induction ms with
  | nil => exact fun done m hm => hm
  | cons mv ms ih =>
    intro done m hm
    rw [guessed]
    split
    · exact ih done m hm
    · split
      · split
        · exact ih done m hm
        · exact ih _ m (List.mem_append_left _ hm)
      · exact ih done m hm

theorem guessed_subset (log : UndoLog) (t : Tree) (ms : List Move) :
    ∀ done, ∀ m ∈ guessed log t ms done, m ∈ done ∨ m ∈ ms := by
  induction ms with
  | nil => exact fun done m hm => .inl hm
  | cons mv ms ih =>
    intro done m hm
    have hskip : m ∈ guessed log t ms done → m ∈ done ∨ m ∈ mv :: ms := fun h =>
      (ih done m h).imp_right (List.mem_cons_of_mem _)
    rw [guessed] at hm
    split at hm
    · exact hskip hm
    · split at hm
      · split at hm
        · exact hskip hm
        · rcases ih _ m hm with h | h
          · rcases List.mem_append.1 h with h | h
            · exact .inl h
            · exact .inr (List.mem_singleton.1 h ▸ List.mem_cons_self)
          · exact .inr (List.mem_cons_of_mem _ h)
      · exact hskip hm

/-- A move that is not ruled out, with something at its new name and nothing at its old one, is taken
to have happened. -/
theorem mem_guessed {log : UndoLog} {t : Tree} {m : Move} (hlog : log.ruledOut m = false)
    (hc : m.Contained = true) (hdst : t.has m.dst = true) (hsrc : t.has m.src = false) (ms : List Move) :
    ∀ done, m ∈ ms → m ∈ guessed log t ms done := by
  induction ms with
  | nil => exact nofun
  | cons mv ms ih =>
    intro done hm
    rw [guessed]
    rcases List.mem_cons.1 hm with rfl | hm
    · split
      · next hset =>
        have hdone : m ∈ done := by simpa [UndoLog.Settled, hlog, hc] using hset
        exact subset_guessed log t ms done m hdone
      · simp only [hsrc, Bool.false_eq_true, if_false]
        exact subset_guessed log t ms _ m (List.mem_append_right _ (List.mem_singleton_self m))
    · split
      · exact ih done hm
      · split
        · split
          · exact ih done hm
          · exact ih _ hm
        · exact ih done hm

/-- The next `n` questions are answered. -/
def Answers (n : Nat) (w : World UndoLog) : Prop := ∀ i < n, w.fates i = .works

/-- A question with an answer. -/
theorem keeps_answer {I : World UndoLog → Prop} {v : State} (p : Path) (n : Nat)
    (hI : ∀ w, w.view = v → I w) :
    Keeps I (fun w => w.view = v ∧ Answers (n + 1) w) (exists' p)
      fun a w => a = .ok (v.tree.has p) ∧ w.view = v ∧ Answers n w := by
  refine Keeps.act fun w hw => ?_
  obtain ⟨rfl, ha⟩ := hw
  have h0 := ha 0 (Nat.succ_pos n)
  rw [h0]
  exact ⟨hI _ rfl, rfl, rfl, fun i hi => ha (i + 1) (by omega)⟩

/-- **The guess**: when its questions are answered, it goes by the tree. -/
theorem guess_spec {I : World UndoLog → Prop} (log : UndoLog) (v : State)
    (hI : ∀ w, w.view = v → I w) (ms : List Move) : ∀ done,
    Keeps I (fun w => w.view = v ∧ Answers (questions log v.tree ms done) w) (guess log ms done)
      fun a w => a = guessed log v.tree ms done ∧ w.view = v := by
  induction ms with
  | nil => exact fun done => Keeps.pure fun w hw => ⟨rfl, hw.1⟩
  | cons mv ms ih =>
    intro done
    rw [guess, guessed, questions]
    by_cases hset : log.Settled done mv
    · simp only [if_pos hset]
      exact ih done
    simp only [if_neg hset]
    -- One question about the new name; a second one where something is there.
    have hfirst : ∀ (n : Nat) (q : Act (List Move)) (R : List Move),
        Keeps I (fun w => w.view = v ∧ Answers n w) q (fun a w => a = R ∧ w.view = v) →
        (∀ b, b = v.tree.has mv.dst → (if (.ok b : Except OpError Bool) = .ok true then
            (exists' mv.src >>= fun a => if a = .ok false then guess log ms (done ++ [mv])
              else guess log ms done)
          else guess log ms done) = q) →
        Keeps I (fun w => w.view = v ∧ Answers (n + 1) w)
          (exists' mv.dst >>= fun a => if a = .ok true then
            (exists' mv.src >>= fun a => if a = .ok false then guess log ms (done ++ [mv])
              else guess log ms done)
          else guess log ms done) (fun a w => a = R ∧ w.view = v) := by
      intro n q R hq he
      refine Keeps.bind (keeps_answer mv.dst n hI) fun a => Keeps.of_and fun ha => ?_
      rw [ha, he _ rfl]
      exact hq
    have hsecond : ∀ (n : Nat) (ms' : List Move), n = questions log v.tree ms ms' →
        ms' = (if v.tree.has mv.src = true then done else done ++ [mv]) →
        Keeps I (fun w => w.view = v ∧ Answers (n + 1) w)
          (exists' mv.src >>= fun a => if a = .ok false then guess log ms (done ++ [mv])
            else guess log ms done)
          (fun a w => a = guessed log v.tree ms ms' ∧ w.view = v) := by
      rintro n ms' rfl hms
      refine Keeps.bind (keeps_answer mv.src _ hI) fun a => Keeps.of_and fun ha => ?_
      rw [ha, hms]
      cases v.tree.has mv.src with
      | true => exact ih done
      | false => exact ih (done ++ [mv])
    cases hdst : v.tree.has mv.dst with
    | false =>
      simp only [Bool.false_eq_true, if_false]
      rw [Nat.add_comm]
      exact hfirst _ _ _ (ih done) fun b hb => by simp [hb, hdst]
    | true =>
      cases hsrc : v.tree.has mv.src with
      | true =>
        simp only [if_true]
        rw [Nat.add_comm 2]
        exact hfirst _ _ _ (hsecond _ done rfl (by simp [hsrc])) fun b hb => by simp [hb, hdst]
      | false =>
        simp only [if_true, Bool.false_eq_true, if_false]
        rw [Nat.add_comm 2]
        exact hfirst _ _ _ (hsecond _ (done ++ [mv]) rfl (by simp [hsrc])) fun b hb => by
          simp [hb, hdst]

/-! ## Putting the moves back -/

section Undo

variable (server : Bool) (before : Tree) (moves : List Move) (log : UndoLog)

/-- The log on the disk is `log`, and the moves `D` are still to be put back. -/
structure Backing (D : List Move) (v : State) : Prop where
  replaced : v.replaced = false
  placed : Placed server before moves D v.tree
  disk : v.disk = some log
  sound : LogFor moves moves D log
  unmarked : log.reverted = false

variable {server before moves log} {D D' : List Move} {m : Move} {v : State}

theorem Backing.fine (h : Backing server before moves log D v) : Fine server before moves v := by
  refine ⟨h.replaced, ⟨D, h.placed, fun l hl _ => ?_⟩, fun l hl hrev => ?_⟩
  · rw [h.disk] at hl
    exact Option.some.inj hl ▸ h.sound
  · rw [h.disk] at hl
    rw [← Option.some.inj hl, h.unmarked] at hrev
    exact absurd hrev Bool.false_ne_true

/-- The tree changes; no more moves are to be put back than before. -/
theorem Backing.update {t : Tree} (h : Backing server before moves log D v)
    (ht : Placed server before moves D' t) (hD : ∀ m ∈ D', m ∈ D) :
    Backing server before moves log D' { v with tree := t } :=
  ⟨h.replaced, ht, h.disk, h.sound.mono (fun _ => id) fun m _ => hD m, h.unmarked⟩

variable (sep : Separate server before moves)

include sep

/-- A folder on the way to an old place. -/
theorem Backing.mkdir (hm : m ∈ D) {q : Path} (hq : q <+: m.src.dropLast)
    (h : Backing server before moves log D v) :
    Backing server before moves log D { v with tree := v.tree ++ [(q, .dir)] } := by
  have hc := h.placed.contained m hm
  have hqs : q <+: m.src := hq.trans (List.dropLast_prefix _)
  refine h.update (h.placed.mkdir (fun m' hm' hpre => ?_) fun m' hm' hc' hD' hpre => ?_) fun _ => id
  · by_cases he : m' = m
    · exact not_prefix_dropLast (m.src_ne_nil hc) hq (he ▸ hpre)
    · exact (sep.apart m' (h.placed.mem m' hm') m (h.placed.mem m hm) he (h.placed.contained m' hm')
        hc).1.1 (hpre.trans hqs)
  · have hne : m ≠ m' := fun he => hD' (he ▸ hm)
    exact (sep.apart m (h.placed.mem m hm) m' hm' hne hc hc').2.2.2 (hpre.trans hqs)

/-- What one move leaves to be put back: as much as before, or without the move, and without it where
there was no problem. -/
def Less (server : Bool) (before : Tree) (moves : List Move) (log : UndoLog) (D : List Move) (m : Move)
    (problem : Option (Why × Bool)) (v : State) : Prop :=
  ∃ D', Backing server before moves log D' v ∧ (∀ m' ∈ D', m' ∈ D) ∧ (problem = none → m ∉ D')

omit sep in
theorem less_of_problem {x : Why × Bool} (h : Backing server before moves log D v) :
    Less server before moves log D m (some x) v := ⟨D, h, fun _ => id, nofun⟩

/-- **One move back**: its own file, and never onto another. -/
theorem backing_undoMove (hm : m ∈ moves) (made : List Path) :
    Shows World.view (Fine server before moves) (Backing server before moves log D) (undoMove m made)
      fun r v => Less server before moves log D m r.1 v := by
  have hfine : ∀ D v, Backing server before moves log D v → Fine server before moves v :=
    fun _ _ => Backing.fine
  have hproblem : ∀ {P : State → Prop} {x : Why × Bool} {made : List Path},
      (∀ v, P v → Backing server before moves log D v) → Shows World.view (Fine server before moves) P
      (pure ((some x, made) : Option (Why × Bool) × List Path))
      fun r v => Less server before moves log D m r.1 v :=
    fun hP => Shows.pure fun v hv => less_of_problem (hP v hv)
  rw [undoMove]
  split
  · exact hproblem fun _ => id
  next hc =>
  have hc : m.Contained = true := by simpa using hc
  refine Shows.bind (shows_exists _ (hfine D)) fun atNew => ?_
  refine Shows.bind (shows_exists _ fun v hv => hfine D v hv.1) fun atOld => ?_
  rcases atNew with e | new
  · rcases atOld with e' | old
    · exact hproblem fun _ hv => hv.1.1
    · cases old with
      | true => exact hproblem fun _ hv => hv.1.1
      | false => exact hproblem fun _ hv => hv.1.1
  rcases atOld with e' | old
  · cases new with
    | true => exact hproblem fun _ hv => hv.1.1
    | false => exact hproblem fun _ hv => hv.1.1
  cases new with
  | false =>
    cases old with
    | false => exact hproblem fun _ hv => hv.1.1
    | true =>
      -- It is back already.
      refine Shows.pure fun v hv => ⟨D, hv.1.1, fun _ => id, fun _ hD => ?_⟩
      have := hv.1.1.placed.gone m hD
      rw [hv.2 true rfl] at this
      cases this
  | true =>
    cases old with
    | true => exact hproblem fun _ hv => hv.1.1
    | false =>
      -- The two names say that it is to be put back.
      refine Shows.pre (P := fun v => m ∈ D ∧ Backing server before moves log D v) ?_ fun v hv =>
        ⟨hv.1.1.placed.mem_of_has sep hm hc (hv.1.2 true rfl) (hv.2 false rfl), hv.1.1⟩
      refine Shows.of_and fun hD => ?_
      refine Shows.bind (shows_makeDirs made (hfine D) fun q hq v => Backing.mkdir sep hD hq) ?_
      rintro ⟨r, made⟩
      rcases r with e | u
      · exact hproblem fun _ => id
      refine Shows.bind (shows_renameNew (Q := Backing server before moves log (D.filter (· ≠ m)))
        (hfine D) (hfine _) fun v hv hsrc hdst _ =>
          hv.update (hv.placed.back sep hD) fun m' h => (List.mem_filter.1 h).1) fun a => ?_
      have hback : ∀ {v problem}, Backing server before moves log (D.filter (· ≠ m)) v →
          Less server before moves log D m problem v := fun hv =>
        ⟨_, hv, fun m' h => (List.mem_filter.1 h).1, fun _ h => by simpa using (List.mem_filter.1 h).2⟩
      rcases a with e | u
      · cases e with
        | lost => exact Shows.pure fun v hv => hv.elim less_of_problem hback
        | exists' => exact hproblem fun _ => id
        | other => exact hproblem fun _ => id
      · exact Shows.pure fun v hv => hback hv

/-- **The loop**: without a problem nothing is left to be put back. -/
theorem backing_undoMoves (rest : List Move) (hrest : ∀ m ∈ rest, m ∈ moves) : ∀ u : Undoing,
    Shows World.view (Fine server before moves)
      (fun v => ∃ D, Backing server before moves log D v ∧
        (u.out.problems = [] → ∀ m ∈ D, m ∈ rest))
      (undoMoves rest u)
      fun u v => ∃ D, Backing server before moves log D v ∧ (u.out.problems = [] → D = []) := by
  induction rest with
  | nil =>
    exact fun u => Shows.pure fun v ⟨D, hD, h⟩ =>
      ⟨D, hD, fun hu => List.eq_nil_iff_forall_not_mem.2 fun m hm => absurd (h hu m hm) List.not_mem_nil⟩
  | cons m rest ih =>
    intro u
    obtain ⟨hm, hrest⟩ := List.forall_mem_cons.1 hrest
    have hsome : ∀ (f : FailedMove) (u' : Undoing), u'.out.problems = u.out.problems ++ [f] →
        u'.out.problems ≠ [] := fun f u' h => by simp [h]
    rw [undoMoves]
    split
    · exact (ih hrest _).pre fun v ⟨D, hD, _⟩ => ⟨D, hD, fun h => absurd h (by simp)⟩
    · refine Shows.bind (R := _) (Q := fun r v => ∃ D, (u.out.problems = [] → ∀ m' ∈ D, m' ∈ m :: rest) ∧
        Less server before moves log D m r.1 v) ?_ ?_
      · intro w ⟨D, hD, hu⟩
        have := backing_undoMove (D := D) sep hm u.made w hD
        exact ⟨this.1, D, hu, this.2⟩
      · rintro ⟨problem, made⟩
        rcases problem with _ | ⟨why, lost⟩
        · refine (ih hrest _).pre ?_
          rintro v ⟨D, hu, D', hD', hsub, hnot⟩
          refine ⟨D', hD', fun h m' hm' => ?_⟩
          rcases List.mem_cons.1 (hu h m' (hsub m' hm')) with rfl | h'
          · exact absurd hm' (hnot rfl)
          · exact h'
        · refine (ih hrest _).pre ?_
          rintro v ⟨D, -, D', hD', -, -⟩
          exact ⟨D', hD', fun h => absurd h (by simp)⟩

/-! ## One attempt -/

/-- What an attempt leaves. -/
def Attempted (server : Bool) (before : Tree) (moves : List Move)
    (r : Except RevertError RevertResult) (v : State) : Prop :=
  Fine server before moves v ∧
    ∀ out, r = .ok out → out.problems = [] → Home server before moves v.tree

/-- From the log that is on the disk, with the questions of the guess answered. -/
theorem attempted_revertLog :
    Keeps (fun w => Fine server before moves w.view)
      (fun w => (∃ D, Backing server before moves log D w.view) ∧
        Answers (questions log w.view.tree log.moves log.completed) w)
      (revertLog server log) fun r w => Attempted server before moves r w.view := by
  refine Keeps.of_pre fun w hw => ?_
  obtain ⟨⟨D, hD⟩, ha⟩ := hw
  refine Keeps.bind ((guess_spec log w.view (fun w' hw' => hw' ▸ hD.fine) log.moves
    log.completed).pre fun w' hw' => by rw [hw']; exact ⟨rfl, ha⟩) fun done => Keeps.of_and fun hdone => ?_
  have hmoves : ∀ m ∈ done.reverse, m ∈ moves := by
    intro m hm
    rw [List.mem_reverse, hdone] at hm
    rcases guessed_subset log _ _ _ m hm with h | h
    · exact hD.sound.completed m h
    · exact hD.sound.moves_eq ▸ h
  -- A move that happened was guessed, or nothing is left of it at its new name.
  have hleft : ∀ m ∈ D, m ∈ done ∨ w.view.tree.has m.dst = false := by
    intro m hm
    refine (Bool.eq_false_or_eq_true (w.view.tree.has m.dst)).imp (fun hdst => ?_) id
    rw [hdone]
    refine mem_guessed ?_ (hD.placed.contained m hm) hdst (hD.placed.gone m hm) _ _
      (hD.sound.moves_eq ▸ hD.placed.mem m hm)
    refine List.any_eq_false.2 fun f hf hand => ?_
    simp only [Bool.and_eq_true, decide_eq_true_eq, Bool.not_eq_true'] at hand
    exact (hD.sound.failed f hf hand.2).1 (hand.1 ▸ hm)
  have honly : Backing server before moves log (D.filter (· ∈ done)) w.view :=
    hD.update (v := w.view) (hD.placed.only hleft) fun m hm => (List.mem_filter.1 hm).1
  refine Keeps.pre (P := fun w' => ∃ D, Backing server before moves log D w'.view ∧
    (([] : List FailedMove) = [] → ∀ m ∈ D, m ∈ done.reverse)) ?_ fun w' hw' =>
      hw' ▸ ⟨_, honly, fun _ m hm => by simpa using (List.mem_filter.1 hm).2⟩
  refine Shows.bind (backing_undoMoves sep done.reverse hmoves ⟨⟨[], []⟩, [], false⟩) fun u => ?_
  have hfine : ∀ v, (∃ D, Backing server before moves log D v ∧ (u.out.problems = [] → D = [])) →
      Fine server before moves v := fun v ⟨_, hD, _⟩ => hD.fine
  split
  · exact Shows.pure fun v hv => ⟨hfine v hv, nofun⟩
  refine Shows.bind (shows_pruneEmpty ?_ hfine _) fun _ => ?_
  · rintro v ⟨D, hD, hu⟩ keep hkeep
    exact ⟨D, hD.update (hD.placed.filter sep hkeep) fun _ => id, hu⟩
  have hhome : ∀ v, (∃ D, Backing server before moves log D v ∧ (u.out.problems = [] → D = [])) →
      u.out.problems = [] → Home server before moves v.tree := fun v ⟨D, hD, hu⟩ h =>
    (hu h ▸ hD.placed).home
  split
  next hnone =>
    refine Shows.bind (shows_writeLog (Q := fun v => Fine server before moves v ∧
      Home server before moves v.tree) _ hfine ?_ fun v hv => hv.1) fun a => ?_
    · intro v hv
      obtain ⟨D, hD, hu⟩ := hv
      have hh := hhome v ⟨D, hD, hu⟩ hnone
      refine ⟨⟨hD.replaced, ⟨D, hD.placed, fun l hl hrev => ?_⟩, fun _ _ _ => hh⟩, hh⟩
      rw [← Option.some.inj hl] at hrev
      cases hrev
    · rcases a with e | x
      · exact Shows.pure fun v hv => ⟨hfine v (by rwa [if_neg nofun] at hv), nofun⟩
      · exact Shows.pure fun v hv => ⟨(by simpa using hv : _ ∧ _).1, fun _ _ _ => (by simpa using hv : _ ∧ _).2⟩
  next hsome =>
    refine Shows.pure fun v hv => ⟨hfine v hv, fun out hout hnone => ?_⟩
    exact absurd (Except.ok.inj hout ▸ hnone) hsome

omit sep in
/-- A question leaves the next answers for later. -/
theorem keeps_ask {I : World UndoLog → Prop} {v : State} {α : Type} {r : Tree → α} (n : Nat)
    (hI : ∀ w, w.view = v → I w) :
    Keeps I (fun w => w.view = v ∧ ∀ i < n, w.fates (i + 1) = .works) (ask r)
      fun _ w => w.view = v ∧ Answers n w :=
  Keeps.act fun _ hw => ⟨hI _ hw.1, hw.1, hw.2⟩

/-- **One attempt to undo**, whole or up to any of its moments. -/
theorem attempted_revert :
    Keeps (fun w => Fine server before moves w.view)
      (fun w => Fine server before moves w.view ∧ Answered w) (revert server)
      fun r w => Attempted server before moves r w.view := by
  refine Keeps.of_pre fun w ⟨hw, ha⟩ => ?_
  rw [revert]
  refine Keeps.look_bind fun disk => ?_
  have herr : ∀ {P : World UndoLog → Prop} (e : RevertError), (∀ w', P w' → w'.view = w.view) →
      Keeps (fun w => Fine server before moves w.view) P
        (pure (.error e : Except RevertError RevertResult))
        fun r w => Attempted server before moves r w.view := fun e hP =>
    Keeps.pure fun w' hw' => ⟨hP w' hw' ▸ hw, nofun⟩
  cases disk with
  | none => exact herr _ fun w' hw' => hw'.1 ▸ rfl
  | some log =>
    by_cases hdisk : w.view.disk = some log
    swap
    · exact Keeps.of_pre fun w' hw' => absurd (hw'.1 ▸ hw'.2) hdisk
    dsimp only
    split
    · exact herr _ fun w' hw' => hw'.1 ▸ rfl
    next hrev =>
    have hrev : log.reverted = false := by simpa using hrev
    have hI : ∀ w' : World UndoLog, w'.view = w.view → Fine server before moves w'.view :=
      fun w' h => h ▸ hw
    let n := questions log w.view.tree log.moves log.completed
    have hopen : Keeps (fun w => Fine server before moves w.view)
        (fun w' => w' = w ∧ w'.view.disk = some log) (ask fun _ => ())
        fun _ w' => w'.view = w.view ∧ ∀ i < n, w'.fates (i + 1) = .works :=
      Keeps.act fun w' hw' => ⟨hw'.1 ▸ hw, hw'.1 ▸ rfl, fun i hi => hw'.1 ▸ ha log hdisk i hi⟩
    refine Keeps.bind hopen fun a => ?_
    rcases a with e | x
    · exact herr _ fun w' hw' => hw'.1
    refine Keeps.bind (keeps_ask n hI) fun a => ?_
    rcases a with e | b
    · exact herr _ fun w' hw' => hw'.1
    cases b with
    | false => exact herr _ fun w' hw' => hw'.1
    | true =>
      refine (attempted_revertLog sep).pre fun w' hw' => ?_
      obtain ⟨D, hD, hlog⟩ := hw.placed
      refine ⟨⟨D, ?_⟩, ?_⟩
      · rw [hw'.1]
        exact ⟨hw.replaced, hD, hdisk, hlog log hdisk hrev, hrev⟩
      · rw [hw'.1]
        exact hw'.2

end Undo

/-! ## Runs -/

/-- Wherever a program stops, the state is one it passes through. -/
theorem stopAt_of_keeps {I P : World UndoLog → Prop} {α : Type} {p : Act α}
    {Q : α → World UndoLog → Prop} (h : Keeps I P p Q) (hQ : ∀ a w, Q a w → I w)
    {w : World UndoLog} (hI : I w) (hP : P w) (n : Nat) : I (stopAt p w n) := by
  obtain ⟨hseen, hlast⟩ := h w hP
  rw [stopAt, List.getD_eq_getElem?_getD]
  cases hn : (w :: (p w).seen)[n]? with
  | none => exact hQ _ _ hlast
  | some w' =>
    rcases List.mem_cons.1 (List.mem_of_getElem? hn) with rfl | hmem
    · exact hI
    · exact hseen w' hmem

/-- **Undo**: a run of moves that stops anywhere, and attempts to undo it that stop anywhere.  Nothing
is ever replaced, a marked log has every file home, and so has an attempt that reports no problem. -/
theorem undo_restores (server : Bool) (before : Tree) (moves : List Move)
    (hdistinct : (moves.map Move.from').Nodup) (sep : Separate server before moves)
    (fates : Nat → Fate) (sets : Nat → Path → Nat) (crash : Nat) (stops : List Nat) (w : World UndoLog)
    (hrun : Runs.exec (undoStep server)
      (stopAt (apply server moves) ⟨⟨before, none, false⟩, fates, sets⟩ crash) stops = some w)
    (hok : Runs.Meets (undoStep server) (fun w _ => Answered w)
      (stopAt (apply server moves) ⟨⟨before, none, false⟩, fates, sets⟩ crash) stops) :
    w.view.replaced = false ∧
      (∀ log, w.view.disk = some log → log.reverted = true → Home server before moves w.view.tree) ∧
      (Answered w → ∀ out, (revert server w).value = .ok out → out.problems = [] →
        Home server before moves (revert server w).last.view.tree) := by
  have hnodup : moves.Nodup := List.Nodup.of_map _ hdistinct
  have hstart : Fine server before moves ⟨before, none, false⟩ :=
    ⟨rfl, ⟨[], .start, nofun⟩, nofun⟩
  have hfirst := stopAt_of_keeps (fine_apply sep hnodup) (fun _ _ h => h)
    (w := ⟨⟨before, none, false⟩, fates, sets⟩) hstart rfl crash
  have hstep : ∀ w stop w', Fine server before moves w.view → Answered w →
      undoStep server w stop = some w' → Fine server before moves w'.view := by
    intro w stop w' hw ha hstep
    rw [← Option.some.inj hstep]
    exact stopAt_of_keeps (attempted_revert sep) (fun _ _ h => h.1) hw ⟨hw, ha⟩ stop
  have hfine : Fine server before moves w.view :=
    Runs.exec_inv_of_meets hstep hfirst hok hrun
  exact ⟨hfine.replaced, hfine.home, fun ha => (attempted_revert sep w ⟨hfine, ha⟩).2.2⟩

/-- Two files, of which the first one moves away and the second one takes its name; the run dies before
the log says so, and undo takes the first one for not moved. -/
theorem undo_chain :
    let before : Tree := [([['a']], .file [1]), ([['c']], .file [2])]
    let moves : List Move :=
      [⟨[.normal ['a']], [.normal ['b']], ""⟩, ⟨[.normal ['c']], [.normal ['a']], ""⟩]
    let w := stopAt (apply false moves) ⟨⟨before, none, false⟩, fun _ => .works, fun _ _ => 0⟩ 9
    (moves.map Move.from').Nodup ∧ (moves.map Move.to').Nodup ∧
      (revert false w).value = .ok ⟨[⟨[.normal ['c']], [.normal ['a']], ""⟩], []⟩ ∧
      (revert false w).last.view.disk.map UndoLog.reverted = some true ∧
      (revert false w).last.view.tree = [([['b']], .file [1]), ([['c']], .file [2])] := by
  decide

/-- The same two files with names apart, after a crash at the same moment. -/
theorem undo_apart :
    let before : Tree := [([['a']], .file [1]), ([['c']], .file [2])]
    let moves : List Move :=
      [⟨[.normal ['a']], [.normal ['b']], ""⟩, ⟨[.normal ['c']], [.normal ['d']], ""⟩]
    Home false before moves
      (revert false (stopAt (apply false moves) ⟨⟨before, none, false⟩, fun _ => .works, fun _ _ => 0⟩ 9)).last.view.tree := by
  intro before moves
  have hvalue : (revert false (stopAt (apply false moves)
      ⟨⟨before, none, false⟩, fun _ => .works, fun _ _ => 0⟩ 9)).value = .ok ⟨moves.reverse, []⟩ := by decide
  have hanswered : Answered (stopAt (apply false moves) ⟨⟨before, none, false⟩, fun _ => .works, fun _ _ => 0⟩ 9) := by
    intro log hlog n hn
    have hdisk : (stopAt (apply false moves) ⟨⟨before, none, false⟩, fun _ => .works, fun _ _ => 0⟩ 9).view.disk =
        some ⟨moves, [], [], [], [], false⟩ := by decide +kernel
    rw [← Option.some.inj (hdisk.symm.trans hlog)] at hn
    have hfew : ∀ n < questions ⟨moves, [], [], [], [], false⟩
        (stopAt (apply false moves) ⟨⟨before, none, false⟩, fun _ => .works, fun _ _ => 0⟩ 9).view.tree moves [],
        (stopAt (apply false moves) ⟨⟨before, none, false⟩, fun _ => .works, fun _ _ => 0⟩ 9).fates (n + 2) =
          .works := by decide +kernel
    exact hfew n hn
  exact (undo_restores false before moves (by decide) ⟨by decide, by decide, by decide⟩
    (fun _ => .works) (fun _ _ => 0) 9 [] _ rfl trivial).2.2 hanswered _ hvalue rfl

end Ps5Upload.Collection
