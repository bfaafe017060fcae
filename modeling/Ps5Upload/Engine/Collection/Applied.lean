import Ps5Upload.Engine.Collection.Calls

/-!
# What a run of moves leaves, wherever it stops

`Logging`: the moves that have happened are among those the run has come to, and no log, on the disk
or in hand, says of one of them that it failed for certain.  Every operation of `apply` keeps it, and
so does the whole run: whatever fails and wherever it stops, the state is `Fine`.
-/

namespace Ps5Upload.Collection

open Moments

section Applying

variable (server : Bool) (before : Tree) (moves : List Move)

/-- The moves that failed for certain are of those in `past`, and did not happen. -/
def FailedFor (past D : List Move) (failed : List FailedMove) : Prop :=
  ∀ f ∈ failed, f.uncertain = false → f.mv ∉ D ∧ f.mv ∈ past

/-- What a log says is so. -/
structure LogFor (past D : List Move) (log : UndoLog) : Prop where
  moves_eq : log.moves = moves
  completed : ∀ m ∈ log.completed, m ∈ moves
  failed : FailedFor past D log.failed

/-- The run has come to the moves `past`, of which `D` have happened. -/
structure Doing (past D : List Move) (v : State) : Prop where
  replaced : v.replaced = false
  placed : Placed server before moves D v.tree
  reached : ∀ m ∈ D, m ∈ past
  known : ∀ m ∈ past, m ∈ moves
  disk : ∀ log, v.disk = some log → LogFor moves past D log ∧ log.reverted = false

/-- In hand is the log, and what else has failed. -/
def Logging (past : List Move) (log : UndoLog) (failed : List FailedMove) (v : State) : Prop :=
  log.reverted = false ∧ ∃ D, Doing server before moves past D v ∧ LogFor moves past D log ∧
    FailedFor past D failed

/-- What every moment of a run and of its undoing has. -/
structure Fine (v : State) : Prop where
  replaced : v.replaced = false
  placed : ∃ D, Placed server before moves D v.tree ∧
    ∀ log, v.disk = some log → log.reverted = false → LogFor moves moves D log
  home : ∀ log, v.disk = some log → log.reverted = true → Home server before moves v.tree

/-- A move of the run that stays in the folder. -/
def InRun (m : Move) : Prop := m ∈ moves ∧ m.Contained = true

end Applying

section Rules

variable {server : Bool} {before : Tree} {moves past past' D D' : List Move} {log : UndoLog}
  {failed : List FailedMove} {m : Move} {v : State}

theorem FailedFor.mono (h : FailedFor past D failed) (hp : ∀ m ∈ past, m ∈ past')
    (hD : ∀ m ∈ past, m ∈ D' → m ∈ D) : FailedFor past' D' failed :=
  fun f hf hu => ⟨fun hm => (h f hf hu).1 (hD _ (h f hf hu).2 hm), hp _ (h f hf hu).2⟩

theorem LogFor.mono (h : LogFor moves past D log) (hp : ∀ m ∈ past, m ∈ past')
    (hD : ∀ m ∈ past, m ∈ D' → m ∈ D) : LogFor moves past' D' log :=
  ⟨h.moves_eq, h.completed, h.failed.mono hp hD⟩

theorem FailedFor.append {more : List FailedMove} (h : FailedFor past D failed)
    (h' : FailedFor past D more) : FailedFor past D (failed ++ more) :=
  fun f hf => (List.mem_append.1 hf).elim (h f) (h' f)

/-- Moves the run has not come to yet have not happened. -/
theorem FailedFor.untried {rest : List Move} (hD : ∀ m ∈ D, m ∉ rest) (hp : ∀ m ∈ rest, m ∈ past)
    (why : Why) : FailedFor past D (rest.map (FailedMove.new · why)) := by
  intro f hf _
  obtain ⟨m, hm, rfl⟩ := List.mem_map.1 hf
  exact ⟨fun h => hD m h hm, hp m hm⟩

theorem Logging.fine (h : Logging server before moves past log failed v) :
    Fine server before moves v := by
  obtain ⟨-, D, hd, -, -⟩ := h
  refine ⟨hd.replaced, ⟨D, hd.placed, fun log hlog _ => ?_⟩, fun log hlog hrev => ?_⟩
  · exact (hd.disk log hlog).1.mono hd.known fun _ _ => id
  · rw [(hd.disk log hlog).2] at hrev
    exact absurd hrev Bool.false_ne_true

theorem Logging.mono (h : Logging server before moves past log failed v)
    (hp : ∀ m ∈ past, m ∈ past') (hmoves : ∀ m ∈ past', m ∈ moves) :
    Logging server before moves past' log failed v := by
  obtain ⟨hrev, D, hd, hlog, hfailed⟩ := h
  refine ⟨hrev, D, ⟨hd.replaced, hd.placed, fun m hm => hp m (hd.reached m hm), hmoves,
    fun l hl => ⟨(hd.disk l hl).1.mono hp fun _ _ => id, (hd.disk l hl).2⟩⟩,
    hlog.mono hp fun _ _ => id, hfailed.mono hp fun _ _ => id⟩

/-- The tree changes, and with it the moves that have happened: of `past` none more. -/
theorem Doing.update {t : Tree} (h : Doing server before moves past D v)
    (ht : Placed server before moves D' t) (hp : ∀ m ∈ past, m ∈ past')
    (hD : ∀ m ∈ past, m ∈ D' → m ∈ D) (hD' : ∀ m ∈ D', m ∈ past')
    (hmoves : ∀ m ∈ past', m ∈ moves) :
    Doing server before moves past' D' { v with tree := t } :=
  ⟨h.replaced, ht, hD', hmoves, fun l hl => ⟨(h.disk l hl).1.mono hp hD, (h.disk l hl).2⟩⟩

theorem not_prefix_dropLast {p q : Path} (hp : p ≠ []) (hq : q <+: p.dropLast) : ¬ p <+: q := by
  intro h
  have hle := (h.trans hq).length_le
  have := List.length_pos_iff.2 hp
  rw [List.length_dropLast] at hle
  omega

variable (sep : Separate server before moves)

include sep

theorem prunable_logging : Prunable server (Logging server before moves past log failed) := by
  rintro v ⟨hrev, D, hd, hlog, hfailed⟩ keep hkeep
  exact ⟨hrev, D, Doing.update hd (hd.placed.filter sep hkeep) (fun _ => id) (fun _ _ => id) hd.reached
    hd.known, hlog, hfailed⟩

/-- A folder on the way to a new place. -/
theorem Logging.mkdir (hm : InRun moves m) (hpast : m ∉ past) {q : Path} (hq : q <+: m.dst.dropLast)
    (h : Logging server before moves past log failed v) :
    Logging server before moves past log failed { v with tree := v.tree ++ [(q, .dir)] } := by
  obtain ⟨hrev, D, hd, hlog, hfailed⟩ := h
  have hqd : q <+: m.dst := hq.trans (List.dropLast_prefix _)
  refine ⟨hrev, D, Doing.update hd (hd.placed.mkdir (fun m' hm' hpre => ?_)
    fun m' hm' hc' hD' hpre => ?_) (fun _ => id) (fun _ _ => id) hd.reached hd.known, hlog, hfailed⟩
  · have hne : m' ≠ m := fun he => hpast (he ▸ hd.reached m' hm')
    exact (sep.apart m' (hd.placed.mem m' hm') m hm.1 hne (hd.placed.contained m' hm') hm.2).2.2.1
      (hpre.trans hqd)
  · by_cases he : m' = m
    · exact not_prefix_dropLast (m.dst_ne_nil hm.2) hq (he ▸ hpre)
    · exact (sep.apart m' hm' m hm.1 he hc' hm.2).2.1.1 (hpre.trans hqd)

/-- **One move**: where it fails for certain it has not happened. -/
theorem logging_moveOne (hm : m ∈ moves) (hpast : m ∉ past) (made : List Path) :
    Shows World.view (Fine server before moves) (Logging server before moves past log failed)
      (moveOne m made) fun r v => (r.1 = .ok () → m.Contained = true) ∧
        After (Logging server before moves past log failed)
          (Logging server before moves (m :: past) log failed) r.1 v := by
  have hfine : ∀ p v, Logging server before moves p log failed v → Fine server before moves v :=
    fun _ _ => Logging.fine
  rw [moveOne]
  split
  · exact Shows.pure fun v hv => ⟨nofun, hv⟩
  next hc =>
  have hc : m.Contained = true := by simpa using hc
  refine Shows.bind (shows_exists _ (hfine past)) fun a => ?_
  have herr : ∀ (e : OpError) (made : List Path), Shows World.view (Fine server before moves)
      (Logging server before moves past log failed)
      (pure ((.error e, made) : Except OpError Unit × List Path)) fun r v =>
        (r.1 = .ok () → m.Contained = true) ∧ After (Logging server before moves past log failed)
          (Logging server before moves (m :: past) log failed) r.1 v := by
    intro e made
    refine Shows.pure fun v hv => ⟨nofun, ?_⟩
    cases e with
    | exists' => exact hv
    | lost => exact .inl hv
    | other => exact hv
  rcases a with e | b
  · exact (herr e made).pre fun _ hv => hv.1
  cases b with
  | true => exact (herr .exists' made).pre fun _ hv => hv.1
  | false =>
    refine Shows.pre (P := Logging server before moves past log failed) ?_ fun _ hv => hv.1
    refine Shows.bind (shows_makeDirs made (hfine past) fun q hq v =>
      Logging.mkdir sep ⟨hm, hc⟩ hpast hq) fun r => ?_
    obtain ⟨r, made⟩ := r
    rcases r with e | u
    · exact herr e made
    refine Shows.bind (shows_renameNew (Q := Logging server before moves (m :: past) log failed)
      (hfine past) (hfine _) ?_) fun a => Shows.pure fun v hv => ⟨fun _ => hc, hv⟩
    rintro v ⟨hrev, D, hd, hlog, hfailed⟩ hdst hsrc hin
    have hD : m ∉ D := fun h => hpast (hd.reached m h)
    have hback : ∀ m' ∈ past, m' ∈ m :: D → m' ∈ D := fun m' hm' h =>
      (List.mem_cons.1 h).resolve_left fun he => hpast (he ▸ hm')
    have hp : ∀ m' ∈ past, m' ∈ m :: past := fun _ => List.mem_cons_of_mem _
    exact ⟨hrev, m :: D, Doing.update hd (hd.placed.there sep hm hc hD hdst hsrc hin) hp hback
      (List.forall_mem_cons.2 ⟨List.mem_cons_self, fun m' hm' => hp m' (hd.reached m' hm')⟩)
      (List.forall_mem_cons.2 ⟨hm, hd.known⟩), hlog.mono hp hback, hfailed.mono hp hback⟩

/-! ## A split set -/

/-- What a group of moves leaves. -/
abbrev Ran (server : Bool) (before : Tree) (moves past : List Move) (log : UndoLog) (run : GroupRun)
    (v : State) : Prop :=
  (∀ m ∈ run.moved, InRun moves m) ∧ Logging server before moves past log run.failed v

/-- The parts that went, back. -/
theorem logging_putBack (why : Why) (done : List Move) (hdone : ∀ m ∈ done, InRun moves m) :
    ∀ run : GroupRun, Shows World.view (Fine server before moves)
      (Ran server before moves past log run) (putBack why done run)
      (Ran server before moves past log) := by
  induction done with
  | nil => exact fun run => Shows.pure fun _ hv => hv
  | cons m done ih =>
    intro run
    obtain ⟨hm, hdone⟩ := List.forall_mem_cons.1 hdone
    have hfine : ∀ run v, Ran server before moves past log run v → Fine server before moves v :=
      fun _ _ hv => hv.2.fine
    let put : GroupRun :=
      { run with
        emptied := run.emptied ++ [m.dst.dropLast]
        failed := run.failed ++ [.new m (.putBack why)] }
    have hstill : ∀ (lost : Bool) (v : State), Ran server before moves past log run v ∨
        Ran server before moves past log put v →
        Ran server before moves past log { run with lost := lost, moved := run.moved ++ [m] } v := by
      intro lost v hv
      have hmoved : ∀ m' ∈ run.moved ++ [m], InRun moves m' := by
        intro m' hm'
        rcases List.mem_append.1 hm' with h | h
        · exact hv.elim (fun hv => hv.1 m' h) fun hv => hv.1 m' h
        · exact List.mem_singleton.1 h ▸ hm
      refine ⟨hmoved, ?_⟩
      rcases hv with hv | ⟨-, hrev, D, hd, hlog, hfailed⟩
      · exact hv.2
      · exact ⟨hrev, D, hd, hlog, fun f hf => hfailed f (List.mem_append_left _ hf)⟩
    refine Shows.bind (shows_renameNew (Q := Ran server before moves past log put) (hfine run)
      (hfine put) ?_) fun a => ?_
    · rintro v ⟨hmoved, hrev, D, hd, hlog, hfailed⟩ hsrc hdst -
      have hD := hd.placed.mem_of_has sep hm.1 hm.2 hdst hsrc
      have hsub : ∀ m' ∈ D.filter (· ≠ m), m' ∈ D := fun m' h => (List.mem_filter.1 h).1
      refine ⟨hmoved, hrev, D.filter (· ≠ m), Doing.update hd (hd.placed.back sep hD) (fun _ => id)
        (fun m' _ => hsub m') (fun m' h => hd.reached m' (hsub m' h)) hd.known,
        hlog.mono (fun _ => id) fun m' _ => hsub m',
        (hfailed.mono (fun _ => id) fun m' _ => hsub m').append ?_⟩
      intro f hf _
      rw [List.mem_singleton.1 hf]
      exact ⟨fun h => by simpa [FailedMove.new] using (List.mem_filter.1 h).2, hd.reached m hD⟩
    · rcases a with e | u
      · cases e with
        | lost => exact (ih hdone _).pre fun v hv => hstill true v hv
        | exists' => exact (ih hdone _).pre fun v hv => hstill run.lost v (.inl hv)
        | other => exact (ih hdone _).pre fun v hv => hstill run.lost v (.inl hv)
      · exact ih hdone put

/-- The loop over a group. -/
theorem logging_moveAll (group : List Move) : ∀ (past : List Move) (made : List Path) (run : GroupRun),
    (∀ m ∈ group, m ∈ moves) → group.Nodup → (∀ m ∈ group, m ∉ past) →
    Shows World.view (Fine server before moves) (Ran server before moves past log run)
      (moveAll group made run) fun r v => Ran server before moves (group ++ past) log r.1 v := by
  induction group with
  | nil => exact fun past made run _ _ _ => Shows.pure fun _ hv => hv
  | cons m rest ih =>
    intro past made run hmoves hnodup hpast
    obtain ⟨hm, hrest⟩ := List.forall_mem_cons.1 hmoves
    obtain ⟨hmrest, hnodup⟩ := List.nodup_cons.1 hnodup
    obtain ⟨hmpast, hrpast⟩ := List.forall_mem_cons.1 hpast
    have hnew : ∀ m' ∈ rest, m' ∉ m :: past := fun m' h h' =>
      (List.mem_cons.1 h').elim (fun he => hmrest (he ▸ h)) (hrpast m' h)
    have hall : ∀ v, Logging server before moves past log run.failed v →
        ∀ m' ∈ m :: rest ++ past, m' ∈ moves := fun v ⟨_, _, hd, _, _⟩ m' h =>
      (List.mem_append.1 h).elim (fun h => hmoves m' h) (hd.known m')
    rw [moveAll]
    refine Shows.of_and fun hmoved => Shows.bind (logging_moveOne sep hm hmpast made) ?_
    rintro ⟨a, made⟩
    rcases a with e | u
    · -- The moves after it are not tried; what happened of it is open when its answer is lost.
      have huntried : ∀ D why, (∀ m' ∈ D, m' ∈ m :: past) → FailedFor (m :: rest ++ past) D
          (rest.map (FailedMove.new · why)) := fun D why hD =>
        .untried (fun m' h h' => hnew m' h' (hD m' h)) (fun m' h => by simp [h]) why
      have hcertain : ∀ why why', Shows World.view (Fine server before moves)
          (Logging server before moves past log run.failed)
          (do
            let r ← putBack why run.moved.reverse
              { run with
                moved := []
                failed := run.failed ++ .new m why :: rest.map (FailedMove.new · why') }
            return (r, made))
          fun r v => Ran server before moves (m :: rest ++ past) log r.1 v := by
        intro why why'
        refine Shows.bind ((logging_putBack sep why run.moved.reverse
          (fun m' h => hmoved m' (List.mem_reverse.1 h)) _).pre ?_) fun r => Shows.pure fun _ hv => hv
        intro v hv
        obtain ⟨hrev, D, hd, hlog, hfailed⟩ := hv
        have hp : ∀ m' ∈ past, m' ∈ m :: rest ++ past := fun m' h => List.mem_append_right _ h
        refine ⟨nofun, hrev, D,
          ⟨hd.replaced, hd.placed, fun m' h => hp m' (hd.reached m' h), hall v ⟨hrev, D, hd, hlog, hfailed⟩,
            fun l hl => ⟨(hd.disk l hl).1.mono hp fun _ _ => id, (hd.disk l hl).2⟩⟩,
          hlog.mono hp fun _ _ => id, (hfailed.mono hp fun _ _ => id).append ?_⟩
        refine List.forall_mem_cons.2 ⟨fun _ => ⟨fun h => hmpast (hd.reached m h), by simp [FailedMove.new]⟩,
          huntried D why' fun m' h => List.mem_cons_of_mem _ (hd.reached m' h)⟩
      cases e with
      | lost =>
        refine Shows.pure fun v hv => ⟨hmoved, ?_⟩
        have hv' : Logging server before moves (m :: past) log run.failed v := by
          rcases hv.2 with hv | hv
          · exact hv.mono (fun m' => List.mem_cons_of_mem _) fun m' h =>
              hall v hv m' (List.mem_cons.1 h |>.elim (fun he => by simp [he]) fun h => by simp [h])
          · exact hv
        obtain ⟨hrev, D, hd, hlog, hfailed⟩ := hv'
        have hp : ∀ m' ∈ m :: past, m' ∈ m :: rest ++ past := by
          intro m' h
          rcases List.mem_cons.1 h with rfl | h
          · exact List.mem_cons_self
          · exact List.mem_append_right _ h
        refine ⟨hrev, D, ⟨hd.replaced, hd.placed, fun m' h => hp m' (hd.reached m' h), ?_,
            fun l hl => ⟨(hd.disk l hl).1.mono hp fun _ _ => id, (hd.disk l hl).2⟩⟩,
          hlog.mono hp fun _ _ => id, (hfailed.mono hp fun _ _ => id).append ?_⟩
        · intro m' h
          rcases List.mem_append.1 h with h | h
          · exact hmoves m' h
          · exact hd.known m' (List.mem_cons_of_mem _ h)
        · exact List.forall_mem_cons.2 ⟨nofun, huntried D .notTried hd.reached⟩
      | exists' => exact (hcertain .appeared (.otherPart .appeared)).pre fun _ hv => hv.2
      | other => exact (hcertain (.failed .other) (.otherPart (.failed .other))).pre fun _ hv => hv.2
    · refine Shows.pre (P := fun v => m.Contained = true ∧
        Logging server before moves (m :: past) log run.failed v) ?_ fun v hv => ⟨hv.1 rfl, hv.2⟩
      refine Shows.of_and fun hc => ?_
      have hran : ∀ m' ∈ run.moved ++ [m], InRun moves m' := by
        intro m' h
        rcases List.mem_append.1 h with h | h
        · exact hmoved m' h
        · exact List.mem_singleton.1 h ▸ ⟨hm, hc⟩
      refine ((ih (m :: past) made { run with moved := run.moved ++ [m] } hrest hnodup hnew).post ?_).pre
        fun v hv => ⟨hran, hv⟩
      intro r v hv
      refine ⟨hv.1, hv.2.mono (fun m' h => ?_) fun m' h => ?_⟩
      · simpa [or_left_comm] using h
      · obtain ⟨-, _, hd, -, -⟩ := hv.2
        exact hd.known m' (by simpa [or_left_comm] using h)

omit sep in
theorem shows_setCannotStart {P : State → Prop} (hP : ∀ v, P v → Fine server before moves v)
    (group : List Move) :
    Shows World.view (Fine server before moves) P (setCannotStart group) fun _ v => P v := by
  induction group with
  | nil => exact Shows.pure fun _ hv => hv
  | cons m group ih =>
    rw [setCannotStart]
    split
    · exact Shows.pure fun _ hv => hv
    · refine Shows.ask_bind hP fun a => ?_
      rcases a with e | b
      · exact Shows.pure fun _ hv => hv
      cases b with
      | false => exact Shows.pure fun _ hv => hv
      | true =>
        refine Shows.ask_bind hP fun a => ?_
        rcases a with e | b
        · exact Shows.pure fun _ hv => hv
        cases b with
        | false => exact ih
        | true => exact Shows.pure fun _ hv => hv

omit sep in
/-- A group that is not started at all. -/
theorem Logging.untried {group : List Move} (hmoves : ∀ m ∈ group, m ∈ moves)
    (hpast : ∀ m ∈ group, m ∉ past) (why : Why) (h : Logging server before moves past log failed v) :
    Logging server before moves (group ++ past) log
      (failed ++ group.map (FailedMove.new · why)) v := by
  obtain ⟨hrev, D, hd, hlog, hfailed⟩ : Logging server before moves (group ++ past) log failed v := h.mono
    (fun m' h => List.mem_append_right _ h) fun m' h' =>
      (List.mem_append.1 h').elim (hmoves m') fun h'' => by
        obtain ⟨-, _, hd, -, -⟩ := h
        exact hd.known m' h''
  obtain ⟨-, D, hd', hlog', hfailed'⟩ := h
  have hp : ∀ m' ∈ past, m' ∈ group ++ past := fun m' h => List.mem_append_right _ h
  exact ⟨hrev, D, Doing.update hd' hd'.placed hp (fun _ _ => id) (fun m' h => hp m' (hd'.reached m' h))
    hd.known, hlog'.mono hp fun _ _ => id, (hfailed'.mono hp fun _ _ => id).append
      (.untried (fun m' h h' => hpast m' h' (hd'.reached m' h)) (fun m' h => List.mem_append_left _ h) why)⟩

/-- **A group of moves**: one of them, or a split set. -/
theorem logging_runGroup {group : List Move} (made : List Path) (hmoves : ∀ m ∈ group, m ∈ moves)
    (hnodup : group.Nodup) (hpast : ∀ m ∈ group, m ∉ past) :
    Shows World.view (Fine server before moves) (Logging server before moves past log [])
      (runGroup group made) fun r v => Ran server before moves (group ++ past) log r.1 v := by
  have hall : Shows World.view (Fine server before moves) (Logging server before moves past log [])
      (moveAll group made ⟨[], [], [], false⟩)
      fun r v => Ran server before moves (group ++ past) log r.1 v :=
    (logging_moveAll sep group past made ⟨[], [], [], false⟩ hmoves hnodup hpast).pre fun v hv =>
      ⟨nofun, hv⟩
  have huntried : ∀ (why : Why) (lost : Bool),
      Shows World.view (Fine server before moves) (Logging server before moves past log [])
        (pure (⟨[], group.map (FailedMove.new · why), [], lost⟩, made))
        fun r v => Ran server before moves (group ++ past) log r.1 v := fun why lost =>
    Shows.pure fun v hv => ⟨nofun, hv.untried hmoves hpast why⟩
  rw [runGroup]
  split
  · refine Shows.bind (shows_setCannotStart (fun _ => Logging.fine) group) fun a => ?_
    rcases a with e | why
    · cases e with
      | lost => exact huntried _ true
      | exists' => exact huntried _ false
      | other => exact huntried _ false
    · cases why with
      | none => exact hall
      | some why => exact huntried why false
  · exact hall

/-! ## The run -/

omit sep in
/-- The log on the disk is the one in hand. -/
theorem Logging.write (h : Logging server before moves past log failed v) :
    Logging server before moves past log failed { v with disk := some log } := by
  obtain ⟨hrev, D, hd, hlog, hfailed⟩ := h
  refine ⟨hrev, D, ⟨hd.replaced, hd.placed, hd.reached, hd.known, fun l hl => ?_⟩, hlog, hfailed⟩
  exact Option.some.inj hl ▸ ⟨hlog, hrev⟩

omit sep in
theorem logging_writeLog : Shows World.view (Fine server before moves)
    (Logging server before moves past log failed) (writeLog log)
    fun _ v => Logging server before moves past log failed v :=
  (shows_writeLog log (fun _ => Logging.fine) (fun _ => Logging.write) fun _ => Logging.fine).post
    fun a v h => by split at h <;> exact h

/-- The moves of a group that happened, into the log. -/
theorem logging_logMoved (moved : List Move) (hmoved : ∀ m ∈ moved, InRun moves m) :
    ∀ (log : UndoLog) (started : List Path), Shows World.view (Fine server before moves)
      (Logging server before moves past log failed) (logMoved server moved log started)
      fun r v => Logging server before moves past r.1 failed v := by
  induction moved with
  | nil => exact fun log started => Shows.pure fun _ hv => hv
  | cons m moved ih =>
    intro log started
    obtain ⟨hm, hmoved⟩ := List.forall_mem_cons.1 hmoved
    refine Shows.bind (shows_removeJunk (prunable_logging sep) (fun _ => Logging.fine) _) fun _ => ?_
    refine Shows.pre (P := Logging server before moves past
      { log with completed := log.completed ++ [m] } failed) ?_ ?_
    · dsimp only
      split
      · exact Shows.bind logging_writeLog fun _ => ih hmoved _ _
      · exact ih hmoved _ _
    · rintro v ⟨hrev, D, hd, hlog, hfailed⟩
      refine ⟨hrev, D, hd, ⟨hlog.moves_eq, fun m' h => ?_, hlog.failed⟩, hfailed⟩
      rcases List.mem_append.1 h with h | h
      · exact hlog.completed m' h
      · exact List.mem_singleton.1 h ▸ hm.1

omit sep in
/-- What has failed goes into the log. -/
theorem Logging.fail (h : Logging server before moves past log failed v) :
    Logging server before moves past { log with failed := log.failed ++ failed } [] v := by
  obtain ⟨hrev, D, hd, hlog, hfailed⟩ := h
  exact ⟨hrev, D, hd, ⟨hlog.moves_eq, hlog.completed, hlog.failed.append hfailed⟩,
    nofun⟩

/-- The loop over the groups. -/
theorem logging_applyGroups (groups : List (List Move)) : ∀ (past : List Move) (log : UndoLog)
    (started made : List Path) (lost : Bool),
    (∀ m ∈ groups.flatten, m ∈ moves) → groups.flatten.Nodup → (∀ m ∈ groups.flatten, m ∉ past) →
    Shows World.view (Fine server before moves) (Logging server before moves past log [])
      (applyGroups server groups log started made lost)
      fun r v => Logging server before moves (groups.flatten ++ past) r.1 [] v := by
  induction groups with
  | nil => exact fun past log started made lost _ _ _ => Shows.pure fun _ hv => hv
  | cons group groups ih =>
    intro past log started made lost hmoves hnodup hpast
    rw [List.flatten_cons] at hmoves hnodup hpast
    obtain ⟨hgmoves, hmoves⟩ := List.forall_mem_append.1 hmoves
    obtain ⟨hgpast, hpast⟩ := List.forall_mem_append.1 hpast
    obtain ⟨hgnodup, hnodup, hdisj⟩ := List.nodup_append.1 hnodup
    have hnew : ∀ m ∈ groups.flatten, m ∉ group ++ past := fun m h h' =>
      (List.mem_append.1 h').elim (fun h' => hdisj m h' m h rfl) (hpast m h)
    have hnext : ∀ log started made lost, Shows World.view (Fine server before moves)
        (Logging server before moves (group ++ past) log [])
        (applyGroups server groups log started made lost)
        fun r v => Logging server before moves ((group :: groups).flatten ++ past) r.1 [] v := by
      intro log started made lost
      refine (ih (group ++ past) log started made lost hmoves hnodup hnew).post fun r v hv => ?_
      refine hv.mono (fun m h => ?_) fun m h => ?_
      · simpa [or_left_comm] using h
      · obtain ⟨-, _, hd, -, -⟩ := hv
        exact hd.known m (by simpa [or_left_comm] using h)
    cases lost with
    | true =>
      exact (hnext _ started made true).pre fun v hv =>
        (hv.untried hgmoves hgpast .notTried).fail
    | false =>
      refine Shows.bind (logging_runGroup sep made hgmoves hgnodup hgpast) ?_
      rintro ⟨run, made⟩
      refine Shows.of_and fun hmoved => ?_
      refine Shows.bind (logging_logMoved sep run.moved hmoved log _) ?_
      rintro ⟨log, started⟩
      refine Shows.pre (P := Logging server before moves (group ++ past)
        { log with failed := log.failed ++ run.failed } []) ?_ fun _ => Logging.fail
      dsimp only
      split
      · exact Shows.bind logging_writeLog fun _ => hnext _ started made run.lost
      · exact hnext _ started made run.lost

omit sep in
/-- The sets hold the moves, each once. -/
theorem perm_bySet (ms : List Move) : (bySet ms).flatten.Perm ms := by
  suffices ∀ groups : List (List Move), (ms.foldl addToSets groups).flatten.Perm (groups.flatten ++ ms) by
    simpa [bySet] using this []
  have hadd : ∀ (groups : List (List Move)) (i : Nat) (m : Move), i < groups.length →
      (groups.modify i (· ++ [m])).flatten.Perm (groups.flatten ++ [m]) := by
    intro groups
    induction groups with
    | nil => exact fun i m hi => absurd hi (Nat.not_lt_zero i)
    | cons g groups ih =>
      intro i m hi
      cases i with
      | zero =>
        simp only [List.modify_zero_cons, List.flatten_cons, List.append_assoc]
        exact List.perm_append_comm.append_left g
      | succ i =>
        simp only [List.modify_succ_cons, List.flatten_cons, List.append_assoc]
        exact (ih i m (by simpa using hi)).append_left g
  induction ms with
  | nil => exact fun groups => by simp
  | cons m ms ih =>
    intro groups
    refine (ih (addToSets groups m)).trans ?_
    rw [List.append_cons groups.flatten m ms]
    refine List.Perm.append_right ms ?_
    rw [addToSets]
    split
    · simp
    · split
      · next i hi =>
        obtain ⟨hlt, -⟩ := List.findIdx?_eq_some_iff_getElem.1 hi
        exact hadd groups i m hlt
      · simp

/-- **A run of moves**: whatever fails, and wherever it stops. -/
theorem fine_apply (hnodup : moves.Nodup) :
    Shows World.view (Fine server before moves) (· = ⟨before, none, false⟩) (apply server moves)
      fun _ v => Fine server before moves v := by
  have hperm := perm_bySet moves
  let log : UndoLog := ⟨moves, [], [], [], [], false⟩
  have hnil : ∀ past D, FailedFor past D [] := nofun
  have hlog : LogFor moves [] [] log := ⟨rfl, nofun, hnil [] []⟩
  have hstart : Logging server before moves [] log [] ⟨before, some log, false⟩ := by
    refine ⟨rfl, [], ⟨rfl, .start, fun m h => h, nofun, ?_⟩, hlog,
      hnil [] []⟩
    exact fun l hl => Option.some.inj hl ▸ ⟨hlog, rfl⟩
  have hfirst : Fine server before moves ⟨before, none, false⟩ :=
    ⟨rfl, ⟨[], .start, nofun⟩, nofun⟩
  rw [apply]
  refine Shows.bind (shows_writeLog (Q := Logging server before moves [] log []) log
    (fun v hv => hv ▸ hfirst) (fun v hv => hv ▸ hstart) fun _ => Logging.fine) fun a => ?_
  rcases a with e | u
  · exact Shows.pure fun v hv => by
      rw [if_neg nofun] at hv
      exact hv ▸ hfirst
  refine Shows.pre (P := Logging server before moves [] log []) ?_ fun v hv => by simpa using hv
  refine Shows.bind (logging_applyGroups sep (bySet moves) [] log [] [] false
    (fun m h => hperm.mem_iff.1 h) (hperm.nodup_iff.2 hnodup)
    fun m _ => List.not_mem_nil) ?_
  rintro ⟨log, started, lost⟩
  -- The folders that were emptied are a part of the log only.
  have hdirs : ∀ removed kept v, Logging server before moves ((bySet moves).flatten ++ []) log [] v →
      Logging server before moves ((bySet moves).flatten ++ [])
        { log with removedDirs := removed, keptDirs := kept } [] v :=
    fun _ _ _ ⟨hrev, D, hd, hl, hf⟩ => ⟨hrev, D, hd, ⟨hl.moves_eq, hl.completed, hl.failed⟩, hf⟩
  cases lost with
  | true =>
    refine Shows.bind (Q := fun _ => Logging server before moves ((bySet moves).flatten ++ []) log [])
      (Shows.pure fun _ => id) fun dirs => ?_
    refine Shows.bind (logging_writeLog.pre (hdirs dirs.1 dirs.2)) fun a => ?_
    rcases a with e | u
    · exact Shows.pure fun _ => Logging.fine
    · exact Shows.pure fun _ => Logging.fine
  | false =>
    refine Shows.bind (shows_pruneEmpty (prunable_logging sep) (fun _ => Logging.fine) started) fun dirs => ?_
    refine Shows.bind (logging_writeLog.pre (hdirs dirs.1 dirs.2)) fun a => ?_
    rcases a with e | u
    · exact Shows.pure fun _ => Logging.fine
    · exact Shows.pure fun _ => Logging.fine

end Rules

end Ps5Upload.Collection
