import Ps5Upload.Engine.Collection.Organize
import Ps5Upload.Engine.Collection.Sets

/-!
# How a split set moves

`run_group` of `ps5upload-engine/src/collection/organize.rs` step by step: what each operation's answer says of
the parts, and what it leaves open when it is lost.

* `tells_moveOne`, `tells_putBack` — a part moved, and the moved parts put back;
* `whole_or_not_iff` — the set has moved whole or not at all, but for a put-back that took effect and whose
  answer was lost.
-/

namespace Ps5Upload.Collection

open Moments

abbrev Steps := List (World UndoLog × World UndoLog)

/-- An answer was lost. -/
def Lost (l : Steps) : Prop := ∃ st ∈ l, st.1.fates 0 = .lost ∨ st.1.fates 0 = .lostAfter

/-- A part was taken away from its new name, and the answer was lost. -/
def TakenBack (group : List Move) (l : Steps) : Prop :=
  ∃ st ∈ l, st.1.fates 0 = .lostAfter ∧
    ∃ m ∈ group, st.1.view.tree.has m.dst = true ∧ st.2.view.tree.has m.dst = false

theorem lost_append {l l' : Steps} : Lost (l ++ l') ↔ Lost l ∨ Lost l' := by
  simp only [Lost, List.mem_append, or_and_right, exists_or]

theorem takenBack_append {group : List Move} {l l' : Steps} :
    TakenBack group (l ++ l') ↔ TakenBack group l ∨ TakenBack group l' := by
  simp only [TakenBack, List.mem_append, or_and_right, exists_or]

theorem not_takenBack_nil {group : List Move} : ¬ TakenBack group [] :=
  fun ⟨_, h, _⟩ => List.not_mem_nil h

/-- What is left of a change from `P` to `Q` with the answer `a`; `χ`: the change takes a part away from its
new name. -/
def Ended (group : List Move) (χ : Prop) (P Q : State → Prop) (l : Steps) (a : Except OpError Unit) (v : State) :
    Prop :=
  (a = .error .lost → Lost l) ∧
    match a with
    | .ok _ => Q v ∧ ¬ TakenBack group l
    | .error .lost => (P v ∧ ¬ TakenBack group l) ∨ (Q v ∧ (TakenBack group l ↔ χ))
    | .error _ => P v ∧ ¬ TakenBack group l

section Rules

variable {group : List Move} {χ : Prop} {P Q : State → Prop} {l l' : Steps} {a : Except OpError Unit} {v : State}
  {α : Type}

/-- After steps that have taken nothing away. -/
theorem Ended.after (h : Ended group χ P Q l' a v) (hl : ¬ TakenBack group l) : Ended group χ P Q (l ++ l') a v := by
  have htaken : TakenBack group (l ++ l') ↔ TakenBack group l' := by
    rw [takenBack_append]
    exact or_iff_right hl
  refine ⟨fun ha => lost_append.2 (.inr (h.1 ha)), ?_⟩
  simp only [htaken]
  exact h.2

/-- A change that changes nothing of what is asserted. -/
theorem Ended.same (h : Ended group False P P l a v) :
    P v ∧ ¬ TakenBack group l ∧ (a = .error .lost → Lost l) := by
  obtain ⟨hlost, h⟩ := h
  rcases a with e | u
  · cases e with
    | lost =>
      rcases h with ⟨hv, ht⟩ | ⟨hv, ht⟩
      · exact ⟨hv, ht, hlost⟩
      · exact ⟨hv, ht.1, hlost⟩
    | exists' => exact ⟨h.1, h.2, hlost⟩
    | other => exact ⟨h.1, h.2, hlost⟩
  · exact ⟨h.1, h.2, hlost⟩

/-- A change that has not been tried. -/
theorem Ended.error {e : OpError} (hP : P v) (ht : ¬ TakenBack group l) (hlost : e = .lost → Lost l) :
    Ended group χ P Q l (.error e) v := by
  refine ⟨fun ha => hlost (Except.error.inj ha), ?_⟩
  cases e with
  | lost => exact .inl ⟨hP, ht⟩
  | exists' => exact ⟨hP, ht⟩
  | other => exact ⟨hP, ht⟩

/-! ## Operations -/

theorem tells_ask (group : List Move) {r : Tree → α} : Tells World.view P (ask r) fun l a v =>
    P v ∧ ¬ TakenBack group l ∧ (∀ b, a = .ok b → r v.tree = b) ∧ (a = .error .lost → Lost l) := by
  refine Tells.act fun w hw => ⟨hw, ?_, fun b hb => ?_, fun hb => ?_⟩
  · rintro ⟨st, hst, -, m, -, hhas, hnot⟩
    rw [List.mem_singleton.1 hst] at hhas hnot
    exact Bool.noConfusion (hhas.symm.trans hnot)
  · generalize hf : w.fates 0 = fate at hb
    cases fate with
    | works => exact Except.ok.inj hb
    | fails => cases hb
    | lost => cases hb
    | lostAfter => cases hb
  · refine ⟨_, List.mem_singleton_self _, ?_⟩
    generalize hf : w.fates 0 = fate at hb
    cases fate with
    | works => cases hb
    | fails => cases hb
    | lost => exact .inl rfl
    | lostAfter => exact .inr rfl

theorem tells_change {r : State → Except OpError State} (hr : ∀ v, r v ≠ .error .lost)
    (h : ∀ v v', P v → r v = .ok v' →
      Q v' ∧ ((∃ m ∈ group, v.tree.has m.dst = true ∧ v'.tree.has m.dst = false) ↔ χ)) :
    Tells World.view P (change r) (Ended group χ P Q) := by
  refine Tells.act fun w hw => ?_
  -- A step that leaves the state alone takes nothing away.
  have hstay : ∀ w' : World UndoLog, w'.view = w.view → ¬ TakenBack group [(w, w')] := by
    rintro w' heq ⟨st, hst, -, m, -, hhas, hnot⟩
    rw [List.mem_singleton.1 hst] at hhas hnot
    rw [show (w, w').2.view = w.view from heq] at hnot
    exact Bool.noConfusion (hhas.symm.trans hnot)
  have hworks : ∀ w' : World UndoLog, w.fates 0 = .works → ¬ TakenBack group [(w, w')] := by
    rintro w' hf ⟨st, hst, hlost, -⟩
    rw [List.mem_singleton.1 hst] at hlost
    exact Fate.noConfusion (hf.symm.trans hlost)
  cases hf : w.fates 0 with
  | works =>
    cases hv : r w.view with
    | ok v' =>
      refine ⟨fun ha => ?_, ?_⟩
      · simp only [hv] at ha
        cases ha
      · simp only [hv]
        exact ⟨(h _ _ hw hv).1, hworks _ hf⟩
    | error e =>
      simp only [hv]
      exact Ended.error hw (hstay _ rfl) fun he => absurd (he ▸ hv) (hr _)
  | fails =>
    dsimp only
    exact Ended.error hw (hstay _ rfl) nofun
  | lost =>
    have hl : ∀ w' : World UndoLog, Lost [(w, w')] := fun w' => ⟨_, List.mem_singleton_self _, .inl hf⟩
    dsimp only
    exact Ended.error hw (hstay _ rfl) fun _ => hl _
  | lostAfter =>
    have hl : ∀ w' : World UndoLog, Lost [(w, w')] := fun w' => ⟨_, List.mem_singleton_self _, .inr hf⟩
    cases hv : r w.view with
    | ok v' =>
      simp only [hv]
      obtain ⟨hq, hχ⟩ := h _ _ hw hv
      refine ⟨fun _ => hl _, .inr ⟨hq, ?_⟩⟩
      rw [← hχ]
      constructor
      · rintro ⟨st, hst, -, hm⟩
        rwa [List.mem_singleton.1 hst] at hm
      · exact fun hm => ⟨_, List.mem_singleton_self _, hf, hm⟩
    | error e =>
      simp only [hv]
      exact Ended.error hw (hstay _ rfl) fun _ => hl _

/-- A rename to a free name. -/
theorem tells_renameNew {src dst : Path}
    (h : ∀ v, P v → v.tree.has dst = false → v.tree.isDir dst.dropLast = true →
      Q { v with tree := v.tree.rename src dst } ∧
        ((∃ m ∈ group, v.tree.has m.dst = true ∧ (v.tree.rename src dst).has m.dst = false) ↔ χ)) :
    Tells World.view P (renameNew src dst) (Ended group χ P Q) := by
  refine Tells.bind (tells_ask group) fun l a => ?_
  rcases a with e | b
  · refine Tells.pure fun v ⟨hv, ht, _, hlost⟩ => ?_
    rw [List.append_nil]
    exact Ended.error hv ht fun he => hlost (by rw [he])
  · cases b with
    | true =>
      refine Tells.pure fun v ⟨hv, ht, _⟩ => ?_
      rw [List.append_nil]
      exact Ended.error hv ht nofun
    | false =>
      have hren : Tells World.view (fun v => P v ∧ v.tree.has dst = false) (fsRename src dst)
          (Ended group χ (fun v => P v ∧ v.tree.has dst = false) Q) := by
        refine tells_change (fun v hv => ?_) fun v v' ⟨hv, hfree⟩ hr => ?_
        · split at hv
          · cases hv
          · cases hv
        · simp only [Bool.and_eq_true, Bool.not_eq_true', decide_eq_true_eq, decide_eq_false_iff_not] at hr
          split at hr
          · next hc =>
            obtain ⟨⟨-, hdir⟩, -⟩ := hc
            have hend := h v hv hfree hdir
            rw [← Except.ok.inj hr]
            simpa only [hfree, Bool.or_false] using hend
          · cases hr
      intro w hw
      obtain ⟨hlast, hend⟩ := hren w ⟨hw.1, hw.2.2.1 false rfl⟩
      refine ⟨hlast, Ended.after ?_ hw.2.1⟩
      refine ⟨hend.1, ?_⟩
      have hcase := hend.2
      generalize (fsRename src dst w).value = a at hcase
      rcases a with e | u
      · cases e with
        | lost => exact hcase.imp_left fun hp => ⟨hp.1.1, hp.2⟩
        | exists' => exact ⟨hcase.1.1, hcase.2⟩
        | other => exact ⟨hcase.1.1, hcase.2⟩
      · exact hcase

end Rules

/-! ## The parts of a set -/

section Set

variable {before : Tree} {group D : List Move} {m : Move}

/-- The parts `D` have moved. -/
abbrev Moved (before : Tree) (group D : List Move) (v : State) : Prop := Spread before group D v.tree

variable {t : Tree} {run : GroupRun} {taken : Prop}

theorem has_append {n : Path × Node} {p : Path} (h : t.has p = true) : Tree.has (t ++ [n]) p = true := by
  rcases Tree.has_eq_true.1 h with h | ⟨x, hx, hpre⟩
  · exact Tree.has_eq_true.2 (.inl h)
  · exact Tree.has_of_mem (List.mem_append_left _ hx) hpre

theorem tells_createDir (hp : Parts before group) (q : Path) :
    Tells World.view (Moved before group D) (createDir q) fun l a v =>
      Moved before group D v ∧ ¬ TakenBack group l ∧ (a = .error .lost → Lost l) := by
  refine Tells.post (Q := Ended group False (Moved before group D) (Moved before group D))
    (tells_change (fun v hv => ?_) fun v v' hv hr => ?_) fun _ _ _ => Ended.same
  · split at hv
    · cases hv
    · split at hv
      · cases hv
      · split at hv
        · cases hv
        · cases hv
  · split at hr
    · cases hr
      refine ⟨hv, iff_of_false ?_ id⟩
      rintro ⟨m, -, hhas, hnot⟩
      exact Bool.noConfusion (hhas.symm.trans hnot)
    · split at hr
      · cases hr
      · rename_i hfree
        rw [Bool.not_eq_true] at hfree
        split at hr
        · rename_i hdir
          cases hr
          refine ⟨Spread.mkdir hv hp hfree hdir, iff_of_false ?_ id⟩
          rintro ⟨m, -, hhas, hnot⟩
          exact Bool.noConfusion ((has_append hhas).symm.trans hnot)
        · cases hr

theorem tells_makeDirsFrom (hp : Parts before group) (below : List Name) : ∀ (at' : Path) (known : List Path),
    Tells World.view (Moved before group D) (makeDirsFrom at' below known) fun l r v =>
      Moved before group D v ∧ ¬ TakenBack group l ∧ (r.1 = .error .lost → Lost l) := by
  induction below with
  | nil => exact fun at' known => Tells.pure fun v hv => ⟨hv, not_takenBack_nil, nofun⟩
  | cons name below ih =>
    intro at' known
    rw [makeDirsFrom]
    split
    · exact ih _ known
    · refine Tells.bind (tells_createDir hp _) fun l a => ?_
      rcases a with e | u
      · refine Tells.pure fun v hv => ?_
        rw [List.append_nil]
        exact ⟨hv.1, hv.2.1, fun h => hv.2.2 (by cases h; rfl)⟩
      · intro w hw
        obtain ⟨hlast, hv, ht, hl⟩ := ih (at' ++ [name]) (known ++ [at' ++ [name]]) w hw.1
        refine ⟨hlast, hv, fun htaken => ?_, fun h => lost_append.2 (.inr (hl h))⟩
        exact (takenBack_append.1 htaken).elim hw.2.1 ht

/-- A part on its way takes no other one away from its new name. -/
theorem forward_takes_nothing (hp : Parts before group) (h : Spread before group D t) (hm : m ∈ group)
    (hD : m ∉ D) (hfree : t.has m.dst = false) :
    ¬ ∃ m' ∈ group, t.has m'.dst = true ∧ (t.rename m.src m.dst).has m'.dst = false := by
  rintro ⟨m', hm', hhas, hnot⟩
  obtain ⟨bytes, hin, -⟩ := hp.file m hm
  obtain ⟨hat, honly⟩ := h.here m hm bytes hin
  rw [show spot D m = m.src from if_neg hD] at hat honly
  obtain ⟨n, hn, hpre⟩ := Tree.exists_of_has hhas (Move.dst_ne_nil (hp.contained m' hm'))
  by_cases hsrc : n.1 = m.src
  · exact hp.dst_not_below_src hm' hm (hsrc ▸ hpre)
  · have hstays := (mem_rename_file hfree hat honly n).2 (.inl ⟨hn, hsrc⟩)
    exact Tree.not_prefix_of_has hnot hstays hpre

/-- A part that is put back is taken away from its new name. -/
theorem back_takes (hp : Parts before group) (h : Spread before group D t) (hD : m ∈ D)
    (hfree : t.has m.src = false) :
    ∃ m' ∈ group, t.has m'.dst = true ∧ (t.rename m.dst m.src).has m'.dst = false := by
  have hm := h.sub m hD
  obtain ⟨bytes, hin, -⟩ := hp.file m hm
  obtain ⟨hat, honly⟩ := h.here m hm bytes hin
  rw [show spot D m = m.dst from if_pos hD] at hat honly
  refine ⟨m, hm, Tree.has_of_mem hat List.prefix_rfl, ?_⟩
  rw [Bool.eq_false_iff]
  intro hhas
  obtain ⟨n, hn, hpre⟩ := Tree.exists_of_has hhas (Move.dst_ne_nil (hp.contained m hm))
  rcases (mem_rename_file hfree hat honly n).1 hn with ⟨hn, hne⟩ | hn
  · exact hne (by rw [honly n hn hpre])
  · rw [hn] at hpre
    exact hp.dst_not_below_src hm hm hpre

/-- One part that has not moved. -/
theorem tells_moveOne (hp : Parts before group) (hm : m ∈ group) (hD : m ∉ D) (made : List Path) :
    Tells World.view (Moved before group D) (moveOne m made) fun l r v =>
      Ended group False (Moved before group D) (Moved before group (D ++ [m])) l r.1 v := by
  rw [moveOne, hp.contained m hm]
  refine Tells.bind (tells_ask group) fun l a => ?_
  rcases a with e | b
  · refine Tells.pure fun v ⟨hv, ht, _, hlost⟩ => ?_
    rw [List.append_nil]
    exact Ended.error hv ht fun he => hlost (by rw [he])
  · cases b with
    | true =>
      refine Tells.pure fun v ⟨hv, ht, _⟩ => ?_
      rw [List.append_nil]
      exact Ended.error hv ht nofun
    | false =>
      refine Tells.pre (P := fun v => Moved before group D v ∧ ¬ TakenBack group l)
        (Tells.frame fun ht => ?_) fun v hv => ⟨hv.1, hv.2.1⟩
      refine Tells.post (Q := fun l r v =>
          Ended group False (Moved before group D) (Moved before group (D ++ [m])) l r.1 v) ?_
        fun l' r v hend => hend.after ht
      refine Tells.bind (tells_makeDirsFrom hp _ _ _) ?_
      rintro l ⟨e | u, made'⟩
      · refine Tells.pure fun v ⟨hv, ht, hlost⟩ => ?_
        rw [List.append_nil]
        exact Ended.error hv ht fun he => hlost (by rw [he])
      · have hren : Tells World.view (Moved before group D) (renameNew m.src m.dst)
            (Ended group False (Moved before group D) (Moved before group (D ++ [m]))) :=
          tells_renameNew fun v hv hfree hdir =>
            ⟨hv.there hp hm hD hfree hdir, iff_of_false (forward_takes_nothing hp hv hm hD hfree) id⟩
        refine Tells.frame fun ht => Tells.bind hren fun l' a => Tells.pure fun v hv => ?_
        rw [List.append_nil]
        exact hv.after ht.1

/-- What `set_cannot_start` has asked of the moves `rest`. -/
structure Asked (group : List Move) (v₀ : State) (rest : List Move) (l : Steps) (a : Except OpError (Option Why))
    (v : State) : Prop where
  same : v = v₀
  taken : ¬ TakenBack group l
  lost : a = .error .lost → Lost l
  start : a = .ok none → ∀ m ∈ rest, m.Contained = true ∧ v₀.tree.has m.src = true ∧ v₀.tree.has m.dst = false

theorem Asked.stop {v₀ v : State} {rest : List Move} {l : Steps} {a : Except OpError (Option Why)} (hv : v = v₀)
    (ht : ¬ TakenBack group l) (hlost : a = .error .lost → Lost l) (hne : a ≠ .ok none) :
    Asked group v₀ rest (l ++ []) a v := by
  rw [List.append_nil]
  exact ⟨hv, ht, hlost, fun ha => absurd ha hne⟩

/-- Whether a set can start, asked before the first rename. -/
theorem tells_setCannotStart (group : List Move) (v₀ : State) (rest : List Move) :
    Tells World.view (· = v₀) (setCannotStart rest) (Asked group v₀ rest) := by
  induction rest with
  | nil =>
    exact Tells.pure fun v hv =>
      ⟨hv, not_takenBack_nil, nofun, nofun⟩
  | cons m rest ih =>
    rw [setCannotStart]
    cases hc : m.Contained with
    | false =>
      exact Tells.pure fun v hv => ⟨hv, not_takenBack_nil, nofun, nofun⟩
    | true =>
      have hask : ∀ p, Tells World.view (· = v₀) (exists' p : Prog UndoLog (Except OpError Bool)) fun l a v =>
          v = v₀ ∧ ¬ TakenBack group l ∧ (∀ b, a = .ok b → v.tree.has p = b) ∧ (a = .error .lost → Lost l) :=
        fun p => tells_ask group
      refine Tells.bind (hask m.src) fun l a => ?_
      rcases a with e | b
      · exact Tells.pure fun v ⟨hv, ht, _, hlost⟩ =>
          Asked.stop hv ht (fun he => hlost (by cases he; rfl)) nofun
      · cases b with
        | false =>
          exact Tells.pure fun v ⟨hv, ht, _⟩ => Asked.stop hv ht nofun nofun
        | true =>
          refine Tells.pre (P := fun v => v = v₀ ∧ (¬ TakenBack group l ∧ v₀.tree.has m.src = true))
            (Tells.frame fun hsrc => ?_) fun v ⟨hv, ht, hb, _⟩ => ⟨hv, ht, hv ▸ hb true rfl⟩
          refine Tells.bind (hask m.dst) fun l' a => ?_
          have htaken : ¬ TakenBack group l' → ¬ TakenBack group (l ++ l') :=
            fun ht h => (takenBack_append.1 h).elim hsrc.1 ht
          rcases a with e | b
          · refine Tells.pure fun v ⟨hv, ht, _, hlost⟩ => ?_
            rw [← List.append_assoc]
            exact Asked.stop hv (htaken ht) (fun he => lost_append.2 (.inr (hlost (by cases he; rfl))))
              nofun
          · cases b with
            | true =>
              refine Tells.pure fun v ⟨hv, ht, _⟩ => ?_
              rw [← List.append_assoc]
              exact Asked.stop hv (htaken ht) nofun nofun
            | false =>
              refine Tells.pre (P := fun v => v = v₀ ∧ (¬ TakenBack group l' ∧ v₀.tree.has m.dst = false))
                (Tells.frame fun hdst => ?_) fun v ⟨hv, ht, hb, _⟩ => ⟨hv, ht, hv ▸ hb false rfl⟩
              refine ih.post fun l'' a v hasked => ?_
              rw [← List.append_assoc]
              refine ⟨hasked.same, fun h => ?_, fun ha => lost_append.2 (.inr (hasked.lost ha)), fun ha => ?_⟩
              · exact (takenBack_append.1 h).elim (htaken hdst.1) hasked.taken
              · exact List.forall_mem_cons.2 ⟨⟨hc, hsrc.2, hdst.2⟩, hasked.start ha⟩

/-! ## The parts put back -/

/-- The parts `done` are still to be put back; `taken`: one of those recorded as moved is back. -/
def Putting (before : Tree) (group : List Move) (taken : Prop) (done : List Move) (run : GroupRun) (v : State) : Prop :=
  ∃ D, Spread before group D v.tree ∧ (∀ m ∈ done, m ∈ D) ∧ ((∃ m ∈ run.moved, m ∉ D) ↔ taken) ∧
    (∀ f ∈ run.failed, f.uncertain = false ∧ f.mv ∉ D) ∧
    (done ++ run.moved ++ run.failed.map (·.mv)).Perm group

/-- A part that stays recorded as moved. -/
theorem Putting.stay {done : List Move} {D' : List Move} {v : State} {b : Bool}
    (hspread : Spread before group D' v.tree) (hdone : ∀ m' ∈ done, m' ∈ D')
    (hmoved : (∃ m' ∈ run.moved ++ [m], m' ∉ D') ↔ taken)
    (hfailed : ∀ f ∈ run.failed, f.uncertain = false ∧ f.mv ∉ D')
    (hperm : (m :: done ++ run.moved ++ run.failed.map (·.mv)).Perm group) :
    Putting before group taken done { run with lost := b, moved := run.moved ++ [m] } v := by
  refine ⟨D', hspread, hdone, hmoved, hfailed, List.Perm.trans ?_ hperm⟩
  show (done ++ (run.moved ++ [m]) ++ run.failed.map (·.mv)).Perm _
  rw [List.cons_append, List.cons_append, List.append_assoc, List.append_assoc, List.append_assoc]
  refine List.Perm.trans (List.Perm.append_left _ ?_) List.perm_middle
  rw [List.singleton_append]
  exact List.perm_middle

theorem tells_putBack (hp : Parts before group) (hnodup : group.Nodup) (why : Why) (done : List Move) :
    ∀ (taken : Prop) (run : GroupRun), Tells World.view (Putting before group taken done run)
      (putBack why done run) fun l r v => Putting before group (taken ∨ TakenBack group l) [] r v := by
  induction done with
  | nil =>
    intro taken run
    refine Tells.pure fun v hv => ?_
    rwa [show (taken ∨ TakenBack group []) = taken from propext (or_iff_left not_takenBack_nil)]
  | cons m done ih =>
    intro taken run w ⟨D, hspread, hdone, hmoved, hfailed, hperm⟩
    obtain ⟨hm, hdone⟩ := List.forall_mem_cons.1 hdone
    have hall := (hperm.nodup_iff.2 hnodup)
    rw [List.append_assoc, List.cons_append, List.nodup_cons] at hall
    have hnotdone : ∀ m' ∈ done, m' ≠ m := fun m' hm' heq => hall.1 (heq ▸ List.mem_append_left _ hm')
    have hnotmoved : ∀ m' ∈ run.moved, m' ≠ m := fun m' hm' heq =>
      hall.1 (heq ▸ List.mem_append_right _ (List.mem_append_left _ hm'))
    have hmem : ∀ m', m' ∈ D.filter (· ≠ m) ↔ m' ∈ D ∧ m' ≠ m := fun m' => by
      rw [List.mem_filter, decide_eq_true_eq]
    have hdone' : ∀ m' ∈ done, m' ∈ D.filter (· ≠ m) := fun m' hm' => (hmem m').2 ⟨hdone m' hm', hnotdone m' hm'⟩
    have hmoved' : (∃ m' ∈ run.moved, m' ∉ D.filter (· ≠ m)) ↔ taken := by
      rw [← hmoved]
      refine exists_congr fun m' => and_congr_right fun hm' => not_congr ?_
      rw [hmem]
      exact and_iff_left (hnotmoved m' hm')
    have hfailed' : ∀ f ∈ run.failed, f.uncertain = false ∧ f.mv ∉ D.filter (· ≠ m) := fun f hf =>
      ⟨(hfailed f hf).1, fun h => (hfailed f hf).2 ((hmem _).1 h).1⟩
    have hren : Tells World.view (Moved before group D) (renameNew m.dst m.src)
        (Ended group True (Moved before group D) (Moved before group (D.filter (· ≠ m)))) :=
      tells_renameNew fun v hv hfree hdir =>
        ⟨hv.back hp hm hfree hdir, iff_of_true (back_takes hp hv hm hfree) trivial⟩
    suffices hput : Tells World.view (Moved before group D) (putBack why (m :: done) run) fun l r v =>
        Putting before group (taken ∨ TakenBack group l) [] r v from hput w hspread
    rw [putBack]
    refine Tells.bind hren fun l a => ?_
    have hnext : ∀ run', Tells World.view (Putting before group (taken ∨ TakenBack group l) done run')
        (putBack why done run') fun l' r v => Putting before group (taken ∨ TakenBack group (l ++ l')) [] r v :=
      fun run' => (ih (taken ∨ TakenBack group l) run').post fun l' r v hv => by
        rwa [takenBack_append, ← or_assoc]
    -- A part whose put-back has failed, or whose answer was lost, stays recorded as moved.
    have hstay : ∀ (b : Bool) v, Moved before group D v → ¬ TakenBack group l →
        Putting before group (taken ∨ TakenBack group l) done
          { run with lost := b, moved := run.moved ++ [m] } v := by
      intro b v hv ht
      refine Putting.stay hv hdone ?_ hfailed hperm
      rw [or_iff_left ht, ← hmoved]
      constructor
      · rintro ⟨m', hm', hnot⟩
        rcases List.mem_append.1 hm' with hm' | hm'
        · exact ⟨m', hm', hnot⟩
        · rw [List.mem_singleton.1 hm'] at hnot
          exact absurd hm hnot
      · rintro ⟨m', hm', hnot⟩
        exact ⟨m', List.mem_append_left _ hm', hnot⟩
    rcases a with e | u
    · cases e with
      | lost =>
        refine (hnext _).pre fun v hv => ?_
        rcases hv.2 with ⟨hv, ht⟩ | ⟨hv, ht⟩
        · exact hstay true v hv ht
        · refine Putting.stay hv hdone' ?_ hfailed' hperm
          refine iff_of_true ⟨m, List.mem_append_right _ List.mem_cons_self, fun h => ?_⟩ (.inr (ht.2 trivial))
          exact ((hmem m).1 h).2 rfl
      | exists' => exact (hnext _).pre fun v hv => hstay run.lost v hv.2.1 hv.2.2
      | other => exact (hnext _).pre fun v hv => hstay run.lost v hv.2.1 hv.2.2
    · refine (hnext _).pre fun v hv => ⟨D.filter (· ≠ m), hv.2.1, hdone', ?_, ?_, List.Perm.trans ?_ hperm⟩
      · rw [or_iff_left hv.2.2]
        exact hmoved'
      · intro f hf
        rcases List.mem_append.1 hf with hf | hf
        · exact hfailed' f hf
        · rw [List.mem_singleton.1 hf]
          exact ⟨rfl, fun h => ((hmem m).1 h).2 rfl⟩
      · rw [List.map_append, ← List.append_assoc]
        exact List.perm_append_singleton m _

/-! ## A whole run -/

/-- Where the parts are after a run; `taken`: one that is recorded as moved is back, `lost`: an answer was lost. -/
structure Outcome (before : Tree) (group D : List Move) (taken lost : Prop) (run : GroupRun) (t : Tree) : Prop where
  spread : Spread before group D t
  moved : (∃ m ∈ run.moved, m ∉ D) ↔ taken
  failed : ∀ f ∈ run.failed, f.uncertain = false → f.mv ∉ D
  uncertain : (∃ f ∈ run.failed, f.uncertain = true) → lost
  each : (run.moved ++ run.failed.map (·.mv)).Perm group

theorem map_new (rest : List Move) (why : Why) : (rest.map (FailedMove.new · why)).map (·.mv) = rest := by
  rw [List.map_map]
  exact List.map_id' rest

/-- The loop over a set's moves, of which those recorded as moved have been made. -/
theorem tells_moveAll (hp : Parts before group) (hnodup : group.Nodup) (rest : List Move) :
    ∀ (made : List Path) (run : GroupRun), run.failed = [] → run.moved ++ rest = group →
      Tells World.view (Moved before group run.moved) (moveAll rest made run) fun l r v =>
        ∃ D, Outcome before group D (TakenBack group l) (Lost l) r.1 v.tree := by
  induction rest with
  | nil =>
    intro made run hfailed hgroup
    refine Tells.pure fun v hv => ⟨run.moved, hv, iff_of_false ?_ not_takenBack_nil, ?_, ?_, ?_⟩
    · rintro ⟨m, hm, hnot⟩
      exact hnot hm
    · rw [hfailed]
      exact nofun
    · rw [hfailed]
      rintro ⟨_, hf, -⟩
      cases hf
    · rw [hfailed, List.map_nil, hgroup]
  | cons m rest ih =>
    intro made run hfailed hgroup
    have hm : m ∈ group := by
      rw [← hgroup]
      exact List.mem_append_right _ List.mem_cons_self
    have hapart : ∀ m' ∈ run.moved, m' ∉ m :: rest := by
      rw [← hgroup] at hnodup
      exact fun m' hm' h => (List.nodup_append.1 hnodup).2.2 m' hm' m' h rfl
    have hnodup' : (m :: rest).Nodup := by
      rw [← hgroup] at hnodup
      exact (List.nodup_append.1 hnodup).2.1
    have hD : m ∉ run.moved := fun h => hapart m h List.mem_cons_self
    rw [moveAll]
    refine Tells.bind (tells_moveOne hp hm hD made) fun l a => ?_
    obtain ⟨a, made'⟩ := a
    -- The parts after it have not been tried.
    have huntried : ∀ (D : List Move) (f : FailedMove) (why : Why), f.mv = m →
        (f.uncertain = false → m ∉ D) → (∀ m' ∈ D, m' ∉ rest) →
        ∀ g ∈ f :: rest.map (FailedMove.new · why), g.uncertain = false → g.mv ∉ D := by
      intro D f why hf hunc hrest g hg hgu
      rcases List.mem_cons.1 hg with rfl | hg
      · rw [hf]
        exact hunc hgu
      · obtain ⟨m', hm', rfl⟩ := List.mem_map.1 hg
        exact fun h => hrest m' h hm'
    have hrest : ∀ m' ∈ run.moved, m' ∉ rest := fun m' hm' h => hapart m' hm' (List.mem_cons_of_mem _ h)
    rcases a with e | u
    · have hback : ∀ why, Tells World.view (fun v => Moved before group run.moved v ∧ ¬ TakenBack group l)
          (do
            let r ← putBack why run.moved.reverse
              { run with
                moved := []
                failed := run.failed ++ .new m why :: rest.map (FailedMove.new · (.otherPart why)) }
            return (r, made'))
          fun l' r v => ∃ D, Outcome before group D (TakenBack group (l ++ l')) (Lost (l ++ l')) r.1 v.tree := by
        intro why
        refine Tells.frame fun ht => Tells.bind
          ((tells_putBack hp hnodup why run.moved.reverse False _).pre fun v hv =>
            ⟨run.moved, hv, fun m' hm' => List.mem_reverse.1 hm', ?_, ?_, ?_⟩) fun l' r => Tells.pure fun v hv => ?_
        · exact iff_of_false (fun ⟨_, h, _⟩ => List.not_mem_nil h) id
        · rw [hfailed, List.nil_append]
          intro f hf
          have hunc : f.uncertain = false := by
            rcases List.mem_cons.1 hf with rfl | hf
            · rfl
            · obtain ⟨m', -, rfl⟩ := List.mem_map.1 hf
              rfl
          exact ⟨hunc, huntried run.moved _ _ rfl (fun _ => hD) hrest f hf hunc⟩
        · rw [hfailed, List.nil_append, List.map_cons, map_new, List.append_nil, ← hgroup]
          exact (List.reverse_perm _).append_right _
        · obtain ⟨D, hspread, -, hmoved, hfail, hperm⟩ := hv
          rw [List.append_nil]
          refine ⟨D, hspread, ?_, fun f hf _ => (hfail f hf).2, ?_, hperm⟩
          · rw [hmoved, takenBack_append, false_or]
            exact (or_iff_right ht).symm
          · rintro ⟨f, hf, hunc⟩
            rw [(hfail f hf).1] at hunc
            cases hunc
      cases e with
      | lost =>
        refine Tells.pure fun v hv => ?_
        rw [List.append_nil]
        have hlost : Lost l := hv.1 rfl
        have hout : ∀ D, Moved before group D v → ¬ TakenBack group l → (∀ m' ∈ run.moved, m' ∈ D) →
            (∀ m' ∈ D, m' ∉ rest) → Outcome before group D (TakenBack group l) (Lost l)
              { run with
                failed := run.failed ++ ⟨m, .stopped, true⟩ :: rest.map (FailedMove.new · .notTried)
                lost := true } v.tree := by
          intro D hspread ht hsub hout
          refine ⟨hspread, iff_of_false ?_ ht, ?_, fun _ => hlost, ?_⟩
          · rintro ⟨m', hm', hnot⟩
            exact hnot (hsub m' hm')
          · show ∀ f ∈ run.failed ++ _, _
            rw [hfailed, List.nil_append]
            exact huntried D ⟨m, .stopped, true⟩ .notTried rfl nofun hout
          · show (run.moved ++ (run.failed ++ _).map _).Perm _
            rw [hfailed, List.nil_append, List.map_cons, map_new, hgroup]
        rcases hv.2 with ⟨hspread, ht⟩ | ⟨hspread, ht⟩
        · exact ⟨_, hout _ hspread ht (fun _ => id) hrest⟩
        · refine ⟨_, hout _ hspread (ht.1 ·) (fun m' hm' => List.mem_append_left _ hm') fun m' hm' => ?_⟩
          rcases List.mem_append.1 hm' with hm' | hm'
          · exact hrest m' hm'
          · rw [List.mem_singleton.1 hm']
            exact (List.nodup_cons.1 hnodup').1
      | exists' => exact (hback .appeared).pre fun v hv => hv.2
      | other => exact (hback (.failed .other)).pre fun v hv => hv.2
    · refine Tells.pre (P := fun v => Moved before group (run.moved ++ [m]) v ∧ ¬ TakenBack group l)
        (Tells.frame fun ht => ?_) fun v hv => hv.2
      refine (ih made' { run with moved := run.moved ++ [m] } hfailed ?_).post fun l' r v ⟨D, hout⟩ => ⟨D, ?_⟩
      · show run.moved ++ [m] ++ rest = group
        rw [List.append_assoc]
        exact hgroup
      · have htaken : TakenBack group (l ++ l') ↔ TakenBack group l' := by
          rw [takenBack_append]
          exact or_iff_right ht
        exact ⟨hout.spread, hout.moved.trans htaken.symm, hout.failed, fun h => lost_append.2 (.inr (hout.uncertain h)),
          hout.each⟩

/-- A relative path that is contained is known by its names. -/
theorem eq_map_names {rel : List Component} (h : contained rel = true) :
    rel = (rel.filterMap Component.name?).map Component.normal := by
  rw [contained, Bool.and_eq_true] at h
  have hall := h.2
  clear h
  induction rel with
  | nil => rfl
  | cons c rel ih =>
    rw [List.all_cons, Bool.and_eq_true] at hall
    cases c with
    | other => cases hall.1
    | normal name => rw [List.filterMap_cons_some (show Component.name? (.normal name) = some name from rfl), List.map_cons, ← ih hall.2]

/-- The parts of a set that can start. -/
theorem parts_of_start (hsrc : (group.map (·.from')).Nodup) (hdst : (group.map (·.to')).Nodup)
    (hparts : ∀ m ∈ group, ∃ bytes, ∀ n ∈ t, m.src <+: n.1 → n = (m.src, .file bytes))
    (hstart : ∀ m ∈ group, m.Contained = true ∧ t.has m.src = true ∧ t.has m.dst = false) : Parts t group where
  contained m hm := (hstart m hm).1
  srcs m hm m' hm' heq := by
    have hc := (Bool.and_eq_true _ _).mp (hstart m hm).1
    have hc' := (Bool.and_eq_true _ _).mp (hstart m' hm').1
    refine List.inj_on_of_nodup_map hsrc hm hm' ?_
    show m.from' = m'.from'
    rw [eq_map_names hc.1, eq_map_names hc'.1]
    exact congrArg _ heq
  dsts m hm m' hm' heq := by
    have hc := (Bool.and_eq_true _ _).mp (hstart m hm).1
    have hc' := (Bool.and_eq_true _ _).mp (hstart m' hm').1
    refine List.inj_on_of_nodup_map hdst hm hm' ?_
    show m.to' = m'.to'
    rw [eq_map_names hc.2, eq_map_names hc'.2]
    exact congrArg _ heq
  file m hm := by
    obtain ⟨bytes, hbytes⟩ := hparts m hm
    obtain ⟨hc, hhas, -⟩ := hstart m hm
    obtain ⟨n, hn, hpre⟩ := Tree.exists_of_has hhas (Move.src_ne_nil hc)
    exact ⟨bytes, hbytes n hn hpre ▸ hn, hbytes⟩
  free m hm := (hstart m hm).2.2

theorem spread_start (hp : Parts t group) : Spread t group [] t where
  sub _ hm := absurd hm List.not_mem_nil
  here m hm bytes hin := by
    obtain ⟨bytes', -, honly⟩ := hp.file m hm
    have heq := honly _ hin List.prefix_rfl
    exact ⟨hin, fun n hn hpre => (honly n hn hpre).trans heq.symm⟩
  off m hm n hn heq := by
    have hpre : m.dst <+: n.1 := by
      rw [heq]
      exact List.prefix_rfl
    exact absurd hpre (Tree.not_prefix_of_has (hp.free m hm) hn)
  others _ _ _ := Iff.rfl

/-! ## Whole or not at all -/

/-- The part is at its old name. -/
def AtOld (before t : Tree) (m : Move) : Prop := ∀ bytes, (m.src, Node.file bytes) ∈ before → (m.src, Node.file bytes) ∈ t

/-- The part is at its new name. -/
def AtNew (before t : Tree) (m : Move) : Prop := ∃ bytes, (m.src, Node.file bytes) ∈ before ∧ (m.dst, Node.file bytes) ∈ t

/-- What the put-backs of the parts `done` are answered, from the world `w`. -/
def putBackAnswers : List Move → World UndoLog → List (Except OpError Unit)
  | [], _ => []
  | m :: done, w =>
    let back := renameNew m.dst m.src w
    back.value :: putBackAnswers done back.last

/-- What the put-backs in the loop over a set's moves are answered; `moved` have been moved before. -/
def backsFrom : List Move → List Path → List Move → World UndoLog → List (Except OpError Unit)
  | [], _, _, _ => []
  | m :: rest, made, moved, w =>
    let there := moveOne m made w
    match there.value with
    | (.ok _, made) => backsFrom rest made (moved ++ [m]) there.last
    | (.error .lost, _) => []
    | (.error _, _) => putBackAnswers moved.reverse there.last

/-- What the put-backs of a run of `run_group` are answered: there are none for a set that does not start. -/
def backs (group : List Move) (made : List Path) (w : World UndoLog) : List (Except OpError Unit) :=
  let start := setCannotStart group w
  match start.value with
  | .ok none => backsFrom group made [] start.last
  | _ => []

/-- The set has moved whole or not at all, and the result says where its parts are; `answers` are those of
the put-backs. -/
structure WholeOrNot (before t : Tree) (group : List Move) (l : Steps) (answers : List (Except OpError Unit))
    (run : GroupRun) : Prop where
  each : (run.moved ++ run.failed.map (·.mv)).Perm group
  moved : ∀ m ∈ run.moved, AtNew before t m
  failed : ∀ f ∈ run.failed, f.uncertain = false → AtOld before t f.mv
  whole : ¬ Lost l → (∀ a ∈ answers, a = .ok ()) →
    (run.failed = [] ∧ ∀ m ∈ group, AtNew before t m) ∨ (run.moved = [] ∧ ∀ m ∈ group, AtOld before t m)
  kept : ∀ n ∈ before, n.2 ≠ .dir → (∀ m ∈ group, n.1 ≠ m.src) → n ∈ t
  no_more : ∀ n ∈ t, n.2 ≠ .dir → (∀ m ∈ group, n.1 ≠ m.src ∧ n.1 ≠ m.dst) → n ∈ before

/-- Where every put-back works, all parts are recorded as moved or none is, or a move is uncertain. -/
def Recorded (answers : List (Except OpError Unit)) (run : GroupRun) : Prop :=
  (∀ a ∈ answers, a = .ok ()) → run.failed = [] ∨ run.moved = [] ∨ ∃ f ∈ run.failed, f.uncertain = true

/-- Where every put-back works, no more parts are recorded as moved. -/
theorem putBack_moved (why : Why) (done : List Move) : ∀ (run : GroupRun) (w : World UndoLog),
    (∀ a ∈ putBackAnswers done w, a = .ok ()) → (putBack why done run w).value.moved = run.moved := by
  induction done with
  | nil => exact fun _ _ _ => rfl
  | cons m done ih =>
    intro run w hall
    obtain ⟨hback, hdone⟩ := List.forall_mem_cons.1 hall
    rw [putBack, Prog.value_bind, hback]
    exact ih _ _ hdone

/-- The loop records all parts as moved or none, where every put-back works. -/
theorem moveAll_recorded (rest : List Move) : ∀ (made : List Path) (run : GroupRun) (w : World UndoLog),
    run.failed = [] → Recorded (backsFrom rest made run.moved w) (moveAll rest made run w).value.1 := by
  induction rest with
  | nil => exact fun _ _ _ hfailed _ => .inl hfailed
  | cons m rest ih =>
    intro made run w hfailed hall
    rw [backsFrom] at hall
    rw [moveAll, Prog.value_bind]
    generalize hone : (moveOne m made w).value = r at hall ⊢
    obtain ⟨a, made'⟩ := r
    rcases a with e | u
    · have hback : ∀ why : Why, (∀ a ∈ putBackAnswers run.moved.reverse (moveOne m made w).last, a = .ok ()) →
          ∀ stopped : GroupRun, stopped.moved = [] →
            (putBack why run.moved.reverse stopped (moveOne m made w).last).value.moved = [] :=
        fun why hall stopped hnil => (putBack_moved why _ stopped _ hall).trans hnil
      cases e with
      | lost => exact .inr (.inr ⟨⟨m, .stopped, true⟩, List.mem_append_right _ List.mem_cons_self, rfl⟩)
      | exists' => exact .inr (.inl (hback .appeared hall _ rfl))
      | other => exact .inr (.inl (hback (.failed .other) hall _ rfl))
    · exact ih made' _ _ hfailed hall

theorem Outcome.atNew {lost : Prop} (h : Outcome before group D taken lost run t)
    (hp : Parts before group) (hm : m ∈ group) : AtNew before t m ↔ m ∈ D := by
  constructor
  · rintro ⟨bytes, -, hin⟩
    by_contra hD
    have hnode := h.spread.off m hm _ hin (if_neg hD).symm
    cases hnode
  · intro hD
    obtain ⟨bytes, hin, -⟩ := hp.file m hm
    have hat := (h.spread.here m hm bytes hin).1
    rw [show spot D m = m.dst from if_pos hD] at hat
    exact ⟨bytes, hin, hat⟩

theorem Outcome.atOld {lost : Prop} (h : Outcome before group D taken lost run t)
    (hm : m ∈ group) (hD : m ∉ D) : AtOld before t m := by
  intro bytes hin
  have hat := (h.spread.here m hm bytes hin).1
  rwa [show spot D m = m.src from if_neg hD] at hat

theorem Outcome.whole {l : Steps} {answers : List (Except OpError Unit)}
    (h : Outcome before group D (TakenBack group l) (Lost l) run t) (hp : Parts before group)
    (hanswers : Recorded answers run) (ht : ¬ TakenBack group l) : WholeOrNot before t group l answers run := by
  have hmoved : ∀ m ∈ run.moved, m ∈ D := fun m hm => by
    by_contra hD
    exact ht (h.moved.1 ⟨m, hm, hD⟩)
  have hgroup : ∀ m ∈ run.moved, m ∈ group := fun m hm => h.each.mem_iff.1 (List.mem_append_left _ hm)
  have hfgroup : ∀ f ∈ run.failed, f.mv ∈ group := fun f hf =>
    h.each.mem_iff.1 (List.mem_append_right _ (List.mem_map_of_mem hf))
  refine ⟨h.each, fun m hm => (h.atNew hp (hgroup m hm)).2 (hmoved m hm),
    fun f hf hunc => h.atOld (hfgroup f hf) (h.failed f hf hunc), fun hlost hback => ?_, fun n hn hdir hout => ?_,
    fun n hn hdir hout => (h.spread.others n hdir hout).1 hn⟩
  · rcases hanswers hback with hempty | hnil | hunc
    · refine .inl ⟨hempty, fun m hm => ?_⟩
      have hmem := h.each.mem_iff.2 hm
      rw [hempty, List.map_nil, List.append_nil] at hmem
      exact (h.atNew hp hm).2 (hmoved m hmem)
    · refine .inr ⟨hnil, fun m hm => h.atOld hm ?_⟩
      have hmem := h.each.mem_iff.2 hm
      rw [hnil, List.nil_append] at hmem
      obtain ⟨f, hf, rfl⟩ := List.mem_map.1 hmem
      refine h.failed f hf ?_
      rw [Bool.eq_false_iff]
      exact fun hunc => hlost (h.uncertain ⟨f, hf, hunc⟩)
    · exact absurd (h.uncertain hunc) hlost
  · refine (h.spread.others n hdir fun m hm => ⟨hout m hm, fun heq => ?_⟩).2 hn
    have hfree := Tree.not_prefix_of_has (hp.free m hm) hn
    exact hfree (heq ▸ List.prefix_rfl)

/-- A set that has not started is where it was. -/
theorem wholeOrNot_refused {l : Steps} {answers : List (Except OpError Unit)} (why : Why)
    (emptied : List Path) (lost : Bool) :
    WholeOrNot t t group l answers ⟨[], group.map (FailedMove.new · why), emptied, lost⟩ where
  each := by
    rw [List.nil_append, map_new]
  moved _ hm := absurd hm List.not_mem_nil
  failed _ _ _ _ hin := hin
  whole _ _ := .inr ⟨rfl, fun _ _ _ hin => hin⟩
  kept _ hn _ _ := hn
  no_more _ hn _ _ := hn

theorem runGroup_recorded (group : List Move) (hlen : 2 ≤ group.length) (made : List Path) (w : World UndoLog) :
    Recorded (backs group made w) (runGroup group made w).value.1 := by
  intro hall
  rw [backs] at hall
  rw [runGroup, if_pos (show 1 < group.length by omega), Prog.value_bind]
  generalize (setCannotStart group w).value = a at hall ⊢
  rcases a with e | cannot
  · cases e <;> exact .inr (.inl rfl)
  · cases cannot with
    | some why => exact .inr (.inl rfl)
    | none => exact moveAll_recorded group made ⟨[], [], [], false⟩ _ rfl hall

/-- A split set moves whole or not at all, where no put-back takes effect whose answer is lost, and only there. -/
theorem whole_or_not_iff (group : List Move) (hlen : 2 ≤ group.length) (hsrc : (group.map (·.from')).Nodup)
    (hdst : (group.map (·.to')).Nodup) (w : World UndoLog)
    (hparts : ∀ m ∈ group, ∃ bytes, ∀ n ∈ w.view.tree, m.src <+: n.1 → n = (m.src, .file bytes)) (made : List Path) :
    WholeOrNot w.view.tree (runGroup group made w).last.view.tree group (steps (runGroup group made) w)
        (backs group made w) (runGroup group made w).value.1 ↔
      ¬ TakenBack group (steps (runGroup group made) w) := by
  -- what is recorded where every put-back works is known of the run alone (`runGroup_recorded`)
  suffices h : Tells World.view (· = w.view) (runGroup group made) fun l r v => ∀ answers, Recorded answers r.1 →
      (WholeOrNot w.view.tree v.tree group l answers r.1 ↔ ¬ TakenBack group l) from
    (h w rfl).2 _ (runGroup_recorded group hlen made w)
  rw [runGroup, if_pos (show 1 < group.length by omega)]
  refine Tells.bind (tells_setCannotStart group w.view group) fun l a => ?_
  have hrefused : ∀ (why : Why) (lost : Bool), Tells World.view (Asked group w.view group l a)
      (Pure.pure ((⟨[], group.map (FailedMove.new · why), [], lost⟩ : GroupRun), made)) fun l' r v => ∀ answers, Recorded answers r.1 →
        (WholeOrNot w.view.tree v.tree group (l ++ l') answers r.1 ↔ ¬ TakenBack group (l ++ l')) := by
    intro why lost
    refine Tells.pure fun v hv answers _ => ?_
    rw [List.append_nil, hv.same]
    exact iff_of_true (wholeOrNot_refused why [] lost) hv.taken
  rcases a with e | cannot
  · cases e with
    | lost => exact hrefused .notTried true
    | exists' => exact hrefused (.failed .exists') false
    | other => exact hrefused (.failed .other) false
  · cases cannot with
    | some why => exact hrefused why false
    | none =>
      intro u hu
      have hp : Parts w.view.tree group := parts_of_start hsrc hdst hparts (hu.start rfl)
      have hgroup : group.Nodup := List.Nodup.of_map _ hsrc
      have hmove := tells_moveAll hp hgroup group made ⟨[], [], [], false⟩ rfl rfl
      have hspread : Moved w.view.tree group [] u.view := by
        rw [Moved, hu.same]
        exact spread_start hp
      obtain ⟨hlast, D, hout⟩ := hmove u hspread
      refine ⟨hlast, fun answers hanswers => ?_⟩
      have htaken : TakenBack group (l ++ steps (moveAll group made ⟨[], [], [], false⟩) u) ↔
          TakenBack group (steps (moveAll group made ⟨[], [], [], false⟩) u) := by
        rw [takenBack_append]
        exact or_iff_right hu.taken
      have hout' : Outcome w.view.tree group D
          (TakenBack group (l ++ steps (moveAll group made ⟨[], [], [], false⟩) u))
          (Lost (l ++ steps (moveAll group made ⟨[], [], [], false⟩) u)) _ _ :=
        ⟨hout.spread, hout.moved.trans htaken.symm, hout.failed, fun h => lost_append.2 (.inr (hout.uncertain h)),
          hout.each⟩
      refine ⟨fun hwhole ht => ?_, hout'.whole hp hanswers⟩
      obtain ⟨m, hm, hD⟩ := hout'.moved.2 ht
      have hmg : m ∈ group := hout'.each.mem_iff.1 (List.mem_append_left _ hm)
      exact hD ((hout'.atNew hp hmg).1 (hwhole.moved m hm))

end Set

/-! ## A set of two parts -/

def twoParts : List Move :=
  [⟨[.normal ['a']], [.normal ['d'], .normal ['a']], "s"⟩, ⟨[.normal ['b']], [.normal ['d'], .normal ['b']], "s"⟩]

/-- The two parts and a folder. -/
def twoPartsTree : Tree := [([['a']], .file [1]), ([['b']], .file [2]), ([['d']], .dir)]

def twoPartsWorld (fates : Nat → Fate) : World UndoLog := ⟨⟨twoPartsTree, none, false⟩, fates, fun _ _ => 0⟩

theorem twoParts_files : ∀ m ∈ twoParts, ∃ bytes, ∀ n ∈ twoPartsTree,
    m.src <+: n.1 → n = (m.src, .file bytes) := by
  intro m hm
  rcases List.mem_pair.1 hm with rfl | rfl
  · exact ⟨[1], by decide⟩
  · exact ⟨[2], by decide⟩

theorem whole_or_not_iff_two :
    WholeOrNot (twoPartsWorld fun _ => .works).view.tree
        (runGroup twoParts [] (twoPartsWorld fun _ => .works)).last.view.tree twoParts
        (steps (runGroup twoParts []) (twoPartsWorld fun _ => .works))
        (backs twoParts [] (twoPartsWorld fun _ => .works))
        (runGroup twoParts [] (twoPartsWorld fun _ => .works)).value.1 ↔
      ¬ TakenBack twoParts (steps (runGroup twoParts []) (twoPartsWorld fun _ => .works)) :=
  whole_or_not_iff twoParts (by decide) (by decide) (by decide) _ twoParts_files []

/-- The second part cannot move; the first one is put back, and the answer to that is lost. -/
def putBackLost (n : Nat) : Fate := if n = 8 then .fails else if n = 10 then .lostAfter else .works

/-- The first part is recorded as moved, and is at its old name. -/
theorem put_back_recorded_as_moved :
    ¬ WholeOrNot (twoPartsWorld putBackLost).view.tree
        (runGroup twoParts [] (twoPartsWorld putBackLost)).last.view.tree twoParts
        (steps (runGroup twoParts []) (twoPartsWorld putBackLost))
        (backs twoParts [] (twoPartsWorld putBackLost))
        (runGroup twoParts [] (twoPartsWorld putBackLost)).value.1 := by
  intro h
  obtain ⟨bytes, -, hin⟩ := h.moved ⟨[.normal ['a']], [.normal ['d'], .normal ['a']], "s"⟩ (by decide +kernel)
  have htree : (runGroup twoParts [] (twoPartsWorld putBackLost)).last.view.tree = twoPartsTree := by decide +kernel
  rw [htree] at hin
  have hname : ([['d'], ['a']] : Path) ∈ [[['a']], [['b']], [['d']]] := List.mem_map_of_mem (f := Prod.fst) hin
  exact absurd hname (by decide)

end Ps5Upload.Collection
