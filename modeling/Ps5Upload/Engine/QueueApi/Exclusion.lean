import Mathlib.Data.List.Basic
import Mathlib.Data.List.Nodup
import Mathlib.Tactic.Common
import Ps5Upload.Engine.QueueApi.Driver

/-!
# One driver and one running item for each console

`Exclusive` is what every state of the queue keeps: the ids of the list, of the file and of
the saves under way are distinct and were given out; the consoles marked as driven are those
of the driver tasks, each once; a running item is run by the driver of its console, and the
item a driver runs is running there.

* `exclusive_step` — every step keeps it;
* `queue_exclusion` — one driver and one running item for each console in every reachable
  state; nothing starts under a hold, and no hold is granted under a running item.
-/

namespace Ps5Upload.QueueApi

open ListAt

/-- Each item has an id of its own, given out before. -/
structure Listed (issued : List String) (l : List Item) : Prop where
  ids : (l.map Item.id).Nodup
  given : ∀ x ∈ l, x.id ∈ issued

/-- Who runs what. -/
structure Owners (issued : List String) (l : List Item) (tasks : List Task)
    (drivers : List String) : Prop where
  drivers : drivers.Perm (tasks.map Task.console)
  consoles : (tasks.map Task.console).Nodup
  /-- A running item is run by its console's driver. -/
  owned : ∀ x ∈ l, x.status = .running →
    ∃ task ∈ tasks, task.console = x.console ∧ task.pc.owns = some x.id
  /-- What a driver runs is running on its console. -/
  runs : ∀ task ∈ tasks, ∀ id, task.pc.owns = some id →
    id ∈ issued ∧ ∀ x ∈ l, x.id = id → x.status = .running ∧ x.console = task.console

structure Exclusive (s : System) : Prop where
  items : Listed s.issued s.book.items
  disk : Listed s.issued s.disk
  pending : ∀ p ∈ s.pending, Listed s.issued p.items
  owners : Owners s.issued s.book.items s.tasks s.book.drivers

/-! ## Lists -/

theorem Listed.changed {issued : List String} {R : Item → Item → Prop} {l l' : List Item}
    (h : Listed issued l) (hch : Changed R l l') : Listed issued l' := by
  refine ⟨hch.nodup h.ids, fun y hy => ?_⟩
  obtain ⟨x, hx, hid, -⟩ := hch.of_mem y hy
  exact hid ▸ h.given x hx

theorem Listed.mono {issued : List String} {l : List Item} (h : Listed issued l) (id : String) :
    Listed (id :: issued) l := ⟨h.ids, fun x hx => List.mem_cons_of_mem _ (h.given x hx)⟩

theorem Listed.stored {issued : List String} {l : List Item} (h : Listed issued l) :
    Listed issued (l.map Item.stored) := by
  refine ⟨?_, fun y hy => ?_⟩
  · rw [List.map_map]
    exact h.ids
  · obtain ⟨x, hx, rfl⟩ := List.mem_map.1 hy
    exact h.given x hx

theorem Listed.add {issued : List String} {l l' : List Item} {item : Item}
    (h : Listed issued l) (hnew : item.id ∉ issued) (hperm : l'.Perm (l ++ [item])) :
    Listed (item.id :: issued) l' := by
  refine ⟨?_, fun x hx => ?_⟩
  · have hn : ((item :: l).map Item.id).Nodup := by
      rw [List.map_cons, List.nodup_cons]
      refine ⟨fun hmem => ?_, h.ids⟩
      obtain ⟨x, hx, hid⟩ := List.mem_map.1 hmem
      exact hnew (hid ▸ h.given x hx)
    exact ((hperm.trans (List.perm_append_singleton item l)).map Item.id).nodup_iff.2 hn
  · rcases List.mem_append.1 (hperm.mem_iff.1 hx) with hx | hx
    · exact List.mem_cons_of_mem _ (h.given x hx)
    · rw [List.mem_singleton] at hx
      exact hx ▸ List.mem_cons_self ..

/-! ## Owners -/

section
variable {issued : List String} {l l' : List Item} {tasks : List Task} {ds : List String}

/-- An item runs after a change if and only if it ran before. -/
def SameRunning (x y : Item) : Prop := y.status = .running ↔ x.status = .running

theorem Owners.changed (h : Owners issued l tasks ds) (hch : Changed SameRunning l l') :
    Owners issued l' tasks ds := by
  refine ⟨h.drivers, h.consoles, fun y hy hr => ?_, fun task ht id hown => ?_⟩
  · obtain ⟨x, hx, hid, hc, hxy⟩ := hch.of_mem y hy
    rw [← hid, ← hc]
    exact h.owned x hx (hxy.1 hr)
  · refine ⟨(h.runs task ht id hown).1, fun y hy hyid => ?_⟩
    obtain ⟨x, hx, hid, hc, hxy⟩ := hch.of_mem y hy
    obtain ⟨hr, hcons⟩ := (h.runs task ht id hown).2 x hx (hid.trans hyid)
    exact ⟨hxy.2 hr, hc ▸ hcons⟩

theorem Owners.add {item : Item} (h : Owners issued l tasks ds) (hnew : item.id ∉ issued)
    (hq : item.status = .queued) (hperm : l'.Perm (l ++ [item])) :
    Owners (item.id :: issued) l' tasks ds := by
  have hold : ∀ x ∈ l', x = item ∨ x ∈ l := by
    intro x hx
    rcases List.mem_append.1 (hperm.mem_iff.1 hx) with hx | hx
    · exact Or.inr hx
    · exact Or.inl (List.mem_singleton.1 hx)
  refine ⟨h.drivers, h.consoles, fun x hx hr => ?_, fun task ht id hown => ?_⟩
  · rcases hold x hx with rfl | hx
    · rw [hq] at hr
      simp at hr
    · exact h.owned x hx hr
  · obtain ⟨hiss, hruns⟩ := h.runs task ht id hown
    refine ⟨List.mem_cons_of_mem _ hiss, fun x hx hid => ?_⟩
    rcases hold x hx with rfl | hx
    · exact absurd (hid ▸ hiss) hnew
    · exact hruns x hx hid

variable {t : Nat} {task : Task}

/-- A driver moves on with the same item, or with none as before. -/
theorem Owners.setPc_same (h : Owners issued l tasks ds) (ht : tasks[t]? = some task) {pc : Pc}
    (hpc : pc.owns = task.pc.owns) :
    Owners issued l (tasks.set t { task with pc := pc }) ds := by
  obtain ⟨pre, post, rfl, rfl⟩ := getElem?_split ht
  rw [set_split]
  refine ⟨by simpa using h.drivers, by simpa using h.consoles, fun x hx hr => ?_,
    fun u hu id hown => ?_⟩
  · obtain ⟨u, hu, hc, hown⟩ := h.owned x hx hr
    rw [List.mem_append, List.mem_cons] at hu
    rcases hu with hu | rfl | hu
    · exact ⟨u, by simp [hu], hc, hown⟩
    · exact ⟨{ u with pc := pc }, by simp, hc, hpc.trans hown⟩
    · exact ⟨u, by simp [hu], hc, hown⟩
  · rw [List.mem_append, List.mem_cons] at hu
    rcases hu with hu | rfl | hu
    · exact h.runs u (by simp [hu]) id hown
    · exact h.runs task (by simp) id (hpc ▸ hown)
    · exact h.runs u (by simp [hu]) id hown

/-- A driver lets its item go: it is gone, or it runs no more. -/
theorem Owners.release (h : Owners issued l tasks ds) (ht : tasks[t]? = some task)
    {pc : Pc} (hpc : pc.owns = none) {P : Item → Item → Prop}
    (hP : ∀ x y, P x y → y.status ≠ .running) {id : String}
    (hown : task.pc.owns = some id) (hch : Changed (Sets id P) l l') :
    Owners issued l' (tasks.set t { task with pc := pc }) ds := by
  obtain ⟨pre, post, rfl, rfl⟩ := getElem?_split ht
  rw [set_split]
  have hothers := key_ne_of_nodup h.consoles
  refine ⟨by simpa using h.drivers, by simpa using h.consoles, fun y hy hr => ?_,
    fun u hu id' hown' => ?_⟩
  · obtain ⟨x, hx, hid, hc, hxy⟩ := hch.of_mem y hy
    have hne : x.id ≠ id := fun hc' => hP x y (hxy.1 hc') hr
    obtain ⟨u, hu, huc, huo⟩ := h.owned x hx ((hxy.2 hne).running.1 hr)
    rw [List.mem_append, List.mem_cons] at hu
    rcases hu with hu | rfl | hu
    · exact ⟨u, by simp [hu], huc.trans hc, hid ▸ huo⟩
    · rw [hown, Option.some.injEq] at huo
      exact absurd huo.symm hne
    · exact ⟨u, by simp [hu], huc.trans hc, hid ▸ huo⟩
  · have hu' : u ∈ pre ++ post := by
      rw [List.mem_append, List.mem_cons] at hu
      rcases hu with hu | rfl | hu
      · exact List.mem_append_left _ hu
      · rw [hpc] at hown'
        simp at hown'
      · exact List.mem_append_right _ hu
    have hu'' : u ∈ pre ++ task :: post := by
      rw [List.mem_append] at hu' ⊢
      rcases hu' with hu' | hu' <;> simp [hu']
    obtain ⟨hiss, hruns⟩ := h.runs u hu'' id' hown'
    refine ⟨hiss, fun y hy hyid => ?_⟩
    obtain ⟨x, hx, hid, hc, hxy⟩ := hch.of_mem y hy
    obtain ⟨hr, hcons⟩ := hruns x hx (hid.trans hyid)
    -- the same item cannot be run by two drivers: their consoles differ
    have hne : x.id ≠ id := by
      intro hc'
      have := ((h.runs task (by simp) id hown).2 x hx hc').2
      exact hothers u hu' (hcons.symm.trans this)
    exact ⟨(hxy.2 hne).running.2 hr, hc ▸ hcons⟩

/-- A driver that runs nothing starts the head of its line. -/
theorem Owners.start (h : Owners issued l tasks ds) (ht : tasks[t]? = some task)
    {head : String} {pc : Pc} (hpc : pc.owns = some head) (hfree : task.pc.owns = none)
    (hiss : head ∈ issued)
    (hch : Changed (Sets head fun x y =>
      x.console = task.console ∧ x.status = .queued ∧ y.status = .running) l l') :
    Owners issued l' (tasks.set t { task with pc := pc }) ds := by
  obtain ⟨pre, post, rfl, rfl⟩ := getElem?_split ht
  rw [set_split]
  refine ⟨by simpa using h.drivers, by simpa using h.consoles, fun y hy hr => ?_,
    fun u hu id hown => ?_⟩
  · obtain ⟨x, hx, hid, hc, hxy⟩ := hch.of_mem y hy
    by_cases hhead : x.id = head
    · exact ⟨{ task with pc := pc }, by simp, (hxy.1 hhead).1.symm.trans hc,
        by rw [← hid, hhead]; exact hpc⟩
    · obtain ⟨u, hu, huc, huo⟩ := h.owned x hx ((hxy.2 hhead).running.1 hr)
      rw [List.mem_append, List.mem_cons] at hu
      rcases hu with hu | rfl | hu
      · exact ⟨u, by simp [hu], huc.trans hc, hid ▸ huo⟩
      · rw [hfree] at huo
        simp at huo
      · exact ⟨u, by simp [hu], huc.trans hc, hid ▸ huo⟩
  · rw [List.mem_append, List.mem_cons] at hu
    have hother : u ∈ pre ++ task :: post →
        id ∈ issued ∧ ∀ x ∈ l', x.id = id → x.status = .running ∧ x.console = u.console := by
      intro hu
      obtain ⟨hi, hruns⟩ := h.runs u hu id hown
      refine ⟨hi, fun y hy hyid => ?_⟩
      obtain ⟨x, hx, hid, hc, hxy⟩ := hch.of_mem y hy
      obtain ⟨hr, hcons⟩ := hruns x hx (hid.trans hyid)
      -- the head was queued, so no driver ran it
      have hne : x.id ≠ head := by
        intro hc'
        rw [(hxy.1 hc').2.1] at hr
        simp at hr
      exact ⟨(hxy.2 hne).running.2 hr, hc ▸ hcons⟩
    rcases hu with hu | rfl | hu
    · exact hother (by simp [hu])
    · simp only [hpc, Option.some.injEq] at hown
      subst hown
      refine ⟨hiss, fun y hy hyid => ?_⟩
      obtain ⟨x, hx, hid, hc, hxy⟩ := hch.of_mem y hy
      have := hxy.1 (hid.trans hyid)
      exact ⟨this.2.2, hc ▸ this.1⟩
    · exact hother (by simp [hu])

/-- A driver that is gone, with the running item of its console gone or stopped. -/
theorem Owners.drop (h : Owners issued l tasks ds) (ht : tasks[t]? = some task)
    (hch : Changed (fun x y => (y.status = .running → x.status = .running) ∧
      (x.console = task.console → y.status ≠ .running) ∧
      (x.console ≠ task.console → x.status = .running → y.status = .running)) l l') :
    Owners issued l' (tasks.eraseIdx t) (ds.erase task.console) := by
  obtain ⟨pre, post, rfl, rfl⟩ := getElem?_split ht
  rw [eraseIdx_split]
  have hperm : ((pre ++ task :: post).map Task.console).Perm
      (task.console :: (pre ++ post).map Task.console) := by
    simp
  have hothers := key_ne_of_nodup h.consoles
  refine ⟨?_, ?_, fun y hy hr => ?_, fun u hu id hown => ?_⟩
  · have := (h.drivers.trans hperm).erase task.console
    rwa [List.erase_cons_head] at this
  · exact (List.nodup_cons.1 (hperm.nodup_iff.1 h.consoles)).2
  · obtain ⟨x, hx, hid, hc, hxy⟩ := hch.of_mem y hy
    obtain ⟨u, hu, huc, huo⟩ := h.owned x hx (hxy.1 hr)
    rw [List.mem_append, List.mem_cons] at hu
    rcases hu with hu | rfl | hu
    · exact ⟨u, by simp [hu], huc.trans hc, hid ▸ huo⟩
    · exact absurd hr (hxy.2.1 huc.symm)
    · exact ⟨u, by simp [hu], huc.trans hc, hid ▸ huo⟩
  · have hu' : u ∈ pre ++ task :: post := by
      rw [List.mem_append] at hu ⊢
      rcases hu with hu | hu <;> simp [hu]
    obtain ⟨hiss, hruns⟩ := h.runs u hu' id hown
    refine ⟨hiss, fun y hy hyid => ?_⟩
    obtain ⟨x, hx, hid, hc, hxy⟩ := hch.of_mem y hy
    obtain ⟨hr, hcons⟩ := hruns x hx (hid.trans hyid)
    refine ⟨hxy.2.2 (fun hc' => hothers u hu (hcons.symm.trans hc')) hr, hc ▸ hcons⟩

end

/-! ## Every step keeps it -/

theorem exclusive_start : Exclusive {} where
  items := ⟨List.nodup_nil, by simp⟩
  disk := ⟨List.nodup_nil, by simp⟩
  pending := by simp
  owners := ⟨List.Perm.refl _, List.nodup_nil, by simp, by simp⟩

theorem Quiet.sameRunning {x y : Item} (h : Quiet x y) : SameRunning x y :=
  h.running

theorem Resumes.sameRunning {id : String} {x y : Item} (h : Resumes id x y) :
    SameRunning x y := by
  rcases h with h | ⟨-, hx, hy⟩
  · exact h.running
  · simp [SameRunning, hx, hy]

/-- A save takes the list as it is. -/
theorem Exclusive.saved_pending {s : System} (h : Exclusive s) :
    ∀ p ∈ s.save.pending, Listed s.issued p.items := by
  intro p hp
  rcases List.mem_append.1 hp with hp | hp
  · exact h.pending p hp
  · rw [List.mem_singleton] at hp
    subst hp
    exact h.items.stored

/-- A driver that died: its console is given up and nothing runs there. -/
theorem Exclusive.orphan {s : System} (h : Exclusive s) {t : Nat} {task : Task}
    (ht : s.tasks[t]? = some task) :
    Listed s.issued (s.book.orphan s.now task.console).items ∧
    Owners s.issued (s.book.orphan s.now task.console).items (s.tasks.eraseIdx t)
      (s.book.orphan s.now task.console).drivers := by
  have how := h.owners
  rcases orphan_cases s.book s.now task.console with
    ⟨heq, hnone⟩ | ⟨lp, item, lq, hitems, hc, hr, heq⟩
  · rw [heq]
    refine ⟨h.items, how.drop ht ⟨List.Subperm.refl _, fun y hy => ⟨y, hy, rfl, rfl, ?_⟩⟩⟩
    exact ⟨fun h => h, hnone y hy, fun _ h => h⟩
  · have hset : Changed (fun x y => (y.status = .running → x.status = .running) ∧
        (x.console = task.console → y.status ≠ .running) ∧
        (x.console ≠ task.console → x.status = .running → y.status = .running))
        s.book.items (lp ++ item.orphaned s.now :: lq) := by
      have hids := h.items.ids
      rw [hitems] at hids ⊢
      refine changed_at rfl rfl ⟨by simp [Item.orphaned], by simp [Item.orphaned],
        fun hne => absurd hc hne⟩ fun y hy => ⟨fun h => h, fun hyc hyr => ?_, fun _ h => h⟩
      -- another running item of the console would have the same driver, so the same id
      have hy' : y ∈ s.book.items := by
        rw [hitems]
        rcases List.mem_append.1 hy with hy | hy <;> simp [hy]
      obtain ⟨u, hu, huc, huo⟩ := how.owned y hy' hyr
      obtain ⟨v, hv, hvc, hvo⟩ := how.owned item (by rw [hitems]; simp) hr
      have huv : u = v := List.inj_on_of_nodup_map how.consoles hu hv
        (by rw [huc, hvc, hyc, hc])
      subst huv
      rw [huo, Option.some.injEq] at hvo
      exact key_ne_of_nodup hids y hy hvo
    rw [heq]
    exact ⟨h.items.changed hset, how.drop ht hset⟩

theorem exclusive_step {s s' : System} {a : Act} (h : Exclusive s) (hs : step s a = some s') :
    Exclusive s' := by
  cases step_effect h.items.ids hs with
  | same => exact h
  | ticked ms => exact ⟨h.items, h.disk, h.pending, h.owners⟩
  | refusedAdd _ id =>
    refine ⟨h.items.mono id, h.disk.mono id, fun p hp => (h.pending p hp).mono id, ?_⟩
    refine ⟨h.owners.drivers, h.owners.consoles, h.owners.owned, fun u hu i hi => ?_⟩
    exact ⟨List.mem_cons_of_mem _ (h.owners.runs u hu i hi).1, (h.owners.runs u hu i hi).2⟩
  | added _ item items hnew hq hperm =>
    exact ⟨h.items.add hnew hperm, h.disk.mono _, fun p hp => (h.pending p hp).mono _,
      h.owners.add hnew hq hperm⟩
  | edited _ items hch =>
    exact ⟨h.items.changed hch, h.disk, h.pending,
      h.owners.changed (hch.mono fun _ _ _ hxy => hxy.sameRunning)⟩
  | resumed id items hch =>
    exact ⟨h.items.changed hch, h.disk, h.pending,
      h.owners.changed (hch.mono fun _ _ _ hxy => hxy.sameRunning)⟩
  | held _ holds => exact ⟨h.items, h.disk, h.pending, h.owners⟩
  | saved => exact ⟨h.items, h.disk, h.saved_pending, h.owners⟩
  | wrote i snapshot hi =>
    have hmem : snapshot ∈ s.pending := List.mem_of_getElem? hi
    refine ⟨?_, ?_, fun p hp => ?_, ?_⟩
    · unfold System.writeSnapshot
      split <;> exact h.items
    · unfold System.writeSnapshot
      split
      · exact h.disk
      · exact h.pending snapshot hmem
    · unfold System.writeSnapshot
      have := h.pending p ((List.eraseIdx_sublist ..).subset hp)
      split <;> exact this
    · unfold System.writeSnapshot
      split <;> exact h.owners
  | kicked console hnew =>
    refine ⟨h.items, h.disk, h.pending, ?_, ?_, fun x hx hr => ?_, fun u hu id hown => ?_⟩
    · have := (List.perm_append_singleton console (s.tasks.map Task.console)).symm
      simpa using (h.owners.drivers.cons console).trans this
    · have hnot : console ∉ s.tasks.map Task.console := fun hc =>
        hnew (h.owners.drivers.mem_iff.2 hc)
      have := (List.perm_append_singleton console (s.tasks.map Task.console)).nodup_iff.2
        (List.nodup_cons.2 ⟨hnot, h.owners.consoles⟩)
      simpa using this
    · obtain ⟨u, hu, huc⟩ := h.owners.owned x hx hr
      exact ⟨u, List.mem_append_left _ hu, huc⟩
    · rcases List.mem_append.1 hu with hu | hu
      · exact h.owners.runs u hu id hown
      · rw [List.mem_singleton] at hu
        subst hu
        simp [Pc.owns] at hown
  | stopped t task ht hpc =>
    refine ⟨h.items, h.disk, h.pending, h.owners.drop ht ⟨List.Subperm.refl _, fun y hy =>
      ⟨y, hy, rfl, rfl, fun h => h, fun hyc hyr => ?_, fun _ h => h⟩⟩⟩
    -- the driver ran nothing, and no other driver is on its console
    obtain ⟨u, hu, huc, huo⟩ := h.owners.owned y hy hyr
    have : u = task := List.inj_on_of_nodup_map h.owners.consoles hu
      (List.mem_of_getElem? ht) (by rw [huc, hyc])
    rw [this, hpc] at huo
    simp [Pc.owns] at huo
  | turned _ t task holds pc ht hpc hgone =>
    refine ⟨h.items, h.disk, h.pending, ?_⟩
    cases hown : task.pc.owns with
    | none => exact h.owners.setPc_same ht (hpc.trans hown.symm)
    | some id =>
      refine h.owners.release (P := fun _ _ => False) ht hpc (fun _ _ h => h.elim) hown
        (changed_of_subperm (List.Subperm.refl _) fun x hx => ?_)
      exact ⟨fun hid => absurd hid (hgone id hown x hx), fun _ => Quiet.refl x⟩
  | started t task head items ht hpc hholds hhead hch =>
    obtain ⟨x, hx, rfl, -⟩ := hhead
    exact ⟨h.items.changed hch, h.disk, h.pending,
      h.owners.start ht rfl (by rw [hpc]; rfl) (h.items.given x hx) hch⟩
  | savedRun t task id ht hpc =>
    exact ⟨h.items, h.disk, h.saved_pending, h.owners.setPc_same ht (by rw [hpc]; rfl)⟩
  | called t task id generation item ht hpc hlanded hitem hid =>
    exact ⟨h.items, h.disk, h.pending, h.owners.setPc_same ht (by rw [hpc]; rfl)⟩
  | putBack t task id items ended ht hpc hch =>
    exact ⟨h.items.changed hch, h.disk, h.pending,
      h.owners.release ht rfl (fun _ _ hy => by rw [hy]; simp) (by rw [hpc]; rfl) hch⟩
  | gotJob t task id job kind items ht hpc hch =>
    have how := h.owners.changed (hch.mono fun _ _ _ hxy => hxy.sameRunning)
    exact ⟨h.items.changed hch, h.disk, h.pending, how.setPc_same ht (by rw [hpc]; rfl)⟩
  | finished t task id end_ items ended ht hpc hbook hch =>
    exact ⟨h.items.changed hch, h.disk, h.pending,
      h.owners.release ht rfl (fun _ _ hy => hy.1) hpc hch⟩
  | died t task ht =>
    obtain ⟨hlist, how⟩ := h.orphan ht
    exact ⟨hlist, h.disk, h.pending, how⟩
  | crashed =>
    have hlist := h.disk.changed (afterRestart_changed s.now s.disk)
    have hrun := afterRestart_not_running s.now s.disk
    unfold System.restart
    simp only
    split
    · exact ⟨hlist, hlist.stored, by simp, List.Perm.refl _, List.nodup_nil,
        fun x hx hr => absurd hr (hrun x hx), by simp⟩
    · exact ⟨hlist, h.disk, by simp, List.Perm.refl _, List.nodup_nil,
        fun x hx hr => absurd hr (hrun x hx), by simp⟩

/-- Every state of the queue keeps the invariant. -/
theorem exclusive_of_exec {s : System} {as : List Act} (h : Runs.exec step {} as = some s) :
    Exclusive s :=
  Runs.exec_inv (fun _ _ _ hs hstep => exclusive_step hs hstep) exclusive_start h

/-! ## Exclusion -/

theorem Exclusive.one_driver {s : System} (h : Exclusive s) (console : String) :
    (s.tasks.filter fun task => task.console = console).length ≤ 1 := by
  refine length_filter_le_one (List.Nodup.of_map _ h.owners.consoles) fun t ht u hu htc huc => ?_
  simp only [decide_eq_true_eq] at htc huc
  exact List.inj_on_of_nodup_map h.owners.consoles ht hu (htc.trans huc.symm)

theorem Exclusive.one_running {s : System} (h : Exclusive s) (console : String) :
    (s.book.items.filter fun x => x.console = console ∧ x.status = .running).length ≤ 1 := by
  refine length_filter_le_one (List.Nodup.of_map _ h.items.ids) fun x hx y hy hxp hyp => ?_
  simp only [decide_eq_true_eq] at hxp hyp
  obtain ⟨t, ht, htc, hto⟩ := h.owners.owned x hx hxp.2
  obtain ⟨u, hu, huc, huo⟩ := h.owners.owned y hy hyp.2
  -- one driver on the console, and it runs one item
  have htu : t = u := List.inj_on_of_nodup_map h.owners.consoles ht hu
    (by rw [htc, huc, hxp.1, hyp.1])
  rw [htu, huo, Option.some.injEq] at hto
  exact eq_of_id_eq h.items.ids hx hy hto.symm

/-- An item that runs after a step ran before it, or no hold of its console lasted. -/
theorem running_or_no_hold {s s' : System} {a : Act} (h : Exclusive s)
    (hs : step s a = some s') {y : Item} (hy : y ∈ s'.book.items) (hr : y.status = .running) :
    (∃ x ∈ s.book.items, x.id = y.id ∧ x.status = .running) ∨
      ∀ k ∈ s.book.holds, k.console = y.console → k.until_ ≤ s.now := by
  have hfrom : ∀ {R : Item → Item → Prop} {l : List Item}, Changed R s.book.items l →
      (∀ x y, R x y → y.status = .running → x.status = .running) → y ∈ l →
      (∃ x ∈ s.book.items, x.id = y.id ∧ x.status = .running) ∨
        ∀ k ∈ s.book.holds, k.console = y.console → k.until_ ≤ s.now := by
    intro R l hch hR hy
    obtain ⟨x, hx, hid, -, hxy⟩ := hch.of_mem y hy
    exact Or.inl ⟨x, hx, hid, hR x y hxy hr⟩
  cases step_effect h.items.ids hs with
  | same => exact Or.inl ⟨y, hy, rfl, hr⟩
  | ticked ms => exact Or.inl ⟨y, hy, rfl, hr⟩
  | refusedAdd _ id => exact Or.inl ⟨y, hy, rfl, hr⟩
  | added _ item items hnew hq hperm =>
    rcases List.mem_append.1 (hperm.mem_iff.1 hy) with hy | hy
    · exact Or.inl ⟨y, hy, rfl, hr⟩
    · rw [List.mem_singleton] at hy
      rw [hy, hq] at hr
      simp at hr
  | edited _ items hch => exact hfrom hch (fun _ _ hxy => hxy.running.1) hy
  | resumed id items hch => exact hfrom hch (fun _ _ hxy => hxy.sameRunning.1) hy
  | held _ holds => exact Or.inl ⟨y, hy, rfl, hr⟩
  | saved => exact Or.inl ⟨y, hy, rfl, hr⟩
  | wrote i snapshot hi =>
    refine Or.inl ⟨y, ?_, rfl, hr⟩
    unfold System.writeSnapshot at hy
    split at hy <;> exact hy
  | kicked console hnew => exact Or.inl ⟨y, hy, rfl, hr⟩
  | stopped t task ht hpc => exact Or.inl ⟨y, hy, rfl, hr⟩
  | turned _ t task holds pc ht hpc hgone => exact Or.inl ⟨y, hy, rfl, hr⟩
  | started t task head items ht hpc hholds hhead hch =>
    obtain ⟨x, hx, hid, hc, hxy⟩ := hch.of_mem y hy
    by_cases hxh : x.id = head
    · exact Or.inr fun k hk hkc => hholds k hk (by rw [hkc, ← hc, (hxy.1 hxh).1])
    · exact Or.inl ⟨x, hx, hid, (hxy.2 hxh).running.1 hr⟩
  | savedRun t task id ht hpc => exact Or.inl ⟨y, hy, rfl, hr⟩
  | called t task id generation item ht hpc hlanded hitem hid =>
    exact Or.inl ⟨y, hy, rfl, hr⟩
  | putBack t task id items ended ht hpc hch =>
    refine hfrom hch (fun x z hxz hz => ?_) hy
    by_cases hx : x.id = id
    · rw [hxz.1 hx] at hz
      simp at hz
    · exact (hxz.2 hx).running.1 hz
  | gotJob t task id job kind items ht hpc hch => exact hfrom hch (fun _ _ hxy => hxy.running.1) hy
  | finished t task id end_ items ended ht hpc hbook hch =>
    refine hfrom hch (fun x z hxz hz => ?_) hy
    by_cases hx : x.id = id
    · exact absurd hz (hxz.1 hx).1
    · exact (hxz.2 hx).running.1 hz
  | died t task ht =>
    rcases orphan_cases s.book s.now task.console with
      ⟨heq, -⟩ | ⟨lp, item, lq, hitems, hc, hrun, heq⟩
    · rw [heq] at hy
      exact Or.inl ⟨y, hy, rfl, hr⟩
    · rw [heq] at hy
      refine hfrom (R := fun x z => z.status = .running → x.status = .running)
        (l := lp ++ item.orphaned s.now :: lq) ?_ (fun _ _ h => h) hy
      rw [hitems]
      exact changed_at rfl rfl (by simp [Item.orphaned]) fun _ _ h => h
  | crashed =>
    have hrun := afterRestart_not_running s.now s.disk
    unfold System.restart at hy
    simp only at hy
    split at hy <;> exact absurd hr (hrun y hy)

/-- **One at a time.**  In every state of every run — requests, driver steps, saves, dying
drivers and restarts in any order — each console has at most one driver and at most one
running item; no item starts to run while a hold of its console lasts, and no hold of a
console is granted while an item runs there. -/
theorem queue_exclusion (as : List Act) (s : System) (h : Runs.exec step {} as = some s) :
    (∀ console, (s.tasks.filter fun task => task.console = console).length ≤ 1) ∧
    (∀ console, (s.book.items.filter fun x =>
      x.console = console ∧ x.status = .running).length ≤ 1) ∧
    (∀ a s', step s a = some s' → ∀ y ∈ s'.book.items, y.status = .running →
      (∀ x ∈ s.book.items, x.id = y.id → x.status ≠ .running) →
      ∀ k ∈ s.book.holds, k.console = y.console → k.until_ ≤ s.now) ∧
    ∀ console holder ttlS book, s.book.hold s.now console holder ttlS = .ok book →
      ∀ x ∈ s.book.items, x.console = console → x.status ≠ .running := by
  have hex := exclusive_of_exec h
  refine ⟨hex.one_driver, hex.one_running, fun a s' hs y hy hr hnew => ?_,
    fun console holder ttlS book hhold x hx hc hr => ?_⟩
  · rcases running_or_no_hold hex hs hy hr with ⟨x, hx, hid, hxr⟩ | hholds
    · exact absurd hxr (hnew x hx hid)
    · exact hholds
  · unfold Book.hold at hhold
    split at hhold
    · simp at hhold
    · rename_i hnone
      have := List.find?_eq_none.1 hnone x hx
      simp [hc, hr] at this

/-- Two uploads on one console: the first runs, its driver dies and a new one takes the
second; the engine stops and starts again, and the first is resumed. -/
def twoUploads : List Act :=
  [.add "q-1" "10.0.0.2" .uploadFile false {} none, .save, .write 0, .kick "10.0.0.2",
   .add "q-2" "10.0.0.2" .uploadDir false {} none, .kick "10.0.0.2", .look 0, .start 0,
   .saveRun 0, .write 0, .call 0, .die 0, .kick "10.0.0.2", .look 0, .start 0, .saveRun 0,
   .write 0, .crash, .resume "q-1", .kick "10.0.0.2", .look 0, .start 0]

theorem queue_exclusion_twoUploads :
    (Runs.exec step {} twoUploads).map
        (fun s => s.book.items.map fun x => (x.id, x.status)) =
      some [("q-1", .running), ("q-2", .interrupted)] ∧
    ∀ s, Runs.exec step {} twoUploads = some s →
      (s.tasks.filter fun task => task.console = "10.0.0.2").length ≤ 1 ∧
      (s.book.items.filter fun x =>
        x.console = "10.0.0.2" ∧ x.status = .running).length ≤ 1 := by
  refine ⟨by decide, fun s h => ?_⟩
  obtain ⟨hdrivers, hrunning, -, -⟩ := queue_exclusion twoUploads s h
  exact ⟨hdrivers _, hrunning _⟩

end Ps5Upload.QueueApi
