import Mathlib.Data.List.Basic
import Mathlib.Logic.Function.Basic
import Mathlib.Tactic.Common
import Ps5Upload.Engine.QueueApi.Exclusion

/-!
# An item is not run again by itself

The status of an item lives in the list, in the file and in the saves on their way to it.
`Once` says of all three that an item waiting in line there has been added, resumed or put
back since its route was last called; the driver that is about to call a route has saved the
item as running, so that no save that may still land, and not the file either, has it in
line.

* `once_step` — every step keeps it;
* `route_calls_le` — a route is called once, and once more for each accepted resume and each
  busy reply; after a crash an item is in line only if it was resumed or put back since its
  route was last called;
* `busy_then_queued` — a route that was called before a crash, and an item in line after it.
-/

namespace Ps5Upload.QueueApi

open ListAt

/-- Every item in line in this list may be run. -/
def LineOpen (tally : String → Tally) (l : List Item) : Prop :=
  ∀ x ∈ l, x.status = .queued → (tally x.id).open_ = true

/-- An item is not in line in this list. -/
def OutOfLine (id : String) (l : List Item) : Prop :=
  ∀ x ∈ l, x.id = id → x.status ≠ .queued

structure Once (s : System) : Prop where
  count : ∀ id, (s.tally id).calls + (if (s.tally id).open_ then 1 else 0) ≤
    1 + (s.tally id).resumes + (s.tally id).busies
  items : LineOpen s.tally s.book.items
  disk : LineOpen s.tally s.disk
  pending : ∀ p ∈ s.pending, s.written < p.generation → LineOpen s.tally p.items
  numbered : ∀ p ∈ s.pending, p.generation ≤ s.book.generation
  landed : s.written ≤ s.book.generation
  fresh : ∀ id, id ∉ s.issued → (s.tally id).open_ = true
  /-- A started item may be run, and its mark is on its way to the file. -/
  started : ∀ task ∈ s.tasks, ∀ id, task.pc = .started id → (s.tally id).open_ = true
  saving : ∀ task ∈ s.tasks, ∀ id g, task.pc = .saving id g →
    (s.tally id).open_ = true ∧ g ≤ s.book.generation ∧
    (∀ p ∈ s.pending, g ≤ p.generation → OutOfLine id p.items) ∧
    (g ≤ s.written → OutOfLine id s.disk)

theorem once_start : Once {} := by
  constructor <;> simp [LineOpen]

/-! ## Lists in line -/

section
variable {tally : String → Tally} {l l' : List Item} {id : String}

/-- A change that puts nobody in line. -/
theorem LineOpen.changed {R : Item → Item → Prop} (h : LineOpen tally l) (hch : Changed R l l')
    (hR : ∀ x y, R x y → y.status = .queued → x.status = .queued) : LineOpen tally l' := by
  intro y hy hq
  obtain ⟨x, hx, hid, -, hxy⟩ := hch.of_mem y hy
  rw [← hid]
  exact h x hx (hR x y hxy hq)

theorem LineOpen.stored (h : LineOpen tally l) : LineOpen tally (l.map Item.stored) := by
  intro y hy hq
  obtain ⟨x, hx, rfl⟩ := List.mem_map.1 hy
  exact h x hx hq

theorem OutOfLine.stored (h : OutOfLine id l) : OutOfLine id (l.map Item.stored) := by
  intro y hy hid
  obtain ⟨x, hx, rfl⟩ := List.mem_map.1 hy
  exact h x hx hid

/-- An item opened up: whoever is in line may be run. -/
theorem LineOpen.update {t : Tally} (h : LineOpen tally l) (ht : t.open_ = true) :
    LineOpen (Function.update tally id t) l := by
  intro x hx hq
  by_cases hid : x.id = id
  · rw [hid, Function.update_self]
    exact ht
  · rw [Function.update_of_ne hid]
    exact h x hx hq

/-- An item closed that is not in line. -/
theorem LineOpen.close {t : Tally} (h : LineOpen tally l) (hout : OutOfLine id l) :
    LineOpen (Function.update tally id t) l := by
  intro x hx hq
  by_cases hid : x.id = id
  · exact absurd hq (hout x hx hid)
  · rw [Function.update_of_ne hid]
    exact h x hx hq

theorem open_update {t : Tally} {id' : String} (h : (tally id').open_ = true)
    (ht : t.open_ = true) : (Function.update tally id t id').open_ = true := by
  by_cases hid : id' = id
  · rw [hid, Function.update_self]
    exact ht
  · rw [Function.update_of_ne hid]
    exact h

end

/-- What a driver runs is not in line. -/
theorem Exclusive.outOfLine {s : System} (h : Exclusive s) {task : Task} (ht : task ∈ s.tasks)
    {id : String} (hown : task.pc.owns = some id) : OutOfLine id s.book.items := by
  intro x hx hid hq
  rw [((h.owners.runs task ht id hown).2 x hx hid).1] at hq
  simp at hq

/-! ## Every step keeps it -/

section
variable {s : System}

/-- The list changes and nobody is put in line. -/
theorem Once.withBook (h : Once s) (b : Book) (hgen : b.generation = s.book.generation)
    (hitems : LineOpen s.tally b.items) : Once { s with book := b } :=
  ⟨h.count, hitems, h.disk, h.pending, by simpa [hgen] using h.numbered,
    by simpa [hgen] using h.landed, h.fresh, h.started, by simpa [hgen] using h.saving⟩

/-- Only driver tasks that are not about to call a route are new. -/
theorem Once.withTasks (h : Once s) (tasks : List Task)
    (htasks : ∀ u ∈ tasks, u ∈ s.tasks ∨
      (∀ id, u.pc ≠ .started id) ∧ ∀ id g, u.pc ≠ .saving id g) :
    Once { s with tasks := tasks } := by
  refine ⟨h.count, h.items, h.disk, h.pending, h.numbered, h.landed, h.fresh,
    fun u hu id hpc => ?_, fun u hu id g hpc => ?_⟩
  · rcases htasks u hu with hu | ⟨hne, -⟩
    · exact h.started u hu id hpc
    · exact absurd hpc (hne id)
  · rcases htasks u hu with hu | ⟨-, hne⟩
    · exact h.saving u hu id g hpc
    · exact absurd hpc (hne id g)

/-- An item resumed or put back. -/
theorem Once.reopen (h : Once s) (id : String) (t : Tally) (ht : t.open_ = true)
    (hcount : t.calls + 1 ≤ 1 + t.resumes + t.busies) :
    Once { s with tally := Function.update s.tally id t } := by
  refine ⟨fun id' => ?_, h.items.update ht, h.disk.update ht,
    fun p hp hg => (h.pending p hp hg).update ht, h.numbered, h.landed,
    fun id' hid' => open_update (h.fresh id' hid') ht,
    fun u hu id' hpc => open_update (h.started u hu id' hpc) ht, fun u hu id' g hpc => ?_⟩
  · by_cases hid : id' = id
    · simp only [hid, Function.update_self, ht, if_true]
      exact hcount
    · simp only [Function.update_of_ne hid]
      exact h.count id'
  · obtain ⟨hopen, hrest⟩ := h.saving u hu id' g hpc
    exact ⟨open_update hopen ht, hrest⟩

/-- A save takes the list as it is, and what drivers run is not in line there. -/
theorem Once.save (h : Once s) (hex : Exclusive s) : Once s.save := by
  refine ⟨h.count, h.items, h.disk, fun p hp hg => ?_, fun p hp => ?_, ?_, h.fresh, h.started,
    fun u hu id g hpc => ?_⟩
  · rcases List.mem_append.1 hp with hp | hp
    · exact h.pending p hp hg
    · rw [List.mem_singleton] at hp
      subst hp
      exact h.items.stored
  · rcases List.mem_append.1 hp with hp | hp
    · exact Nat.le_succ_of_le (h.numbered p hp)
    · rw [List.mem_singleton] at hp
      subst hp
      exact Nat.le_refl _
  · exact Nat.le_succ_of_le h.landed
  · obtain ⟨hopen, hle, hpend, hdisk⟩ := h.saving u hu id g hpc
    refine ⟨hopen, Nat.le_succ_of_le hle, fun p hp hg => ?_, hdisk⟩
    rcases List.mem_append.1 hp with hp | hp
    · exact hpend p hp hg
    · rw [List.mem_singleton] at hp
      subst hp
      exact (hex.outOfLine hu (by rw [hpc]; rfl)).stored

/-- A save lands, or is overtaken. -/
theorem Once.write (h : Once s) {i : Nat} {snapshot : Snapshot}
    (hi : s.pending[i]? = some snapshot) :
    Once { s.writeSnapshot snapshot with pending := s.pending.eraseIdx i } := by
  have hmem : snapshot ∈ s.pending := List.mem_of_getElem? hi
  have hsub : ∀ p ∈ s.pending.eraseIdx i, p ∈ s.pending :=
    fun p hp => (List.eraseIdx_sublist ..).subset hp
  unfold System.writeSnapshot
  split
  · refine ⟨h.count, h.items, h.disk, fun p hp => h.pending p (hsub p hp),
      fun p hp => h.numbered p (hsub p hp), h.landed, h.fresh, h.started,
      fun u hu id g hpc => ?_⟩
    obtain ⟨hopen, hle, hpend, hdisk⟩ := h.saving u hu id g hpc
    exact ⟨hopen, hle, fun p hp => hpend p (hsub p hp), hdisk⟩
  · rename_i hnew
    rw [Nat.not_le] at hnew
    refine ⟨h.count, h.items, h.pending snapshot hmem hnew,
      fun p hp hg => h.pending p (hsub p hp) (Nat.lt_trans hnew hg),
      fun p hp => h.numbered p (hsub p hp), h.numbered snapshot hmem, h.fresh, h.started,
      fun u hu id g hpc => ?_⟩
    obtain ⟨hopen, hle, hpend, hdisk⟩ := h.saving u hu id g hpc
    exact ⟨hopen, hle, fun p hp => hpend p (hsub p hp), hpend snapshot hmem⟩

/-- The route of an item is called: its mark has landed, so it is in line nowhere. -/
theorem Once.call (h : Once s) (hex : Exclusive s) {t : Nat} {task : Task}
    (ht : s.tasks[t]? = some task) {id : String} {g : Nat} (hpc : task.pc = .saving id g)
    (hlanded : g ≤ s.written) {item : Item} (hitem : item ∈ s.book.items)
    (hid : item.id = id) :
    Once (System.setPc { s with tally := Function.update s.tally id (s.tally id).called }
      t task (.calling id item.kind)) := by
  have hmem : task ∈ s.tasks := List.mem_of_getElem? ht
  have hown : task.pc.owns = some id := by rw [hpc]; rfl
  obtain ⟨hopen, hle, hpend, hdisk⟩ := h.saving task hmem id g hpc
  -- no other driver is about to call the same route: it would be on the same console
  have hne : ∀ u ∈ s.tasks.set t { task with pc := .calling id item.kind },
      (∀ i k, u.pc ≠ .calling i k) → ∀ id', u.pc.owns = some id' → u ∈ s.tasks ∧ id' ≠ id := by
    intro u hu hcall id' huo
    obtain ⟨pre, post, htasks, rfl⟩ := getElem?_split ht
    have hcons := hex.owners.consoles
    rw [htasks, set_split, List.mem_append, List.mem_cons] at hu
    have hu' : u ∈ pre ++ post := by
      rcases hu with hu | rfl | hu
      · exact List.mem_append_left _ hu
      · exact absurd rfl (hcall id item.kind)
      · exact List.mem_append_right _ hu
    have hu'' : u ∈ s.tasks := by
      rw [htasks]
      rcases List.mem_append.1 hu' with hu | hu <;> simp [hu]
    refine ⟨hu'', fun hc => ?_⟩
    have h1 := ((hex.owners.runs u hu'' id' huo).2 item hitem (hid.trans hc.symm)).2
    have h2 := ((hex.owners.runs task hmem id hown).2 item hitem hid).2
    rw [htasks] at hcons
    exact key_ne_of_nodup hcons u hu' (h1.symm.trans h2)
  refine ⟨fun id' => ?_, h.items.close (hex.outOfLine hmem hown), h.disk.close (hdisk hlanded),
    fun p hp hg => (h.pending p hp hg).close (hpend p hp ?_), h.numbered, h.landed,
    fun id' hid' => ?_, fun u hu id' hupc => ?_, fun u hu id' g' hupc => ?_⟩
  · change (Function.update s.tally id _ id').calls + _ ≤ _
    by_cases hid : id' = id
    · have := h.count id
      simp only [hopen, if_true] at this
      simp only [System.setPc, hid, Function.update_self, Tally.called]
      simpa using this
    · simp only [System.setPc, Function.update_of_ne hid]
      exact h.count id'
  · have : s.written < p.generation := hg
    omega
  · have hid : id' ≠ id := fun hc => hid' (hc ▸ (hex.owners.runs task hmem id hown).1)
    simp only [System.setPc, Function.update_of_ne hid]
    exact h.fresh id' hid'
  · obtain ⟨hu, hid⟩ := hne u hu (by simp [hupc]) id' (by rw [hupc]; rfl)
    simp only [System.setPc, Function.update_of_ne hid]
    exact h.started u hu id' hupc
  · obtain ⟨hu, hid⟩ := hne u hu (by simp [hupc]) id' (by rw [hupc]; rfl)
    simp only [System.setPc, Function.update_of_ne hid]
    exact h.saving u hu id' g' hupc

/-- A driver that is not about to call a route. -/
theorem Once.setPc (h : Once s) (t : Nat) (task : Task) {pc : Pc} (hst : ∀ id, pc ≠ .started id)
    (hsv : ∀ id g, pc ≠ .saving id g) : Once (s.setPc t task pc) := by
  refine h.withTasks _ fun u hu => ?_
  rcases List.mem_or_eq_of_mem_set hu with hu | rfl
  · exact Or.inl hu
  · exact Or.inr ⟨hst, hsv⟩

theorem Once.restart (h : Once s) : Once s.restart := by
  have hline : LineOpen s.tally (afterRestart s.now s.disk) :=
    h.disk.changed (afterRestart_changed s.now s.disk) fun _ _ hxy => hxy.2
  unfold System.restart
  simp only
  split
  · exact ⟨h.count, hline, hline.stored, by simp, by simp, Nat.le_refl _, h.fresh, by simp,
      by simp⟩
  · exact ⟨h.count, hline, h.disk, by simp, by simp, Nat.le_refl _, h.fresh, by simp, by simp⟩

end

theorem once_step {s s' : System} {a : Act} (h : Once s) (hex : Exclusive s)
    (hs : step s a = some s') : Once s' := by
  cases step_effect hex.items.ids hs with
  | same => exact h
  | ticked ms => exact ⟨h.count, h.items, h.disk, h.pending, h.numbered, h.landed, h.fresh,
      h.started, h.saving⟩
  | refusedAdd _ id =>
    exact ⟨h.count, h.items, h.disk, h.pending, h.numbered, h.landed,
      fun i hi => h.fresh i fun hc => hi (List.mem_cons_of_mem _ hc), h.started, h.saving⟩
  | added _ item items hnew hq hperm =>
    refine ⟨h.count, fun x hx hxq => ?_, h.disk, h.pending, h.numbered, h.landed,
      fun i hi => h.fresh i fun hc => hi (List.mem_cons_of_mem _ hc), h.started, h.saving⟩
    rcases List.mem_append.1 (hperm.mem_iff.1 hx) with hx | hx
    · exact h.items x hx hxq
    · rw [List.mem_singleton] at hx
      exact hx ▸ h.fresh item.id hnew
  | edited _ items hch =>
    exact h.withBook { s.book with items := items } rfl
      (h.items.changed hch fun _ _ hxy => hxy.queued)
  | resumed id items hch =>
    have hcount := h.count id
    have hre := h.reopen id (s.tally id).resumed rfl (by
      simp only [Tally.resumed]
      split at hcount <;> omega)
    refine hre.withBook { s.book with items := items } rfl fun y hy hq => ?_
    obtain ⟨x, hx, hid, -, hxy⟩ := hch.of_mem y hy
    rcases hxy with hxy | ⟨hxid, -, -⟩
    · exact hid ▸ hre.items x hx (hxy.queued hq)
    · change (Function.update s.tally id _ y.id).open_ = true
      rw [← hid, hxid, Function.update_self]
      rfl
  | held _ holds => exact h.withBook { s.book with holds := holds } rfl h.items
  | saved => exact h.save hex
  | wrote i snapshot hi => exact h.write hi
  | kicked console hnew =>
    refine (h.withBook { s.book with drivers := console :: s.book.drivers } rfl
      h.items).withTasks _ fun u hu => ?_
    rcases List.mem_append.1 hu with hu | hu
    · exact Or.inl hu
    · rw [List.mem_singleton] at hu
      exact Or.inr (by simp [hu])
  | stopped t task ht hpc =>
    exact (h.withBook { s.book with drivers := s.book.drivers.erase task.console } rfl
      h.items).withTasks _ fun u hu => Or.inl ((List.eraseIdx_sublist ..).subset hu)
  | turned _ t task holds pc ht hpc hgone =>
    refine (h.withBook { s.book with holds := holds } rfl h.items).setPc t task ?_ ?_
    · rintro id rfl
      simp [Pc.owns] at hpc
    · rintro id g rfl
      simp [Pc.owns] at hpc
  | started t task head items ht hpc hholds hhead hch =>
    have hitems : LineOpen s.tally items := h.items.changed hch fun x y hxy hq => by
      by_cases hx : x.id = head
      · rw [(hxy.1 hx).2.2] at hq
        simp at hq
      · exact (hxy.2 hx).queued hq
    have hb := h.withBook { s.book.dropLapsed s.now task.console with items := items } rfl hitems
    refine ⟨hb.count, hb.items, hb.disk, hb.pending, hb.numbered, hb.landed, hb.fresh,
      fun u hu id hupc => ?_, fun u hu id g hupc => ?_⟩
    · rcases List.mem_or_eq_of_mem_set hu with hu | rfl
      · exact h.started u hu id hupc
      · -- the head was in line, so it may be run
        obtain ⟨x, hx, rfl, hq⟩ := hhead
        simp only [Pc.started.injEq] at hupc
        exact hupc ▸ h.items x hx hq
    · rcases List.mem_or_eq_of_mem_set hu with hu | rfl
      · exact hb.saving u hu id g hupc
      · simp at hupc
  | savedRun t task id ht hpc =>
    have hmem : task ∈ s.tasks := List.mem_of_getElem? ht
    have hsave := h.save hex
    refine ⟨hsave.count, hsave.items, hsave.disk, hsave.pending, hsave.numbered, hsave.landed,
      hsave.fresh, fun u hu id' hupc => ?_, fun u hu id' g hupc => ?_⟩
    · rcases List.mem_or_eq_of_mem_set hu with hu | rfl
      · exact hsave.started u hu id' hupc
      · simp at hupc
    · rcases List.mem_or_eq_of_mem_set hu with hu | rfl
      · exact hsave.saving u hu id' g hupc
      · simp only [Pc.saving.injEq] at hupc
        obtain ⟨rfl, rfl⟩ := hupc
        refine ⟨h.started task hmem id hpc, Nat.le_refl _, fun p hp hg => ?_, fun hg => ?_⟩
        · rcases List.mem_append.1 hp with hp | hp
          · have := h.numbered p hp
            omega
          · rw [List.mem_singleton] at hp
            subst hp
            exact (hex.outOfLine hmem (by rw [hpc]; rfl)).stored
        · have h1 : s.book.generation + 1 ≤ s.written := hg
          have := h.landed
          omega
  | called t task id generation item ht hpc hlanded hitem hid =>
    exact h.call hex ht hpc hlanded hitem hid
  | putBack t task id items ended ht hpc hch =>
    have hcount := h.count id
    have hre := h.reopen id (s.tally id).putBack rfl (by
      simp only [Tally.putBack]
      split at hcount <;> omega)
    refine (hre.withBook { s.book with items := items, lastEnded := ended } rfl
      fun y hy hq => ?_).setPc t task (by simp) (by simp)
    obtain ⟨x, hx, hid, -, hxy⟩ := hch.of_mem y hy
    by_cases hxid : x.id = id
    · change (Function.update s.tally id _ y.id).open_ = true
      rw [← hid, hxid, Function.update_self]
      rfl
    · exact hid ▸ hre.items x hx ((hxy.2 hxid).queued hq)
  | gotJob t task id job kind items ht hpc hch =>
    exact (h.withBook { s.book with items := items } rfl
      (h.items.changed hch fun _ _ hxy => hxy.queued)).setPc t task (by simp) (by simp)
  | finished t task id end_ items ended ht hpc hbook hch =>
    refine (h.withBook { s.book with items := items, lastEnded := ended } rfl
      (h.items.changed hch fun x y hxy hq => ?_)).setPc t task (by simp) (by simp)
    by_cases hx : x.id = id
    · exact absurd hq (hxy.1 hx).2
    · exact (hxy.2 hx).queued hq
  | died t task ht =>
    have hitems : LineOpen s.tally (s.book.orphan s.now task.console).items := by
      rcases orphan_cases s.book s.now task.console with
        ⟨heq, -⟩ | ⟨lp, item, lq, hl, -, -, heq⟩
      · rw [heq]
        exact h.items
      · rw [heq]
        refine h.items.changed (R := fun x y => y.status = .queued → x.status = .queued) ?_
          fun _ _ h => h
        rw [hl]
        exact changed_at rfl rfl (by simp [Item.orphaned]) fun _ _ h => h
    have hgen : (s.book.orphan s.now task.console).generation = s.book.generation := by
      rcases orphan_cases s.book s.now task.console with
        ⟨heq, -⟩ | ⟨lp, item, lq, hl, -, -, heq⟩ <;> rw [heq]
    exact (h.withBook _ hgen hitems).withTasks _
      fun u hu => Or.inl ((List.eraseIdx_sublist ..).subset hu)
  | crashed => exact h.restart

/-- Every state of the queue keeps both invariants. -/
theorem once_of_exec {s : System} {as : List Act} (h : Runs.exec step {} as = some s) :
    Exclusive s ∧ Once s :=
  Runs.exec_inv (P := fun s => Exclusive s ∧ Once s)
    (fun _ _ _ hs hstep => ⟨exclusive_step hs.1 hstep, once_step hs.2 hs.1 hstep⟩)
    ⟨exclusive_start, once_start⟩ h

/-- **No item runs again by itself.**  In every state of every run the route of an item has
been called at most once, and once more for each accepted resume of it and each busy reply
that put it back in line; and when the engine stops there and starts again, an item whose
route was called is in line only if it was resumed or put back since the last call. -/
theorem route_calls_le (as : List Act) (s : System) (h : Runs.exec step {} as = some s) :
    (∀ id, (s.tally id).calls ≤ 1 + (s.tally id).resumes + (s.tally id).busies) ∧
    ∀ s', step s .crash = some s' → ∀ x ∈ s'.book.items, 0 < (s.tally x.id).calls →
      x.status = .queued → (s.tally x.id).open_ = true := by
  obtain ⟨-, honce⟩ := once_of_exec h
  refine ⟨fun id => ?_, fun s' hs x hx _ hq => ?_⟩
  · have := honce.count id
    omega
  · cases hs
    have htally : s.restart.tally = s.tally := by
      unfold System.restart
      simp only
      split <;> rfl
    rw [← htally]
    exact honce.restart.items x hx hq

/-- An install the console was busy for: its route was called, the reply put it back in
line, and the list was saved so. -/
def busyInstall : List Act :=
  [.add "q-1" "10.0.0.2" .install false {} none, .save, .write 0, .kick "10.0.0.2", .look 0,
   .start 0, .saveRun 0, .write 0, .call 0, .busy 0, .save, .write 0]

theorem route_calls_le_busyInstall :
    (Runs.exec step {} busyInstall).isSome ∧
    ∀ s, Runs.exec step {} busyInstall = some s →
      (s.tally "q-1").calls ≤ 1 + (s.tally "q-1").resumes + (s.tally "q-1").busies :=
  ⟨by decide, fun s h => (route_calls_le busyInstall s h).1 "q-1"⟩

/-- **A route called before a crash, and its item in line after it.**  The busy reply put
the install back, so the restart carries on with it. -/
theorem busy_then_queued :
    (Runs.exec step {} busyInstall).map (fun s => (s.tally "q-1").calls) = some 1 ∧
    (Runs.exec step {} (busyInstall ++ [.crash])).map
      (fun s => s.book.items.map fun x => (x.id, x.status)) = some [("q-1", .queued)] := by
  decide

end Ps5Upload.QueueApi
