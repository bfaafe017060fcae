import Ps5Upload.Core.SaveArchive.Rows

/-!
# Save backups: wrapper folders

What `flatten_wrapper_subdirs` keeps of a title folder whose data is wrapped in folders of folders.

* `Down` — the way from a title folder to its data layer, and the layers on it;
* `flatten_iff` — **flattening keeps the data layer and every layer's `sce_sys`** exactly where the data layer brings no
  second one and no layer on the way holds a file in its own that the title or the data layer does not.
-/

namespace Ps5Upload.SaveArchive

open ByteFile

/-! ## Layers -/

/-- A layer without files whose only folder but `sce_sys` is this one. -/
structure Wraps (kids inner : Folder) : Prop where
  no_files : kids.any (fun q => q.2.isFile) = false
  alone : ∃ wrapper, subdirs kids = [(wrapper, inner)]

/-- The way down from a layer to the first that wraps no other, with the layers in front of that one. -/
inductive Down : Folder → List Folder → Folder → Prop
  | stop {kids : Folder} (h : ∀ inner, ¬Wraps kids inner) : Down kids [] kids
  | step {kids inner data : Folder} {layers : List Folder} (h : Wraps kids inner) (t : Down inner layers data) :
      Down kids (kids :: layers) data

/-- What flattening owes to a title folder: the data layer, what every layer on the way has in `sce_sys`, and nothing
left to do. -/
structure Flattened (layers : List Folder) (data r : Folder) : Prop where
  data : ∀ row ∈ rowsOf [] data, row ∈ rowsOf [] r
  sys : ∀ layer ∈ layers, ∀ p bytes, (sceSys :: p, some bytes) ∈ rowsOf [] layer →
    (sceSys :: p, some bytes) ∈ rowsOf [] r
  again : flattenWrapperSubdirs r = .ok r

section

variable {kids inner data r : Folder} {layers : List Folder} {name : Text}

theorem mem_subdirs {inner : Folder} : (name, inner) ∈ subdirs kids ↔ (name, .dir inner) ∈ kids ∧ name ≠ sceSys := by
  rw [subdirs, List.mem_filterMap]
  constructor
  · rintro ⟨⟨name', n⟩, hq, h⟩
    cases n with
    | file bytes => cases h
    | dir kids' =>
      dsimp only at h
      split at h
      · cases h
      · rename_i hne
        cases h
        exact ⟨hq, hne⟩
  · rintro ⟨hq, hne⟩
    exact ⟨_, hq, if_neg hne⟩

theorem subdirs_append (a b : Folder) : subdirs (a ++ b) = subdirs a ++ subdirs b := List.filterMap_append

/-- Every entry of a layer that wraps another is the wrapper or `sce_sys`. -/
theorem Wraps.cases {wrapper : Text} (h : kids.any (fun q => q.2.isFile) = false)
    (hsub : subdirs kids = [(wrapper, inner)]) {q : Text × Node} (hq : q ∈ kids) :
    q = (wrapper, .dir inner) ∨ q.1 = sceSys := by
  obtain ⟨name, n⟩ := q
  cases n with
  | file bytes => exact absurd (List.any_eq_true.2 ⟨_, hq, rfl⟩) (Bool.eq_false_iff.1 h)
  | dir kids' =>
    by_cases hne : name = sceSys
    · exact .inr hne
    · have hmem := mem_subdirs.2 ⟨hq, hne⟩
      rw [hsub, List.mem_singleton] at hmem
      cases hmem
      exact .inl rfl

theorem Down.wraps (h : Down kids layers data) : ∀ inner, ¬Wraps data inner := by
  induction h with
  | stop h => exact h
  | step _ _ ih => exact ih

/-- The descent of the code ends where the way down does. -/
theorem dataLayer_down (h : Down kids layers data) : ∀ {n : Nat}, layers.length ≤ n →
    dataLayer n kids = data := by
  induction h with
  | @stop kids h =>
    intro turns _
    cases turns with
    | zero => rfl
    | succ turns =>
      rw [dataLayer]
      split
      · rfl
      rename_i hfiles
      split
      · rename_i wrapper inner hsub
        exact absurd ⟨Bool.eq_false_iff.2 hfiles, wrapper, hsub⟩ (h inner)
      · rfl
  | @step kids inner data layers hw _ ih =>
    intro turns hlen
    cases turns with
    | zero => cases hlen
    | succ turns =>
      obtain ⟨wrapper, hsub⟩ := hw.alone
      rw [dataLayer, if_neg (Bool.eq_false_iff.1 hw.no_files), hsub]
      exact ih (Nat.le_of_succ_le_succ hlen)

theorem Down.proper (h : Down kids layers data) (hp : (Node.dir kids).Proper) : (Node.dir data).Proper := by
  induction h with
  | stop _ => exact hp
  | @step kids inner data layers hw _ ih =>
    obtain ⟨wrapper, hsub⟩ := hw.alone
    have hmem : (wrapper, Node.dir inner) ∈ kids := (mem_subdirs.1 (hsub ▸ List.mem_singleton_self _)).1
    rw [Node.Proper, properKids_iff] at hp
    exact ih (hp.2 _ hmem).2

/-! ## Moving up -/

/-- The entries of a layer can be moved up exactly if none is there already. -/
theorem moveUp_eq_ok : ∀ {todo kids r : Folder}, (names todo).Nodup →
    (moveUp todo kids = .ok r ↔ (∀ x ∈ names todo, x ∉ names kids) ∧ r = kids ++ todo)
  | [], kids, r, _ => by
    rw [moveUp, List.append_nil, Except.ok.injEq, eq_comm]
    exact ⟨fun h => ⟨(fun x hx => by cases hx), h⟩, And.right⟩
  | q :: todo, kids, r, hn => by
    obtain ⟨hq, hn⟩ := List.nodup_cons.1 hn
    rw [moveUp]
    split
    · rename_i hthere
      exact iff_of_false (fun h => by cases h) fun h => h.1 q.1 List.mem_cons_self hthere
    · rename_i hfree
      rw [moveUp_eq_ok hn, List.append_assoc, List.singleton_append]
      refine and_congr_left fun _ => ⟨fun h x hx => ?_, fun h x hx hmem => ?_⟩
      · rcases List.mem_cons.1 hx with rfl | hx
        · exact hfree
        · exact fun hmem => h x hx (by rw [names, List.map_append]; exact List.mem_append_left _ hmem)
      · rw [names, List.map_append, List.mem_append] at hmem
        rcases hmem with hmem | hmem
        · exact h x (List.mem_cons_of_mem _ hx) hmem
        · rw [List.mem_singleton.1 hmem] at hx
          exact hq hx

/-- What stays in a title folder once its wrapper has gone. -/
def beside (wrapper : Text) (kids : Folder) : Folder := kids.filter fun q => q.1 ≠ wrapper

/-- **Flattening, case by case**: of a layer that wraps another, what stands beside the wrapper and the data layer. -/
theorem flatten_eq_ok {wrapper : Text} (hfiles : kids.any (fun q => q.2.isFile) = false)
    (hsub : subdirs kids = [(wrapper, inner)]) (hstaging : stagingName ∉ names kids)
    (hn : (names (dataLayer maxDescend inner)).Nodup) :
    flattenWrapperSubdirs kids = .ok r ↔
      (stagingName ∉ names (dataLayer maxDescend inner) ∧
        (sceSys ∈ names kids → sceSys ∉ names (dataLayer maxDescend inner))) ∧
      r = beside wrapper kids ++ dataLayer maxDescend inner := by
  obtain ⟨hmem, hne⟩ := mem_subdirs.1 (hsub ▸ List.mem_singleton_self (wrapper, inner) : (wrapper, inner) ∈ subdirs kids)
  have hnames : ∀ x ∈ names kids, x = wrapper ∨ x = sceSys := fun x hx => by
    obtain ⟨q, hq, rfl⟩ := List.mem_map.1 hx
    exact (Wraps.cases hfiles hsub hq).imp_left (congrArg Prod.fst)
  have hwrapper : wrapper ∈ names kids := List.mem_map_of_mem hmem
  have hstaged : wrapper ≠ stagingName := fun h => hstaging (h ▸ hwrapper)
  have hfilter : [(wrapper, inner)].filter (fun q => q.1 ≠ stagingName) = [(wrapper, inner)] :=
    List.filter_eq_self.2 fun q hq => by
      rw [List.mem_singleton.1 hq]
      exact decide_eq_true hstaged
  let staged : Folder := kids.map fun q => if q.1 = wrapper then (stagingName, q.2) else q
  have hnamesStaged : ∀ x, x ∈ names staged ↔ x = stagingName ∨ (x ∈ names kids ∧ x ≠ wrapper) := by
    intro x
    rw [names, List.map_map, List.mem_map]
    constructor
    · rintro ⟨q, hq, rfl⟩
      dsimp only [Function.comp_apply]
      split
      · exact .inl rfl
      · rename_i hother
        exact .inr ⟨List.mem_map_of_mem hq, hother⟩
    · rintro (rfl | ⟨hx, hother⟩)
      · exact ⟨_, hmem, by rw [Function.comp_apply, if_pos rfl]⟩
      · obtain ⟨q, hq, rfl⟩ := List.mem_map.1 hx
        exact ⟨q, hq, by rw [Function.comp_apply, if_neg hother]⟩
  have hfree : (∀ x ∈ names (dataLayer maxDescend inner), x ∉ names staged) ↔
      stagingName ∉ names (dataLayer maxDescend inner) ∧
        (sceSys ∈ names kids → sceSys ∉ names (dataLayer maxDescend inner)) := by
    constructor
    · exact fun h => ⟨fun hx => h _ hx ((hnamesStaged _).2 (.inl rfl)),
        fun hsys hx => h _ hx ((hnamesStaged _).2 (.inr ⟨hsys, hne.symm⟩))⟩
    · rintro ⟨hs, hsys⟩ x hx hin
      rcases (hnamesStaged x).1 hin with rfl | ⟨hkids, hother⟩
      · exact hs hx
      · rcases hnames x hkids with rfl | rfl
        · exact hother rfl
        · exact hsys hkids hx
  have hleft : (staged ++ dataLayer maxDescend inner).filter (fun q => q.1 ≠ stagingName) =
      beside wrapper kids ++ (dataLayer maxDescend inner).filter (fun q => q.1 ≠ stagingName) := by
    rw [List.filter_append]
    congr 1
    rw [List.filter_map, beside]
    refine (List.map_congr_left fun q hq => ?_).trans ((List.map_id _).trans (List.filter_congr fun q hq => ?_))
    · have := (List.mem_filter.1 hq).2
      rw [Function.comp_apply] at this
      split at this
      · simp at this
      · rename_i hother
        exact if_neg hother
    · rw [Function.comp_apply]
      split
      · rename_i heq
        simp [heq]
      · rename_i hother
        have hq : q.1 ≠ stagingName := fun h => hstaging (h ▸ List.mem_map_of_mem hq)
        simp [hother, hq]
  rw [flattenWrapperSubdirs, if_neg (Bool.eq_false_iff.1 hfiles), hsub, hfilter]
  dsimp only
  rw [if_neg hstaging, ← hfree]
  cases hmove : moveUp (dataLayer maxDescend inner) staged with
  | error e =>
    refine iff_of_false (fun h => ?_) fun h => ?_
    · cases h
    · rw [(moveUp_eq_ok hn).2 ⟨h.1, rfl⟩] at hmove
      cases hmove
  | ok moved =>
    obtain ⟨hall, rfl⟩ := (moveUp_eq_ok hn).1 hmove
    have hdata : (dataLayer maxDescend inner).filter (fun q => q.1 ≠ stagingName) = dataLayer maxDescend inner :=
      List.filter_eq_self.2 fun q hq => decide_eq_true fun h =>
        (hfree.1 hall).1 (h ▸ List.mem_map_of_mem hq)
    rw [and_iff_right hall]
    change Except.ok ((staged ++ dataLayer maxDescend inner).filter fun q => q.1 ≠ stagingName) = Except.ok r ↔ _
    rw [hleft, hdata, Except.ok.injEq, eq_comm]

/-- A layer that wraps no other stays as it is, with more folders named `sce_sys`. -/
theorem flatten_settled {sys : Folder} (hsys : ∀ q ∈ sys, q.1 = sceSys ∧ q.2.isFile = false)
    (h : ∀ inner, ¬Wraps data inner) (hstaging : stagingName ∉ names data) :
    flattenWrapperSubdirs (sys ++ data) = .ok (sys ++ data) := by
  have hnone : subdirs sys = [] := List.filterMap_eq_nil_iff.2 fun q hq => by
    obtain ⟨name, n⟩ := q
    cases n with
    | file bytes => exact absurd (hsys _ hq).2 (fun h => by cases h)
    | dir kids' => exact if_pos (hsys _ hq).1
  have hfilter : (subdirs data).filter (fun q => q.1 ≠ stagingName) = subdirs data :=
    List.filter_eq_self.2 fun q hq => decide_eq_true fun heq => by
      obtain ⟨name, kids'⟩ := q
      exact hstaging (heq ▸ List.mem_map_of_mem (mem_subdirs.1 hq).1)
  rw [flattenWrapperSubdirs]
  split
  · rfl
  rename_i hfiles
  rw [List.any_append, Bool.or_eq_true, not_or] at hfiles
  rw [subdirs_append, hnone, List.nil_append, hfilter]
  split
  · rename_i wrapper kids' hsub
    exact absurd ⟨Bool.eq_false_iff.2 hfiles.2, wrapper, hsub⟩ (h kids')
  · rfl

theorem mem_rowsOf_append {a b : Folder} {row : Row} : row ∈ rowsOf [] (a ++ b) ↔ row ∈ rowsOf [] a ∨ row ∈ rowsOf [] b := by
  rw [rowsOf_eq, rowsOf_eq, rowsOf_eq, List.flatMap_append, List.mem_append]

/-- What has `sce_sys` in front stays beside a wrapper. -/
theorem mem_rowsOf_beside {wrapper : Text} (hne : wrapper ≠ sceSys) {p : Path} {o : Option Bytes} :
    (sceSys :: p, o) ∈ rowsOf [] (beside wrapper kids) ↔ (sceSys :: p, o) ∈ rowsOf [] kids := by
  have hhead : ∀ q : Text × Node, (sceSys :: p, o) ∈ q.2.rows ([] ++ [q.1]) → q.1 = sceSys := fun q hq => by
    obtain ⟨t, ht⟩ := prefix_of_mem_rows hq
    exact (List.cons.inj ht).1
  rw [rowsOf_eq, rowsOf_eq, List.mem_flatMap, List.mem_flatMap]
  refine exists_congr fun q => and_congr_left fun hq => ?_
  rw [beside, List.mem_filter, and_iff_left]
  exact decide_eq_true fun h => hne (h ▸ hhead q hq)

/-! ## The title folder -/

/-- **Flattening keeps what it should** of a title folder with no more than nine wrappers exactly where its data layer has
no name that is taken, and every file that a wrapper has in its `sce_sys` is one of the title's or of the data layer's. -/
theorem flatten_iff (hp : (Node.dir kids).Proper) (hstaging : stagingName ∉ names kids) (hdown : Down kids layers data)
    (hlen : layers.length ≤ 9) :
    (∃ r, flattenWrapperSubdirs kids = .ok r ∧ Flattened layers data r) ↔
      layers = [] ∨ (stagingName ∉ names data ∧ (sceSys ∈ names kids → sceSys ∉ names data) ∧
        ∀ layer ∈ layers.tail, ∀ p bytes, (sceSys :: p, some bytes) ∈ rowsOf [] layer →
          (sceSys :: p, some bytes) ∈ rowsOf [] kids ∨ (sceSys :: p, some bytes) ∈ rowsOf [] data) := by
  have hproper := hdown.proper hp
  cases hdown with
  | stop h =>
    refine iff_of_true ⟨kids, ?_, fun row h => h, (fun _ hl => absurd hl List.not_mem_nil), ?_⟩ (.inl rfl)
    all_goals exact flatten_settled (fun _ hq => absurd hq List.not_mem_nil) h hstaging
  | @step _ inner _ layers hw hdown =>
    obtain ⟨wrapper, hsub⟩ := hw.alone
    have hdata : dataLayer maxDescend inner = data :=
      dataLayer_down hdown (Nat.le_of_succ_le_succ hlen)
    have hne : wrapper ≠ sceSys :=
      (mem_subdirs.1 (hsub ▸ List.mem_singleton_self (wrapper, inner) : (wrapper, inner) ∈ subdirs kids)).2
    have hmoved := fun r => flatten_eq_ok (r := r) hw.no_files hsub hstaging (by
      rw [hdata]
      rw [Node.Proper] at hproper
      exact hproper.1)
    rw [hdata] at hmoved
    have hrows : ∀ p bytes, (sceSys :: p, some bytes) ∈ rowsOf [] (beside wrapper kids ++ data) ↔
        (sceSys :: p, some bytes) ∈ rowsOf [] kids ∨ (sceSys :: p, some bytes) ∈ rowsOf [] data := fun p bytes => by
      rw [mem_rowsOf_append, mem_rowsOf_beside hne]
    rw [or_iff_right (List.cons_ne_nil _ _), List.tail_cons]
    constructor
    · rintro ⟨r, hr, hkept⟩
      obtain ⟨⟨hs, hsys⟩, rfl⟩ := (hmoved r).1 hr
      exact ⟨hs, hsys, fun layer hl p bytes h =>
        (hrows p bytes).1 (hkept.sys layer (List.mem_cons_of_mem _ hl) p bytes h)⟩
    · rintro ⟨hs, hsys, hlayers⟩
      refine ⟨_, (hmoved _).2 ⟨⟨hs, hsys⟩, rfl⟩, fun row h => mem_rowsOf_append.2 (.inr h), ?_, ?_⟩
      · intro layer hl p bytes h
        rcases List.mem_cons.1 hl with rfl | hl
        · exact (hrows p bytes).2 (.inl h)
        · exact (hrows p bytes).2 (hlayers layer hl p bytes h)
      · refine flatten_settled (fun q hq => ?_) hdown.wraps hs
        obtain ⟨hq, hother⟩ := List.mem_filter.1 hq
        refine ⟨(Wraps.cases hw.no_files hsub hq).resolve_left fun h => of_decide_eq_true hother (h ▸ rfl), ?_⟩
        exact Bool.eq_false_iff.2 fun hfile =>
          Bool.eq_false_iff.1 hw.no_files (List.any_eq_true.2 ⟨q, hq, hfile⟩)

end

theorem flatten_iff_two :
    let title : Folder := [(sceSys, .dir [(['p'], .file [1])]), (['T'], .dir [(['T'], .dir [(['d'], .file [2])])])]
    let layers : List Folder := [title, [(['T'], .dir [(['d'], .file [2])])]]
    (∃ r, flattenWrapperSubdirs title = .ok r ∧ Flattened layers [(['d'], .file [2])] r) ↔
      layers = [] ∨ (stagingName ∉ names [(['d'], .file [2])] ∧
        (sceSys ∈ names title → sceSys ∉ names [(['d'], .file [2])]) ∧
        ∀ layer ∈ layers.tail, ∀ p bytes, (sceSys :: p, some bytes) ∈ rowsOf [] layer →
          (sceSys :: p, some bytes) ∈ rowsOf [] title ∨ (sceSys :: p, some bytes) ∈ rowsOf [] [(['d'], .file [2])]) := by
  intro title layers
  have hname : ∀ name : Text, name ∈ [sceSys, ['T'], ['d'], ['p']] → IsName name := by
    intro name h
    simp only [List.mem_cons, List.not_mem_nil, or_false] at h
    rcases h with rfl | rfl | rfl | rfl <;> exact ⟨by decide, by decide, by decide, by decide, by decide⟩
  refine flatten_iff ?_ (by decide) (.step ⟨rfl, _, rfl⟩ (.step ⟨rfl, _, rfl⟩ (.stop ?_))) (by decide)
  · simp only [Node.Proper, ProperKids, title, and_true]
    exact ⟨by decide, hname _ (by decide), ⟨by decide, hname _ (by decide)⟩, hname _ (by decide), by decide,
      hname _ (by decide), by decide, hname _ (by decide)⟩
  · exact fun inner h => Bool.noConfusion (h.no_files : true = false)

/-- What a wrapper alone has in its `sce_sys` goes with it. -/
example : flattenWrapperSubdirs
    [(['T'], .dir [(sceSys, .dir [(['p'], .file [1])]), (['T'], .dir [(['d'], .file [2])])])] =
      .ok [(['d'], .file [2])] := by
  rfl

end Ps5Upload.SaveArchive
