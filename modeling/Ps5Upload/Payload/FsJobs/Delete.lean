import Ps5Upload.Payload.FsJobs.Places

/-!
# What a delete removes

* `opDelete_iff` — **a delete removes what it was asked for, and no entry keeps another**, exactly where no
  entry that could lose something stands behind one whose path is too long.
-/

namespace Ps5Upload.FsJobs

open ByteFile Node

/-! ## The entries that stay -/

/-- What is left of the entries, each with what `R` allows. -/
inductive Left (R : Name × Node → Option Node → Prop) : List (Name × Node) → List (Name × Node) → Prop
  | nil : Left R [] []
  | cons {p : Name × Node} {r : Option Node} {es kept : List (Name × Node)} (h : R p r) (t : Left R es kept) :
      Left R (p :: es) ((r.map (p.1, ·)).toList ++ kept)

namespace Left

variable {R R' : Name × Node → Option Node → Prop} {es kept : List (Name × Node)} {p : Name × Node} {x : Name}

theorem refl (h : ∀ p ∈ es, R p (some p.2)) : Left R es es := by
  induction es with
  | nil => exact .nil
  | cons p es ih => exact .cons (h p List.mem_cons_self) (ih fun p' hp' => h p' (List.mem_cons_of_mem p hp'))

theorem names (h : Left R es kept) : ∀ x ∈ kept.map Prod.fst, x ∈ es.map Prod.fst := by
  induction h with
  | nil => exact fun x hx => hx
  | @cons p r es kept _ _ ih =>
    intro x hx
    rw [List.map_append, List.mem_append] at hx
    rcases hx with hx | hx
    · cases r with
      | none => cases hx
      | some n =>
        rw [List.mem_singleton.1 hx]
        exact List.mem_cons_self
    · exact List.mem_cons_of_mem _ (ih x hx)

/-- What stays under a name. -/
theorem find (h : Left R es kept) (hn : (es.map Prod.fst).Nodup) (hp : p ∈ es) :
    ∃ r, R p r ∧ kept.find? (fun p' => p'.1 = p.1) = r.map (p.1, ·) := by
  induction h with
  | nil => cases hp
  | @cons p' r es kept hr t ih =>
    obtain ⟨hnot, hn⟩ := List.nodup_cons.1 hn
    rcases List.mem_cons.1 hp with rfl | hp
    · refine ⟨r, hr, ?_⟩
      cases r with
      | none =>
        refine List.find?_eq_none.2 fun a ha hx => hnot (t.names _ ?_)
        rw [← of_decide_eq_true hx]
        exact List.mem_map_of_mem ha
      | some n => exact List.find?_cons_of_pos (decide_eq_true rfl)
    · obtain ⟨r', hr', hfind⟩ := ih hn hp
      refine ⟨r', hr', ?_⟩
      have hne : p'.1 ≠ p.1 := fun heq => hnot (heq ▸ List.mem_map_of_mem hp)
      cases r with
      | none => exact hfind
      | some n => exact (List.find?_cons_of_neg (by simpa using hne)).trans hfind

/-- What stays below a name. -/
theorem find_below {i : Inode} (h : Left R es kept) (hn : (es.map Prod.fst).Nodup) (hp : p ∈ es) :
    ∃ r, R p r ∧ ∀ q, Node.find (p.1 :: q) (.dir i kept) = r.bind (Node.find q) := by
  obtain ⟨r, hr, hfind⟩ := h.find hn hp
  refine ⟨r, hr, fun q => ?_⟩
  rw [Node.find, hfind]
  cases r <;> rfl

theorem find_other {i : Inode} (h : Left R es kept) (hx : x ∉ es.map Prod.fst) (q : List Name) :
    Node.find (x :: q) (.dir i kept) = Node.find (x :: q) (.dir i es) := by
  rw [find_dir_of_not_mem hx, find_dir_of_not_mem fun hk => hx (h.names x hk)]

end Left

/-! ## A walk -/

section Walks

variable {cancels : Nat → Bool} {dev : Nat} {rm : Bytes → Node → Walk → Rc × Option Node × Walk} {path : Bytes}
  {es kept : List (Name × Node)} {r : Option Node} {rc : Rc} {s s' : Walk}

/-- An entry that a walk has not come to, or what a walk of its own leaves. -/
def Walked (rm : Bytes → Node → Walk → Rc × Option Node × Walk) (path : Bytes) (p : Name × Node) (r : Option Node) :
    Prop := r = some p.2 ∨ ∃ s, r = (rm (sub path p.1) p.2 s).2.1

theorem rmEntries_left (cancels : Nat → Bool) (rm : Bytes → Node → Walk → Rc × Option Node × Walk) (path : Bytes) :
    ∀ (es : List (Name × Node)) (s : Walk), Left (Walked rm path) es (rmEntries cancels rm path es s).2.1
  | [], _ => .nil
  | p :: es, s => by
    have hrest : ∀ es, Left (Walked rm path) es es := fun es => .refl fun _ _ => .inl rfl
    rw [rmEntries]
    split
    · exact hrest _
    split
    · exact hrest _
    dsimp only
    have hp : Walked rm path p (rm (sub path p.1) p.2 s.polled).2.1 := .inr ⟨_, rfl⟩
    split
    · exact .cons hp (hrest es)
    · exact .cons hp (rmEntries_left cancels rm path es _)
    · exact .cons hp (rmEntries_left cancels rm path es _)

/-- Every entry is gone if the walks of all succeed, and one that fails stays. -/
theorem rmEntries_ok (cancels : Nat → Bool) (h : ∀ path node s, (rm path node s).1 = .ok ↔ (rm path node s).2.1 = none) (path : Bytes) :
    ∀ (es : List (Name × Node)) (s : Walk),
      ((rmEntries cancels rm path es s).1 = .ok → (rmEntries cancels rm path es s).2.1 = []) ∧
      ((rmEntries cancels rm path es s).1 = .failed → (rmEntries cancels rm path es s).2.1 ≠ [])
  | [], _ => ⟨fun _ => rfl, fun h => by cases h⟩
  | p :: es, s => by
    have hp := h (sub path p.1) p.2 s.polled
    rw [rmEntries]
    split
    · exact ⟨(fun h => by cases h), (fun h => by cases h)⟩
    split
    · exact ⟨(fun h => by cases h), fun _ => List.cons_ne_nil _ _⟩
    dsimp only
    split
    · exact ⟨(fun h => by cases h), (fun h => by cases h)⟩
    · rename_i hrc
      have ih := rmEntries_ok cancels h path es (rm (sub path p.1) p.2 s.polled).2.2
      rw [hp.1 hrc]
      exact ih
    · rename_i hrc
      have hsome : (rm (sub path p.1) p.2 s.polled).2.1 ≠ none := fun hnone => by
        rw [hp.2 hnone] at hrc
        cases hrc
      obtain ⟨n, hn⟩ := Option.ne_none_iff_exists'.1 hsome
      rw [hn]
      refine ⟨fun hok => ?_, fun _ => List.cons_ne_nil _ _⟩
      split at hok <;> cases hok

/-- **A walk succeeds exactly when its entry is gone.** -/
theorem rmIn_ok (cancels : Nat → Bool) (dev : Nat) : ∀ (left : Nat) (path : Bytes) (node : Node) (s : Walk),
    (rmIn cancels dev left path node s).1 = .ok ↔ (rmIn cancels dev left path node s).2.1 = none
  | 0, _, _, _ => ⟨(fun h => by cases h), (fun h => by cases h)⟩
  | left + 1, path, node, s => by
    rw [rmIn]
    split
    · exact ⟨(fun h => by cases h), (fun h => by cases h)⟩
    dsimp only
    split
    · exact ⟨(fun h => by cases h), (fun h => by cases h)⟩
    split
    · exact ⟨(fun h => by cases h), (fun h => by cases h)⟩
    split
    · rename_i i es _ _
      split
      · exact ⟨(fun h => by cases h), (fun h => by cases h)⟩
      obtain ⟨-, hfailed⟩ := rmEntries_ok cancels (rmIn_ok cancels dev left) path es s.polled
      split
      · exact ⟨(fun h => by cases h), (fun h => by cases h)⟩
      split
      · rename_i hcancelled hgone
        refine ⟨fun _ => rfl, fun _ => ?_⟩
        have hnil := List.isEmpty_iff.1 hgone.1
        cases hrc : (rmEntries cancels (rmIn cancels dev left) path es s.polled).1 with
        | ok => rfl
        | failed => exact absurd hnil (hfailed hrc)
        | cancelled => exact absurd hrc hcancelled
      · exact ⟨(fun h => by cases h), (fun h => by cases h)⟩
    · split
      · exact ⟨fun _ => rfl, fun _ => rfl⟩
      · exact ⟨(fun h => by cases h), (fun h => by cases h)⟩
    · split
      · exact ⟨fun _ => rfl, fun _ => rfl⟩
      · exact ⟨(fun h => by cases h), (fun h => by cases h)⟩

/-- What has become of an entry: every place of it is as before, or is gone and was within reach. -/
def Framed (dev : Nat) (node : Node) (r : Option Node) : Prop :=
  ∀ q, entryAt r q = entryAt (some node) q ∨ (entryAt r q = none ∧ Within dev q node)

theorem Framed.refl (dev : Nat) (node : Node) : Framed dev node (some node) := fun _ => .inl rfl

/-- An entry of its own is gone. -/
theorem Framed.gone {node : Node} (hdir : node.isDir = false) (hdev : node.inode.dev = dev) :
    Framed dev node none := fun q => by
  cases q with
  | nil => exact .inr ⟨rfl, .here hdev⟩
  | cons x q =>
    refine .inl ?_
    cases node with
    | file i => rfl
    | link i t => rfl
    | dir i es => cases hdir

/-- A folder keeps or loses what its entries keep or lose. -/
theorem Framed.dir {i : Inode} (hdev : i.dev = dev) (hn : (es.map Prod.fst).Nodup)
    (h : Left (fun p r => Framed dev p.2 r) es kept) : Framed dev (.dir i es) (some (.dir i kept)) := fun q => by
  cases q with
  | nil => exact .inl rfl
  | cons x q =>
    by_cases hx : x ∈ es.map Prod.fst
    · obtain ⟨p, hp, rfl⟩ := List.mem_map.1 hx
      obtain ⟨r, hr, hafter⟩ := h.find_below (i := i) hn hp
      rw [entryAt, entryAt, Option.bind_some, Option.bind_some, hafter, find_dir hn hp]
      exact (hr q).imp_right fun h => ⟨h.1, .inside hdev hp h.2⟩
    · exact .inl (congrArg (Option.map bare) (h.find_other (i := i) hx q))

/-- A folder that is empty in the end may go. -/
theorem Framed.empty {i : Inode} (hdev : i.dev = dev) (h : Framed dev (.dir i es) (some (.dir i []))) :
    Framed dev (.dir i es) none := fun q => by
  cases q with
  | nil => exact .inr ⟨rfl, .here hdev⟩
  | cons x q => exact h (x :: q)

theorem Left.imp {R R' : Name × Node → Option Node → Prop} (h : Left R es kept)
    (himp : ∀ p ∈ es, ∀ r, R p r → R' p r) : Left R' es kept := by
  induction h with
  | nil => exact .nil
  | @cons p r es kept hr _ ih =>
    exact .cons (himp p List.mem_cons_self r hr) (ih fun p' hp' => himp p' (List.mem_cons_of_mem p hp'))

/-- **A walk removes only what it reaches on its own device.** -/
theorem rmIn_frame (cancels : Nat → Bool) (dev : Nat) : ∀ (left : Nat) (path : Bytes) {node : Node} (s : Walk),
    Distinct node → Framed dev node (rmIn cancels dev left path node s).2.1
  | 0, _, node, _, _ => .refl dev node
  | left + 1, path, node, s, hd => by
    rw [rmIn]
    split
    · exact .refl dev node
    dsimp only
    split
    · exact .refl dev node
    split
    · exact .refl dev node
    split
    · rename_i i es _ hdev
      have hdev := not_not.1 hdev
      split
      · exact .refl dev _
      obtain ⟨hn, hes⟩ : (es.map Prod.fst).Nodup ∧ ∀ p ∈ es, Distinct p.2 := by
        cases hd with
        | dir hn h => exact ⟨hn, h⟩
      have hleft : Left (fun p r => Framed dev p.2 r) es (rmEntries cancels (rmIn cancels dev left) path es s.polled).2.1 :=
        (rmEntries_left cancels (rmIn cancels dev left) path es s.polled).imp fun p hp r hr => by
          rcases hr with rfl | ⟨s', rfl⟩
          · exact .refl dev p.2
          · exact rmIn_frame cancels dev left _ s' (hes p hp)
      have hkept := Framed.dir hdev hn hleft
      split
      · exact hkept
      split
      · rename_i hgone
        rw [List.isEmpty_iff.1 hgone.1] at hkept
        exact .empty hdev hkept
      · exact hkept
    · rename_i hdev
      split
      · exact .gone rfl (not_not.1 hdev)
      · exact .refl dev _
    · rename_i hdev
      split
      · exact .gone rfl (not_not.1 hdev)
      · exact .refl dev _

end Walks

/-! ## A walk that nobody cancels -/

/-- What an uncancelled walk leaves of an entry. -/
def leaves (dev : Nat) : Nat → Bytes → Node → Option Node
  | 0, _, node => some node
  | left + 1, path, node =>
    if ¬node.inode.stats ∨ node.inode.dev ≠ dev then some node
    else
      match node with
      | .dir i es =>
        if ¬i.opens then some node
        else
          let kept := (es.takeWhile (Fits path)).flatMap fun p =>
            ((leaves dev left (sub path p.1) p.2).map (p.1, ·)).toList
          let kept := kept ++ es.dropWhile (Fits path)
          if kept.isEmpty ∧ i.removes then none else some (.dir i kept)
      | .file i => if i.removes then none else some node
      | .link i _ => if i.removes then none else some node

section Never

variable {dev left : Nat} {path : Bytes} {rm : Bytes → Node → Walk → Rc × Option Node × Walk}
  {g : Bytes → Node → Option Node} {i : Inode} {es : List (Name × Node)} {p : Name × Node} {node : Node}

theorem rmEntries_never (h : ∀ path node s, (rm path node s).1 ≠ .cancelled ∧ (rm path node s).2.1 = g path node)
    (path : Bytes) : ∀ (es : List (Name × Node)) (s : Walk), (rmEntries never rm path es s).1 ≠ .cancelled ∧
      (rmEntries never rm path es s).2.1 =
        ((es.takeWhile (Fits path)).flatMap fun p => ((g (sub path p.1) p.2).map (p.1, ·)).toList) ++
          es.dropWhile (Fits path)
  | [], _ => ⟨(fun h => by cases h), rfl⟩
  | p :: es, s => by
    obtain ⟨hrc, hr⟩ := h (sub path p.1) p.2 s.polled
    rw [rmEntries, if_neg (by exact Bool.false_ne_true)]
    by_cases hfits : Fits path p
    · have htake : (p :: es).takeWhile (Fits path) = p :: es.takeWhile (Fits path) :=
        List.takeWhile_cons_of_pos (decide_eq_true hfits)
      have hdrop : (p :: es).dropWhile (Fits path) = es.dropWhile (Fits path) :=
        List.dropWhile_cons_of_pos (decide_eq_true hfits)
      obtain ⟨hrc', hr'⟩ := rmEntries_never h path es (rm (sub path p.1) p.2 s.polled).2.2
      rw [if_neg (not_not.2 hfits), htake, hdrop, List.flatMap_cons, List.append_assoc, ← hr, ← hr']
      dsimp only
      split
      · rename_i hcancelled
        exact absurd hcancelled hrc
      · exact ⟨hrc', rfl⟩
      · exact ⟨by rw [if_neg hrc']; exact (fun h => by cases h), rfl⟩
    · have htake : (p :: es).takeWhile (Fits path) = [] := List.takeWhile_cons_of_neg (by simpa using hfits)
      have hdrop : (p :: es).dropWhile (Fits path) = p :: es := List.dropWhile_cons_of_neg (by simpa using hfits)
      rw [if_pos hfits, htake, hdrop]
      exact ⟨(fun h => by cases h), rfl⟩

/-- **What an uncancelled walk leaves.** -/
theorem rmIn_leaves (dev : Nat) : ∀ (left : Nat) (path : Bytes) (node : Node) (s : Walk),
    (rmIn never dev left path node s).1 ≠ .cancelled ∧
      (rmIn never dev left path node s).2.1 = leaves dev left path node
  | 0, _, _, _ => ⟨(fun h => by cases h), rfl⟩
  | left + 1, path, node, s => by
    rw [rmIn, leaves.eq_def, if_neg (by exact Bool.false_ne_true)]
    dsimp only
    by_cases hstats : ¬node.inode.stats
    · rw [if_pos hstats, if_pos (.inl hstats)]
      exact ⟨(fun h => by cases h), rfl⟩
    by_cases hdev : node.inode.dev ≠ dev
    · rw [if_neg hstats, if_pos hdev, if_pos (.inr hdev)]
      exact ⟨(fun h => by cases h), rfl⟩
    rw [if_neg hstats, if_neg hdev, if_neg (not_or.2 ⟨hstats, hdev⟩)]
    cases node with
    | file i =>
      dsimp only
      split
      · exact ⟨(fun h => by cases h), rfl⟩
      · exact ⟨(fun h => by cases h), rfl⟩
    | link i t =>
      dsimp only
      split
      · exact ⟨(fun h => by cases h), rfl⟩
      · exact ⟨(fun h => by cases h), rfl⟩
    | dir i es =>
      dsimp only
      split
      · exact ⟨(fun h => by cases h), rfl⟩
      obtain ⟨hrc, hr⟩ := rmEntries_never (rmIn_leaves dev left) path es s.polled
      rw [if_neg hrc, ← hr]
      split
      · exact ⟨hrc, rfl⟩
      · exact ⟨(fun h => by cases h), rfl⟩

/-- Something of an entry goes. -/
inductive Loses (dev : Nat) : Nat → Bytes → Node → Prop
  | file {left : Nat} {path : Bytes} {i : Inode} (hs : i.stats) (hd : i.dev = dev) (hr : i.removes) :
      Loses dev (left + 1) path (.file i)
  | link {left : Nat} {path : Bytes} {i : Inode} {t : Option Nat} (hs : i.stats) (hd : i.dev = dev) (hr : i.removes) :
      Loses dev (left + 1) path (.link i t)
  | empty {left : Nat} {path : Bytes} {i : Inode} (hs : i.stats) (hd : i.dev = dev) (ho : i.opens)
      (hr : i.removes) : Loses dev (left + 1) path (.dir i [])
  | entry {left : Nat} {path : Bytes} {i : Inode} {es : List (Name × Node)} {p : Name × Node} (hs : i.stats)
      (hd : i.dev = dev) (ho : i.opens) (hp : p ∈ es.takeWhile (Fits path)) (h : Loses dev left (sub path p.1) p.2) :
      Loses dev (left + 1) path (.dir i es)

/-- Entries of which none changes are the entries. -/
theorem flatMap_self {f : Name × Node → Option Node} : ∀ {es : List (Name × Node)},
    (es.flatMap fun p => ((f p).map (p.1, ·)).toList) = es ↔ ∀ p ∈ es, f p = some p.2
  | [] => by simp
  | p :: es => by
    have hlen : ∀ es : List (Name × Node), (es.flatMap fun p => ((f p).map (p.1, ·)).toList).length ≤ es.length := by
      intro es
      induction es with
      | nil => exact Nat.le_refl _
      | cons p es ih =>
        rw [List.flatMap_cons, List.length_append, List.length_cons]
        have : ((f p).map (p.1, ·)).toList.length ≤ 1 := by cases f p <;> simp
        omega
    rw [List.flatMap_cons, List.forall_mem_cons]
    cases hp : f p with
    | none =>
      refine iff_of_false (fun h => ?_) (fun h => by cases h.1)
      have := congrArg List.length h
      rw [Option.map_none, Option.toList_none, List.nil_append, List.length_cons] at this
      have := hlen es
      omega
    | some n =>
      rw [Option.map_some, Option.toList_some, List.singleton_append, List.cons.injEq, flatMap_self,
        Prod.ext_iff, Option.some.injEq]
      simp

/-- **An uncancelled walk leaves an entry untouched exactly if it can lose nothing.** -/
theorem loses_iff (dev : Nat) : ∀ (left : Nat) (path : Bytes) (node : Node),
    leaves dev left path node = some node ↔ ¬Loses dev left path node
  | 0, _, _ => iff_of_true rfl fun h => by cases h
  | left + 1, path, node => by
    rw [leaves.eq_def]
    dsimp only
    split
    · rename_i h
      refine iff_of_true rfl fun hl => ?_
      cases hl with
      | file hs hd _ => exact h.elim (fun h => h hs) fun h => h hd
      | link hs hd _ => exact h.elim (fun h => h hs) fun h => h hd
      | empty hs hd _ _ => exact h.elim (fun h => h hs) fun h => h hd
      | entry hs hd _ _ _ => exact h.elim (fun h => h hs) fun h => h hd
    rename_i h
    obtain ⟨hstats, hdev⟩ := not_or.1 h
    have hstats := not_not.1 hstats
    have hdev := not_not.1 hdev
    cases node with
    | file i =>
      dsimp only
      split
      · rename_i hr
        exact iff_of_false nofun fun h => h (.file hstats hdev hr)
      · rename_i hr
        exact iff_of_true rfl fun h => by cases h with | file _ _ h => exact hr h
    | link i t =>
      dsimp only
      split
      · rename_i hr
        exact iff_of_false nofun fun h => h (.link hstats hdev hr)
      · rename_i hr
        exact iff_of_true rfl fun h => by cases h with | link _ _ h => exact hr h
    | dir i es =>
      dsimp only
      split
      · rename_i hopens
        refine iff_of_true rfl fun h => ?_
        cases h with
        | empty _ _ ho _ => exact hopens ho
        | entry _ _ ho _ _ => exact hopens ho
      rename_i hopens
      have hopens := not_not.1 hopens
      have hself := List.takeWhile_append_dropWhile (p := fun p => decide (Fits path p)) (l := es)
      have hkept : ((es.takeWhile (Fits path)).flatMap fun p =>
          ((leaves dev left (sub path p.1) p.2).map (p.1, ·)).toList) ++ es.dropWhile (Fits path) = es ↔
            ∀ p ∈ es.takeWhile (Fits path), ¬Loses dev left (sub path p.1) p.2 := by
        nth_rewrite 3 [← hself]
        rw [List.append_left_inj, flatMap_self]
        exact forall₂_congr fun p _ => loses_iff dev left (sub path p.1) p.2
      split
      · rename_i hgone
        refine iff_of_false nofun fun h => h ?_
        have hnil := List.isEmpty_iff.1 hgone.1
        cases es with
        | nil => exact .empty hstats hdev hopens hgone.2
        | cons p es =>
          rw [hnil] at hkept
          have hsome := mt hkept.2 (List.cons_ne_nil p es).symm
          push Not at hsome
          obtain ⟨p', hp', hl⟩ := hsome
          exact .entry hstats hdev hopens hp' hl
      · rename_i hstays
        rw [Option.some.injEq, Node.dir.injEq, and_iff_right rfl, hkept]
        constructor
        · intro hall hl
          cases hl with
          | empty _ _ _ hr => exact hstays ⟨rfl, hr⟩
          | entry _ _ _ hp hl => exact hall _ hp hl
        · exact fun h p hp hl => h (.entry hstats hdev hopens hp hl)

end Never

/-! ## No entry keeps another -/

/-- What an uncancelled walk comes to: an entry with its place, its path and the levels that are left. -/
inductive Comes (dev : Nat) (path : Bytes) (node : Node) : Nat → List Name → Bytes → Node → Prop
  | here : Comes dev path node (maxDepth + 1) [] path node
  | entry {left : Nat} {q : List Name} {path' : Bytes} {i : Inode} {es : List (Name × Node)} {p : Name × Node}
      (h : Comes dev path node (left + 1) q path' (.dir i es)) (hs : i.stats) (hd : i.dev = dev) (ho : i.opens)
      (hp : p ∈ es.takeWhile (Fits path')) : Comes dev path node left (q ++ [p.1]) (sub path' p.1) p.2

/-- A folder that an uncancelled walk lists. -/
structure Lists (dev : Nat) (path : Bytes) (node : Node) (left : Nat) (q : List Name) (path' : Bytes) (i : Inode)
    (es : List (Name × Node)) : Prop where
  comes : Comes dev path node (left + 1) q path' (.dir i es)
  stats : i.stats
  dev_eq : i.dev = dev
  opens : i.opens

/-- Every entry with a path that fits fares as in a walk of its own. -/
def Independent (dev : Nat) (path : Bytes) (node : Node) (r : Option Node) : Prop :=
  ∀ left q path' i es, Lists dev path node left q path' i es → ∀ p ∈ es, Fits path' p →
    r.bind (find (q ++ [p.1])) = (rmIn never dev left (sub path' p.1) p.2 {}).2.1

/-- No entry that could lose something stands in its folder behind one whose path is too long. -/
def NothingBehind (dev : Nat) (path : Bytes) (node : Node) : Prop :=
  ∀ left q path' i es, Lists dev path node left q path' i es → ∀ p ∈ es.dropWhile (Fits path'), Fits path' p →
    ¬Loses dev left (sub path' p.1) p.2

section Siblings

variable {dev left : Nat} {path path' : Bytes} {node node' : Node} {q : List Name} {i : Inode}
  {es : List (Name × Node)} {p : Name × Node}

theorem Comes.distinct (h : Comes dev path node left q path' node') (hd : Distinct node) : Distinct node' := by
  induction h with
  | here => exact hd
  | entry _ _ _ _ hp ih =>
    cases ih with
    | dir _ h => exact h _ ((List.takeWhile_prefix _).subset hp)

theorem Left.append {R : Name × Node → Option Node → Prop} {as as' bs bs' : List (Name × Node)} (h : Left R as as')
    (h' : Left R bs bs') : Left R (as ++ bs) (as' ++ bs') := by
  induction h with
  | nil => exact h'
  | cons hr _ ih =>
    rw [List.cons_append, List.append_assoc]
    exact .cons hr ih

theorem left_flatMap (f : Name × Node → Option Node) : ∀ es : List (Name × Node),
    Left (fun p r => r = f p) es (es.flatMap fun p => ((f p).map (p.1, ·)).toList)
  | [] => .nil
  | p :: es => by
    rw [List.flatMap_cons]
    exact .cons rfl (left_flatMap f es)

/-- What is left of an entry of a folder that is listed. -/
theorem leaves_entry (hn : (es.map Prod.fst).Nodup) (hs : i.stats) (hd : i.dev = dev) (ho : i.opens) (hp : p ∈ es) :
    ((leaves dev (left + 1) path (.dir i es)).bind (find [p.1]) = leaves dev left (sub path p.1) p.2 ∧
        p ∈ es.takeWhile (Fits path)) ∨
      ((leaves dev (left + 1) path (.dir i es)).bind (find [p.1]) = some p.2 ∧ p ∈ es.dropWhile (Fits path)) := by
  have hself := List.takeWhile_append_dropWhile (p := fun p => decide (Fits path p)) (l := es)
  let R : Name × Node → Option Node → Prop := fun p r =>
    (r = leaves dev left (sub path p.1) p.2 ∧ p ∈ es.takeWhile (Fits path)) ∨
      (r = some p.2 ∧ p ∈ es.dropWhile (Fits path))
  have htried : Left R (es.takeWhile (Fits path)) _ :=
    (left_flatMap (fun p => leaves dev left (sub path p.1) p.2) (es.takeWhile (Fits path))).imp
      fun p hp r hr => .inl ⟨hr, hp⟩
  have hbehind : Left R (es.dropWhile (Fits path)) (es.dropWhile (Fits path)) := .refl fun p hp => .inr ⟨rfl, hp⟩
  have hleft := htried.append hbehind
  rw [hself] at hleft
  obtain ⟨r, hr, hfind⟩ := hleft.find hn hp
  have hbind : (leaves dev (left + 1) path (.dir i es)).bind (find [p.1]) = r := by
    have hwalks : ¬(¬(Node.dir i es).inode.stats = true ∨ (Node.dir i es).inode.dev ≠ dev) :=
      not_or.2 ⟨not_not.2 hs, not_not.2 hd⟩
    rw [leaves.eq_def]
    dsimp only
    rw [if_neg hwalks, if_neg (not_not.2 ho)]
    split
    · rename_i hgone
      rw [List.isEmpty_iff.1 hgone.1] at hfind
      cases r with
      | none => rfl
      | some n => cases hfind
    · rw [Option.bind_some, Node.find, hfind]
      cases r with
      | none => rfl
      | some n => exact find_nil n
  rw [hbind]
  exact hr

/-- A name is not on both sides of the first that does not fit. -/
theorem not_behind (hn : (es.map Prod.fst).Nodup) (hp : p ∈ es.takeWhile (Fits path)) :
    p ∉ es.dropWhile (Fits path) := fun hbehind => by
  have hself := List.takeWhile_append_dropWhile (p := fun p => decide (Fits path p)) (l := es)
  rw [← hself, List.map_append] at hn
  exact (List.nodup_append.1 hn).2.2 p.1 (List.mem_map_of_mem hp) p.1 (List.mem_map_of_mem hbehind) rfl

theorem bind_find_append (o : Option Node) (q : List Name) (x : Name) :
    o.bind (find (q ++ [x])) = (o.bind (find q)).bind (find [x]) := by
  rw [Option.bind_assoc]
  exact congrArg _ (funext fun n => find_append q [x] n)

theorem Comes.nodup (h : Comes dev path node left q path' (.dir i es)) (hd : Distinct node) :
    (es.map Prod.fst).Nodup := by
  cases h.distinct hd with
  | dir hn _ => exact hn

/-- At every entry it comes to, an uncancelled walk leaves what a walk of the entry leaves. -/
theorem Comes.leaves (h : Comes dev path node left q path' node') (hd : Distinct node) :
    (leaves dev (maxDepth + 1) path node).bind (find q) = FsJobs.leaves dev left path' node' := by
  induction h with
  | here => cases FsJobs.leaves dev (maxDepth + 1) path node with
    | none => rfl
    | some n => exact find_nil n
  | entry h hs hdev ho hp ih =>
    rw [bind_find_append, ih]
    rcases leaves_entry (h.nodup hd) hs hdev ho ((List.takeWhile_prefix _).subset hp) with ⟨h', -⟩ | ⟨-, hbehind⟩
    · exact h'
    · exact absurd hbehind (not_behind (h.nodup hd) hp)

/-- **No entry keeps another, exactly if nothing that could go stands behind a path that is too long.** -/
theorem independent_iff (hd : Distinct node) :
    Independent dev path node (leaves dev (maxDepth + 1) path node) ↔ NothingBehind dev path node := by
  constructor
  · intro h left q path' i es hlists p hp hfits
    have hnodup := hlists.comes.nodup hd
    have hmem := (List.dropWhile_suffix _).subset hp
    have halone := h left q path' i es hlists p hmem hfits
    rw [(rmIn_leaves dev left _ p.2 {}).2, bind_find_append, hlists.comes.leaves hd] at halone
    rw [← loses_iff]
    rcases leaves_entry hnodup hlists.stats hlists.dev_eq hlists.opens hmem with ⟨-, htried⟩ | ⟨hstays, -⟩
    · exact absurd hp (not_behind hnodup htried)
    · rw [← halone, hstays]
  · intro h left q path' i es hlists p hmem hfits
    have hnodup := hlists.comes.nodup hd
    rw [(rmIn_leaves dev left _ p.2 {}).2, bind_find_append, hlists.comes.leaves hd]
    rcases leaves_entry hnodup hlists.stats hlists.dev_eq hlists.opens hmem with ⟨htried, -⟩ | ⟨hstays, hbehind⟩
    · exact htried
    · rw [hstays, (loses_iff dev left _ p.2).2 (h left q path' i es hlists p hbehind hfits)]

end Siblings

/-! ## The job -/

/-- Below the place is what replaces it, and the other entries stay. -/
theorem put_spec (r : Option Node) : ∀ (place q : List Name) {root : Node}, Distinct root → root.find place ≠ none →
    (put r place root).bind (find (place ++ q)) = r.bind (find q) ∧
      (¬place <+: q → entryAt (put r place root) q = entryAt (some root) q)
  | [], _, _, _, _ => ⟨rfl, fun h => absurd List.nil_prefix h⟩
  | x :: xs, q, .dir i es, hd, hfound => by
    obtain ⟨hn, hes⟩ : (es.map Prod.fst).Nodup ∧ ∀ p ∈ es, Distinct p.2 := by
      cases hd with
      | dir hn h => exact ⟨hn, h⟩
    have hleft := left_flatMap (fun p => if p.1 = x then put r xs p.2 else some p.2) es
    rw [← List.filterMap_eq_flatMap_toList] at hleft
    have hx : x ∈ es.map Prod.fst := by
      by_contra hx
      exact hfound (find_dir_of_not_mem hx xs)
    obtain ⟨p, hp, rfl⟩ := List.mem_map.1 hx
    rw [find_dir hn hp] at hfound
    obtain ⟨r', hr', hbelow⟩ := hleft.find_below (i := i) hn hp
    rw [if_pos rfl] at hr'
    subst hr'
    refine ⟨(hbelow (xs ++ q)).trans (put_spec r xs q (hes p hp) hfound).1, fun hnot => ?_⟩
    cases q with
    | nil => rfl
    | cons y q =>
      rw [put, entryAt, entryAt, Option.bind_some, Option.bind_some]
      by_cases hy : y ∈ es.map Prod.fst
      · obtain ⟨p', hp', rfl⟩ := List.mem_map.1 hy
        obtain ⟨r', hr', hother⟩ := hleft.find_below (i := i) hn hp'
        by_cases heq : p'.1 = p.1
        · rw [heq] at hnot ⊢
          have hnot' : ¬xs <+: q := fun h => hnot (List.cons_prefix_cons.2 ⟨rfl, h⟩)
          rw [hbelow, find_dir hn hp]
          exact (put_spec r xs q (hes p hp) hfound).2 hnot'
        · rw [if_neg heq] at hr'
          rw [hother, hr', find_dir hn hp', Option.bind_some]
      · rw [hleft.find_other hy]
  | _ :: _, _, .file _, _, hfound => absurd rfl hfound
  | _ :: _, _, .link _ _, _, hfound => absurd rfl hfound

section Job

variable {cancels : Nat → Bool} {path : Bytes} {node root : Node} {h : Hooks} {arg : Option Bytes}

theorem fsjRmRf_ok (cancels : Nat → Bool) (path : Bytes) (node : Node) (s : Walk) :
    (fsjRmRf cancels path node s).1 = .ok ↔ (fsjRmRf cancels path node s).2.1 = none := by
  rw [fsjRmRf]
  split
  · exact ⟨(fun h => by cases h), (fun h => by cases h)⟩
  · exact rmIn_ok cancels _ _ path node s

theorem fsjRmRf_frame (cancels : Nat → Bool) (path : Bytes) (s : Walk) (hd : Distinct node) :
    Framed node.inode.dev node (fsjRmRf cancels path node s).2.1 := by
  rw [fsjRmRf]
  split
  · exact .refl _ node
  · exact rmIn_frame cancels _ _ path s hd

theorem fsjRmRf_leaves (path : Bytes) (node : Node) (s : Walk) : (fsjRmRf never path node s).1 ≠ .cancelled ∧
    (fsjRmRf never path node s).2.1 = leaves node.inode.dev (maxDepth + 1) path node := by
  rw [fsjRmRf]
  split
  · rename_i hstats
    rw [leaves.eq_def]
    dsimp only
    rw [if_pos (.inl hstats)]
    exact ⟨(fun h => by cases h), rfl⟩
  · exact rmIn_leaves _ _ path node s

/-- A delete of a path that is there: it is cancelled over the count, or its walk decides. -/
theorem opDelete_found (htarget : deleteTarget h arg = .ok path) (hfound : root.find (h.place path) = some node) :
    ((opDelete h arg root).1.1 ≠ .ok ∧ (opDelete h arg root).2 = some root ∧
        (fsjTreeSize h.cancels path node {}).1 = .cancelled) ∨
      ∃ s, ((opDelete h arg root).1.1 = .ok ↔ (fsjRmRf h.cancels path node s).1 = .ok) ∧
        (opDelete h arg root).2 = put (fsjRmRf h.cancels path node s).2.1 (h.place path) root := by
  rw [opDelete, htarget]
  dsimp only
  rw [hfound]
  dsimp only
  split
  · rename_i hcounted
    exact .inl ⟨(fun h => by cases h), rfl, hcounted⟩
  · refine .inr ⟨{ polls := (fsjTreeSize h.cancels path node {}).2.polls }, ?_⟩
    cases hrc : (fsjRmRf h.cancels path node { polls := (fsjTreeSize h.cancels path node {}).2.polls }).1 with
    | ok => exact ⟨iff_of_true rfl rfl, rfl⟩
    | failed => exact ⟨iff_of_false nofun nofun, rfl⟩
    | cancelled => exact ⟨iff_of_false nofun nofun, rfl⟩

/-- Of a path that is not there, nothing changes. -/
theorem opDelete_missing (htarget : deleteTarget h arg = .ok path) (hmissing : root.find (h.place path) = none) :
    opDelete h arg root = ((.ok, []), some root) := by
  rw [opDelete, htarget]
  dsimp only
  rw [hmissing]

theorem entryAt_eq_none {r : Option Node} : entryAt r [] = none ↔ r = none := by
  cases r with
  | none => exact iff_of_true rfl rfl
  | some n =>
    rw [entryAt_here]
    exact iff_of_false nofun nofun

/-- What a delete of a path owes, whenever it is cancelled. -/
structure DeletesTree (h : Hooks) (arg : Option Bytes) (path : Bytes) (root : Node) : Prop where
  /-- Every entry is as before, or is gone and was within reach of the path on the path's device. -/
  frame : ∀ cancels q,
    entryAt (opDelete { h with cancels := cancels } arg root).2 q = entryAt (some root) q ∨
      (entryAt (opDelete { h with cancels := cancels } arg root).2 q = none ∧ ∃ rest node,
        q = h.place path ++ rest ∧ root.find (h.place path) = some node ∧ Within node.inode.dev rest node)
  /-- It reports success exactly when the path is gone. -/
  success : ∀ cancels, (opDelete { h with cancels := cancels } arg root).1.1 = .ok ↔
    entryAt (opDelete { h with cancels := cancels } arg root).2 (h.place path) = none
  /-- Uncancelled, no entry keeps another. -/
  siblings : ∀ node, root.find (h.place path) = some node →
    Independent node.inode.dev path node ((opDelete { h with cancels := never } arg root).2.bind (find (h.place path)))

/-- **A delete removes the tree it was asked for, and no entry keeps another**, exactly where nothing that could go
stands in its folder behind an entry whose path is too long. -/
theorem opDelete_iff (hd : Distinct root) (htarget : deleteTarget h arg = .ok path) :
    DeletesTree h arg path root ↔
      ∀ node, root.find (h.place path) = some node → NothingBehind node.inode.dev path node := by
  cases hfound : root.find (h.place path) with
  | none =>
    refine iff_of_true ⟨fun cancels q => ?_, fun cancels => ?_, fun node hnode => ?_⟩ fun node hnode => by cases hnode
    · rw [opDelete_missing (h := { h with cancels := cancels }) htarget hfound]
      exact .inl rfl
    · rw [opDelete_missing (h := { h with cancels := cancels }) htarget hfound]
      refine iff_of_true rfl ?_
      rw [entryAt, Option.bind_some, hfound]
      rfl
    · rw [hfound] at hnode
      cases hnode
  | some node =>
    have hne : root.find (h.place path) ≠ none := by
      rw [hfound]
      exact (fun h => by cases h)
    have hnode := hd.find hfound
    have hafter : (opDelete { h with cancels := never } arg root).2.bind (find (h.place path)) =
        leaves node.inode.dev (maxDepth + 1) path node := by
      rcases opDelete_found (h := { h with cancels := never }) htarget hfound with ⟨-, -, hcounted⟩ | ⟨s, -, hroot⟩
      · exact absurd hcounted (fsjTreeSize_never path node {})
      · have hput := (put_spec (fsjRmRf never path node s).2.1 (h.place path) [] hd hne).1
        rw [List.append_nil] at hput
        rw [hroot, hput, ← (fsjRmRf_leaves path node s).2]
        cases (fsjRmRf never path node s).2.1 with
        | none => rfl
        | some n => exact find_nil n
    constructor
    · intro howes node' hnode'
      cases hnode'
      have halone := howes.siblings node hfound
      rw [hafter] at halone
      exact (independent_iff hnode).1 halone
    · intro hnothing
      refine ⟨fun cancels q => ?_, fun cancels => ?_, fun node' hnode' => ?_⟩
      · rcases opDelete_found (h := { h with cancels := cancels }) htarget hfound with ⟨-, hroot, -⟩ | ⟨s, -, hroot⟩
        · rw [hroot]
          exact .inl rfl
        · rw [hroot]
          by_cases hbelow : h.place path <+: q
          · obtain ⟨rest, rfl⟩ := hbelow
            have hput : entryAt (put (fsjRmRf cancels path node s).2.1 (h.place path) root) (h.place path ++ rest) =
                entryAt (fsjRmRf cancels path node s).2.1 rest :=
              congrArg (Option.map bare) (put_spec _ (h.place path) rest hd hne).1
            have hbefore : entryAt (some root) (h.place path ++ rest) = entryAt (some node) rest := by
              rw [entryAt, Option.bind_some, find_append, hfound]
              rfl
            rw [hput, hbefore]
            exact (fsjRmRf_frame cancels path s hnode rest).imp_right fun hgone =>
              ⟨hgone.1, rest, node, rfl, hfound, hgone.2⟩
          · exact .inl ((put_spec _ (h.place path) q hd hne).2 hbelow)
      · rcases opDelete_found (h := { h with cancels := cancels }) htarget hfound with ⟨hrefused, hroot, -⟩ | ⟨s, hok, hroot⟩
        · rw [hroot]
          refine iff_of_false hrefused fun hnone => ?_
          rw [entryAt, Option.bind_some, hfound] at hnone
          cases hnone
        · have hput : entryAt (put (fsjRmRf cancels path node s).2.1 (h.place path) root) (h.place path ++ []) =
              entryAt (fsjRmRf cancels path node s).2.1 [] :=
            congrArg (Option.map bare) (put_spec _ (h.place path) [] hd hne).1
          rw [List.append_nil] at hput
          rw [hok, hroot, hput, entryAt_eq_none]
          exact fsjRmRf_ok cancels path node s
      · rw [hfound] at hnode'
        cases hnode'
        rw [hafter]
        exact (independent_iff hnode).2 (hnothing node rfl)

end Job

theorem opDelete_iff_family :
    DeletesTree freely (some dataW) dataW (chain family (components dataW)) ↔
      ∀ node, (chain family (components dataW)).find (freely.place dataW) = some node →
        NothingBehind node.inode.dev dataW node :=
  opDelete_iff (distinct_family _) (by decide)

end Ps5Upload.FsJobs
