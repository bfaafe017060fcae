import Ps5Upload.Payload.FsJobs.Places

/-!
# What a recursive chmod changes

`chmod_rf_in` decides from `lstat`, and `chmod` then follows the link it was given.

* `opChmodR_iff` — **a chmod stays inside its tree** exactly where no link it acts on leads out of it, but to what
  has the mode already.
-/

namespace Ps5Upload.FsJobs

open ByteFile Node

/-! ## What a walk acts on -/

/-- The entries that a walk nobody cancels hands to `chmod`, which allows it. -/
inductive Acts (dev : Nat) (inProtected : Bytes → Bool) : Nat → Bytes → Node → Node → Prop
  | here {left : Nat} {path : Bytes} {node : Node} (hs : node.inode.stats) (hd : node.inode.dev = dev)
      (hp : ¬(node.isLink ∧ inProtected path)) (hc : node.inode.chmods) : Acts dev inProtected (left + 1) path node node
  | entry {left : Nat} {path : Bytes} {i : Inode} {es : List (Name × Node)} {p : Name × Node} {n : Node} (hs : i.stats)
      (hd : i.dev = dev) (ho : i.opens) (hp : p ∈ es.takeWhile (Fits path))
      (h : Acts dev inProtected left (sub path p.1) p.2 n) : Acts dev inProtected (left + 1) path (.dir i es) n

/-- An object that a place within reach of an entry names. -/
def Inside (dev : Nat) (node : Node) (x : Nat) : Prop :=
  ∃ q n, Within dev q node ∧ node.find q = some n ∧ n.inode.id = x

/-- Modes changed in some objects only, and to the new one. -/
def Moded (mode : Nat) (S : Nat → Prop) (modes modes' : Nat → Nat) : Prop :=
  ∀ x, modes' x = modes x ∨ (modes' x = mode ∧ S x)

section Walks

variable {cancels : Nat → Bool} {dev mode : Nat} {inProtected : Bytes → Bool} {S S' : Nat → Prop}
  {modes modes' modes'' : Nat → Nat} {path : Bytes} {node : Node} {es : List (Name × Node)}
  {chmodOf : Bytes → Node → (Nat → Nat) → Walk → Rc × (Nat → Nat) × Walk}

theorem Acts.within {left : Nat} {n : Node} (h : Acts dev inProtected left path node n) (hd : Distinct node) :
    ∃ q, Within dev q node ∧ node.find q = some n := by
  induction h with
  | here _ hdev _ _ => exact ⟨[], .here hdev, find_nil _⟩
  | @entry left path i es p n _ hdev _ hp _ ih =>
    have hp := (List.takeWhile_prefix _).subset hp
    cases hd with
    | dir hn hes =>
      obtain ⟨q, hq, hfind⟩ := ih (hes p hp)
      exact ⟨p.1 :: q, .inside hdev hp hq, (find_dir hn hp q).trans hfind⟩

theorem Moded.refl (mode : Nat) (S : Nat → Prop) (modes : Nat → Nat) : Moded mode S modes modes := fun _ => .inl rfl

theorem Moded.trans (h : Moded mode S modes modes') (h' : Moded mode S modes' modes'') : Moded mode S modes modes'' :=
  fun x => (h' x).elim (fun hx => hx ▸ h x) .inr

theorem Moded.mono (h : Moded mode S modes modes') (hS : ∀ x, S x → S' x) : Moded mode S' modes modes' :=
  fun x => (h x).imp_right fun hx => ⟨hx.1, hS x hx.2⟩

/-- What has the mode keeps it. -/
theorem Moded.keeps (h : Moded mode S modes modes') {x : Nat} (hx : modes x = mode) : modes' x = mode :=
  (h x).elim (fun h => h.trans hx) And.left

theorem chmod_moded (mode : Nat) (path : Bytes) (node : Node) (modes : Nat → Nat) (s : Walk) :
    Moded mode (fun x => node.inode.chmods = true ∧ node.resolves = some x) modes
      (chmod mode path node modes s).2.1 := by
  intro x
  rw [chmod]
  split
  · rename_i y hy
    split
    · rename_i hallowed
      by_cases hx : x = y
      · exact .inr ⟨if_pos hx, hallowed, hx ▸ hy⟩
      · exact .inl (if_neg hx)
    · exact .inl rfl
  · exact .inl rfl

theorem chmodEntries_moded : ∀ (es : List (Name × Node)) (rc : Rc) (modes : Nat → Nat) (s : Walk),
    (∀ p ∈ es.takeWhile (Fits path), ∀ modes s, Moded mode S modes (chmodOf (sub path p.1) p.2 modes s).2.1) →
    Moded mode S modes (chmodEntries chmodOf path es rc modes s).2.1
  | [], _, modes, _, _ => .refl mode S modes
  | p :: es, rc, modes, s, h => by
    rw [chmodEntries]
    by_cases hfits : Fits path p
    · rw [if_neg (not_not.2 hfits)]
      have htake : (p :: es).takeWhile (Fits path) = p :: es.takeWhile (Fits path) :=
        List.takeWhile_cons_of_pos (decide_eq_true hfits)
      rw [htake] at h
      have hp := h p List.mem_cons_self modes s
      have hes : ∀ rc modes s, Moded mode S modes (chmodEntries chmodOf path es rc modes s).2.1 :=
        fun rc modes s => chmodEntries_moded es rc modes s fun p' hp' => h p' (List.mem_cons_of_mem p hp')
      dsimp only
      split
      · exact hp
      · exact hp.trans (hes _ _ _)
      · exact hp.trans (hes _ _ _)
    · rw [if_pos hfits]
      exact .refl mode S modes

/-- **A walk changes only what it acts on**, and to the mode it was asked for. -/
theorem chmodIn_moded (cancels : Nat → Bool) (dev : Nat) (inProtected : Bytes → Bool) (mode : Nat) :
    ∀ (left : Nat) (path : Bytes) (node : Node) (modes : Nat → Nat) (s : Walk),
      Moded mode (fun x => ∃ n, Acts dev inProtected left path node n ∧ n.resolves = some x) modes
        (chmodIn cancels dev inProtected mode left path node modes s).2.1
  | 0, _, _, modes, _ => .refl mode _ modes
  | left + 1, path, node, modes, s => by
    rw [chmodIn]
    split
    · exact .refl mode _ modes
    dsimp only
    split
    · exact .refl mode _ modes
    rename_i hs
    have hs := not_not.1 hs
    split
    · exact .refl mode _ modes
    rename_i hdev
    have hdev := not_not.1 hdev
    split
    · exact .refl mode _ modes
    rename_i hp
    have hown : Moded mode (fun x => ∃ n, Acts dev inProtected (left + 1) path node n ∧ n.resolves = some x) modes
        (chmod mode path node modes s.polled).2.1 :=
      (chmod_moded mode path node modes s.polled).mono fun x hx => ⟨node, .here hs hdev hp hx.1, hx.2⟩
    cases node with
    | file i => exact hown
    | link i t => exact hown
    | dir i es =>
      dsimp only
      split
      · exact hown
      rename_i ho
      have ho := not_not.1 ho
      refine hown.trans (chmodEntries_moded es _ _ _ fun p hp modes s => ?_)
      refine (chmodIn_moded cancels dev inProtected mode left (sub path p.1) p.2 modes s).mono fun x hx => ?_
      obtain ⟨n, hn, hx⟩ := hx
      exact ⟨n, .entry hs hdev ho hp hn, hx⟩

/-! ## A walk that nobody cancels -/

theorem chmodEntries_never (hkeep : ∀ path node modes s, Moded mode S modes (chmodOf path node modes s).2.1) :
    ∀ (es : List (Name × Node)) (rc : Rc) (modes : Nat → Nat) (s : Walk), rc ≠ .cancelled →
      (∀ p ∈ es.takeWhile (Fits path), ∀ modes s, (chmodOf (sub path p.1) p.2 modes s).1 ≠ .cancelled) →
      (chmodEntries chmodOf path es rc modes s).1 ≠ .cancelled ∧
        ∀ p ∈ es.takeWhile (Fits path), ∀ x,
          (∀ modes s, (chmodOf (sub path p.1) p.2 modes s).2.1 x = mode) →
          (chmodEntries chmodOf path es rc modes s).2.1 x = mode
  | [], _, _, _, hrc, _ => ⟨hrc, fun p hp => by cases hp⟩
  | p :: es, rc, modes, s, hrc, h => by
    rw [chmodEntries]
    by_cases hfits : Fits path p
    · rw [if_neg (not_not.2 hfits)]
      have htake : (p :: es).takeWhile (Fits path) = p :: es.takeWhile (Fits path) :=
        List.takeWhile_cons_of_pos (decide_eq_true hfits)
      rw [htake] at h ⊢
      have hrest : ∀ rc' modes' s', rc' ≠ .cancelled →
          (chmodEntries chmodOf path es rc' modes' s').1 ≠ .cancelled ∧
            ∀ p' ∈ p :: es.takeWhile (Fits path), ∀ x, (p' = p → modes' x = mode) →
              (∀ modes s, (chmodOf (sub path p'.1) p'.2 modes s).2.1 x = mode) →
              (chmodEntries chmodOf path es rc' modes' s').2.1 x = mode := fun rc' modes' s' hrc' => by
        obtain ⟨hne, hset⟩ := chmodEntries_never hkeep es rc' modes' s' hrc'
          fun p' hp' => h p' (List.mem_cons_of_mem p hp')
        refine ⟨hne, fun p' hp' x hfirst hx => ?_⟩
        rcases List.mem_cons.1 hp' with rfl | hp'
        · exact (chmodEntries_moded es rc' modes' s' fun p'' _ => hkeep _ p''.2).keeps (hfirst rfl)
        · exact hset p' hp' x hx
      have hp := h p List.mem_cons_self modes s
      dsimp only
      split
      · rename_i hcancelled
        exact absurd hcancelled hp
      · obtain ⟨hne, hset⟩ := hrest rc (chmodOf (sub path p.1) p.2 modes s).2.1
          (chmodOf (sub path p.1) p.2 modes s).2.2 hrc
        exact ⟨hne, fun p' hp' x hx => hset p' hp' x (fun heq => heq ▸ hx modes s) hx⟩
      · obtain ⟨hne, hset⟩ := hrest .failed (chmodOf (sub path p.1) p.2 modes s).2.1
          (chmodOf (sub path p.1) p.2 modes s).2.2 nofun
        exact ⟨hne, fun p' hp' x hx => hset p' hp' x (fun heq => heq ▸ hx modes s) hx⟩
    · have htake : (p :: es).takeWhile (Fits path) = [] :=
        List.takeWhile_cons_of_neg (by simpa using hfits)
      rw [if_pos hfits, htake]
      exact ⟨nofun, fun p hp => by cases hp⟩

/-- **A walk that nobody cancels gives its mode to all it acts on.** -/
theorem chmodIn_never (dev : Nat) (inProtected : Bytes → Bool) (mode : Nat) :
    ∀ (left : Nat) (path : Bytes) (node : Node) (modes : Nat → Nat) (s : Walk),
      (chmodIn never dev inProtected mode left path node modes s).1 ≠ .cancelled ∧
        ∀ n, Acts dev inProtected left path node n → ∀ x, n.resolves = some x →
          (chmodIn never dev inProtected mode left path node modes s).2.1 x = mode
  | 0, _, _, _, _ => ⟨nofun, fun n h => by cases h⟩
  | left + 1, path, node, modes, s => by
    have hown : node.inode.chmods → ∀ x, node.resolves = some x →
        (chmod mode path node modes s.polled).2.1 x = mode := fun hc x hx => by
      rw [chmod, hx]
      dsimp only
      rw [if_pos hc]
      exact if_pos rfl
    have hrc : (chmod mode path node modes s.polled).1 ≠ .cancelled := by
      rw [chmod]
      split
      · split <;> exact nofun
      · exact nofun
    rw [chmodIn, if_neg (by exact Bool.false_ne_true)]
    dsimp only
    split
    · rename_i hs
      refine ⟨nofun, fun n h => ?_⟩
      cases h with
      | here hs' _ _ _ => exact absurd hs' hs
      | entry hs' _ _ _ _ => exact absurd hs' hs
    split
    · rename_i hdev
      refine ⟨nofun, fun n h => ?_⟩
      cases h with
      | here _ hd _ _ => exact absurd hd hdev
      | entry _ hd _ _ _ => exact absurd hd hdev
    split
    · rename_i hp
      refine ⟨nofun, fun n h => ?_⟩
      cases h with
      | here _ _ hp' _ => exact absurd hp hp'
      | entry _ _ _ _ _ => cases hp.1
    cases node with
    | file i =>
      refine ⟨hrc, fun n h x hx => ?_⟩
      cases h with
      | here _ _ _ hc => exact hown hc x hx
    | link i t =>
      refine ⟨hrc, fun n h x hx => ?_⟩
      cases h with
      | here _ _ _ hc => exact hown hc x hx
    | dir i es =>
      dsimp only
      split
      · rename_i ho
        refine ⟨nofun, fun n h x hx => ?_⟩
        cases h with
        | here _ _ _ hc => exact hown hc x hx
        | entry _ _ ho' _ _ => exact absurd ho' ho
      have hkeep : ∀ path node modes s, Moded mode (fun _ => True) modes
          (chmodIn never dev inProtected mode left path node modes s).2.1 := fun path node modes s =>
        (chmodIn_moded never dev inProtected mode left path node modes s).mono fun _ _ => trivial
      obtain ⟨hne, hset⟩ := @chmodEntries_never mode (fun _ => True) path _ hkeep es _
        (chmod mode path (.dir i es) modes s.polled).2.1 (chmod mode path (.dir i es) modes s.polled).2.2 hrc
        fun p _ modes s => (chmodIn_never dev inProtected mode left (sub path p.1) p.2 modes s).1
      refine ⟨hne, fun n h x hx => ?_⟩
      cases h with
      | here _ _ _ hc => exact (chmodEntries_moded es _ _ _ fun p _ => hkeep _ p.2).keeps (hown hc x hx)
      | @entry _ _ _ _ p _ _ _ _ hp h =>
        exact hset p hp x fun modes s =>
          (chmodIn_never dev inProtected mode left (sub path p.1) p.2 modes s).2 n h x hx

end Walks

/-! ## The job -/

section Job

variable {h : Hooks} {arg modeArg : Option Bytes} {path : Bytes} {mode : Nat} {root node : Node} {modes : Nat → Nat}

/-- Whenever it is cancelled, a chmod changes the modes of objects in its tree only: of its path, and of what can be
reached from there without a link and without leaving its device. -/
def StaysInside (h : Hooks) (arg modeArg : Option Bytes) (path : Bytes) (root : Node) (modes : Nat → Nat) : Prop :=
  ∀ cancels x, (opChmodR { h with cancels := cancels } arg modeArg root modes).2 x ≠ modes x →
    ∃ node, root.find (h.place path) = some node ∧ Inside node.inode.dev node x

/-- The links that a walk acts on lead to objects of its tree, or to ones that have the mode already. -/
def LinksHarmless (inProtected : Bytes → Bool) (mode : Nat) (path : Bytes) (node : Node) (modes : Nat → Nat) : Prop :=
  ∀ i x, Acts node.inode.dev inProtected (maxDepth + 1) path node (.link i (some x)) →
    Inside node.inode.dev node x ∨ modes x = mode

/-- A chmod of a path that is there: it is cancelled over the count, or its walk decides. -/
theorem opChmodR_found (htarget : chmodTarget h arg modeArg = .ok (path, mode))
    (hfound : root.find (h.place path) = some node) :
    ((opChmodR h arg modeArg root modes).2 = modes ∧ (fsjTreeSize h.cancels path node {}).1 = .cancelled) ∨
      ∃ s, (opChmodR h arg modeArg root modes).2 =
        (fsjChmodRf h.cancels h.inProtected mode path node modes s).2.1 := by
  rw [opChmodR, htarget]
  dsimp only
  rw [hfound]
  dsimp only
  split
  · rename_i hcounted
    exact .inl ⟨rfl, hcounted⟩
  · refine .inr ⟨{ polls := (fsjTreeSize h.cancels path node {}).2.polls }, ?_⟩
    split <;> rfl

theorem opChmodR_missing (htarget : chmodTarget h arg modeArg = .ok (path, mode))
    (hmissing : root.find (h.place path) = none) : (opChmodR h arg modeArg root modes).2 = modes := by
  rw [opChmodR, htarget]
  dsimp only
  rw [hmissing]

theorem fsjChmodRf_moded (cancels : Nat → Bool) (inProtected : Bytes → Bool) (mode : Nat) (path : Bytes) (node : Node)
    (modes : Nat → Nat) (s : Walk) :
    Moded mode (fun x => ∃ n, Acts node.inode.dev inProtected (maxDepth + 1) path node n ∧ n.resolves = some x) modes
      (fsjChmodRf cancels inProtected mode path node modes s).2.1 := by
  rw [fsjChmodRf]
  split
  · exact .refl mode _ modes
  · exact chmodIn_moded cancels _ inProtected mode _ path node modes s

theorem fsjChmodRf_never (inProtected : Bytes → Bool) (mode : Nat) (path : Bytes) (node : Node) (modes : Nat → Nat)
    (s : Walk) {n : Node} (hn : Acts node.inode.dev inProtected (maxDepth + 1) path node n) {x : Nat}
    (hx : n.resolves = some x) : (fsjChmodRf never inProtected mode path node modes s).2.1 x = mode := by
  have hs : node.inode.stats := by
    cases hn with
    | here hs _ _ _ => exact hs
    | entry hs _ _ _ _ => exact hs
  rw [fsjChmodRf, if_neg (not_not.2 hs)]
  exact (chmodIn_never _ inProtected mode _ path node modes s).2 n hn x hx

/-- **A chmod stays inside its tree** exactly where the links that its walk acts on lead to objects of the tree, or to
objects with that mode. -/
theorem opChmodR_iff (hd : Distinct root) (htarget : chmodTarget h arg modeArg = .ok (path, mode)) :
    StaysInside h arg modeArg path root modes ↔
      ∀ node, root.find (h.place path) = some node → LinksHarmless h.inProtected mode path node modes := by
  constructor
  · intro hstays node hfound i x hacts
    rw [or_iff_not_imp_right]
    intro hother
    have hmode : (opChmodR { h with cancels := never } arg modeArg root modes).2 x = mode := by
      rcases opChmodR_found (h := { h with cancels := never }) htarget hfound with ⟨-, hcounted⟩ | ⟨s, hs⟩
      · exact absurd hcounted (fsjTreeSize_never path node {})
      · rw [hs]
        exact fsjChmodRf_never h.inProtected mode path node modes s hacts rfl
    obtain ⟨node', hfound', hinside⟩ := hstays never x fun heq => hother (heq ▸ hmode)
    rw [hfound] at hfound'
    cases hfound'
    exact hinside
  · intro hlinks cancels x hchanged
    cases hfound : root.find (h.place path) with
    | none => exact absurd (congrFun (opChmodR_missing (h := { h with cancels := cancels }) htarget hfound) x) hchanged
    | some node =>
      refine ⟨node, rfl, ?_⟩
      rcases opChmodR_found (h := { h with cancels := cancels }) htarget hfound with ⟨hsame, -⟩ | ⟨s, hs⟩
      · exact absurd (congrFun hsame x) hchanged
      rw [hs] at hchanged
      rcases fsjChmodRf_moded cancels h.inProtected mode path node modes s x with hsame | ⟨hmode, n, hacts, hx⟩
      · exact absurd hsame hchanged
      have hown : n.resolves = some n.inode.id → Inside node.inode.dev node x := fun hid => by
        obtain ⟨q, hq, hfind⟩ := hacts.within (hd.find hfound)
        exact ⟨q, n, hq, hfind, Option.some.inj (hid.symm.trans hx)⟩
      cases n with
      | file i => exact hown rfl
      | dir i es => exact hown rfl
      | link i t =>
        cases hx
        exact (hlinks node hfound i x hacts).resolve_right fun heq => hchanged (hmode.trans heq.symm)

/-- `777` -/
def mode777 : Bytes := [0x37, 0x37, 0x37]

theorem opChmodR_iff_family :
    StaysInside freely (some dataW) (some mode777) dataW (chain family (components dataW)) (fun _ => 0o644) ↔
      ∀ node, (chain family (components dataW)).find (freely.place dataW) = some node →
        LinksHarmless freely.inProtected 0o777 dataW node fun _ => 0o644 :=
  opChmodR_iff (distinct_family _) (by decide)

end Job

end Ps5Upload.FsJobs
