import Ps5Upload.Payload.FsJobs.Tree

/-!
# Places in a tree

* `Distinct` — no folder lists a name twice;
* `Within` — what can be reached from an entry without a link and without leaving its device;
* `fsjTreeSize_never` — a count that nobody cancels is not cancelled.
-/

namespace Ps5Upload.FsJobs

open ByteFile

namespace Node

/-- The entry itself, without what is in it. -/
def bare : Node → Node
  | file i => file i
  | link i t => link i t
  | dir i _ => dir i []

/-- The entry at a place. -/
def entryAt (node : Option Node) (q : List Name) : Option Node := (node.bind (find q)).map bare

/-- No folder lists a name twice. -/
inductive Distinct : Node → Prop
  | file (i : Inode) : Distinct (file i)
  | link (i : Inode) (t : Option Nat) : Distinct (link i t)
  | dir {i : Inode} {es : List (Name × Node)} (hn : (es.map Prod.fst).Nodup) (h : ∀ p ∈ es, Distinct p.2) :
      Distinct (dir i es)

/-- A place below an entry, reached through folders on a device and on it itself. -/
inductive Within (dev : Nat) : List Name → Node → Prop
  | here {node : Node} (h : node.inode.dev = dev) : Within dev [] node
  | inside {i : Inode} {es : List (Name × Node)} {p : Name × Node} {q : List Name} (h : i.dev = dev) (hp : p ∈ es)
      (hq : Within dev q p.2) : Within dev (p.1 :: q) (dir i es)

variable {i : Inode} {es : List (Name × Node)} {p : Name × Node} {x : Name} {q : List Name}

@[simp] theorem find_nil (node : Node) : find [] node = some node := by
  cases node <;> rfl

theorem entryAt_here (node : Node) : entryAt (some node) [] = some node.bare := by
  rw [entryAt, Option.bind_some, find_nil]
  rfl

theorem find?_of_mem (hn : (es.map Prod.fst).Nodup) (hp : p ∈ es) :
    es.find? (fun p' => p'.1 = p.1) = some p := by
  refine List.find?_eq_some_iff_append.2 ⟨decide_eq_true rfl, ?_⟩
  obtain ⟨as, bs, rfl⟩ := List.append_of_mem hp
  refine ⟨as, bs, rfl, fun a ha => ?_⟩
  rw [List.map_append, List.map_cons] at hn
  have hne := (List.nodup_append.1 hn).2.2 a.1 (List.mem_map_of_mem ha) p.1 List.mem_cons_self
  simpa using hne

theorem find_dir (hn : (es.map Prod.fst).Nodup) (hp : p ∈ es) (q : List Name) :
    find (p.1 :: q) (dir i es) = find q p.2 := by
  rw [find, find?_of_mem hn hp]
  rfl

theorem find_dir_of_not_mem (h : x ∉ es.map Prod.fst) (q : List Name) : find (x :: q) (dir i es) = none := by
  have hnone : es.find? (fun p => p.1 = x) = none := by
    refine List.find?_eq_none.2 fun p hp hx => ?_
    exact h (List.mem_map.2 ⟨p, hp, of_decide_eq_true hx⟩)
  rw [find, hnone]
  rfl

theorem find_append : ∀ (q q' : List Name) (node : Node), find (q ++ q') node = (find q node).bind (find q')
  | [], q', node => by rw [List.nil_append, find_nil, Option.bind_some]
  | x :: q, q', .dir i es => by
    rw [List.cons_append, find, find, Option.bind_assoc]
    exact congrArg _ (funext fun p => find_append q q' p.2)
  | x :: q, q', .file i => rfl
  | x :: q, q', .link i t => rfl

theorem Distinct.find {root node : Node} (hd : Distinct root) : ∀ {q : List Name}, root.find q = some node → Distinct node := by
  intro q
  induction q generalizing root with
  | nil =>
    intro hq
    rw [find_nil] at hq
    cases hq
    exact hd
  | cons x q ih =>
    intro hq
    cases hd with
    | file i => cases hq
    | link i t => cases hq
    | @dir i es hn hes =>
      by_cases hx : x ∈ es.map Prod.fst
      · obtain ⟨p, hp, rfl⟩ := List.mem_map.1 hx
        rw [find_dir hn hp] at hq
        exact ih (hes p hp) hq
      · rw [find_dir_of_not_mem hx] at hq
        cases hq

end Node

/-! ## Counting -/

/-- A walk that is never cancelled. -/
def never : Nat → Bool := fun _ => false

theorem sizeEntries_never {size : Bytes → Node → Walk → Rc × Walk} (h : ∀ path node s, (size path node s).1 ≠ .cancelled)
    (path : Bytes) : ∀ (es : List (Name × Node)) (s : Walk), (sizeEntries never size path es s).1 ≠ .cancelled
  | [], _ => nofun
  | p :: es, s => by
    have hp := h (sub path p.1) p.2 s.polled
    rw [sizeEntries, if_neg (by exact Bool.false_ne_true)]
    split
    · have ih := sizeEntries_never h path es (s.polled.failed path "path too long")
      dsimp only
      rw [if_neg ih]
      exact nofun
    dsimp only
    split
    · rename_i hrc
      exact absurd hrc hp
    · exact sizeEntries_never h path es _
    · have ih := sizeEntries_never h path es (size (sub path p.1) p.2 s.polled).2
      dsimp only
      rw [if_neg ih]
      exact nofun

theorem treeSizeIn_never (dev : Nat) : ∀ (left : Nat) (path : Bytes) (node : Node) (s : Walk),
    (treeSizeIn never dev left path node s).1 ≠ .cancelled
  | 0, _, _, _ => nofun
  | left + 1, path, node, s => by
    rw [treeSizeIn, if_neg (by exact Bool.false_ne_true)]
    dsimp only
    split
    · exact nofun
    split
    · exact nofun
    split
    · split
      · exact nofun
      · exact sizeEntries_never (treeSizeIn_never dev left) path _ _
    · exact nofun
    · exact nofun

theorem fsjTreeSize_never (path : Bytes) (node : Node) (s : Walk) : (fsjTreeSize never path node s).1 ≠ .cancelled := by
  rw [fsjTreeSize]
  split
  · exact nofun
  · exact treeSizeIn_never _ _ path node s

/-! ## Sample trees -/

/-- An entry on the only device, with which everything can be done. -/
def plain (id : Nat) : Inode :=
  { id := id, dev := 0, size := 0, stats := true, opens := true, removes := true, chmods := true }

/-- Hooks that allow every path on one device. -/
def freely : Hooks where
  mayWrite _ := true
  sameDevice _ _ := some true
  inProtected _ := false
  cancels := never
  errno _ _ := none
  place := components

/-- A tree with one way down to some entries. -/
def chain (es : List (Name × Node)) : List Name → Node
  | [] => .dir (plain 0) es
  | x :: xs => .dir (plain 0) [(x, chain es xs)]

open Node in
theorem distinct_chain {es : List (Name × Node)} (hn : (es.map Prod.fst).Nodup) (h : ∀ p ∈ es, Distinct p.2) :
    ∀ q : List Name, Distinct (chain es q)
  | [] => .dir hn h
  | x :: xs => .dir (List.pairwise_singleton _ _) fun p hp => by
    rw [List.mem_singleton.1 hp]
    exact distinct_chain hn h xs

/-- A file, a folder with a file in it, and a link to the first file. -/
def family : List (Name × Node) :=
  [([0x61], .file (plain 1)), ([0x62], .dir (plain 2) [([0x63], .file (plain 3))]), ([0x64], .link (plain 4) (some 1))]

open Node in
theorem distinct_family (q : List Name) : Distinct (chain family q) := by
  refine distinct_chain (by decide) (fun p hp => ?_) q
  simp only [family, List.mem_cons, List.not_mem_nil, or_false] at hp
  rcases hp with rfl | rfl | rfl
  · exact .file _
  · refine .dir (List.pairwise_singleton _ _) fun p hp => ?_
    rw [List.mem_singleton.1 hp]
    exact .file _
  · exact .link _ _

/-- `/data/w` -/
def dataW : Bytes := [0x2f, 0x64, 0x61, 0x74, 0x61, 0x2f, 0x77]

end Ps5Upload.FsJobs
