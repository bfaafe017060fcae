import Ps5Upload.Fpkg.Inner.Spread
import Ps5Upload.Fpkg.KrakenImage.Describe
import Ps5Upload.Lib.Tiles

/-!
# The blocks of a spread plan

`plan_blocks` of `kraken_image.rs` cuts the mount into the blocks that are compressed: every file up to
the next file's start, the zeros up to the metadata, and the metadata.

* `planBlocks` — the blocks to build;
* `spreadSound` — a spread plan and its blocks.
-/

namespace Ps5Upload.KrakenImage

open Checked Ps5Upload.Inner Utf8

/-- What a block holds. -/
inductive Owner where
  | file (afid : Nat)
  | gap
  | metadata
  deriving DecidableEq, Repr

/-- A block to build, before compression. -/
structure Todo where
  logical : Nat
  len : Nat
  /-- How much of `len` is the file's own; the rest is gap. -/
  real : Nat
  owner : Owner
  /-- For a file block: the path and the offset within the file. -/
  source : Option (Text × Nat)
  generatedKeystone : Bool

/-- A loop over one stretch: starts and lengths of blocks of a ublock at most. -/
def cut (at' stop : Nat) : List (Nat × Nat) :=
  if at' < stop then (at', min (stop - at') ublock) :: cut (at' + min (stop - at') ublock) stop else []
  termination_by stop - at'
  decreasing_by
    have : 0 < ublock := by decide
    omega

/-- The blocks of one file, over a span from its start. -/
def fileTodo (afid : Nat) (f : PlannedFile) (span : Nat) : List Todo :=
  (cut 0 span).map fun (off, len) =>
    { logical := f.logicalOffset + off
      len
      real := min (f.size - off) len
      owner := .file afid
      source := some (f.path, off)
      generatedKeystone := f.generated && f.path = keystonePath }

/-- The loop over the files: a file's blocks go up to the next file's start. -/
def fileBlocks : Nat → List PlannedFile → Res (List Todo)
  | _, [] => .ok []
  | afid, [f] => .ok (fileTodo afid f f.size)
  | afid, f :: next :: files => do
    let span ← sub next.logicalOffset f.logicalOffset
    let rest ← fileBlocks (afid + 1) (next :: files)
    return fileTodo afid f span ++ rest

/-- Blocks that no file owns. -/
def zeroTodo (owner : Owner) (at' stop : Nat) : List Todo :=
  (cut at' stop).map fun (logical, len) =>
    { logical, len, real := 0, owner, source := none, generatedKeystone := false }

/-- The end of the data. -/
def dataStop (files : List PlannedFile) : Nat :=
  files.foldl (fun stop f => max stop (f.logicalOffset + f.size)) 0

/-- `plan_blocks` -/
def planBlocks (plan : Plan) : Res (List Todo × Nat) := do
  let todo ← fileBlocks 0 plan.inOrder
  let stop := dataStop plan.inOrder
  return (todo ++ zeroTodo .gap stop plan.metaBase ++ zeroTodo .metadata plan.metaBase (plan.ndblock * Inner.block),
    stop)

/-! ## Tiles -/

/-- A block as the range it covers. -/
def Todo.range (t : Todo) : Nat × Nat := (t.logical, t.len)

theorem tiles_cut {at' stop : Nat} (h : at' ≤ stop) : Tiles at' (cut at' stop) stop := by
  induction at' using cut.induct stop with
  | case1 at' hlt ih =>
    rw [cut, if_pos hlt]
    exact ⟨rfl, ih (by omega)⟩
  | case2 at' hlt =>
    rw [cut, if_neg hlt]
    exact Nat.le_antisymm h (Nat.le_of_not_lt hlt)

/-- Every block has a byte, and a ublock at most. -/
theorem len_cut (at' stop : Nat) : ∀ m ∈ cut at' stop, 0 < m.2 ∧ m.2 ≤ ublock := by
  have hpos : 0 < ublock := by decide
  induction at' using cut.induct stop with
  | case1 at' hlt ih =>
    rw [cut, if_pos hlt]
    intro m hm
    rcases List.mem_cons.1 hm with rfl | hm
    · exact ⟨by dsimp only; omega, Nat.min_le_right _ _⟩
    · exact ih m hm
  | case2 at' hlt =>
    rw [cut, if_neg hlt]
    exact nofun

theorem range_zeroTodo (owner : Owner) (at' stop : Nat) :
    (zeroTodo owner at' stop).map Todo.range = cut at' stop := by
  rw [zeroTodo, List.map_map]
  exact List.map_id _

theorem range_fileTodo (afid : Nat) (f : PlannedFile) (span : Nat) :
    (fileTodo afid f span).map Todo.range = (cut 0 span).map fun m => (f.logicalOffset + m.1, m.2) := by
  rw [fileTodo, List.map_map]
  rfl

/-- Blocks that are a byte to a ublock long. -/
def Sized (todo : List Todo) : Prop := ∀ t ∈ todo, 0 < t.len ∧ t.len ≤ ublock

theorem sized_of_range {todo : List Todo} (h : ∀ m ∈ todo.map Todo.range, 0 < m.2 ∧ m.2 ≤ ublock) :
    Sized todo := fun _ ht => h _ (List.mem_map_of_mem ht)

theorem sized_fileTodo (afid : Nat) (f : PlannedFile) (span : Nat) : Sized (fileTodo afid f span) := by
  refine sized_of_range fun m hm => ?_
  rw [range_fileTodo] at hm
  obtain ⟨m', hm', rfl⟩ := List.mem_map.1 hm
  exact len_cut 0 span m' hm'

theorem sized_zeroTodo (owner : Owner) (at' stop : Nat) : Sized (zeroTodo owner at' stop) :=
  sized_of_range fun m hm => len_cut at' stop m (range_zeroTodo owner at' stop ▸ hm)

theorem tiles_fileTodo (afid : Nat) (f : PlannedFile) (span : Nat) :
    Tiles f.logicalOffset ((fileTodo afid f span).map Todo.range) (f.logicalOffset + span) := by
  rw [range_fileTodo]
  exact (tiles_cut (Nat.zero_le span)).shift f.logicalOffset

theorem foldl_max_le {files : List PlannedFile} {m n : Nat} (hm : m ≤ n)
    (h : ∀ f ∈ files, f.logicalOffset + f.size ≤ n) :
    files.foldl (fun stop f => max stop (f.logicalOffset + f.size)) m ≤ n := by
  induction files generalizing m with
  | nil => exact hm
  | cons f files ih =>
    exact ih (max_le hm (h f List.mem_cons_self)) fun g hg => h g (List.mem_cons_of_mem _ hg)

/-- The blocks of files that follow one another tile the data. -/
theorem fileBlocks_ok {f : PlannedFile} {files : List PlannedFile} (afid : Nat)
    (h : (f :: files).Pairwise Follows) :
    ∃ todo, fileBlocks afid (f :: files) = .ok todo ∧
      Tiles f.logicalOffset (todo.map Todo.range) (dataStop (f :: files)) ∧ Sized todo := by
  induction files generalizing f afid with
  | nil =>
    refine ⟨_, rfl, ?_, sized_fileTodo _ _ _⟩
    rw [dataStop, List.foldl_cons, List.foldl_nil, Nat.zero_max]
    exact tiles_fileTodo _ _ _
  | cons g files ih =>
    obtain ⟨hf, hrest⟩ := List.pairwise_cons.1 h
    have hg := hf g List.mem_cons_self
    obtain ⟨rest, hok, htiles, hsized⟩ := ih (afid + 1) hrest
    have hle : f.logicalOffset ≤ g.logicalOffset := Nat.le_trans (Nat.le_add_right _ _) hg.1
    refine ⟨fileTodo afid f (g.logicalOffset - f.logicalOffset) ++ rest, ?_, ?_, ?_⟩
    · rw [fileBlocks, sub_eq hle, ok_bind, hok]
      rfl
    · have hone := tiles_fileTodo afid f (g.logicalOffset - f.logicalOffset)
      rw [Nat.add_sub_cancel' hle] at hone
      have hstop : dataStop (f :: g :: files) = dataStop (g :: files) := by
        have hend : f.logicalOffset + f.size ≤ g.logicalOffset + g.size :=
          Nat.le_trans hg.1 (Nat.le_add_right _ _)
        simp only [dataStop, List.foldl_cons, Nat.zero_max]
        rw [Nat.max_eq_right hend]
      rw [List.map_append, hstop]
      exact hone.append htiles
    · intro t ht
      rcases List.mem_append.1 ht with ht | ht
      · exact sized_fileTodo _ _ _ t ht
      · exact hsized t ht

/-! ## Spread plans -/

/-- What holds of a spread plan. -/
structure SpreadSound (plan : Plan) : Prop where
  order : plan.afidOrder.Perm (List.range plan.files.length)
  afid : plan.inOrder.map (·.afid) = List.range plan.files.length
  follows : plan.inOrder.Pairwise Follows
  /-- An empty file is followed by the next one within a unit. -/
  next : plan.inOrder.IsChain Next
  below : ∀ f ∈ plan.files, f.logicalOffset + f.size ≤ plan.metaBase
  disjoint : plan.metadata.spans.Pairwise fun a b => a.1 + a.2 ≤ b.1
  inside : ∀ m ∈ plan.metadata.spans, Inner.block ∣ m.1 ∧ plan.metaBase ≤ m.1 ∧
    m.1 + m.2 ≤ plan.ndblock * Inner.block
  /-- Every byte of the mount is in one block. -/
  blocks : ∃ todo stop, planBlocks plan = .ok (todo, stop) ∧ (∀ t ∈ todo, 0 < t.len ∧ t.len ≤ ublock) ∧
    Tiles 0 (todo.map Todo.range) (plan.ndblock * Inner.block) ∧
    ∀ x, todo.countP (fun t => t.logical ≤ x ∧ x < t.logical + t.len) =
      if x < plan.ndblock * Inner.block then 1 else 0

/-- The blocks of a plan whose files follow one another below the metadata. -/
theorem planBlocks_ok {plan : Plan} (hne : ∀ f rest, plan.inOrder = f :: rest → f.logicalOffset = 0)
    (hfollows : plan.inOrder.Pairwise Follows)
    (hbelow : ∀ f ∈ plan.inOrder, f.logicalOffset + f.size ≤ plan.metaBase)
    (hmount : plan.metaBase ≤ plan.ndblock * Inner.block) :
    ∃ todo stop, planBlocks plan = .ok (todo, stop) ∧ Sized todo ∧
      Tiles 0 (todo.map Todo.range) (plan.ndblock * Inner.block) := by
  have hstop : dataStop plan.inOrder ≤ plan.metaBase := foldl_max_le (Nat.zero_le _) hbelow
  obtain ⟨files, hok, htiles, hsized⟩ : ∃ todo, fileBlocks 0 plan.inOrder = .ok todo ∧
      Tiles 0 (todo.map Todo.range) (dataStop plan.inOrder) ∧ Sized todo := by
    cases hfiles : plan.inOrder with
    | nil => exact ⟨[], rfl, rfl, nofun⟩
    | cons f rest =>
      rw [hfiles] at hfollows
      have h := fileBlocks_ok 0 hfollows
      rwa [hne f rest hfiles] at h
  refine ⟨_, _, by rw [planBlocks, hok, ok_bind]; rfl, ?_, ?_⟩
  · intro t ht
    rw [List.mem_append, List.mem_append] at ht
    rcases ht with (ht | ht) | ht
    · exact hsized t ht
    · exact sized_zeroTodo _ _ _ t ht
    · exact sized_zeroTodo _ _ _ t ht
  · rw [List.map_append, List.map_append, range_zeroTodo, range_zeroTodo]
    exact (htiles.append (tiles_cut hstop)).append (tiles_cut hmount)

/-- Every spread plan that fits is sound, and its blocks tile the mount. -/
theorem spreadSound {input : List SourceFile} {emptyDirs : List Text} {plan : Plan}
    (h : buildTree input emptyDirs true = .ok plan) (hfits : Fits64 (sizesInOrder input emptyDirs) plan) :
    SpreadSound plan := by
  have hplanned := planned h
  have hperm := hplanned.perm_inOrder
  have hroomy := hplanned.roomy hfits
  obtain ⟨-, -, hbelow, -⟩ := hplanned.metaBase_fits hfits
  have hublock : ublock = 0x40000 := rfl
  have hfiles : roomFor (sizesInOrder input emptyDirs) + ublock ≤ 2 ^ 64 := by
    unfold Fits64 at hfits
    omega
  obtain ⟨c, hplaced, -⟩ := hplanned.files_fit hfiles
  have hfollows := pairwise_placed hplaced
  have hmount := hroomy.mount
  have hfirst : ∀ f rest, plan.inOrder = f :: rest → f.logicalOffset = 0 := fun f rest hf => by
    rw [hf] at hplaced
    exact hplaced.1
  obtain ⟨todo, end', hok, hsized, htiles⟩ := planBlocks_ok hfirst hfollows
    (fun f hf => hbelow rfl f (hperm.mem_iff.1 hf)) (by omega)
  exact {
    order := hplanned.order
    afid := hplanned.afid
    follows := hfollows
    next := isChain_placed hplaced
    below := hbelow rfl
    disjoint := hroomy.disjoint
    inside := fun m hm => by
      have := hroomy.inside m hm
      have hblocks := hroomy.blocks
      rw [hblocks] at this
      exact ⟨this.1, by omega, by omega⟩
    blocks := ⟨todo, end', hok, hsized, htiles, fun x => by
      have hcount := htiles.countP x
      rw [List.countP_map] at hcount
      simp only [Nat.zero_le, true_and] at hcount
      exact hcount⟩ }

theorem spreadSound_between : ∃ plan, buildTree emptyBetween [] true = .ok plan ∧ SpreadSound plan := by
  have hsome : (buildTree emptyBetween [] true).toOption.map (fun p =>
      decide (Fits64 (sizesInOrder emptyBetween []) p)) = some true := by decide +kernel
  obtain ⟨plan, h, hfits⟩ := ok_of_map hsome
  exact ⟨plan, h, spreadSound h (of_decide_eq_true hfits)⟩

/-- With sizes that come to 2^64 the cursor wraps, and the file behind them starts where the keystone does. -/
theorem not_spreadSound_wrapped : ¬ ∀ plan,
    buildTree [⟨['a'], 2 ^ 64 - 96⟩, ⟨['b'], 1⟩] [] true = .ok plan → SpreadSound plan := by
  intro hall
  have hwrapped : (buildTree [⟨['a'], 2 ^ 64 - 96⟩, ⟨['b'], 1⟩] [] true).toOption.map (fun p =>
      p.inOrder.map fun f => (f.logicalOffset, f.size)) = some [(0, 96), (96, 2 ^ 64 - 96), (0, 1)] := by
    decide +kernel
  obtain ⟨plan, h, hwrapped⟩ := ok_of_map hwrapped
  have hfollows := (hall plan h).follows
  obtain ⟨f, rest, hrest, hf, hwrapped⟩ := List.map_eq_cons_iff.1 hwrapped
  obtain ⟨g, rest, rfl, hg, hwrapped⟩ := List.map_eq_cons_iff.1 hwrapped
  obtain ⟨k, rest, rfl, hk, -⟩ := List.map_eq_cons_iff.1 hwrapped
  rw [hrest] at hfollows
  have hbehind := (List.pairwise_cons.1 hfollows).1 k (List.mem_cons_of_mem _ List.mem_cons_self)
  rw [Prod.mk.injEq] at hf hk
  unfold Follows at hbehind
  omega

end Ps5Upload.KrakenImage
