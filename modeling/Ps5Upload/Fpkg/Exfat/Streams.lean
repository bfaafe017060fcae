import Ps5Upload.Fpkg.Exfat.Volume
import Ps5Upload.Lib.Blocks

/-!
# exFAT: reading a stream

`cluster_at`, `chain_run`, `read_stream` and `read_file` of `ps5upload-fpkg/src/exfat.rs`.  A read
starts at a cursor left by the read before it, takes consecutive clusters in one go, and leaves the
cursor where the next read may go on.  Against it stands a reader without any of that
(`plainStream`): for every cluster it needs it walks the chain from the stream's first cluster, one
link at a time, and reads that cluster on its own.
-/

namespace Ps5Upload.Exfat

open ByteFile Checked Caching Blocks

/-- A path or a name, by its characters. -/
abbrev Text := List Char

def text (t : Text) : String := String.ofList t

/-! ## The reader -/

def earlyEnd (path : Text) : String := s!"{text path} ends before its data length"

def runsOff (path : Text) : String := s!"{text path} runs off the volume"

/-- `n` links from a cluster on, or an error where the chain ends before. -/
def walkLinks (v : Volume) (path : Text) : Nat → Nat → Reading Nat
  | 0, cluster => pure cluster
  | n + 1, cluster => do
    match ← nextCluster v cluster with
    | some next => walkLinks v path n next
    | none => lift (fail (earlyEnd path))

/-- The cluster holding cluster index `n` of a stream. -/
def clusterAt (v : Volume) (first : Nat) (noFatChain : Bool) (path : Text) (n : Nat) : Reading Nat :=
  if noFatChain then lift do
    if 2 ^ 32 ≤ n then fail s!"{text path} is too large"
    else if 2 ^ 32 ≤ first + n then fail (runsOff path)
    else do
      checkCluster v (first + n)
      return first + n
  else look fun s =>
    match s.cursor with
    | some (f, i, c) =>
      if f = first ∧ i ≤ n then walkLinks v path (n - i) c else walkLinks v path n first
    | none => walkLinks v path n first

/-- A run that covers `run` clusters and stands at `at_`, made longer by at most `left`. -/
def growRun (v : Volume) : Nat → Nat → Nat → Reading Nat
  | 0, run, _ => pure run
  | left + 1, run, at_ => do
    match ← fatLink v at_ with
    | .next next => do
      let succ ← lift (add 32 at_ 1)
      if next = succ then growRun v left (run + 1) next else pure run
    | _ => pure run

/-- How many clusters starting at `cluster` the chain keeps consecutive, at most `max` (at least 1:
`cluster` itself). -/
def chainRun (v : Volume) (cluster max : Nat) : Reading Nat := growRun v (max - 1) 1 cluster

/-- How many clusters from here on are consecutive, up to what is still wanted. -/
def runFrom (v : Volume) (noFatChain : Bool) (cluster maxRun : Nat) : Reading Nat :=
  if noFatChain then lift do
    let sum ← add 64 cluster maxRun
    let last ← sub sum 1
    checkCluster v (min last (2 ^ 32 - 1))
    return maxRun
  else chainRun v cluster maxRun

def clusterOffset (v : Volume) (cluster : Nat) : Res Nat := do
  checkCluster v cluster
  let above ← sub cluster 2
  let bytes ← mul 64 above v.geom.clusterSize
  add 64 v.heapOffset bytes

/-- The cluster after a run that ends with `last`. -/
def continueAt (v : Volume) (noFatChain : Bool) (path : Text) (last : Nat) : Reading Nat :=
  if noFatChain then lift do
    let next ← add 32 last 1
    checkCluster v next
    return next
  else do
    match ← nextCluster v last with
    | some next => pure next
    | none => lift (fail (earlyEnd path))

/-- The cursor after a read whose last run ends with cluster `last`, the one before index `index`;
`whole` when all of it was read. -/
def parkCursor (v : Volume) (first index last : Nat) (whole : Bool) : Reading Unit :=
  if whole then do
    match ← nextCluster v last with
    | some next => change fun s => { s with cursor := some (first, index, next) }
    | none => change fun s => { s with cursor := none }
  else do
    let before ← lift (sub index 1)
    change fun s => { s with cursor := some (first, before, last) }

/-- The turns of a read, at cluster index `index` of the stream, `skip` bytes into that cluster and
with `out` read so far.  Every turn reads a byte or more; one beyond the bytes wanted would be a
loop that runs on. -/
def readLoop (v : Volume) (first : Nat) (noFatChain : Bool) (path : Text) (len : Nat) :
    Nat → Nat → Nat → Nat → Bytes → Reading Bytes
  | 0, _, _, _, out => if len ≤ out.length then pure out else lift panic
  | turns + 1, cluster, index, skip, out =>
    if len ≤ out.length then pure out
    else do
      let want ← lift (sub len out.length)
      let reach ← lift (add 64 want skip)
      let run ← runFrom v noFatChain cluster (max (reach ⌈/⌉ v.geom.clusterSize) 1)
      let base ← lift (clusterOffset v cluster)
      let at_ ← lift (add 64 base skip)
      let room ← lift (mul 64 run v.geom.clusterSize)
      let avail ← lift (sub room skip)
      let bytes ← lift (readAt v.file at_ (min want avail))
      let more ← lift (sub (run % 2 ^ 32) 1)
      let last ← lift (add 32 cluster more)
      let index' ← lift (add 64 index run)
      if (out ++ bytes).length < len then do
        let next ← continueAt v noFatChain path last
        readLoop v first noFatChain path len turns next index' 0 (out ++ bytes)
      else if noFatChain then pure (out ++ bytes)
      else do
        parkCursor v first index' last (min want avail = avail)
        pure (out ++ bytes)

/-- `len` bytes at `offset` of a stream, contiguous or chained. -/
def readStream (v : Volume) (first : Nat) (noFatChain : Bool) (path : Text) (offset len : Nat) :
    Reading Bytes := do
  let cluster ← clusterAt v first noFatChain path (offset / v.geom.clusterSize)
  readLoop v first noFatChain path len len cluster (offset / v.geom.clusterSize)
    (offset % v.geom.clusterSize) []

/-- A file of the volume, with what is needed to read it back. -/
structure ExFatFile where
  path : Text
  size : Nat
  valid : Nat
  firstCluster : Nat
  noFatChain : Bool
  deriving DecidableEq, Repr

/-- Up to `len` bytes at `offset` of a walked file. -/
def readFile (v : Volume) (f : ExFatFile) (offset len : Nat) : Reading Bytes :=
  if f.size ≤ offset then pure []
  else do
    let left ← lift (sub f.size offset)
    -- bytes at and past ValidDataLength read as zeros, whatever the clusters hold
    if f.valid ≤ offset then pure (List.replicate (min len left) 0)
    else do
      let filled ← lift (sub f.valid offset)
      let out ← readStream v f.firstCluster f.noFatChain f.path offset (min (min len left) filled)
      pure (setLen out (min len left))

/-! ## The plain reader -/

/-- The cluster at index `n` of a stream, by `n` links from its first cluster. -/
def Volume.clusterOf (v : Volume) (first : Nat) (noFatChain : Bool) (n : Nat) : Option Nat :=
  if noFatChain then (if v.Inside (first + n) then some (first + n) else none)
  else v.followMany n first

/-- Where a cluster's bytes are. -/
def Volume.place (v : Volume) (cluster : Nat) : Nat :=
  v.heapOffset + (cluster - 2) * v.geom.clusterSize

/-- The bytes of one cluster. -/
def Volume.clusterBytes (v : Volume) (cluster : Nat) : Option Bytes :=
  if v.Inside cluster then some ((v.file.bytes.drop (v.place cluster)).take v.geom.clusterSize)
  else none

/-- The bytes of `k` clusters of a stream from index `i` on, each found and read on its own. -/
def Volume.plainClusters (v : Volume) (first : Nat) (noFatChain : Bool) : Nat → Nat → Option Bytes
  | _, 0 => some []
  | i, k + 1 =>
    (v.clusterOf first noFatChain i).bind fun c =>
      (v.clusterBytes c).bind fun b => (v.plainClusters first noFatChain (i + 1) k).map (b ++ ·)

/-- `len` bytes of a stream, `skip` bytes into its cluster `i`. -/
def Volume.plainFrom (v : Volume) (first : Nat) (noFatChain : Bool) (i skip len : Nat) :
    Option Bytes :=
  (v.plainClusters first noFatChain i (if len = 0 then 0 else (len + skip) ⌈/⌉ v.geom.clusterSize)).map
    fun all => (all.drop skip).take len

/-- `len` bytes at `offset` of a stream, without a cursor and a cluster at a time. -/
def Volume.plainStream (v : Volume) (first : Nat) (noFatChain : Bool) (offset len : Nat) :
    Option Bytes :=
  (v.clusterOf first noFatChain (offset / v.geom.clusterSize)).bind fun _ =>
    v.plainFrom first noFatChain (offset / v.geom.clusterSize) (offset % v.geom.clusterSize) len

/-- Up to `len` bytes at `offset` of a file, by the plain reader. -/
def Volume.plainFile (v : Volume) (f : ExFatFile) (offset len : Nat) : Option Bytes :=
  if f.size ≤ offset then some []
  else if f.valid ≤ offset then some (List.replicate (min len (f.size - offset)) 0)
  else (v.plainStream f.firstCluster f.noFatChain offset
    (min (min len (f.size - offset)) (f.valid - offset))).map
      (setLen · (min len (f.size - offset)))

/-! ## Chains -/

/-- The slot of a cluster cannot be read. -/
def Volume.Unreadable (v : Volume) (cluster : Nat) : Prop := (v.link cluster).toOption = none

instance (v : Volume) (cluster : Nat) : Decidable (v.Unreadable cluster) :=
  inferInstanceAs (Decidable (_ = _))

theorem not_unreadable {v : Volume} {c : Nat} {l : FatLink} (h : v.link c = .ok l) :
    ¬v.Unreadable c := by
  rw [Volume.Unreadable, h]
  exact nofun

theorem followMany_add (v : Volume) (a b c : Nat) :
    v.followMany (a + b) c = (v.followMany a c).bind (v.followMany b) := by
  induction a generalizing c with
  | zero => rw [Nat.zero_add]; rfl
  | succ a ih =>
    rw [Nat.succ_add, Volume.followMany, Volume.followMany, Option.bind_assoc]
    congr 1
    exact funext ih

theorem followMany_one (v : Volume) (c : Nat) : v.followMany 1 c = v.follow c := by
  show (v.follow c).bind some = v.follow c
  exact Option.bind_fun_some _

theorem clusterOf_succ (v : Volume) (first i : Nat) :
    v.clusterOf first false (i + 1) = (v.clusterOf first false i).bind v.follow := by
  rw [Volume.clusterOf, Volume.clusterOf, if_neg Bool.false_ne_true, if_neg Bool.false_ne_true,
    followMany_add]
  congr 1
  exact funext (followMany_one v)

section Reads

variable {v : Volume} (hv : v.Sound)
include hv

theorem classify_eq (n : Nat) : ∃ l, classify v n = .ok l ∧ ∀ c, l = .next c → v.Inside c := by
  have hcount := hv.count_lt
  unfold classify
  rw [add_eq hcount, ok_bind]
  split
  · rename_i h
    exact ⟨_, rfl, fun c hc => by cases hc; exact ⟨h.1, h.2.1⟩⟩
  · split
    · exact ⟨_, rfl, nofun⟩
    · split <;> exact ⟨_, rfl, nofun⟩

/-- A slot says something, or cannot be read. -/
theorem link_cases (c : Nat) : (∃ l, v.link c = .ok l ∧ ∀ n, l = .next n → v.Inside n) ∨
    ∃ e, v.link c = fail e := by
  have hread : (∃ n, v.slot c = .ok n) ∨ ∃ e, v.slot c = fail e := by
    unfold Volume.slot
    by_cases hheld : v.FatHeld
    · rw [if_pos hheld]
      exact Or.inl ⟨_, rfl⟩
    · rw [if_neg hheld]
      by_cases hin : v.fatOffset + 4 * c + 4 ≤ v.file.len
      · rw [readAt_eq hin]
        exact Or.inl ⟨_, rfl⟩
      · obtain ⟨e, he⟩ := readAt_past (by omega : v.file.len < v.fatOffset + 4 * c + 4)
        rw [he]
        exact Or.inr ⟨e, rfl⟩
  unfold Volume.link
  rcases hread with ⟨n, hn⟩ | ⟨e, he⟩
  · rw [hn, ok_bind]
    exact Or.inl (classify_eq hv n)
  · rw [he]
    exact Or.inr ⟨e, rfl⟩

variable {c first i run last : Nat} {noFatChain : Bool}

theorem follow_inside {n : Nat} (h : v.follow c = some n) : v.Inside n := by
  unfold Volume.follow at h
  rcases link_cases hv c with ⟨l, hl, hin⟩ | ⟨e, he⟩
  · rw [hl] at h
    cases l with
    | next m =>
      cases h
      exact hin _ rfl
    | endOfChain => cases h
    | unmaintained => cases h
  · rw [he] at h
    cases h

theorem inside_lt (h : v.Inside c) : c < 2 ^ 32 := by
  have := hv.count_lt
  have := h.2
  omega

theorem followMany_lt {n d : Nat} (hc : c < 2 ^ 32) (h : v.followMany n c = some d) :
    d < 2 ^ 32 := by
  cases n with
  | zero =>
    cases h
    exact hc
  | succ n =>
    rw [followMany_add, Option.bind_eq_some_iff] at h
    obtain ⟨m, -, hm⟩ := h
    rw [followMany_one] at hm
    exact inside_lt hv (follow_inside hv hm)

/-- The next cluster of a chain: the one the slot leads to, none at an end, or a slot that cannot be
read. -/
theorem nextCluster_returns (hc : c < 2 ^ 32) : Returns v.Keeps (nextCluster v c) fun r =>
    (∃ n, r = .ok (some n) ∧ v.follow c = some n) ∨
    (r = .ok none ∧ v.follow c = none ∧ ¬v.Unreadable c) ∨
    (∃ e, r = fail e ∧ v.follow c = none ∧ v.Unreadable c) := by
  refine Returns.bind_computes (fatLink_computes hv hc) (fun l hl => ?_) fun e he => ?_
  · cases l with
    | next n =>
      have hn : v.follow c = some n := by rw [Volume.follow, hl]
      exact Returns.of_computes (computes_pure _) (Or.inl ⟨n, rfl, hn⟩)
    | endOfChain =>
      have hn : v.follow c = none := by rw [Volume.follow, hl]
      exact Returns.of_computes (computes_pure _) (Or.inr (Or.inl ⟨rfl, hn, not_unreadable hl⟩))
    | unmaintained =>
      have hn : v.follow c = none := by rw [Volume.follow, hl]
      exact Returns.of_computes (computes_pure _) (Or.inr (Or.inl ⟨rfl, hn, not_unreadable hl⟩))
  · rcases link_cases hv c with ⟨l, hl, -⟩ | ⟨e', he'⟩
    · rw [hl] at he
      cases he
    · rw [he'] at he
      cases he
      refine Or.inr (Or.inr ⟨e', rfl, ?_, ?_⟩)
      · rw [Volume.follow, he']
        rfl
      · rw [Volume.Unreadable, he']
        rfl

theorem walkLinks_returns (path : Text) (n : Nat) (hc : c < 2 ^ 32) :
    Returns v.Keeps (walkLinks v path n c) (Agrees (v.followMany n c)) := by
  induction n generalizing c with
  | zero => exact Returns.of_computes (computes_pure _) (agrees_ok c)
  | succ n ih =>
    refine Returns.bind (nextCluster_returns hv hc) (fun r hr => ?_) fun e he => ?_
    · rw [Volume.followMany]
      rcases hr with ⟨m, hr, hm⟩ | ⟨hr, hm, -⟩ | ⟨e, hr, -⟩
      · cases hr
        rw [hm]
        exact ih (inside_lt hv (follow_inside hv hm))
      · cases hr
        rw [hm]
        exact returns_lift (agrees_fail _)
      · cases hr
    · rw [Volume.followMany]
      rcases he with ⟨m, he, -⟩ | ⟨he, -⟩ | ⟨e', he, hm, -⟩
      · cases he
      · cases he
      · cases he
        rw [hm]
        exact agrees_fail e'

/-- A check passes inside the volume and fails outside. -/
theorem checkCluster_eq (c : Nat) : (v.Inside c ∧ checkCluster v c = .ok ()) ∨
    (¬v.Inside c ∧ ∃ e, checkCluster v c = fail e) := by
  have hcount := hv.count_lt
  unfold checkCluster
  by_cases h2 : c < 2
  · rw [if_pos h2]
    exact Or.inr ⟨fun h => absurd h.1 (by omega), _, rfl⟩
  · rw [if_neg h2, add_eq hcount, ok_bind]
    by_cases hc : v.geom.clusterCount + 2 ≤ c
    · rw [if_pos hc]
      exact Or.inr ⟨fun h => absurd h.2 (by omega), _, rfl⟩
    · rw [if_neg hc]
      exact Or.inl ⟨⟨by omega, by omega⟩, rfl⟩

/-- **The cursor only shortens the walk.** -/
theorem clusterAt_returns (hfirst : first < 2 ^ 32) (noFatChain : Bool) (path : Text)
    (n : Nat) : Returns v.Keeps (clusterAt v first noFatChain path n)
      (Agrees (v.clusterOf first noFatChain n)) := by
  unfold clusterAt Volume.clusterOf
  cases noFatChain with
  | true =>
    rw [if_pos rfl, if_pos rfl]
    refine returns_lift ?_
    by_cases hn : 2 ^ 32 ≤ n
    · rw [if_pos hn, if_neg fun h => absurd (inside_lt hv h) (by omega)]
      exact agrees_fail _
    by_cases hsum : 2 ^ 32 ≤ first + n
    · rw [if_neg hn, if_pos hsum, if_neg fun h => absurd (inside_lt hv h) (by omega)]
      exact agrees_fail _
    rw [if_neg hn, if_neg hsum]
    rcases checkCluster_eq hv (first + n) with ⟨hin, hok⟩ | ⟨hout, e, he⟩
    · rw [hok, if_pos hin]
      exact agrees_ok _
    · rw [he, if_neg hout]
      exact agrees_fail e
  | false =>
    rw [if_neg Bool.false_ne_true, if_neg Bool.false_ne_true]
    refine returns_look fun s hs => ?_
    have hwalk := walkLinks_returns hv path n hfirst
    cases hc : s.cursor with
    | none => exact hwalk
    | some q =>
      obtain ⟨f, i, c⟩ := q
      dsimp only
      by_cases hq : f = first ∧ i ≤ n
      · -- the walk from the cursor is the rest of the walk from the first cluster
        obtain ⟨rfl, hi⟩ := hq
        obtain ⟨hlt, hcursor⟩ := hs.cursor f i c hc
        have hrest : v.followMany n f = v.followMany (n - i) c := by
          rw [← Nat.add_sub_of_le hi, followMany_add, hcursor, Nat.add_sub_cancel_left]
          rfl
        rw [if_pos ⟨rfl, hi⟩, hrest]
        exact walkLinks_returns hv path (n - i) hlt
      · rw [if_neg hq]
        exact hwalk

/-! ## Runs of clusters -/

omit hv in
theorem plainClusters_add (first : Nat) (noFatChain : Bool) (i a b : Nat) :
    v.plainClusters first noFatChain i (a + b) =
      (v.plainClusters first noFatChain i a).bind fun x =>
        (v.plainClusters first noFatChain (i + a) b).map (x ++ ·) := by
  induction a generalizing i with
  | zero =>
    rw [Nat.zero_add]
    show _ = (v.plainClusters first noFatChain i b).map fun y => [] ++ y
    exact (congrFun Option.map_id_fun _).symm
  | succ a ih =>
    rw [Nat.succ_add, Volume.plainClusters, Volume.plainClusters, ih, Nat.add_right_comm i 1 a,
      ← Nat.add_assoc]
    cases v.clusterOf first noFatChain i with
    | none => rfl
    | some c =>
      rw [Option.bind_some, Option.bind_some]
      cases v.clusterBytes c with
      | none => rfl
      | some b' =>
        rw [Option.bind_some, Option.bind_some]
        cases v.plainClusters first noFatChain (i + 1) a with
        | none => rfl
        | some x =>
          rw [Option.bind_some, Option.map_some, Option.bind_some, Option.map_map]
          congr 1
          exact funext fun y => (List.append_assoc b' x y).symm

/-- The stream's clusters from index `i` on are `run` consecutive ones of the heap. -/
def Stretch (v : Volume) (first : Nat) (noFatChain : Bool) (i c run : Nat) : Prop :=
  ∀ j < run, v.clusterOf first noFatChain (i + j) = some (c + j) ∧ v.Inside (c + j)

omit hv in
/-- A stretch is one piece of the heap. -/
theorem plainClusters_stretch (h : Stretch v first noFatChain i c run) :
    v.plainClusters first noFatChain i run =
      some ((v.file.bytes.drop (v.place c)).take (run * v.geom.clusterSize)) := by
  induction run generalizing i c with
  | zero => rw [Nat.zero_mul, List.take_zero]; rfl
  | succ run ih =>
    obtain ⟨hc, hin⟩ := h 0 (by omega)
    rw [Nat.add_zero, Nat.add_zero] at hc
    rw [Nat.add_zero] at hin
    have hrest : Stretch v first noFatChain (i + 1) (c + 1) run := fun j hj => by
      have := h (j + 1) (by omega)
      rwa [← Nat.add_assoc, Nat.add_right_comm, ← Nat.add_assoc, Nat.add_right_comm c] at this
    have hplace : v.place (c + 1) = v.place c + v.geom.clusterSize := by
      have := hin.1
      rw [Volume.place, Volume.place, show c + 1 - 2 = (c - 2) + 1 by omega, Nat.succ_mul]
      omega
    rw [Volume.plainClusters, hc, Option.bind_some, Volume.clusterBytes, if_pos hin,
      Option.bind_some, ih hrest, Option.map_some, hplace, Nat.succ_mul,
      Nat.add_comm (run * _) v.geom.clusterSize, List.take_add, List.drop_drop]

omit hv in
/-- A cluster that is not there ends the plain read. -/
theorem plainClusters_none {k j : Nat} (hj : j < k)
    (h : (v.clusterOf first noFatChain (i + j)).bind v.clusterBytes = none) :
    v.plainClusters first noFatChain i k = none := by
  have hk : k = j + (k - j - 1 + 1) := by omega
  rw [hk, plainClusters_add, Volume.plainClusters]
  cases hc : v.clusterOf first noFatChain (i + j) with
  | none => cases v.plainClusters first noFatChain i j <;> rfl
  | some c =>
    rw [hc, Option.bind_some] at h
    rw [Option.bind_some, h]
    cases v.plainClusters first noFatChain i j <;> rfl

/-- The links from `c` on lead from each cluster to the one after it, `m` times. -/
def Consecutive (v : Volume) (c m : Nat) : Prop := ∀ j < m, v.follow (c + j) = some (c + j + 1)

omit hv in
theorem consecutive_clusterOf {m : Nat} (hc : v.clusterOf first false i = some c)
    (h : Consecutive v c m) {j : Nat} (hj : j ≤ m) : v.clusterOf first false (i + j) = some (c + j) := by
  induction j with
  | zero => exact hc
  | succ j ih =>
    rw [← Nat.add_assoc, clusterOf_succ, ih (by omega), Option.bind_some]
    exact h j (by omega)

/-- A chained read of `k` clusters that starts at the last number a cluster can have, with a slot
that leads on. -/
def LoneStart (v : Volume) (noFatChain : Bool) (c k : Nat) : Prop :=
  noFatChain = false ∧ c = 2 ^ 32 - 1 ∧ 1 < k ∧ ∃ n, v.link c = .ok (.next n)

theorem not_loneStart (h : v.Inside c) (noFatChain : Bool) (k : Nat) :
    ¬LoneStart v noFatChain c k := by
  have := hv.count_lt
  have := h.2
  rintro ⟨-, hc, -⟩
  omega

omit hv in
theorem consecutive_cons {m : Nat} (h : v.follow c = some (c + 1))
    (hm : Consecutive v (c + 1) m) : Consecutive v c (m + 1) := by
  intro j hj
  cases j with
  | zero => exact h
  | succ j =>
    have := hm j (by omega)
    rwa [Nat.add_right_comm c 1 j] at this

theorem clusterOf_lt (hfirst : first < 2 ^ 32)
    (h : v.clusterOf first noFatChain i = some c) : c < 2 ^ 32 := by
  cases noFatChain with
  | true =>
    rw [Volume.clusterOf, if_pos rfl] at h
    split at h
    · rename_i hin
      cases h
      exact inside_lt hv hin
    · cases h
  | false => exact followMany_lt hv hfirst h

/-- What a run of consecutive clusters covers, or where it fails: at a slot the plain reader needs as
well. -/
theorem growRun_returns (left run : Nat) (hc : c < 2 ^ 32) :
    Returns v.Keeps (growRun v left run c) fun r =>
      (r = panic ∧ LoneStart v false c (left + 1)) ∨
      (¬LoneStart v false c (left + 1) ∧
        ((∃ m ≤ left, r = .ok (run + m) ∧ Consecutive v c m) ∨
          ∃ e, r = fail e ∧ ∃ m < left, Consecutive v c m ∧ v.follow (c + m) = none)) := by
  induction left generalizing run c with
  | zero =>
    refine Returns.of_computes (computes_pure _) (Or.inr ⟨?_, Or.inl ⟨0, Nat.le_refl 0, rfl, nofun⟩⟩)
    rintro ⟨-, -, h, -⟩
    omega
  | succ left ih =>
    have stops : ∀ l, v.link c = .ok l → (∀ n, l ≠ .next n) →
        ¬LoneStart v false c (left + 1 + 1) ∧ ∃ m ≤ left + 1,
          (.ok run : Res Nat) = .ok (run + m) ∧ Consecutive v c m := by
      refine fun l hl hne => ⟨?_, 0, Nat.zero_le _, rfl, nofun⟩
      rintro ⟨-, -, -, n, hn⟩
      rw [hl] at hn
      exact hne n (Except.ok.inj hn)
    refine Returns.bind_computes (fatLink_computes hv hc) (fun l hl => ?_) fun e he => ?_
    · cases l with
      | endOfChain =>
        exact Returns.of_computes (computes_pure _)
          (Or.inr ((stops _ hl (by nofun)).imp_right Or.inl))
      | unmaintained =>
        exact Returns.of_computes (computes_pure _)
          (Or.inr ((stops _ hl (by nofun)).imp_right Or.inl))
      | next n =>
        have hfollow : v.follow c = some n := by rw [Volume.follow, hl]
        have hin := follow_inside hv hfollow
        by_cases hlast : c = 2 ^ 32 - 1
        · -- the successor of the last cluster number is past the range
          have hadd : (add 32 c 1 : Res Nat) = panic := if_neg (by omega)
          rw [hadd]
          refine Returns.bind_computes (computes_lift panic) nofun fun e he => ?_
          cases he
          exact Or.inl ⟨rfl, rfl, hlast, by omega, n, hl⟩
        · have hnot : ¬LoneStart v false c (left + 1 + 1) := fun h => hlast h.2.1
          rw [add_eq (by omega)]
          refine Returns.bind_computes (computes_lift _) (fun a ha => ?_) nofun
          cases ha
          by_cases hn : n = c + 1
          · subst hn
            rw [if_pos rfl]
            refine Returns.mono (ih (run + 1) (inside_lt hv hin)) fun r hr => ?_
            rcases hr with ⟨-, hlone⟩ | ⟨-, ⟨m, hm, rfl, hcon⟩ | ⟨e, rfl, m, hm, hcon, hend⟩⟩
            · exact absurd hlone (not_loneStart hv hin false _)
            · refine Or.inr ⟨hnot, Or.inl ⟨m + 1, by omega, by congr 1; omega, ?_⟩⟩
              exact consecutive_cons hfollow hcon
            · refine Or.inr ⟨hnot, Or.inr ⟨e, rfl, m + 1, by omega, ?_, ?_⟩⟩
              · exact consecutive_cons hfollow hcon
              · rwa [← Nat.add_assoc, Nat.add_right_comm]
          · rw [if_neg hn]
            exact Returns.of_computes (computes_pure _)
              (Or.inr ⟨hnot, Or.inl ⟨0, Nat.zero_le _, rfl, nofun⟩⟩)
    · rcases link_cases hv c with ⟨l, hl, -⟩ | ⟨e', he'⟩
      · rw [hl] at he
        cases he
      · rw [he'] at he
        cases he
        have hnone : v.follow c = none := by rw [Volume.follow, he']; rfl
        refine Or.inr ⟨?_, Or.inr ⟨e', rfl, 0, by omega, nofun, hnone⟩⟩
        rintro ⟨-, -, -, n, hn⟩
        rw [he'] at hn
        cases hn

/-- The run a turn of the read takes. -/
theorem runFrom_returns {k : Nat} (hc : c < 2 ^ 32)
    (hi : v.clusterOf first noFatChain i = some c) (hk : 0 < k) (hk64 : k < 2 ^ 63 + 2 ^ 26) :
    Returns v.Keeps (runFrom v noFatChain c k) fun r =>
      (r = panic ∧ LoneStart v noFatChain c k) ∨
      (¬LoneStart v noFatChain c k ∧
        ((∃ run, r = .ok run ∧ 0 < run ∧ run ≤ k ∧
            (v.Inside c → Stretch v first noFatChain i c run)) ∨
          ∃ e, r = fail e ∧ v.plainClusters first noFatChain i k = none)) := by
  unfold runFrom
  cases noFatChain with
  | true =>
    have hnot : ¬LoneStart v true c k := fun h => absurd h.1 (by decide)
    have hcount := hv.count_lt
    rw [if_pos rfl]
    refine returns_lift (Or.inr ⟨hnot, ?_⟩)
    rw [add_eq (by omega), ok_bind, sub_eq (by omega), ok_bind]
    rw [Volume.clusterOf, if_pos rfl] at hi
    split at hi
    · rename_i hin
      cases hi
      rcases checkCluster_eq hv (min (first + i + k - 1) (2 ^ 32 - 1)) with ⟨hlast, hok⟩ | ⟨hout, e, he⟩
      · -- the last cluster is inside, so all of them are
        rw [hok]
        refine Or.inl ⟨k, rfl, hk, Nat.le_refl k, fun _ j hj => ?_⟩
        have h1 := hlast.2
        have h2 := hin.1
        have hjin : v.Inside (first + i + j) := ⟨by omega, by omega⟩
        rw [Volume.clusterOf, if_pos rfl, ← Nat.add_assoc, if_pos hjin]
        exact ⟨rfl, hjin⟩
      · rw [he]
        refine Or.inr ⟨e, rfl, plainClusters_none (by omega : k - 1 < k) ?_⟩
        rw [Volume.clusterOf, if_pos rfl, if_neg fun h => hout ?_]
        · rfl
        · have h1 := h.1
          have h2 := h.2
          exact ⟨by omega, by omega⟩
    · cases hi
  | false =>
    rw [if_neg Bool.false_ne_true, chainRun]
    have hgrow := growRun_returns hv (k - 1) 1 hc
    rw [Nat.sub_add_cancel hk] at hgrow
    refine Returns.mono hgrow fun r hr => ?_
    rcases hr with hpanic | ⟨hnot, ⟨m, hm, rfl, hcon⟩ | ⟨e, rfl, m, hm, hcon, hend⟩⟩
    · exact Or.inl hpanic
    · refine Or.inr ⟨hnot, Or.inl ⟨1 + m, rfl, by omega, by omega, fun hin j hj => ?_⟩⟩
      refine ⟨consecutive_clusterOf hi hcon (by omega), ?_⟩
      cases j with
      | zero => exact hin
      | succ j => exact follow_inside hv (hcon j (by omega))
    · refine Or.inr ⟨hnot, Or.inr ⟨e, rfl, plainClusters_none (by omega : m + 1 < k) ?_⟩⟩
      rw [← Nat.add_assoc, clusterOf_succ, consecutive_clusterOf hi hcon (Nat.le_refl m),
        Option.bind_some, hend]
      rfl

/-- The clusters of the heap end inside the image. -/
theorem place_le (hrun : 0 < run) (hc : v.Inside c) (hlast : v.Inside (c + run - 1)) :
    v.place c + run * v.geom.clusterSize ≤ v.file.len := by
  have h1 := hlast.2
  have h2 := hc.1
  have hle : (c - 2 + run) * v.geom.clusterSize ≤ v.geom.clusterCount * v.geom.clusterSize :=
    Nat.mul_le_mul_right _ (by omega)
  have := hv.heap_le
  rw [Nat.add_mul] at hle
  rw [Volume.place]
  omega

theorem clusterOffset_eq (c : Nat) : (v.Inside c ∧ clusterOffset v c = .ok (v.place c)) ∨
    (¬v.Inside c ∧ ∃ e, clusterOffset v c = fail e) := by
  unfold clusterOffset
  rcases checkCluster_eq hv c with ⟨hin, hok⟩ | ⟨hout, e, he⟩
  · have hplace := place_le hv Nat.one_pos hin hin
    have hlen := v.file.len_lt
    have hge := hv.cluster_ge
    rw [Volume.place] at hplace
    rw [hok, ok_bind, sub_eq hin.1, ok_bind, mul_eq (by omega), ok_bind, add_eq (by omega)]
    exact Or.inl ⟨hin, rfl⟩
  · rw [he]
    exact Or.inr ⟨hout, e, rfl⟩

/-- The cluster after a run, or an error where the plain reader has none either. -/
theorem continueAt_returns (path : Text)
    (hin : v.Inside last) (hi : v.clusterOf first noFatChain i = some last) :
    Returns v.Keeps (continueAt v noFatChain path last)
      (Agrees (v.clusterOf first noFatChain (i + 1))) := by
  unfold continueAt
  cases noFatChain with
  | true =>
    have hcount := hv.count_lt
    have hlast := hin.2
    rw [Volume.clusterOf, if_pos rfl] at hi
    split at hi
    · cases hi
      rw [if_pos rfl]
      refine returns_lift ?_
      rw [Volume.clusterOf, if_pos rfl, ← Nat.add_assoc, add_eq (by omega), ok_bind]
      rcases checkCluster_eq hv (first + i + 1) with ⟨hnext, hok⟩ | ⟨hout, e, he⟩
      · rw [hok, if_pos hnext]
        exact agrees_ok _
      · rw [he, if_neg hout]
        exact agrees_fail e
    · cases hi
  | false =>
    rw [if_neg Bool.false_ne_true, clusterOf_succ, hi, Option.bind_some]
    refine Returns.bind (nextCluster_returns hv (inside_lt hv hin)) (fun r hr => ?_) fun e he => ?_
    · rcases hr with ⟨n, hr, hn⟩ | ⟨hr, hn, -⟩ | ⟨e, hr, -⟩
      · cases hr
        rw [hn]
        exact Returns.of_computes (computes_pure _) (agrees_ok n)
      · cases hr
        rw [hn]
        exact returns_lift (agrees_fail _)
      · cases hr
    · rcases he with ⟨n, he, -⟩ | ⟨he, -⟩ | ⟨e', he, hn, -⟩
      · cases he
      · cases he
      · cases he
        rw [hn]
        exact agrees_fail e'

/-- The cursor is left on the stream's chain; only a slot that cannot be read stops that. -/
theorem parkCursor_returns (whole : Bool) (hin : v.Inside last)
    (hi : v.clusterOf first false i = some last) :
    Returns v.Keeps (parkCursor v first (i + 1) last whole)
      (Agrees (if whole = true ∧ v.Unreadable last then none else some ())) := by
  have hchain : v.followMany i first = some last := hi
  unfold parkCursor
  cases whole with
  | true =>
    rw [if_pos rfl]
    refine Returns.bind (nextCluster_returns hv (inside_lt hv hin)) (fun r hr => ?_) fun e he => ?_
    · rcases hr with ⟨n, hr, hn⟩ | ⟨hr, hn, hlink⟩ | ⟨e, hr, -⟩
      · cases hr
        have hlink : ¬v.Unreadable last := by
          rcases link_cases hv last with ⟨l, hl, -⟩ | ⟨e, he⟩
          · exact not_unreadable hl
          · rw [Volume.follow, he] at hn
            cases hn
        rw [if_neg fun h => hlink h.2]
        refine returns_change (fun s hs => ⟨hs.fat, fun f j c hc => ?_⟩) (agrees_ok ())
        cases hc
        refine ⟨inside_lt hv (follow_inside hv hn), ?_⟩
        rw [followMany_add, hchain, Option.bind_some, followMany_one, hn]
      · cases hr
        rw [if_neg fun h => hlink h.2]
        exact returns_change (fun s hs => ⟨hs.fat, nofun⟩) (agrees_ok ())
      · cases hr
    · rcases he with ⟨n, he, -⟩ | ⟨he, -⟩ | ⟨e', he, -, hlink⟩
      · cases he
      · cases he
      · cases he
        rw [if_pos ⟨rfl, hlink⟩]
        exact agrees_fail e'
  | false =>
    rw [if_neg Bool.false_ne_true, if_neg fun h => Bool.false_ne_true h.1, sub_eq (by omega)]
    refine Returns.bind_computes (computes_lift _) (fun a ha => ?_) nofun
    cases ha
    refine returns_change (fun s hs => ⟨hs.fat, fun f j c hc => ?_⟩) (agrees_ok ())
    cases hc
    exact ⟨inside_lt hv hin, hchain⟩

/-- What a stretch gives the plain reader, and what it leaves. -/
theorem plainFrom_stretch {skip want : Nat}
    (hs : Stretch v first noFatChain i c run) (hrun : 0 < run) (hskip : skip < v.geom.clusterSize)
    (hwant : 0 < want) (hk : run ≤ (want + skip) ⌈/⌉ v.geom.clusterSize) :
    v.plainFrom first noFatChain i skip want =
      if want ≤ run * v.geom.clusterSize - skip then
        some ((v.file.bytes.drop (v.place c + skip)).take want)
      else
        (v.plainFrom first noFatChain (i + run) 0 (want - (run * v.geom.clusterSize - skip))).map
          ((v.file.bytes.drop (v.place c + skip)).take (run * v.geom.clusterSize - skip) ++ ·) := by
  have hpos : 0 < v.geom.clusterSize := by have := hv.cluster_ge; omega
  have hroom : v.geom.clusterSize ≤ run * v.geom.clusterSize := Nat.le_mul_of_pos_left _ hrun
  have hlast : v.Inside (c + run - 1) := by
    rw [Nat.add_sub_assoc (show 1 ≤ run from hrun)]
    exact (hs (run - 1) (by omega)).2
  have hfirst : v.Inside c := (hs 0 hrun).2
  have hle := place_le hv hrun hfirst hlast
  generalize hroom' : run * v.geom.clusterSize = room at *
  generalize hk' : (want + skip) ⌈/⌉ v.geom.clusterSize = k at *
  have hsplit := plainClusters_add (v := v) first noFatChain i run (k - run)
  rw [Nat.add_sub_of_le hk, plainClusters_stretch hs, Option.bind_some, hroom'] at hsplit
  rw [Volume.plainFrom, if_neg (by omega), hk', hsplit]
  by_cases hwhole : want ≤ room - skip
  · have hkrun : k ≤ run := by
      rw [← hk', ceilDiv_le_iff_le_mul hpos, Nat.mul_comm, hroom']
      omega
    rw [if_pos hwhole, Nat.sub_eq_zero_of_le hkrun, Volume.plainClusters, Option.map_some,
      Option.map_some, List.append_nil, List.drop_take, List.take_take, List.drop_drop,
      Nat.min_eq_left hwhole]
  · have hrest : (want - (room - skip) + 0) ⌈/⌉ v.geom.clusterSize = k - run := by
      rw [← hk', ← blocks_sub hpos (by omega), hroom']
      congr 1
      omega
    have hlen : (List.take room (v.file.bytes.drop (v.place c))).length = room := by
      rw [Image.len] at hle
      rw [List.length_take, List.length_drop]
      omega
    rw [if_neg hwhole, Volume.plainFrom, if_neg (by omega), hrest, Option.map_map, Option.map_map]
    congr 1
    refine funext fun rest => ?_
    have hdrop : (List.drop skip (List.take room (v.file.bytes.drop (v.place c)))).length
        = room - skip := by
      rw [List.length_drop, hlen]
    simp only [Function.comp_apply, List.drop_zero]
    rw [List.drop_append_of_le_length (by omega), List.take_append, hdrop,
      List.take_of_length_le (by omega), List.drop_take, List.drop_drop]

/-- A read that ends with a cluster of a chained stream whose slot cannot be read. -/
def Volume.EndsUnread (v : Volume) (first : Nat) (noFatChain : Bool) (endsAt : Nat) : Prop :=
  noFatChain = false ∧ endsAt % v.geom.clusterSize = 0 ∧
    (v.followMany (endsAt / v.geom.clusterSize - 1) first).any (fun c => decide (v.Unreadable c)) = true

instance (v : Volume) (first : Nat) (noFatChain : Bool) (endsAt : Nat) :
    Decidable (v.EndsUnread first noFatChain endsAt) :=
  inferInstanceAs (Decidable (_ ∧ _))

omit hv in
theorem endsUnread_iff (hi : v.clusterOf first false i = some last)
    (hpos : 0 < v.geom.clusterSize) :
    v.EndsUnread first false ((i + 1) * v.geom.clusterSize) ↔ v.Unreadable last := by
  have hchain : v.followMany i first = some last := hi
  rw [Volume.EndsUnread, Nat.mul_mod_left, Nat.mul_div_cancel _ hpos, Nat.add_sub_cancel, hchain,
    Option.any_some, decide_eq_true_iff]
  exact ⟨fun h => h.2.2, fun h => ⟨rfl, rfl, h⟩⟩

/-- Past the first cluster of a stream every one is inside the volume. -/
theorem clusterOf_inside (hrun : 0 < run)
    (h : v.clusterOf first noFatChain (i + run) = some c) : v.Inside c := by
  cases noFatChain with
  | true =>
    rw [Volume.clusterOf, if_pos rfl] at h
    split at h
    · rename_i hin
      cases h
      exact hin
    · cases h
  | false =>
    rw [show i + run = i + (run - 1) + 1 by omega, clusterOf_succ, Option.bind_eq_some_iff] at h
    obtain ⟨m, -, hm⟩ := h
    exact follow_inside hv hm

omit hv in
/-- A place short of the end of a block by less than a block is not at a block's end. -/
theorem ends_inside {size room skip want : Nat} (hik : (i + run) * size = i * size + room)
    (hlt : skip + want < room) (hgt : room < skip + want + size) :
    (i * size + skip + want) % size ≠ 0 := by
  intro h
  obtain ⟨q, hq⟩ := Nat.dvd_of_mod_eq_zero h
  rw [Nat.mul_comm size q] at hq
  have h1 : q < i + run := Nat.lt_of_mul_lt_mul_right (a := size) (by omega)
  have h2 : i + run < q + 1 := Nat.lt_of_mul_lt_mul_right (a := size) (by rw [Nat.succ_mul]; omega)
  omega

/-- **A read is the plain reader's**, whatever the state: taken in runs of clusters it gives the same
bytes.  It panics where it starts at the last number a cluster can have, and it fails with all the
bytes read where the slot of the last cluster cannot be read. -/
theorem readLoop_returns {first : Nat} {noFatChain : Bool} (path : Text) {len : Nat} (turns : Nat)
    {c i skip : Nat} {out : Bytes} (hc : c < 2 ^ 32) (hi : v.clusterOf first noFatChain i = some c)
    (hskip : skip < v.geom.clusterSize) (hout : out.length < len) (hturns : len - out.length ≤ turns)
    (hend : i * v.geom.clusterSize + skip + (len - out.length) < 2 ^ 63) :
    Returns v.Keeps (readLoop v first noFatChain path len turns c i skip out) fun r =>
      (r = panic ∧ LoneStart v noFatChain c ((len - out.length + skip) ⌈/⌉ v.geom.clusterSize)) ∨
      (¬LoneStart v noFatChain c ((len - out.length + skip) ⌈/⌉ v.geom.clusterSize) ∧
        Agrees (if v.EndsUnread first noFatChain
              (i * v.geom.clusterSize + skip + (len - out.length)) then none
            else (v.plainFrom first noFatChain i skip (len - out.length)).map (out ++ ·)) r) := by
  induction turns generalizing c i skip out with
  | zero => omega
  | succ turns ih =>
    have hpos : 0 < v.geom.clusterSize := by have := hv.cluster_ge; omega
    have hsize := hv.cluster_le
    have hcount := hv.count_lt
    have hlen := v.file.len_lt
    generalize hwant : len - out.length = want at hturns hend ⊢
    have hk : 0 < (want + skip) ⌈/⌉ v.geom.clusterSize := blocks_pos hpos (by omega)
    have hklt := blocks_lt hpos (want + skip)
    have hkle : (want + skip) ⌈/⌉ v.geom.clusterSize ≤
      (want + skip) ⌈/⌉ v.geom.clusterSize * v.geom.clusterSize := Nat.le_mul_of_pos_right _ hpos
    rw [readLoop, if_neg (by omega), sub_eq (by omega), hwant]
    refine Returns.bind_computes (computes_lift _) (fun a ha => ?_) nofun
    cases ha
    rw [add_eq (by omega)]
    refine Returns.bind_computes (computes_lift _) (fun a ha => ?_) nofun
    cases ha
    rw [Nat.max_eq_left hk]
    -- where the plain reader has no such bytes an error is right either way
    have nothing : ∀ (e : String), v.plainFrom first noFatChain i skip want = none →
        Agrees (if v.EndsUnread first noFatChain (i * v.geom.clusterSize + skip + want) then none
          else (v.plainFrom first noFatChain i skip want).map (out ++ ·)) (fail e : Res Bytes) := by
      intro e h
      rw [h, Option.map_none, ite_self]
      exact agrees_fail e
    refine Returns.bind (runFrom_returns hv hc hi hk (by omega)) (fun run hr => ?_) fun e he => ?_
    case refine_2 =>
      rcases he with ⟨he, hlone⟩ | ⟨hnot, ⟨run, he, -⟩ | ⟨e', he, hnone⟩⟩
      · cases he
        exact Or.inl ⟨rfl, hlone⟩
      · cases he
      · cases he
        refine Or.inr ⟨hnot, nothing e' ?_⟩
        rw [Volume.plainFrom, if_neg (by omega), hnone]
        rfl
    rcases hr with ⟨he, -⟩ | ⟨hnot, ⟨run', he, hrun, hrunk, hstretch⟩ | ⟨e', he, -⟩⟩
    · cases he
    case inr.inr => cases he
    cases he
    refine Returns.mono (p := fun r => Agrees (if v.EndsUnread first noFatChain
        (i * v.geom.clusterSize + skip + want) then none
      else (v.plainFrom first noFatChain i skip want).map (out ++ ·)) r) ?_
      fun r hr => Or.inr ⟨hnot, hr⟩
    rcases clusterOffset_eq hv c with ⟨hin, hoff⟩ | ⟨hout', e, he⟩
    case inr =>
      rw [he]
      refine Returns.bind_computes (computes_lift _) nofun fun e' he' => ?_
      cases he'
      refine nothing e ?_
      rw [Volume.plainFrom, if_neg (by omega), plainClusters_none hk]
      · rfl
      · rw [Nat.add_zero, hi, Option.bind_some, Volume.clusterBytes, if_neg hout']
    -- the run is a stretch of the heap
    have hs := hstretch hin
    have hlast : v.Inside (c + run - 1) := by
      rw [Nat.add_sub_assoc (show 1 ≤ run from hrun)]
      exact (hs (run - 1) (by omega)).2
    have hlasti : v.clusterOf first noFatChain (i + (run - 1)) = some (c + run - 1) := by
      rw [Nat.add_sub_assoc (show 1 ≤ run from hrun)]
      exact (hs (run - 1) (by omega)).1
    have hplace := place_le hv hrun hin hlast
    have hstep := plainFrom_stretch hv hs hrun hskip (by omega : 0 < want) hrunk
    have hroom : v.geom.clusterSize ≤ run * v.geom.clusterSize := Nat.le_mul_of_pos_left _ hrun
    have hroomk : run * v.geom.clusterSize ≤
      (want + skip) ⌈/⌉ v.geom.clusterSize * v.geom.clusterSize := Nat.mul_le_mul_right _ hrunk
    have hlt32 := inside_lt hv hlast
    have htwo := hin.1
    have hik : (i + run) * v.geom.clusterSize = i * v.geom.clusterSize + run * v.geom.clusterSize :=
      Nat.add_mul _ _ _
    have hile : i ≤ i * v.geom.clusterSize := Nat.le_mul_of_pos_right _ hpos
    have hrunle : run ≤ run * v.geom.clusterSize := Nat.le_mul_of_pos_right _ hpos
    generalize hroom' : run * v.geom.clusterSize = room at *
    rw [hoff]
    refine Returns.bind_computes (computes_lift _) (fun a ha => ?_) nofun
    cases ha
    rw [add_eq (by omega)]
    refine Returns.bind_computes (computes_lift _) (fun a ha => ?_) nofun
    cases ha
    rw [mul_eq (by omega), hroom']
    refine Returns.bind_computes (computes_lift _) (fun a ha => ?_) nofun
    cases ha
    rw [sub_eq (by omega)]
    refine Returns.bind_computes (computes_lift _) (fun a ha => ?_) nofun
    cases ha
    rw [readAt_eq (by omega)]
    refine Returns.bind_computes (computes_lift _) (fun a ha => ?_) nofun
    cases ha
    rw [Nat.mod_eq_of_lt (by omega), sub_eq (by omega)]
    refine Returns.bind_computes (computes_lift _) (fun a ha => ?_) nofun
    cases ha
    rw [add_eq (by omega)]
    refine Returns.bind_computes (computes_lift _) (fun a ha => ?_) nofun
    cases ha
    rw [add_eq (by omega)]
    refine Returns.bind_computes (computes_lift _) (fun a ha => ?_) nofun
    cases ha
    rw [← Nat.add_sub_assoc (show 1 ≤ run from hrun)]
    have hbytes : (List.take (min want (room - skip)) (v.file.bytes.drop (v.place c + skip))).length
        = min want (room - skip) := by
      rw [Image.len] at hplace
      rw [List.length_take, List.length_drop]
      omega
    have hsucc : i + (run - 1) + 1 = i + run := by omega
    generalize hgot : List.take (min want (room - skip)) (v.file.bytes.drop (v.place c + skip)) = bytes at *
    by_cases hwhole : want ≤ room - skip
    · -- the last turn
      rw [Nat.min_eq_left hwhole] at hgot hbytes ⊢
      rw [if_pos hwhole, hgot] at hstep
      rw [if_neg (by rw [List.length_append]; omega), hstep, Option.map_some]
      cases noFatChain with
      | true =>
        rw [if_pos rfl, if_neg fun h => absurd h.1 (by decide)]
        exact Returns.of_computes (computes_pure _) (agrees_ok _)
      | false =>
        have hends : v.EndsUnread first false (i * v.geom.clusterSize + skip + want) ↔
            decide (want = room - skip) = true ∧ v.Unreadable (c + run - 1) := by
          rw [← endsUnread_iff hlasti hpos, hsucc, decide_eq_true_iff, hik]
          by_cases hfull : want = room - skip
          · rw [hfull, Nat.add_assoc, Nat.add_sub_of_le (by omega)]
            exact ⟨fun h => ⟨rfl, h⟩, fun h => h.2⟩
          · refine ⟨fun h => absurd h.2.1 ?_, fun h => absurd h.1 hfull⟩
            exact ends_inside hik (by omega) (by omega)
        rw [if_neg Bool.false_ne_true, ← hsucc]
        refine Returns.bind (parkCursor_returns hv (decide (want = room - skip)) hlast hlasti)
          (fun u hu => ?_) fun e he => ?_
        · rw [if_neg fun h => ?_]
          · exact Returns.of_computes (computes_pure _) (agrees_ok _)
          · rw [if_pos (hends.1 h)] at hu
            cases hu
        · cases e with
          | panic => exact he.elim
          | error e =>
            by_cases h : v.EndsUnread first false (i * v.geom.clusterSize + skip + want)
            · rw [if_pos h]
              exact agrees_fail e
            · rw [if_neg fun h' => h (hends.2 h')] at he
              cases he
    · -- more is wanted than the run holds
      rw [Nat.min_eq_right (by omega)] at hgot hbytes
      rw [if_neg hwhole, hgot] at hstep
      rw [if_pos (by rw [List.length_append]; omega), hstep, Option.map_map]
      have hnext := continueAt_returns hv path hlast hlasti
      rw [hsucc] at hnext
      have hleft : len - (out ++ bytes).length = want - (room - skip) := by
        rw [List.length_append]
        omega
      refine Returns.bind hnext (fun next hr => ?_) fun e he => ?_
      · have hnexti : v.clusterOf first noFatChain (i + run) = some next := hr
        have hin' : v.Inside next := clusterOf_inside hv hrun hnexti
        have hagain := @ih next (i + run) 0 (out ++ bytes)
          (inside_lt hv hin') hnexti hpos (by rw [List.length_append]; omega)
          (by rw [hleft]; omega) (by rw [hleft, hik]; omega)
        rw [hleft] at hagain
        refine Returns.mono hagain fun r hr => ?_
        rcases hr with ⟨-, hlone⟩ | ⟨-, hr⟩
        · exact absurd hlone (not_loneStart hv hin' noFatChain _)
        · have hE : (i + run) * v.geom.clusterSize + 0 + (want - (room - skip)) =
              i * v.geom.clusterSize + skip + want := by
            rw [hik]
            omega
          have happ : (fun rest : Bytes => out ++ (bytes ++ rest)) = fun rest => out ++ bytes ++ rest :=
            funext fun rest => (List.append_assoc out bytes rest).symm
          rw [hE] at hr
          rw [Function.comp_def, happ]
          exact hr
      · cases e with
        | panic => exact he.elim
        | error e =>
          have hnone : v.clusterOf first noFatChain (i + run) = none := he
          have hplain : v.plainFrom first noFatChain (i + run) 0 (want - (room - skip)) = none := by
            rw [Volume.plainFrom, if_neg (by omega), plainClusters_none (blocks_pos hpos (by omega))]
            · rfl
            · rw [Nat.add_zero, hnone]
              rfl
          rw [hplain, Option.map_none, ite_self]
          exact agrees_fail e

/-! ## Whole reads -/

/-- A chained read over the end of its first cluster that starts at the last number a cluster can
have, with a slot that leads on. -/
def Volume.LoneRead (v : Volume) (first : Nat) (noFatChain : Bool) (offset len : Nat) : Prop :=
  noFatChain = false ∧ first = 2 ^ 32 - 1 ∧ offset < v.geom.clusterSize ∧
    v.geom.clusterSize < offset + len ∧ ∃ n, v.link first = .ok (.next n)

/-- A read of a stream that ends with a cluster whose slot cannot be read. -/
def Volume.StopsRead (v : Volume) (first : Nat) (noFatChain : Bool) (offset len : Nat) : Prop :=
  0 < len ∧ v.EndsUnread first noFatChain (offset + len)

instance (v : Volume) (first : Nat) (noFatChain : Bool) (offset len : Nat) :
    Decidable (v.StopsRead first noFatChain offset len) :=
  inferInstanceAs (Decidable (_ ∧ _))

/-- Only a read from inside the first cluster starts at the stream's first number. -/
theorem loneRead_iff {offset len : Nat}
    (hi : v.clusterOf first noFatChain (offset / v.geom.clusterSize) = some c) :
    v.LoneRead first noFatChain offset len ↔
      LoneStart v noFatChain c
        ((len + offset % v.geom.clusterSize) ⌈/⌉ v.geom.clusterSize) := by
  have hpos : 0 < v.geom.clusterSize := by have := hv.cluster_ge; omega
  by_cases hfirst : offset < v.geom.clusterSize
  · rw [Nat.div_eq_of_lt hfirst] at hi
    have hblocks : 1 < (len + offset) ⌈/⌉ v.geom.clusterSize ↔ v.geom.clusterSize < offset + len := by
      rw [← not_le, ← not_le, ceilDiv_le_iff_le_mul hpos, Nat.mul_one, Nat.add_comm]
    rw [Volume.LoneRead, LoneStart, Nat.mod_eq_of_lt hfirst, hblocks]
    cases noFatChain with
    | true => exact ⟨fun h => absurd h.1 (by decide), fun h => absurd h.1 (by decide)⟩
    | false =>
      cases hi
      exact ⟨fun ⟨h1, h2, _, h4, h5⟩ => ⟨h1, h2, h4, h5⟩,
        fun ⟨h1, h2, h4, h5⟩ => ⟨h1, h2, hfirst, h4, h5⟩⟩
  · have hdiv : 0 < offset / v.geom.clusterSize := Nat.div_pos (by omega) hpos
    have hin : v.Inside c := by
      rw [← Nat.zero_add (offset / v.geom.clusterSize)] at hi
      exact clusterOf_inside hv hdiv hi
    exact ⟨fun h => absurd h.2.2.1 hfirst, fun h => absurd h (not_loneStart hv hin noFatChain _)⟩

/-- The read of a stream. -/
theorem readStream_returns {first : Nat} (hfirst : first < 2 ^ 32) (noFatChain : Bool) (path : Text)
    {offset len : Nat} (hend : offset + len < 2 ^ 63) :
    Returns v.Keeps (readStream v first noFatChain path offset len) fun r =>
      (r = panic ∧ v.LoneRead first noFatChain offset len) ∨
      (¬v.LoneRead first noFatChain offset len ∧
        Agrees (if v.StopsRead first noFatChain offset len then none
          else v.plainStream first noFatChain offset len) r) := by
  have hpos : 0 < v.geom.clusterSize := by have := hv.cluster_ge; omega
  have hoffset := Nat.div_add_mod offset v.geom.clusterSize
  rw [Nat.mul_comm] at hoffset
  refine Returns.bind (clusterAt_returns hv hfirst noFatChain path _) (fun c hc => ?_) fun e he => ?_
  · have hi : v.clusterOf first noFatChain (offset / v.geom.clusterSize) = some c := hc
    rw [Volume.plainStream, hi, Option.bind_some]
    by_cases hlen : 0 < len
    · have hsum : offset / v.geom.clusterSize * v.geom.clusterSize + offset % v.geom.clusterSize +
          (len - ([] : Bytes).length) = offset + len := by
        rw [hoffset, List.length_nil, Nat.sub_zero]
      have hloop := @readLoop_returns _ hv _ _ path len len _ _ _ [] (clusterOf_lt hv hfirst hi) hi
        (Nat.mod_lt offset hpos) hlen (Nat.le_refl len) (by rw [hsum]; exact hend)
      refine Returns.mono hloop fun r hr => ?_
      rw [hsum, List.length_nil, Nat.sub_zero, ← loneRead_iff hv hi] at hr
      refine hr.imp_right fun ⟨hnot, hr⟩ => ⟨hnot, ?_⟩
      rw [show (fun x : Bytes => [] ++ x) = id from rfl, Option.map_id_fun, id_eq] at hr
      simpa only [Volume.StopsRead, hlen, true_and] using hr
    · have hzero : len = 0 := by omega
      subst hzero
      rw [readLoop, if_pos (Nat.zero_le _), if_neg fun h => hlen h.1, Volume.plainFrom, if_pos rfl]
      refine Returns.of_computes (computes_pure _) (Or.inr ⟨fun h => ?_, agrees_ok _⟩)
      have h3 := h.2.2.1
      have h4 := h.2.2.2.1
      omega
  · cases e with
    | panic => exact he.elim
    | error e =>
      have hi : v.clusterOf first noFatChain (offset / v.geom.clusterSize) = none := he
      refine Or.inr ⟨fun hlone => ?_, ?_⟩
      · rw [hlone.1, Nat.div_eq_of_lt hlone.2.2.1] at hi
        cases hi
      · rw [Volume.plainStream, hi, Option.bind_none, ite_self]
        exact agrees_fail e

/-! ## Files -/

/-- What a walk says of a file it lists. -/
structure ExFatFile.Fits (f : ExFatFile) (v : Volume) : Prop where
  first : f.firstCluster < 2 ^ 32
  valid : f.valid ≤ f.size
  size : f.size ≤ v.geom.clusterCount * v.geom.clusterSize

/-- How many of the bytes asked for come from the clusters. -/
def ExFatFile.written (f : ExFatFile) (offset len : Nat) : Nat :=
  min (min len (f.size - offset)) (f.valid - offset)

/-- A read of a file that ends with a cluster whose slot cannot be read. -/
def Volume.StopsShort (v : Volume) (f : ExFatFile) (offset len : Nat) : Prop :=
  v.StopsRead f.firstCluster f.noFatChain offset (f.written offset len)

instance (v : Volume) (f : ExFatFile) (offset len : Nat) : Decidable (v.StopsShort f offset len) :=
  inferInstanceAs (Decidable (v.StopsRead _ _ _ _))

/-- A read of a file that starts at the last number a cluster can have and leads on. -/
def Volume.LoneFile (v : Volume) (f : ExFatFile) (offset len : Nat) : Prop :=
  v.LoneRead f.firstCluster f.noFatChain offset (f.written offset len)

/-- **The read of a file** is the plain reader's, and the state is left as it should be. -/
theorem readFile_returns {f : ExFatFile} (hf : f.Fits v) (offset len : Nat) :
    Returns v.Keeps (readFile v f offset len) fun r =>
      (r = panic ∧ v.LoneFile f offset len) ∨
      (¬v.LoneFile f offset len ∧
        Agrees (if v.StopsShort f offset len then none else v.plainFile f offset len) r) := by
  have hsize := hf.size
  have hvalid := hf.valid
  have hheap := hv.heap_le
  have hlen := v.file.len_lt
  have none_written : ∀ r : Res Bytes, f.written offset len = 0 →
      Agrees (v.plainFile f offset len) r →
      (r = panic ∧ v.LoneFile f offset len) ∨ (¬v.LoneFile f offset len ∧
        Agrees (if v.StopsShort f offset len then none else v.plainFile f offset len) r) := by
    intro r h0 hr
    refine Or.inr ⟨fun h => ?_, ?_⟩
    · rw [Volume.LoneFile, h0] at h
      have h3 := h.2.2.1
      have h4 := h.2.2.2.1
      omega
    · rwa [if_neg fun h => absurd h.1 (by omega)]
  unfold readFile
  by_cases hoff : f.size ≤ offset
  · rw [if_pos hoff]
    refine Returns.of_computes (computes_pure _) (none_written _ ?_ ?_)
    · rw [ExFatFile.written]
      omega
    · rw [Volume.plainFile, if_pos hoff]
      exact agrees_ok _
  rw [if_neg hoff, sub_eq (by omega)]
  refine Returns.bind_computes (computes_lift _) (fun a ha => ?_) nofun
  cases ha
  by_cases hval : f.valid ≤ offset
  · rw [if_pos hval]
    refine Returns.of_computes (computes_pure _) (none_written _ ?_ ?_)
    · rw [ExFatFile.written]
      omega
    · rw [Volume.plainFile, if_neg hoff, if_pos hval]
      exact agrees_ok _
  rw [if_neg hval, sub_eq (by omega)]
  refine Returns.bind_computes (computes_lift _) (fun a ha => ?_) nofun
  cases ha
  have hread := readStream_returns hv hf.first f.noFatChain f.path
    (show offset + f.written offset len < 2 ^ 63 by rw [ExFatFile.written]; omega)
  refine Returns.bind hread (fun out hr => ?_) fun e he => ?_
  · rcases hr with ⟨hr, -⟩ | ⟨hnot, hr⟩
    · cases hr
    refine Returns.of_computes (computes_pure _) (Or.inr ⟨hnot, ?_⟩)
    by_cases hstop : v.StopsShort f offset len
    · have hstream : v.StopsRead f.firstCluster f.noFatChain offset (f.written offset len) := hstop
      rw [if_pos hstream] at hr
      cases hr
    · have hstream : ¬v.StopsRead f.firstCluster f.noFatChain offset (f.written offset len) := hstop
      rw [if_neg hstream] at hr
      rw [if_neg hstop]
      have hplain : v.plainStream f.firstCluster f.noFatChain offset (f.written offset len) =
        some out := hr
      rw [ExFatFile.written] at hplain
      rw [Volume.plainFile, if_neg hoff, if_neg hval, hplain]
      exact agrees_ok _
  · rcases he with ⟨he, hlone⟩ | ⟨hnot, he⟩
    · cases he
      exact Or.inl ⟨rfl, hlone⟩
    refine Or.inr ⟨hnot, ?_⟩
    cases e with
    | panic => exact he.elim
    | error e =>
      by_cases hstop : v.StopsShort f offset len
      · rw [if_pos hstop]
        exact agrees_fail e
      · have hstream : ¬v.StopsRead f.firstCluster f.noFatChain offset (f.written offset len) := hstop
        rw [if_neg hstream] at he
        rw [if_neg hstop]
        have hplain : v.plainStream f.firstCluster f.noFatChain offset (f.written offset len) =
          none := he
        rw [ExFatFile.written] at hplain
        rw [Volume.plainFile, if_neg hoff, if_neg hval, hplain]
        exact agrees_fail e

end Reads

end Ps5Upload.Exfat
