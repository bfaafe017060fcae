import Ps5Upload.Fpkg.Exfat.Directory

/-!
# exFAT: the walk and the plain walk

The walk with the reader's cursor and cached table is the walk with the plain reader, and none of its
checks fails except where the plain walk comes to a directory record that is *lone*: chained, longer
than a cluster, starting at the last number a cluster can have, in a volume whose slot for that number
leads on.
-/

namespace Ps5Upload.Exfat

open ByteFile Checked Caching Blocks Utf16

/-! ## The plain walk -/

/-- Why the plain walk stops: at something it refuses, or at a lone directory record. -/
inductive Stop where
  | refused
  | lone
  deriving DecidableEq, Repr

/-- A record of `bytes` bytes that is lone. -/
def Volume.Lone (v : Volume) (first : Nat) (noFatChain : Bool) (bytes : Nat) : Prop :=
  noFatChain = false ∧ first = 2 ^ 32 - 1 ∧ v.geom.clusterSize < bytes ∧ (v.follow first).isSome

instance (v : Volume) (first : Nat) (noFatChain : Bool) (bytes : Nat) :
    Decidable (v.Lone first noFatChain bytes) := inferInstanceAs (Decidable (_ ∧ _))

def plainLift {α : Type} : Res α → Except Stop α
  | .ok a => .ok a
  | .error _ => .error .refused

/-- A directory's bytes by the plain reader. -/
def Volume.plainDir (v : Volume) (e : Parsed) : Except Stop Bytes :=
  if maxDirBytes < max e.size v.geom.clusterSize then .error .refused
  else if v.Lone e.firstCluster e.noFatChain (max e.size v.geom.clusterSize) then .error .lone
  else if v.StopsRead e.firstCluster e.noFatChain 0 (max e.size v.geom.clusterSize) then
    .error .refused
  else match v.plainStream e.firstCluster e.noFatChain 0 (max e.size v.geom.clusterSize) with
    | some bytes => .ok bytes
    | none => .error .refused

def plainAccess (v : Volume) : Access (Except Stop) :=
  ⟨plainLift, fun c => plainLift (v.link c), fun e _ => v.plainDir e⟩

/-- The walk by the plain reader. -/
def Volume.plainWalk (v : Volume) : Except Stop (List ExFatFile × List Text) :=
  walkWith v (plainAccess v)

/-! ## Alike outcomes -/

/-- The same value, which satisfies `post`; or an error where the plain side refuses; or a panic
where it comes to a lone record. -/
def Alike {α : Type} (post : α → Prop) : Except Stop α → Res α → Prop
  | .ok b, .ok a => a = b ∧ post a
  | .error .refused, .error (.error _) => True
  | .error .lone, .error .panic => True
  | _, _ => False

section Rules

variable {α β : Type} {v : Volume} {p : α → Prop} {q : β → Prop}

/-- A program of the reader and one of the plain reader with alike outcomes. -/
def Like (v : Volume) (p : α → Prop) (f : Reading α) (x : Except Stop α) : Prop :=
  Returns v.Keeps f (Alike p x)

theorem like_pure {a : α} (h : p a) : Like v p (pure a) (pure a) :=
  Returns.of_computes (computes_pure a) ⟨rfl, h⟩

theorem like_lift {r : Res α} (h : Safe p r) : Like v p (lift r) (plainLift r) := by
  refine returns_lift ?_
  cases r with
  | ok a => exact ⟨rfl, h⟩
  | error e =>
    cases e with
    | error e => exact trivial
    | panic => exact h.elim

theorem like_fail (e : String) : Like v p (lift (fail e)) (plainLift (fail e)) :=
  like_lift (safe_fail e)

theorem Like.bind {f : Reading α} {x : Except Stop α} {g : α → Reading β} {k : α → Except Stop β}
    (h : Like v p f x) (hg : ∀ a, p a → Like v q (g a) (k a)) :
    Like v q (f >>= g) (x >>= k) := by
  refine Returns.bind h (fun a ha => ?_) fun e he => ?_
  · cases x with
    | ok b =>
      obtain ⟨rfl, hp⟩ : a = b ∧ p a := ha
      exact hg a hp
    | error s => cases s <;> exact ha.elim
  · cases x with
    | ok b => cases e <;> exact he.elim
    | error s => cases s <;> cases e <;> first | exact he.elim | exact trivial

theorem like_of_safe {f : Reading α} {r : Res α} (h : Computes v.Keeps f r) (hr : Safe p r) :
    Like v p f (plainLift r) := by
  refine Returns.of_computes h ?_
  cases r with
  | ok a => exact ⟨rfl, hr⟩
  | error e =>
    cases e with
    | error e => exact trivial
    | panic => exact hr.elim

end Rules

/-! ## Records -/

/-- What the records of a directory make of an entry. -/
structure Parsed.Fits (e : Parsed) : Prop where
  first : e.firstCluster < 2 ^ 32
  valid : e.valid ≤ e.size
  size : e.size < 2 ^ 64
  name : e.name.length ≤ 255

structure Pending.Fits (p : Pending) : Prop where
  nameLen : p.nameLen ≤ 255
  name : p.name.length ≤ 255
  first : p.firstCluster < 2 ^ 32
  valid : p.valid ≤ p.size
  size : p.size < 2 ^ 64

theorem finish_safe (dir : Text) {p : Pending} (hp : p.Fits) :
    Safe (fun es => es.length ≤ 1 ∧ ∀ e ∈ es, e.Fits) (finish dir p) := by
  unfold finish
  split
  · exact safe_fail _
  split
  · exact safe_fail _
  cases h : fromUtf16 p.name with
  | none => exact safe_fail _
  | some name =>
    dsimp only
    split
    · exact ⟨Nat.zero_le _, nofun⟩
    · refine ⟨Nat.le_refl 1, fun e he => ?_⟩
      rw [List.mem_singleton] at he
      subst he
      exact ⟨hp.first, hp.valid, hp.size, Nat.le_trans (length_fromUtf16 h) hp.name⟩

/-- **Records of any bytes** are entries in bounds or an error. -/
theorem parseRecords_safe (dir : Text) {chunks : List Bytes} (hlen : ∀ c ∈ chunks, c.length = 32)
    {pending : Option Pending} {out : List Parsed} (hp : ∀ p ∈ pending, p.Fits)
    (hout : ∀ e ∈ out, e.Fits) :
    Safe (fun es => es.length ≤ out.length + chunks.length ∧ ∀ e ∈ es, e.Fits)
      (parseRecords dir chunks pending out) := by
  induction chunks generalizing pending out with
  | nil => exact ⟨Nat.le_refl _, hout⟩
  | cons chunk rest ih =>
    have h32 := hlen chunk List.mem_cons_self
    have hrest : ∀ c ∈ rest, c.length = 32 := fun c hc => hlen c (List.mem_cons_of_mem _ hc)
    have again : ∀ {pending : Option Pending} {out' : List Parsed}, (∀ p ∈ pending, p.Fits) →
        (∀ e ∈ out', e.Fits) → out'.length ≤ out.length + 1 →
        Safe (fun es => es.length ≤ out.length + (chunk :: rest).length ∧ ∀ e ∈ es, e.Fits)
          (parseRecords dir rest pending out') := by
      refine fun hp' ho' hl => Safe.mono (ih hrest hp' ho') fun es hes => ⟨?_, hes.2⟩
      have := hes.1
      rw [List.length_cons]
      omega
    have h1 : ∀ off w, off + w ≤ 32 → Safe (fun n => n < 256 ^ w) (field chunk off w : Res Nat) :=
      fun off w h => by
        rw [field_eq (by omega)]
        exact leAt_lt chunk off w
    rw [parseRecords]
    refine Safe.bind (h1 0 1 (by omega)) fun ty _ => ?_
    split
    · exact ⟨Nat.le_add_right _ _, hout⟩
    split
    · exact again hp hout (Nat.le_succ _)
    split
    · refine Safe.bind (h1 4 2 (by omega)) fun attr _ => ?_
      refine again (fun p hp' => ?_) hout (Nat.le_succ _)
      cases hp'
      exact ⟨Nat.zero_le _, Nat.zero_le _, Nat.two_pow_pos 32, Nat.le_refl _, Nat.two_pow_pos 64⟩
    cases pending with
    | none => exact again nofun hout (Nat.le_succ _)
    | some p =>
      have hfits := hp p rfl
      dsimp only
      split
      · refine Safe.bind (h1 8 8 (by omega)) fun valid _ => ?_
        refine Safe.bind (h1 24 8 (by omega)) fun data hdata => ?_
        refine Safe.bind (h1 3 1 (by omega)) fun nameLen hname => ?_
        refine Safe.bind (h1 1 1 (by omega)) fun flags _ => ?_
        refine Safe.bind (h1 20 4 (by omega)) fun first hfirst => ?_
        refine again (fun p' hp' => ?_) hout (Nat.le_succ _)
        cases hp'
        refine ⟨by dsimp only; omega, hfits.name, by dsimp only; omega, ?_, by dsimp only; omega⟩
        dsimp only
        split
        · exact Nat.le_refl _
        · exact Nat.min_le_right _ _
      split
      · refine Safe.bind (safe_slice (by omega) (by omega)) fun body _ => ?_
        have hname : (p.name ++ ((Blocks.chunks 2 body).map fromLe).take
            (p.nameLen - p.name.length)).length ≤ 255 := by
          have h1 := hfits.nameLen
          have h2 := hfits.name
          rw [List.length_append, List.length_take]
          omega
        have hp'' := fun name (h : name.length ≤ 255) =>
          (⟨hfits.nameLen, h, hfits.first, hfits.valid, hfits.size⟩ :
            Pending.Fits { p with name := name })
        split
        · refine Safe.bind (finish_safe dir (hp'' _ hname)) fun done hdone => ?_
          refine again nofun (fun e he => ?_) ?_
          · rcases List.mem_append.1 he with he | he
            · exact hout e he
            · exact hdone.2 e he
          · have := hdone.1
            rw [List.length_append]
            omega
        · refine again (fun p' hp' => ?_) hout (Nat.le_succ _)
          cases hp'
          exact hp'' _ hname
      · exact again hp hout (Nat.le_succ _)

theorem parseDir_safe (bytes : Bytes) (dir : Text) :
    Safe (fun es => es.length ≤ bytes.length / 32 ∧ ∀ e ∈ es, e.Fits) (parseDir bytes dir) := by
  have h := @parseRecords_safe dir (chunks 32 bytes) (fun c hc => length_of_mem_chunks hc) none [] nofun
    nofun
  rw [length_chunks, List.length_nil, Nat.zero_add] at h
  exact h

/-! ## Streams -/

section Likeness

variable {v : Volume} (hv : v.Sound)
include hv

theorem link_safe (c : Nat) : Safe (fun l => ∀ n, l = .next n → v.Inside n) (v.link c) := by
  rcases link_cases hv c with ⟨l, hl, hin⟩ | ⟨e, he⟩
  · rw [hl]
    exact hin
  · rw [he]
    exact safe_fail e

theorem readCluster_safe (c : Nat) :
    Safe (fun bytes => bytes.length = v.geom.clusterSize ∧ v.Inside c) (readCluster v c) := by
  unfold readCluster
  rcases clusterOffset_eq hv c with ⟨hin, hok⟩ | ⟨-, e, he⟩
  · rw [hok, ok_bind]
    exact Safe.mono (safe_readAt v.file _ _) fun bytes h => ⟨h.1, hin⟩
  · rw [he]
    exact safe_fail e

theorem nextContiguous_safe {c : Nat} (hc : v.Inside c) :
    Safe (fun n => v.Inside n) (nextContiguous v c) := by
  have hcount := hv.count_lt
  have hlt := hc.2
  unfold nextContiguous
  rw [add_eq (by omega), ok_bind]
  rcases checkCluster_eq hv (c + 1) with ⟨hin, hok⟩ | ⟨-, e, he⟩
  · rw [hok]
    exact hin
  · rw [he]
    exact safe_fail e

/-- The root's stream ends: every turn reads a cluster, and no directory has 64 MiB. -/
theorem chainStream_like (turns : Nat) {c : Nat} {out : Bytes} (hc : c < 2 ^ 32)
    (hout : out.length < maxDirBytes)
    (hturns : maxDirBytes ≤ out.length + turns * v.geom.clusterSize) :
    Like v (fun bytes => bytes.length ≤ maxDirBytes) (chainStream v (readerAccess v) turns c out)
      (chainStream v (plainAccess v) turns c out) := by
  induction turns generalizing c out with
  | zero => omega
  | succ turns ih =>
    rw [Nat.succ_mul] at hturns
    refine Like.bind (like_lift (readCluster_safe hv c)) fun bytes ⟨hbytes, hin⟩ => ?_
    have hlen : (out ++ bytes).length = out.length + v.geom.clusterSize := by
      rw [List.length_append, hbytes]
    by_cases hbig : maxDirBytes ≤ (out ++ bytes).length
    · rw [if_pos hbig, if_pos hbig]
      exact like_fail _
    rw [if_neg hbig, if_neg hbig]
    have hle : (out ++ bytes).length ≤ maxDirBytes := by omega
    refine Like.bind (like_of_safe (fatLink_computes hv hc) (link_safe hv c)) fun l hl => ?_
    cases l with
    | next n => exact ih (inside_lt hv (hl n rfl)) (by omega) (by omega)
    | endOfChain => exact like_pure hle
    | unmaintained =>
      dsimp only
      by_cases hend : hasTerminator bytes = true
      · rw [if_pos hend, if_pos hend]
        exact like_pure hle
      · rw [if_neg hend, if_neg hend]
        refine Like.bind (like_lift (nextContiguous_safe hv hin)) fun n hn => ?_
        exact ih (inside_lt hv hn) (by omega) (by omega)

omit hv in
theorem follow_isSome {c : Nat} : (v.follow c).isSome ↔ ∃ n, v.link c = .ok (.next n) := by
  unfold Volume.follow
  cases v.link c with
  | error e => exact ⟨nofun, nofun⟩
  | ok l =>
    cases l with
    | next n => exact ⟨fun _ => ⟨n, rfl⟩, fun _ => rfl⟩
    | endOfChain => exact ⟨nofun, nofun⟩
    | unmaintained => exact ⟨nofun, nofun⟩

theorem loneRead_zero {first len : Nat} {noFatChain : Bool} :
    v.LoneRead first noFatChain 0 len ↔ v.Lone first noFatChain len := by
  have hpos := hv.cluster_ge
  rw [Volume.LoneRead, Volume.Lone, follow_isSome, Nat.zero_add]
  constructor
  · rintro ⟨h1, h2, -, h4, h5⟩
    exact ⟨h1, h2, h4, h5⟩
  · rintro ⟨h1, h2, h4, h5⟩
    exact ⟨h1, h2, by omega, h4, h5⟩

omit hv in
theorem length_plainStream {first offset len : Nat} {noFatChain : Bool} {bytes : Bytes}
    (h : v.plainStream first noFatChain offset len = some bytes) : bytes.length ≤ len := by
  rw [Volume.plainStream, Option.bind_eq_some_iff] at h
  obtain ⟨-, -, h⟩ := h
  rw [Volume.plainFrom, Option.map_eq_some_iff] at h
  obtain ⟨all, -, rfl⟩ := h
  rw [List.length_take]
  exact Nat.min_le_left _ _

/-- A directory's stream is the plain reader's. -/
theorem readDirStream_like {e : Parsed} (he : e.Fits) (path : Text) :
    Like v (fun bytes => bytes.length ≤ maxDirBytes) (readDirStream v e path) (v.plainDir e) := by
  unfold readDirStream Volume.plainDir
  by_cases hbig : maxDirBytes < max e.size v.geom.clusterSize
  · rw [if_pos hbig, if_pos hbig]
    exact like_fail _
  rw [if_neg hbig, if_neg hbig]
  have hmax : maxDirBytes < 2 ^ 63 := by decide
  generalize max e.size v.geom.clusterSize = len at hbig ⊢
  have hread := @readStream_returns _ hv _ he.first e.noFatChain path 0 len (by omega)
  rw [loneRead_zero hv] at hread
  refine Returns.mono hread fun r hr => ?_
  rcases hr with ⟨rfl, hlone⟩ | ⟨hnot, hr⟩
  · rw [if_pos hlone]
    exact trivial
  rw [if_neg hnot]
  split
  · rename_i hstop
    rw [if_pos hstop] at hr
    cases r with
    | ok a => cases hr
    | error f =>
      cases f with
      | error e => exact trivial
      | panic => exact hr.elim
  · rename_i hstop
    rw [if_neg hstop] at hr
    cases hplain : v.plainStream e.firstCluster e.noFatChain 0 len with
    | some bytes =>
      have hlen := length_plainStream hplain
      rw [hplain] at hr
      cases r with
      | ok a =>
        cases hr
        exact ⟨rfl, by omega⟩
      | error f =>
        cases f with
        | error e => cases hr
        | panic => exact hr.elim
    | none =>
      rw [hplain] at hr
      cases r with
      | ok a => cases hr
      | error f =>
        cases f with
        | error e => exact trivial
        | panic => exact hr.elim

/-! ## Directories -/

omit hv in
theorem utf8Len_le (t : Text) : utf8Len t ≤ 4 * t.length := by
  induction t with
  | nil => exact Nat.le_refl 0
  | cons c t ih =>
    have hc := Char.utf8Size_le_four c
    rw [utf8Len, List.map_cons, List.sum_cons, List.length_cons]
    rw [utf8Len] at ih
    omega

/-- What a walk has collected keeps its budgets, and its files are in bounds. -/
structure Walked.Within (w : Walked) (v : Volume) : Prop where
  pathBytes : w.pathBytes ≤ maxPathBytes
  listed : w.listed ≤ maxEntries
  files : ∀ f ∈ w.files, f.Fits v

omit hv in
theorem keep_safe {w : Walked} (hw : w.Within v) {path : Text} (hpath : path.length ≤ 2 ^ 20) :
    Safe (fun w' => w'.Within v) (w.keep path) := by
  have hbytes := utf8Len_le path
  have hmax : maxPathBytes < 2 ^ 63 := by decide
  have hle := hw.pathBytes
  unfold Walked.keep
  rw [add_eq (by omega), ok_bind]
  split
  · exact safe_fail _
  · exact ⟨by dsimp only; omega, hw.listed, hw.files⟩

/-- The entries of a directory, walked alike where the directories among them are. -/
theorem walkEntries_like {inner : Bytes → Text → Walked → Reading (Bool × Walked)}
    {inner' : Bytes → Text → Walked → Except Stop (Bool × Walked)} {under : Text} {a : Nat}
    (hunder : under.length ≤ a) (ha : a + 256 ≤ 2 ^ 20)
    (hinner : ∀ bytes path w, bytes.length ≤ maxDirBytes → path.length ≤ a + 256 → w.Within v →
      Like v (fun q => q.2.Within v) (inner bytes path w) (inner' bytes path w))
    {es : List Parsed} (hes : ∀ e ∈ es, e.Fits) (kept : Bool) {w : Walked} (hw : w.Within v) :
    Like v (fun q => q.2.Within v) (walkEntries v (readerAccess v) inner under es kept w)
      (walkEntries v (plainAccess v) inner' under es kept w) := by
  induction es generalizing kept w with
  | nil => exact like_pure hw
  | cons e es ih =>
    have he := hes e List.mem_cons_self
    have hrest := fun kept {w : Walked} (hw : w.Within v) =>
      ih (fun e' he' => hes e' (List.mem_cons_of_mem _ he')) kept hw
    have hname := he.name
    have hpath : (under ++ e.name).length ≤ a + 255 := by
      rw [List.length_append]
      omega
    rw [walkEntries, walkEntries]
    dsimp only
    by_cases hdir : e.isDir = true
    · rw [if_pos hdir, if_pos hdir]
      by_cases hseen : e.firstCluster ∈ w.dirs
      · rw [if_pos hseen, if_pos hseen]
        exact like_fail _
      rw [if_neg hseen, if_neg hseen]
      refine Like.bind (readDirStream_like hv he _) fun bytes hbytes => ?_
      have hw' : Walked.Within { w with dirs := e.firstCluster :: w.dirs } v :=
        ⟨hw.pathBytes, hw.listed, hw.files⟩
      refine Like.bind (hinner bytes _ _ hbytes (by rw [List.length_append]; exact Nat.succ_le_succ hpath) hw')
        fun ⟨kept, w⟩ hw => ?_
      dsimp only
      by_cases hkept : kept = true
      · rw [if_pos hkept, if_pos hkept]
        exact hrest true hw
      · rw [if_neg hkept, if_neg hkept]
        refine Like.bind (like_lift (keep_safe hw (by omega))) fun w hw => ?_
        exact hrest true ⟨hw.pathBytes, hw.listed, hw.files⟩
    · rw [if_neg hdir, if_neg hdir]
      have hheap := hv.heap_le
      have hlen := v.file.len_lt
      refine Like.bind (like_lift (safe_mul (by omega))) fun heap hheap' => ?_
      subst hheap'
      by_cases hbig : v.geom.clusterCount * v.geom.clusterSize < e.size
      · rw [if_pos hbig, if_pos hbig]
        exact like_fail _
      rw [if_neg hbig, if_neg hbig]
      refine Like.bind (like_lift (keep_safe hw (by omega))) fun w hw => ?_
      refine hrest true ⟨hw.pathBytes, hw.listed, fun f hf => ?_⟩
      rcases List.mem_append.1 hf with hf | hf
      · exact hw.files f hf
      · rw [List.mem_singleton] at hf
        subst hf
        exact ⟨he.first, he.valid, Nat.le_of_not_lt hbig⟩

/-- A directory and everything under it. -/
theorem walkDir_like (levels : Nat) (hlevels : levels ≤ maxDepth + 1) {bytes : Bytes}
    (hbytes : bytes.length ≤ maxDirBytes) {under : Text}
    (hunder : under.length ≤ (maxDepth + 1 - levels) * 256) {w : Walked} (hw : w.Within v) :
    Like v (fun q => q.2.Within v) (walkDir v (readerAccess v) levels bytes under w)
      (walkDir v (plainAccess v) levels bytes under w) := by
  induction levels generalizing bytes under w with
  | zero => exact like_fail _
  | succ levels ih =>
    have hdir : maxDirBytes < 2 ^ 62 := by decide
    have hmax : maxEntries < 2 ^ 62 := by decide
    have hdepth : maxDepth = 32 := rfl
    refine Like.bind (like_lift (parseDir_safe bytes under)) fun entries ⟨hcount, hfits⟩ => ?_
    have hlisted := hw.listed
    refine Like.bind (like_lift (safe_add (by omega))) fun listed hl => ?_
    subst hl
    by_cases hbig : maxEntries < w.listed + entries.length
    · rw [if_pos hbig, if_pos hbig]
      exact like_fail _
    rw [if_neg hbig, if_neg hbig]
    obtain ⟨a, ha⟩ : ∃ a, a = (maxDepth + 1 - (levels + 1)) * 256 := ⟨_, rfl⟩
    rw [← ha] at hunder
    refine walkEntries_like hv hunder (by omega) (fun bytes path w hb hp hw => ?_) hfits false
      ⟨hw.pathBytes, by dsimp only; omega, hw.files⟩
    exact ih (by omega) hb (by omega) hw

/-- **The walk is the plain walk**: the same files and directories, or an error on both sides, or a
panic where the plain walk comes to a lone record.  Every file listed is in bounds. -/
theorem walkTree_like : Like v (fun q => ∀ f ∈ q.1, f.Fits v) (walkTree v) v.plainWalk := by
  have hpos : 0 < v.geom.clusterSize := by have := hv.cluster_ge; omega
  have hroot := hv.root_lt
  have hcount := hv.count_lt
  have hturns := Nat.lt_div_mul_add hpos (a := maxDirBytes)
  have hlong : ([] : Bytes).length < maxDirBytes := by decide
  have hstream := chainStream_like hv (maxDirBytes / v.geom.clusterSize + 1)
    (by omega : v.rootCluster < 2 ^ 32) hlong (by rw [List.length_nil, Nat.succ_mul]; omega)
  unfold walkTree Volume.plainWalk walkWith
  refine Like.bind hstream fun bytes hbytes => ?_
  refine Like.bind (walkDir_like hv (maxDepth + 1) (Nat.le_refl _) hbytes (Nat.zero_le _)
    ⟨Nat.zero_le _, Nat.zero_le _, nofun⟩) fun ⟨_, w⟩ hw => ?_
  exact like_pure fun f hf => hw.files f (List.mem_mergeSort.1 hf)

end Likeness

end Ps5Upload.Exfat
