import Mathlib.Data.List.DropRight
import Ps5Upload.Engine.ImageBuild.Hashing

/-!
# Image builds: the read-back check

`verify` of `ps5upload-engine/src/image_build.rs`: the image that was written is read back and compared with what the
source's reads left, all of it or a sample.

* `verify_fast_iff` — **a fast check passes** exactly where the listing and every sample of the plan agree;
* `read_back_iff` — **a build's full check passes for a faithful image**, and for no other that lists no path twice.
-/

namespace Ps5Upload.ImageBuild

open ByteFile Slices Sampling

/-! ## The check -/

/-- `trim_matches('/')`. -/
def trimSlashes (d : Text) : Text := (d.dropWhile (· = '/')).rdropWhile (· = '/')

def sortedDirs (dirs : List Text) : List Text := (dirs.map trimSlashes).insertionSort fun a b => a ≤ b

/-- Every file that the image lists is one of the folder's, at its size. -/
def checkListed (wantSizes : List File) : List File → Except Refusal Unit
  | [] => .ok ()
  | f :: got =>
    ((wantSizes.find? fun g => g.1 = f.1).map Prod.snd).elim (.error (.notInFolder f.1)) fun size =>
      if size = f.2 then checkListed wantSizes got else .error (.size f.1 f.2 size)

/-- The slices to read: every one, or the ones that the plan names. -/
def slicesOf (got : List File) : VerifyMode → List (Nat × Nat)
  | .full => (List.range got.length).flatMap fun i => (List.range (sizeAt got i ⌈/⌉ sliceSize)).map fun s => (i, s)
  | .fast seed seam => (plan got seed seam).flatMap fun s =>
      s.slice.elim ((List.range (sizeAt got s.fileIdx ⌈/⌉ sliceSize)).map fun k => (s.fileIdx, k)) fun n => [(s.fileIdx, n)]

/-- One more slice: it goes on with the last run, or begins one. -/
def pushRun (runs : List (Nat × Nat × Nat)) (q : Nat × Nat) : List (Nat × Nat × Nat) :=
  runs.getLast?.elim [(q.1, q.2, q.2 + 1)] fun last =>
    if last.1 = q.1 ∧ last.2.2 = q.2 then runs.dropLast ++ [(last.1, last.2.1, last.2.2 + 1)]
    else runs ++ [(q.1, q.2, q.2 + 1)]

/-- Runs of consecutive slices of one file: the file, the first slice, and the one after the last. -/
def runsOf (slices : List (Nat × Nat)) : List (Nat × Nat × Nat) := slices.foldl pushRun []

structure Verified where
  summary : VerifySummary
  progress : List (Nat × Nat)
  deriving DecidableEq, Repr

section

variable {Hash : Type} [DecidableEq Hash] (blake3 : Bytes → Hash)

/-- One slice compared; what has been done, and the reports of it. -/
def checkSlice (want : Text → Option (List Hash)) (total : Nat) (f : File) (st : Nat × List (Nat × Nat)) (s : Nat)
    (h : Hash) : Except Refusal (Nat × List (Nat × Nat)) :=
  if (want f.1).bind (fun w => w[s]?) = some h then
    .ok (st.1 + sliceLen f.2 s, st.2 ++ [(st.1 + sliceLen f.2 s, total)])
  else .error (.differs f.1
    (if sliceSize < f.2 then some (s * sliceSize, s * sliceSize + sliceLen f.2 s) else none))

def fileAt (files : List File) (i : Nat) : File := (pathAt files i, sizeAt files i)

def checkRuns (image : SourceTree) (want : Text → Option (List Hash)) (got : List File) (chunk total : Nat) :
    List (Nat × Nat × Nat) → Nat → Nat × List (Nat × Nat) → Except Refusal ((Nat × List (Nat × Nat)) × Nat)
  | [], turn, st => .ok (st, turn)
  | r :: runs, turn, st =>
    (hashSlices blake3 image (pathAt got r.1) chunk (checkSlice want total (fileAt got r.1)) (sizeAt got r.1) r.2.1 r.2.2
      turn st).bind fun q => checkRuns image want got chunk total runs q.2 q.1

def verify (image : SourceTree) (got : List File) (gotEmpty : List Text) (want : Text → Option (List Hash))
    (wantSizes : List File) (wantEmpty : List Text) (mode : VerifyMode) (chunk turn : Nat) : Except Refusal Verified :=
  if got.length ≠ wantSizes.length then .error (.count got.length wantSizes.length)
  else if sortedDirs gotEmpty ≠ sortedDirs wantEmpty then
    .error (.emptyFolders (sortedDirs gotEmpty) (sortedDirs wantEmpty))
  else
    (checkListed wantSizes got).bind fun _ =>
      let total := (summary got mode).checkedBytes
      (checkRuns blake3 image want got chunk total (runsOf (slicesOf got mode)) turn (0, [(0, total)])).map fun q =>
        ⟨summary got mode, q.1.2⟩

end

/-! ## Runs -/

def expand (runs : List (Nat × Nat × Nat)) : List (Nat × Nat) :=
  runs.flatMap fun r => (List.range' r.2.1 (r.2.2 - r.2.1)).map fun s => (r.1, s)

theorem expand_pushRun {runs : List (Nat × Nat × Nat)} (h : ∀ r ∈ runs, r.2.1 < r.2.2) (q : Nat × Nat) :
    expand (pushRun runs q) = expand runs ++ [q] ∧ ∀ r ∈ pushRun runs q, r.2.1 < r.2.2 := by
  have hfresh : expand [(q.1, q.2, q.2 + 1)] = [q] := by
    rw [expand, List.flatMap_singleton, Nat.add_sub_cancel_left]
    rfl
  rcases List.eq_nil_or_concat runs with rfl | ⟨front, last, rfl⟩
  · refine ⟨hfresh, fun r hr => ?_⟩
    rw [List.mem_singleton.1 hr]
    exact Nat.lt_succ_self _
  · rw [List.concat_eq_append] at h ⊢
    rw [pushRun, List.getLast?_concat, Option.elim_some]
    have hlast := h last (List.mem_append_right _ (List.mem_singleton_self _))
    split
    · rename_i hon
      rw [List.dropLast_concat]
      refine ⟨?_, fun r hr => ?_⟩
      · rw [expand, expand, List.flatMap_append, List.flatMap_append, List.append_assoc, List.flatMap_singleton,
          List.flatMap_singleton, Nat.succ_sub (Nat.le_of_lt hlast), List.range'_1_concat, List.map_append,
          Nat.add_sub_cancel' (Nat.le_of_lt hlast), hon.1, hon.2]
        rfl
      · rcases List.mem_append.1 hr with hr | hr
        · exact h r (List.mem_append_left _ hr)
        · rw [List.mem_singleton.1 hr]
          exact Nat.lt_succ_of_lt hlast
    · refine ⟨?_, fun r hr => ?_⟩
      · rw [← hfresh, expand, expand, expand, List.flatMap_append]
      · rcases List.mem_append.1 hr with hr | hr
        · exact h r hr
        · rw [List.mem_singleton.1 hr]
          exact Nat.lt_succ_self _

/-- **Runs**: they hold the slices, in order. -/
theorem expand_runsOf (slices : List (Nat × Nat)) :
    expand (runsOf slices) = slices ∧ ∀ r ∈ runsOf slices, r.2.1 < r.2.2 := by
  induction slices using List.reverseRecOn with
  | nil => exact ⟨rfl, (nofun)⟩
  | append_singleton slices q ih =>
    rw [runsOf, List.foldl_append, List.foldl_cons, List.foldl_nil]
    obtain ⟨hexpand, hlt⟩ := expand_pushRun ih.2 q
    exact ⟨hexpand.trans (congrArg (· ++ [q]) ih.1), hlt⟩

/-! ## The listing -/

theorem sortedDirs_eq_iff {a b : List Text} :
    sortedDirs a = sortedDirs b ↔ (a.map trimSlashes).Perm (b.map trimSlashes) := by
  constructor
  · intro h
    have ha := List.perm_insertionSort (fun x y : Text => x ≤ y) (a.map trimSlashes)
    have hb := List.perm_insertionSort (fun x y : Text => x ≤ y) (b.map trimSlashes)
    rw [sortedDirs, sortedDirs] at h
    rw [h] at ha
    exact ha.symm.trans hb
  · intro h
    refine List.Perm.eq_of_pairwise (fun x y _ _ hxy hyx => le_antisymm hxy hyx) (List.pairwise_insertionSort _ _)
      (List.pairwise_insertionSort _ _) ?_
    exact (List.perm_insertionSort _ _).trans (h.trans (List.perm_insertionSort _ _).symm)

section

variable {src img : Text → Option Bytes} {files got : List File}

theorem checkListed_iff (hl : Listing files src) (got : List File) :
    (∃ u, checkListed files got = .ok u) ↔ ∀ f ∈ got, f ∈ files := by
  induction got with
  | nil => exact iff_of_true ⟨(), rfl⟩ (nofun)
  | cons f got ih =>
    have hmem : f ∈ files ↔ (src f.1).map List.length = some f.2 := hl.mem f.1 f.2
    rw [checkListed, hl.find, List.forall_mem_cons, hmem, ← ih]
    cases (src f.1).map List.length with
    | none => exact iff_of_false (fun h => by obtain ⟨u, hu⟩ := h; cases hu) (fun h => by cases h.1)
    | some size =>
      rw [Option.elim_some, Option.some.injEq]
      by_cases hsize : size = f.2
      · rw [if_pos hsize, and_iff_right hsize]
      · rw [if_neg hsize]
        exact iff_of_false (fun h => by obtain ⟨u, hu⟩ := h; cases hu) fun h => hsize h.1

/-! ## The slices -/

/-- A tree that lists these files, and maybe one of them twice. -/
def Lists (files : List File) (img : Text → Option Bytes) : Prop :=
  ∀ f ∈ files, (img f.1).map List.length = some f.2

/-- The bytes of the file at a place of a listing. -/
def bytesAt (files : List File) (img : Text → Option Bytes) (i : Nat) : Bytes := (img (pathAt files i)).getD []

theorem fileAt_eq {i : Nat} (hi : i < files.length) : fileAt files i = files[i] := by
  rw [fileAt, pathAt, sizeAt, List.getElem?_eq_getElem hi]
  rfl

theorem fileAt_mem {i : Nat} (hi : i < files.length) : fileAt files i ∈ files := by
  rw [fileAt_eq hi]
  exact List.getElem_mem hi

theorem Lists.at {i : Nat} (h : Lists files img) (hi : i < files.length) :
    img (pathAt files i) = some (bytesAt files img i) ∧ (bytesAt files img i).length = sizeAt files i := by
  obtain ⟨bytes, himg, hlen⟩ := Option.map_eq_some_iff.1 (h _ (fileAt_mem hi))
  have himg : img (pathAt files i) = some bytes := himg
  rw [bytesAt, himg]
  exact ⟨rfl, hlen⟩

theorem Listing.lists (hl : Listing files src) (h : ∀ f ∈ got, f ∈ files) : Lists got src :=
  fun f hf => (hl.mem f.1 f.2).1 (h f hf)

/-- Bytes compared place by place, or file by file. -/
theorem bytesAt_eq_iff (hfiles : Lists got src) (hlists : Lists got img) :
    (∀ i < got.length, bytesAt got img i = bytesAt got src i) ↔ ∀ f ∈ got, img f.1 = src f.1 := by
  have hat : ∀ i < got.length, bytesAt got img i = bytesAt got src i ↔ img (fileAt got i).1 = src (fileAt got i).1 := by
    intro i hi
    rw [fileAt, (hlists.at hi).1, (hfiles.at hi).1, Option.some.injEq]
  constructor
  · intro h f hf
    obtain ⟨i, hi, rfl⟩ := List.getElem_of_mem hf
    rw [← fileAt_eq hi]
    exact (hat i hi).1 (h i hi)
  · exact fun h i hi => (hat i hi).2 (h _ (fileAt_mem hi))

/-- Files of one size are the same where their slices are. -/
theorem slices_eq_iff (hfiles : Lists got src) (hlists : Lists got img) {i : Nat} (hi : i < got.length) :
    (∀ s < sizeAt got i ⌈/⌉ sliceSize,
      slice sliceSize (bytesAt got img i) s = slice sliceSize (bytesAt got src i) s) ↔
      bytesAt got img i = bytesAt got src i := by
  have hsrc := (hfiles.at hi).2
  have himg := (hlists.at hi).2
  refine ⟨fun h => eq_of_slice_eq sliceSize_pos (himg.trans hsrc.symm) fun s hs => h s (himg ▸ hs), fun h s _ => by rw [h]⟩

/-- The slices of a check are there. -/
theorem mem_slicesOf {mode : VerifyMode} {q : Nat × Nat} (h : q ∈ slicesOf got mode) :
    q.1 < got.length ∧ q.2 < sizeAt got q.1 ⌈/⌉ sliceSize := by
  cases mode with
  | full =>
    rw [slicesOf, List.mem_flatMap] at h
    obtain ⟨i, hi, hq⟩ := h
    obtain ⟨s, hs, rfl⟩ := List.mem_map.1 hq
    exact ⟨List.mem_range.1 hi, List.mem_range.1 hs⟩
  | fast seed seam =>
    rw [slicesOf, List.mem_flatMap] at h
    obtain ⟨⟨i, slice⟩, hs, hq⟩ := h
    obtain ⟨hi, hheld⟩ := (plan_planned got seed seam).1.held _ hs
    cases slice with
    | none =>
      rw [Option.elim_none] at hq
      obtain ⟨k, hk, rfl⟩ := List.mem_map.1 hq
      exact ⟨hi, List.mem_range.1 hk⟩
    | some n =>
      rw [Option.elim_some] at hq
      rw [List.mem_singleton.1 hq]
      exact ⟨hi, slice_of_everything hheld⟩

end

section

variable {Hash : Type} [DecidableEq Hash] {blake3 : Bytes → Hash} {image : SourceTree} {src img : Text → Option Bytes}
  {want : Text → Option (List Hash)} {files got : List File} {gotEmpty wantEmpty : List Text} {mode : VerifyMode}
  {chunk : Nat}

/-- What is done with one slice of the image. -/
def sliceDone (blake3 : Bytes → Hash) (want : Text → Option (List Hash)) (total : Nat) (got : List File)
    (img : Text → Option Bytes) (st : Nat × List (Nat × Nat)) (q : Nat × Nat) : Except Refusal (Nat × List (Nat × Nat)) :=
  checkSlice want total (fileAt got q.1) st q.2 (blake3 (slice sliceSize (bytesAt got img q.1) q.2))

/-- **The runs**: reading them is comparing their slices, one after the other. -/
theorem checkRuns_eq (blake3 : Bytes → Hash) (want : Text → Option (List Hash)) (hlists : Lists got img) (hserves : image.Serves img) (hchunk : 0 < chunk) (total : Nat) :
    ∀ {runs : List (Nat × Nat × Nat)}, (∀ r ∈ runs, r.2.1 < r.2.2) →
      (∀ q ∈ expand runs, q.1 < got.length ∧ q.2 < sizeAt got q.1 ⌈/⌉ sliceSize) → ∀ (turn : Nat) (st : Nat × List (Nat × Nat)),
        ∃ turn', checkRuns blake3 image want got chunk total runs turn st =
          ((expand runs).foldlM (sliceDone blake3 want total got img) st).map (·, turn')
  | [], _, _, turn, st => ⟨turn, rfl⟩
  | r :: runs, hlt, hin, turn, st => by
    have hr := hlt r List.mem_cons_self
    have hcons : expand (r :: runs) = (List.range' r.2.1 (r.2.2 - r.2.1)).map (fun s => (r.1, s)) ++ expand runs :=
      List.flatMap_cons
    have hlast : (r.1, r.2.2 - 1) ∈ expand (r :: runs) := by
      rw [hcons]
      refine List.mem_append_left _ (List.mem_map_of_mem (List.mem_range'_1.2 ?_))
      omega
    obtain ⟨hi, hstop⟩ : r.1 < got.length ∧ r.2.2 - 1 < sizeAt got r.1 ⌈/⌉ sliceSize := hin _ hlast
    obtain ⟨himg, hlen⟩ := hlists.at hi
    obtain ⟨turn₁, hslices⟩ := hashSlices_eq blake3 (checkSlice want total (fileAt got r.1))
      hserves himg hchunk (Nat.le_of_lt hr) (by rw [hlen]; omega) turn st
    rw [hlen] at hslices
    rw [checkRuns, hslices, hcons, List.foldlM_append, List.foldlM_map]
    change ∃ turn', ((((List.range' r.2.1 (r.2.2 - r.2.1)).foldlM (fun st s =>
      sliceDone blake3 want total got img st (r.1, s)) st).map (·, turn₁)).bind _) = _
    cases (List.range' r.2.1 (r.2.2 - r.2.1)).foldlM (fun st s => sliceDone blake3 want total got img st (r.1, s)) st with
    | error e => exact ⟨0, rfl⟩
    | ok st' =>
      exact checkRuns_eq blake3 want hlists hserves hchunk total (fun r' hr' => hlt r' (List.mem_cons_of_mem _ hr'))
        (fun q hq => hin q (hcons ▸ List.mem_append_right _ hq)) turn₁ st'

/-- The hash of a slice is the one that the source's reads left. -/
def Matches (blake3 : Bytes → Hash) (want : Text → Option (List Hash)) (got : List File) (img : Text → Option Bytes)
    (q : Nat × Nat) : Prop :=
  (want (pathAt got q.1)).bind (fun w => w[q.2]?) = some (blake3 (slice sliceSize (bytesAt got img q.1) q.2))

theorem foldlM_sliceDone_iff (blake3 : Bytes → Hash) (want : Text → Option (List Hash)) (got : List File)
    (img : Text → Option Bytes) (total : Nat) : ∀ (l : List (Nat × Nat)) (st : Nat × List (Nat × Nat)),
    (∃ st', l.foldlM (sliceDone blake3 want total got img) st = .ok st') ↔ ∀ q ∈ l, Matches blake3 want got img q
  | [], st => iff_of_true ⟨st, rfl⟩ (nofun)
  | q :: l, st => by
    rw [List.foldlM_cons, List.forall_mem_cons, sliceDone, checkSlice]
    split
    · rename_i hq
      have hq : Matches blake3 want got img q := hq
      rw [and_iff_right hq]
      exact foldlM_sliceDone_iff blake3 want got img total l _
    · rename_i hq
      exact iff_of_false (fun h => by obtain ⟨st', h⟩ := h; cases h) fun h => hq h.1

/-- What is reported comes to what has been read. -/
theorem foldlM_sliceDone_done (total : Nat) : ∀ (l : List (Nat × Nat)) {st st' : Nat × List (Nat × Nat)},
    l.foldlM (sliceDone blake3 want total got img) st = .ok st' → st.2.getLast? = some (st.1, total) →
      st'.1 = st.1 + (l.map fun q => sliceLen (sizeAt got q.1) q.2).sum ∧ st'.2.getLast? = some (st'.1, total)
  | [], st, st', h, hlast => by
    cases h
    exact ⟨rfl, hlast⟩
  | q :: l, st, st', h, hlast => by
    rw [List.foldlM_cons, sliceDone, checkSlice] at h
    split at h
    · obtain ⟨hdone, hlast'⟩ := foldlM_sliceDone_done total l h List.getLast?_concat
      refine ⟨?_, hlast'⟩
      rw [hdone, List.map_cons, List.sum_cons, Nat.add_assoc]
      rfl
    · cases h

/-- Equal hashes are of equal slices, of the files that are compared. -/
def NoCollision (blake3 : Bytes → Hash) (src img : Text → Option Bytes) : Prop :=
  ∀ p a b, src p = some a → img p = some b → a.length = b.length → ∀ s,
    blake3 (slice sliceSize a s) = blake3 (slice sliceSize b s) → slice sliceSize a s = slice sliceSize b s

omit [DecidableEq Hash] in
theorem noCollision_of_injective (h : Function.Injective blake3) : NoCollision blake3 src img :=
  fun _ _ _ _ _ _ _ hs => h hs

omit [DecidableEq Hash] in
/-- What the check has made sure of when the counts, the folders and the listing agree. -/
theorem matches_iff (hwant : ∀ p, want p = (src p).map (sliceHashes blake3)) (hfiles : Lists got src)
    (hlists : Lists got img) (hblake : NoCollision blake3 src img) {q : Nat × Nat} (hi : q.1 < got.length)
    (hs : q.2 < sizeAt got q.1 ⌈/⌉ sliceSize) :
    Matches blake3 want got img q ↔
      slice sliceSize (bytesAt got img q.1) q.2 = slice sliceSize (bytesAt got src q.1) q.2 := by
  obtain ⟨hsrc, hsrcLen⟩ := hfiles.at hi
  obtain ⟨himg, himgLen⟩ := hlists.at hi
  have hget : (sliceHashes blake3 (bytesAt got src q.1))[q.2]? =
      some (blake3 (slice sliceSize (bytesAt got src q.1) q.2)) := by
    rw [sliceHashes, List.getElem?_map, List.getElem?_range (hsrcLen.symm ▸ hs), Option.map_some]
  rw [Matches, hwant, hsrc, Option.map_some, Option.bind_some, hget, Option.some.injEq]
  exact ⟨fun h => (hblake _ _ _ hsrc himg (hsrcLen.trans himgLen.symm) _ h).symm, fun h => by rw [h]⟩

/-- **What a check that passes has compared**, in either mode: the count, the empty folders, the listing, and the bytes of
the slices that the mode reads. -/
theorem verify_ok_iff (hl : Listing files src) (hwant : ∀ p, want p = (src p).map (sliceHashes blake3))
    (hlists : Lists got img) (hserves : image.Serves img) (hblake : NoCollision blake3 src img) (hchunk : 0 < chunk)
    (turn : Nat) :
    (∃ v, verify blake3 image got gotEmpty want files wantEmpty mode chunk turn = .ok v) ↔
      got.length = files.length ∧ (gotEmpty.map trimSlashes).Perm (wantEmpty.map trimSlashes) ∧ (∀ f ∈ got, f ∈ files) ∧
        ∀ q ∈ slicesOf got mode,
          slice sliceSize (bytesAt got img q.1) q.2 = slice sliceSize (bytesAt got src q.1) q.2 := by
  rw [verify]
  by_cases hcount : got.length = files.length
  swap
  · rw [if_pos hcount]
    exact iff_of_false (fun h => by obtain ⟨v, h⟩ := h; cases h) fun h => hcount h.1
  rw [if_neg (not_not.2 hcount), and_iff_right hcount]
  by_cases hdirs : sortedDirs gotEmpty = sortedDirs wantEmpty
  swap
  · rw [if_pos hdirs]
    exact iff_of_false (fun h => by obtain ⟨v, h⟩ := h; cases h) fun h => hdirs (sortedDirs_eq_iff.2 h.1)
  rw [if_neg (not_not.2 hdirs), and_iff_right (sortedDirs_eq_iff.1 hdirs)]
  have hlisted := checkListed_iff hl got
  cases hcheck : checkListed files got with
  | error e =>
    refine iff_of_false (fun h => by obtain ⟨v, h⟩ := h; cases h) fun h => ?_
    obtain ⟨u, hu⟩ := hlisted.2 h.1
    rw [hcheck] at hu
    cases hu
  | ok u =>
    have hsub := hlisted.1 ⟨u, hcheck⟩
    rw [and_iff_right hsub]
    obtain ⟨hexpand, hlt⟩ := expand_runsOf (slicesOf got mode)
    obtain ⟨turn', hruns⟩ := checkRuns_eq blake3 want hlists hserves hchunk
      (summary got mode).checkedBytes hlt (fun q hq => mem_slicesOf (hexpand ▸ hq)) turn (0, [(0, (summary got mode).checkedBytes)])
    change (∃ v, (checkRuns blake3 image want got chunk _ _ turn _).map _ = .ok v) ↔ _
    rw [hruns, hexpand]
    have hfold := foldlM_sliceDone_iff blake3 want got img
      (summary got mode).checkedBytes (slicesOf got mode) (0, [(0, (summary got mode).checkedBytes)])
    have hmatch : (∀ q ∈ slicesOf got mode, Matches blake3 want got img q) ↔
        ∀ q ∈ slicesOf got mode, slice sliceSize (bytesAt got img q.1) q.2 = slice sliceSize (bytesAt got src q.1) q.2 :=
      forall₂_congr fun q hq => matches_iff hwant (hl.lists hsub) hlists hblake (mem_slicesOf hq).1 (mem_slicesOf hq).2
    rw [← hmatch, ← hfold]
    cases (slicesOf got mode).foldlM (sliceDone blake3 want (summary got mode).checkedBytes got img)
        (0, [(0, (summary got mode).checkedBytes)]) with
    | error e => exact iff_of_false (fun h => by obtain ⟨v, h⟩ := h; cases h) (fun h => by obtain ⟨v, h⟩ := h; cases h)
    | ok st => exact iff_of_true ⟨_, rfl⟩ ⟨st, rfl⟩

/-! ## All of it -/

/-- The image has the folder's files at their sizes, its empty folders, and the bytes of every file. -/
structure Faithful (files : List File) (src : Text → Option Bytes) (wantEmpty : List Text) (got : List File)
    (img : Text → Option Bytes) (gotEmpty : List Text) : Prop where
  listed : got.Perm files
  dirs : (gotEmpty.map trimSlashes).Perm (wantEmpty.map trimSlashes)
  bytes : ∀ f ∈ files, img f.1 = src f.1

/-- A full check passes for a faithful image, and for no other that lists no path twice. -/
theorem verify_full (hl : Listing files src) (hwant : ∀ p, want p = (src p).map (sliceHashes blake3))
    (hlists : Lists got img) (hserves : image.Serves img) (hblake : NoCollision blake3 src img) (hchunk : 0 < chunk)
    (turn : Nat) :
    Faithful files src wantEmpty got img gotEmpty ↔
      (∃ v, verify blake3 image got gotEmpty want files wantEmpty .full chunk turn = .ok v) ∧
        (got.map Prod.fst).Nodup := by
  rw [verify_ok_iff hl hwant hlists hserves hblake hchunk turn]
  have hslices : (∀ f ∈ got, f ∈ files) → ((∀ q ∈ slicesOf got .full,
      slice sliceSize (bytesAt got img q.1) q.2 = slice sliceSize (bytesAt got src q.1) q.2) ↔
        ∀ f ∈ got, img f.1 = src f.1) := by
    intro hsub
    rw [← bytesAt_eq_iff (hl.lists hsub) hlists]
    constructor
    · intro h i hi
      refine (slices_eq_iff (hl.lists hsub) hlists hi).1 fun s hs => h (i, s) ?_
      rw [slicesOf]
      exact List.mem_flatMap.2 ⟨i, List.mem_range.2 hi, List.mem_map_of_mem (List.mem_range.2 hs)⟩
    · intro h q hq
      have hi := (mem_slicesOf hq).1
      exact (slices_eq_iff (hl.lists hsub) hlists hi).2 (h q.1 hi) q.2 (mem_slicesOf hq).2
  constructor
  · intro h
    have hsub : ∀ f ∈ got, f ∈ files := fun f hf => h.listed.mem_iff.1 hf
    refine ⟨⟨h.listed.length_eq, h.dirs, hsub, (hslices hsub).2 fun f hf => h.bytes f (hsub f hf)⟩, ?_⟩
    exact (h.listed.map Prod.fst).nodup_iff.2 hl.nodup
  · rintro ⟨⟨hcount, hdirs, hsub, hequal⟩, hnodup⟩
    have hperm : got.Perm files :=
      (List.subperm_of_subset (List.Nodup.of_map _ hnodup) hsub).perm_of_length_le hcount.ge
    exact ⟨hperm, hdirs, fun f hf => (hslices hsub).1 hequal f (hperm.mem_iff.2 hf)⟩

/-! ## A sample -/

/-- The bytes of a sample are the same in the image and in the folder. -/
def SampleAgrees (got : List File) (src img : Text → Option Bytes) (s : Sample) : Prop :=
  ((bytesAt got img s.fileIdx).drop (s.range (sizeAt got s.fileIdx)).1).take (s.range (sizeAt got s.fileIdx)).2 =
    ((bytesAt got src s.fileIdx).drop (s.range (sizeAt got s.fileIdx)).1).take (s.range (sizeAt got s.fileIdx)).2

omit [DecidableEq Hash] in
theorem slice_eq_take {bytes : Bytes} {size : Nat} (hlen : bytes.length = size) (n : Nat) :
    slice sliceSize bytes n = (bytes.drop (n * sliceSize)).take (sliceLen size n) := by
  rw [slice, sliceLen, ← hlen, ← List.length_drop, ← List.take_eq_take_min]

/-- **A fast check** passes exactly where the count, the empty folders and the listing agree, and every sample of the
plan. -/
theorem verify_fast_iff (hl : Listing files src) (hwant : ∀ p, want p = (src p).map (sliceHashes blake3))
    (hlists : Lists got img) (hserves : image.Serves img) (hblake : NoCollision blake3 src img) (hchunk : 0 < chunk)
    (turn : Nat) (seed : UInt64) (seam : Bool) :
    (∃ v, verify blake3 image got gotEmpty want files wantEmpty (.fast seed seam) chunk turn = .ok v) ↔
      got.length = files.length ∧ (gotEmpty.map trimSlashes).Perm (wantEmpty.map trimSlashes) ∧ (∀ f ∈ got, f ∈ files) ∧
        ∀ s ∈ plan got seed seam, SampleAgrees got src img s := by
  rw [verify_ok_iff hl hwant hlists hserves hblake hchunk turn]
  refine and_congr_right fun _ => and_congr_right fun _ => and_congr_right fun hsub => ?_
  rw [slicesOf, List.forall_mem_flatMap]
  refine forall₂_congr fun s hs => ?_
  have hi := ((plan_planned got seed seam).1.held s hs).1
  have hsrc := ((hl.lists hsub).at hi).2
  have himg := (hlists.at hi).2
  obtain ⟨i, slice⟩ := s
  rw [SampleAgrees, Sample.range]
  dsimp only at hi hsrc himg ⊢
  cases slice with
  | none =>
    rw [Option.elim_none, Option.elim_none, Option.elim_none, List.forall_mem_map, List.drop_zero, List.drop_zero,
      List.take_of_length_le himg.le, List.take_of_length_le hsrc.le, ← slices_eq_iff (hl.lists hsub) hlists hi]
    exact forall_congr' fun k => by rw [List.mem_range]
  | some n =>
    rw [Option.elim_some, Option.elim_some, Option.elim_some, List.forall_mem_singleton, slice_eq_take himg,
      slice_eq_take hsrc]

/-- What the slices of a check come to. -/
theorem sum_slicesOf (got : List File) (mode : VerifyMode) :
    ((slicesOf got mode).map fun q => sliceLen (sizeAt got q.1) q.2).sum = (summary got mode).checkedBytes := by
  have hfile : ∀ i, (((List.range (sizeAt got i ⌈/⌉ sliceSize)).map fun s => (i, s)).map fun q =>
      sliceLen (sizeAt got q.1) q.2).sum = sizeAt got i := fun i => by
    rw [List.map_map]
    refine (congrArg List.sum (List.map_congr_left fun s _ => ?_)).trans (sum_sliceLen (sizeAt got i))
    rw [Function.comp_apply]
  cases mode with
  | full =>
    rw [slicesOf, summary, ← sum_sizeAt]
    generalize List.range got.length = l
    induction l with
    | nil => rfl
    | cons i l ih => rw [List.flatMap_cons, List.map_append, List.sum_append, hfile, ih, List.map_cons, List.sum_cons]
  | fast seed seam =>
    rw [slicesOf, summary]
    dsimp only
    generalize plan got seed seam = l
    induction l with
    | nil => rfl
    | cons s l ih =>
      obtain ⟨i, slice⟩ := s
      rw [List.flatMap_cons, List.map_append, List.sum_append, ih, List.map_cons, List.sum_cons, Sample.range]
      congr 1
      dsimp only
      cases slice with
      | none => rw [Option.elim_none, Option.elim_none, hfile]
      | some n => rw [Option.elim_some, Option.elim_some, List.map_singleton, List.sum_singleton]

/-- **A check that passes** has reported all that it covers. -/
theorem verify_progress (hlists : Lists got img) (hserves : image.Serves img) (hchunk : 0 < chunk) {turn : Nat}
    {v : Verified} (h : verify blake3 image got gotEmpty want files wantEmpty mode chunk turn = .ok v) :
    v.summary = summary got mode ∧
      v.progress.getLast? = some ((summary got mode).checkedBytes, (summary got mode).checkedBytes) := by
  rw [verify] at h
  split at h
  · cases h
  split at h
  · cases h
  cases hcheck : checkListed files got with
  | error e =>
    rw [hcheck] at h
    cases h
  | ok u =>
    rw [hcheck] at h
    obtain ⟨hexpand, hlt⟩ := expand_runsOf (slicesOf got mode)
    obtain ⟨turn', hruns⟩ := checkRuns_eq blake3 want hlists hserves hchunk
      (summary got mode).checkedBytes hlt (fun q hq => mem_slicesOf (hexpand ▸ hq)) turn (0, [(0, (summary got mode).checkedBytes)])
    change (checkRuns blake3 image want got chunk _ _ turn _).map _ = .ok v at h
    rw [hruns, hexpand] at h
    cases hfold : (slicesOf got mode).foldlM (sliceDone blake3 want (summary got mode).checkedBytes got img)
        (0, [(0, (summary got mode).checkedBytes)]) with
    | error e =>
      rw [hfold] at h
      cases h
    | ok st =>
      rw [hfold] at h
      cases h
      obtain ⟨hdone, hlast⟩ := foldlM_sliceDone_done _ _ hfold rfl
      rw [sum_slicesOf, Nat.zero_add] at hdone
      rw [hdone] at hlast
      exact ⟨rfl, hlast⟩

/-! ## A build's check -/

/-- **The read-back check of a build**: after any reads of the source, the hashes are those of every file's slices; and a
full check with them passes for a faithful image, and for no other that lists no path twice; it has then reported all the
bytes. -/
theorem read_back_iff (hl : Listing files src) {reads : List (Text × Nat × Bytes)}
    (hreads : ∀ r ∈ reads, ∀ bytes, src r.1 = some bytes → r.2.2 <+: bytes.drop r.2.1) {source : SourceTree}
    (hsource : source.Serves src) {joined : Joined Hash}
    (hj : joined = .noThread ∨ joined = .finished (observed blake3 files reads).done) (hlists : Lists got img)
    (himage : image.Serves img) (hblake : NoCollision blake3 src img) (hchunk : 0 < chunk) (turn : Nat) :
    let want := fun p => (src p).map (sliceHashes blake3)
    ∃ turn', hashes blake3 source files turn joined = .ok (want, turn') ∧
      (Faithful files src wantEmpty got img gotEmpty ↔
        (∃ v, verify blake3 image got gotEmpty want files wantEmpty .full chunk turn' = .ok v ∧
          v.progress.getLast? = some ((got.map Prod.snd).sum, (got.map Prod.snd).sum)) ∧ (got.map Prod.fst).Nodup) := by
  obtain ⟨turn', hhashes⟩ := hashes_eq blake3 hl hreads hsource hj turn
  refine ⟨turn', hhashes, (verify_full hl (fun _ => rfl) hlists himage hblake hchunk turn').trans ?_⟩
  refine and_congr_left fun _ => exists_congr fun v => ?_
  exact ⟨fun h => ⟨h, (verify_progress hlists himage hchunk h).2⟩, And.left⟩

end

/-- A writer's reads: one file seen whole, out of order and in pieces that overlap, one in part. -/
def fewReads : List (Text × Nat × Bytes) :=
  [(['a'], 1, [2, 3]), (['d', '/', 'b'], 0, [4]), (['a'], 0, [1, 2]), (['a'], 2, [3])]

theorem fewReads_prefix : ∀ r ∈ fewReads, ∀ bytes, few r.1 = some bytes → r.2.2 <+: bytes.drop r.2.1 := by
  intro r hr bytes hb
  simp only [fewReads, List.mem_cons, List.not_mem_nil, or_false] at hr
  rcases hr with rfl | rfl | rfl | rfl <;> cases hb <;> decide

/-- An image that has another byte in one file. -/
def changed : Text → Option Bytes := fun p => if p = ['d', '/', 'b'] then some [4, 9] else few p

theorem changed_lists : Lists fewFiles.reverse changed := by
  intro f hf
  simp only [fewFiles, List.reverse_cons, List.reverse_nil, List.nil_append, List.cons_append, List.mem_cons,
    List.not_mem_nil, or_false] at hf
  rcases hf with rfl | rfl | rfl <;> rfl

/-- The image with the tree's bytes passes, and the changed one does not. -/
theorem read_back_iff_few :
    ∃ turn', hashes id (wholly few) fewFiles 0 (.finished (observed id fewFiles fewReads).done) =
        .ok (fun p => (few p).map (sliceHashes id), turn') ∧
      (∃ v, verify id (wholly few) fewFiles.reverse [['/', 'd']] (fun p => (few p).map (sliceHashes id)) fewFiles [['d']]
        .full 1 turn' = .ok v ∧ v.progress.getLast? = some (5, 5)) ∧
      ¬ ∃ v, verify id (wholly changed) fewFiles.reverse [['/', 'd']] (fun p => (few p).map (sliceHashes id)) fewFiles
        [['d']] .full 1 turn' = .ok v ∧ v.progress.getLast? = some (5, 5) := by
  have hinj : Function.Injective (id : Bytes → Bytes) := Function.injective_id
  obtain ⟨turn', hhashes, hiff⟩ := read_back_iff few_listing fewReads_prefix
    (wholly_serves few) (.inr rfl) (few_listing.lists fun _ h => List.mem_reverse.1 h) (wholly_serves few)
    (noCollision_of_injective hinj) Nat.one_pos 0
  obtain ⟨turn'', hhashes', hiff'⟩ := read_back_iff few_listing
    fewReads_prefix (wholly_serves few) (.inr rfl) changed_lists (wholly_serves changed) (noCollision_of_injective hinj)
    Nat.one_pos 0
  obtain rfl : turn' = turn'' := (Prod.mk.inj (Except.ok.inj (hhashes.symm.trans hhashes'))).2
  refine ⟨turn', hhashes, (hiff.1 ⟨List.reverse_perm _, List.Perm.refl _, fun _ _ => rfl⟩).1, fun h => ?_⟩
  have hbytes := (hiff'.2 ⟨h, by decide⟩).bytes (['d', '/', 'b'], 2) (by decide)
  exact absurd hbytes (by decide)

/-- The samples of three files, with the changed image. -/
theorem verify_fast_iff_few :
    (∃ v, verify id (wholly changed) fewFiles.reverse [] (fun p => (few p).map (sliceHashes id)) fewFiles [] (.fast 7 true)
        1 0 = .ok v) ↔
      fewFiles.reverse.length = fewFiles.length ∧ (([] : List Text).map trimSlashes).Perm (([] : List Text).map trimSlashes) ∧
        (∀ f ∈ fewFiles.reverse, f ∈ fewFiles) ∧
        ∀ s ∈ plan fewFiles.reverse 7 true, SampleAgrees fewFiles.reverse few changed s :=
  verify_fast_iff few_listing (fun _ => rfl) changed_lists (wholly_serves changed)
    (noCollision_of_injective Function.injective_id) Nat.one_pos 0 7 true

end Ps5Upload.ImageBuild
