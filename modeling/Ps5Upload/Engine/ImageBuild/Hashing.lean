import Mathlib.Logic.Function.Basic
import Ps5Upload.Fpkg.Sample
import Ps5Upload.Lib.Bytes

/-!
# Image builds: the source's hashes

`SliceHasher`, `HashingTree` and `hash_slices` of `ps5upload-engine/src/image_build.rs`: each file of the source is
hashed in slices from the reads that a writer makes of it, and read again where these were out of order.  The hash is a
parameter, and a hasher is the bytes that it has been fed.
-/

namespace Ps5Upload.ImageBuild

open ByteFile Slices Sampling

/-! ## Reading -/

inductive Refusal
  | cancelled
  | read (path : Text) (e : String)
  | ended (path : Text) (at' stop : Nat)
  | hasherFailed
  | count (got want : Nat)
  | emptyFolders (got want : List Text)
  | notInFolder (path : Text)
  | size (path : Text) (image folder : Nat)
  | differs (path : Text) (range : Option (Nat × Nat))
  deriving DecidableEq, Repr

/-- A tree that is read, and whether the work is called off: either answer may be another one each turn. -/
structure SourceTree where
  readRange : Nat → Text → Nat → Nat → Except String Bytes
  cancelled : Nat → Bool

/-- A tree with these files answers each question with something of what was asked for. -/
structure SourceTree.Serves (tree : SourceTree) (src : Text → Option Bytes) : Prop where
  goes_on : ∀ turn, tree.cancelled turn = false
  reads : ∀ turn p bytes at' want, src p = some bytes → at' < bytes.length → 0 < want →
    ∃ buf, tree.readRange turn p at' want = .ok buf ∧ buf ≠ [] ∧ buf <+: (bytes.drop at').take want

/-- The files of a tree, each once. -/
structure Listing (files : List File) (src : Text → Option Bytes) : Prop where
  nodup : (files.map Prod.fst).Nodup
  mem : ∀ p n, (p, n) ∈ files ↔ (src p).map List.length = some n

section

variable {Hash : Type} (blake3 : Bytes → Hash)

/-- The hashes of a file's slices. -/
def sliceHashes (bytes : Bytes) : List Hash :=
  (List.range (bytes.length ⌈/⌉ sliceSize)).map fun s => blake3 (slice sliceSize bytes s)

/-! ## While it is written -/

/-- A file that is being hashed: how far, what has come of its slice, and the slices before. -/
structure Flight (Hash : Type) where
  next : Nat
  hasher : Bytes
  slices : List Hash

/-- The hashing thread's state. -/
structure SliceHasher (Hash : Type) where
  sizes : Text → Option Nat
  inFlight : Text → Option (Flight Hash)
  done : Text → Option (List Hash)

/-- One read of a file that goes on where it had come to. -/
def SliceHasher.goOn (h : SliceHasher Hash) (path : Text) (size : Nat) (f : Flight Hash) (bytes : Bytes) :
    SliceHasher Hash :=
  let r := cut sliceSize size f.next f.hasher bytes
  let slices := f.slices ++ r.1.map fun p => blake3 p.2
  if size ≤ r.2.1 then
    { h with
      inFlight := Function.update h.inFlight path none
      done := Function.update h.done path (some slices) }
  else { h with inFlight := Function.update h.inFlight path (some ⟨r.2.1, r.2.2, slices⟩) }

/-- `SliceHasher::observe`: a read from the start begins anew, one that is out of order is forgotten. -/
def SliceHasher.observe (h : SliceHasher Hash) (path : Text) (offset : Nat) (bytes : Bytes) : SliceHasher Hash :=
  (h.sizes path).elim h fun size =>
    let h := if offset = 0 then { h with inFlight := Function.update h.inFlight path (some ⟨0, [], []⟩) } else h
    (h.inFlight path).elim h fun f =>
      if f.next = offset then h.goOn blake3 path size f bytes
      else { h with inFlight := Function.update h.inFlight path none }

/-- The hashing thread over the reads that it is fed. -/
def observed (sizes : List File) (reads : List (Text × Nat × Bytes)) : SliceHasher Hash :=
  reads.foldl (fun h r => h.observe blake3 r.1 r.2.1 r.2.2)
    ⟨fun p => (sizes.find? fun f => f.1 = p).map Prod.snd, fun _ => none, fun _ => none⟩

/-! ## Read again -/

section Again

variable {σ : Type} (tree : SourceTree) (path : Text) (stop chunk : Nat) (onSlice : σ → Nat → Hash → Except Refusal σ)

/-- The loop of `hash_slices`, and the turn it ends with. -/
def hashLoop (turn at' : Nat) (held : Bytes) (s : σ) : Except Refusal (σ × Nat) :=
  if _h : at' < stop then
    if tree.cancelled turn then .error .cancelled
    else
      match tree.readRange turn path at' (min (stop - at') chunk) with
      | .error e => .error (.read path e)
      | .ok buf =>
        if _hbuf : buf = [] then .error (.ended path at' stop)
        else
          let r := cut sliceSize stop at' held (buf.take (stop - at'))
          (r.1.foldlM (fun s p => onSlice s p.1 (blake3 p.2)) s).bind fun s => hashLoop (turn + 1) r.2.1 r.2.2 s
  else .ok (s, turn)
termination_by stop - at'
decreasing_by
  have hne : buf.take (stop - at') ≠ [] := fun h => by
    rcases List.take_eq_nil_iff.1 h with h | h
    · omega
    · exact _hbuf h
  have := lt_cut sliceSize _h held hne
  omega

/-- `hash_slices`: the slices from one on, before another. -/
def hashSlices (size start to' turn : Nat) (s : σ) : Except Refusal (σ × Nat) :=
  hashLoop blake3 tree path (min (to' * sliceSize) size) chunk onSlice turn (start * sliceSize) [] s

end Again

/-- `DEFAULT_VERIFY_CHUNK`. -/
def defaultVerifyChunk : Nat := 8 * 2 ^ 20

/-- What joining the hashing thread gives: nothing if there was none. -/
inductive Joined (Hash : Type)
  | noThread
  | panicked
  | finished (done : Text → Option (List Hash))

/-- The files that were not seen whole, read now. -/
def hashMissing (tree : SourceTree) : List File → (Text → Option (List Hash)) → Nat →
    Except Refusal ((Text → Option (List Hash)) × Nat)
  | [], done, turn => .ok (done, turn)
  | f :: fs, done, turn =>
    (hashSlices blake3 tree f.1 defaultVerifyChunk (fun slices _ h => .ok (slices ++ [h])) f.2 0 (f.2 ⌈/⌉ sliceSize)
      turn []).bind fun r => hashMissing tree fs (Function.update done f.1 (some r.1)) r.2

/-- `HashingTree::hashes`. -/
def hashes (tree : SourceTree) (sizes : List File) (turn : Nat) :
    Joined Hash → Except Refusal ((Text → Option (List Hash)) × Nat)
  | .noThread => hashMissing blake3 tree sizes (fun _ => none) turn
  | .panicked => .error .hasherFailed
  | .finished done => hashMissing blake3 tree (sizes.filter fun f => (done f.1).isNone) done turn

/-! ## What the hasher has right -/

variable {blake3} {src : Text → Option Bytes} {path : Text} {bytes piece : Bytes} {h : SliceHasher Hash}

/-- A file in flight has the hashes of the slices that have ended, and what has come of the next. -/
structure Flight.At (blake3 : Bytes → Hash) (bytes : Bytes) (f : Flight Hash) : Prop where
  next : f.next ≤ bytes.length
  hasher : f.hasher = heldAt sliceSize bytes f.next
  slices : f.slices = (ended sliceSize bytes f.next).map fun q => blake3 q.2

/-- The hashing thread knows the files' sizes, and what it has is of the source. -/
structure SliceHasher.Sound (blake3 : Bytes → Hash) (src : Text → Option Bytes) (h : SliceHasher Hash) : Prop where
  sizes : ∀ p, h.sizes p = (src p).map List.length
  flight : ∀ p bytes f, src p = some bytes → h.inFlight p = some f → f.At blake3 bytes
  done : ∀ p l, h.done p = some l → (src p).map (sliceHashes blake3) = some l

theorem Flight.at_zero (bytes : Bytes) : (⟨0, [], []⟩ : Flight Hash).At blake3 bytes where
  next := Nat.zero_le _
  hasher := by rw [← Nat.zero_mul sliceSize, heldAt_mul]
  slices := by
    rw [ended, passed]
    split
    · rw [Nat.zero_div]
      rfl
    · rename_i hzero
      rw [Nat.eq_zero_of_not_pos hzero, Blocks.blocks_zero sliceSize_pos]
      rfl

/-- Another file in flight, or none. -/
theorem SliceHasher.Sound.setFlight (hs : h.Sound blake3 src) (hsrc : src path = some bytes) {o : Option (Flight Hash)}
    (ho : ∀ f, o = some f → f.At blake3 bytes) :
    SliceHasher.Sound blake3 src { h with inFlight := Function.update h.inFlight path o } where
  sizes := hs.sizes
  flight := fun p bytes' f hp hf => by
    dsimp only at hf
    rw [Function.update_apply] at hf
    split at hf
    · rename_i heq
      rw [heq, hsrc] at hp
      cases hp
      exact ho f hf
    · exact hs.flight p bytes' f hp hf
  done := hs.done

/-- **One read that goes on** ends the slices that end in it. -/
theorem sound_goOn {f : Flight Hash} (hs : h.Sound blake3 src) (hsrc : src path = some bytes) (hf : f.At blake3 bytes)
    (hpiece : piece <+: bytes.drop f.next) : (h.goOn blake3 path bytes.length f piece).Sound blake3 src := by
  obtain ⟨hended, hcut⟩ := cut_piece sliceSize hf.next hpiece
  have hfit := hpiece.length_le
  rw [List.length_drop] at hfit
  have hnext := hf.next
  rw [SliceHasher.goOn, hf.hasher, hf.slices, hcut, ← List.map_append, hended]
  split
  · rename_i hall
    have hall : f.next + piece.length = bytes.length := Nat.le_antisymm (by omega) hall
    have hnone := hs.setFlight hsrc (o := none) (fun _ h => by cases h)
    refine ⟨hnone.sizes, hnone.flight, fun p l hl => ?_⟩
    dsimp only at hl
    rw [Function.update_apply] at hl
    split at hl
    · rename_i heq
      rw [heq, hsrc, ← hl, hall, ended_length, List.map_map]
      rfl
    · exact hs.done p l hl
  · exact hs.setFlight hsrc fun f' hf' => by
      cases hf'
      exact ⟨by dsimp only; omega, rfl, rfl⟩

/-- **One read**: whatever part of whatever file it is, what the hasher has stays right. -/
theorem sound_observe {offset : Nat} (hs : h.Sound blake3 src)
    (hread : ∀ bytes, src path = some bytes → piece <+: bytes.drop offset) :
    (h.observe blake3 path offset piece).Sound blake3 src := by
  rw [SliceHasher.observe, hs.sizes]
  cases hsrc : src path with
  | none => exact hs
  | some bytes =>
    rw [Option.map_some, Option.elim_some]
    dsimp only
    have hbegun : SliceHasher.Sound blake3 src
        (if offset = 0 then { h with inFlight := Function.update h.inFlight path (some ⟨0, [], []⟩) } else h) := by
      split
      · exact hs.setFlight hsrc fun f hf => by
          cases hf
          exact Flight.at_zero bytes
      · exact hs
    generalize (if offset = 0 then { h with inFlight := Function.update h.inFlight path (some ⟨0, [], []⟩) } else h) =
      begun at hbegun ⊢
    cases hflight : begun.inFlight path with
    | none => exact hbegun
    | some f =>
      rw [Option.elim_some]
      split
      · rename_i hat
        exact sound_goOn hbegun hsrc (hbegun.flight path bytes f hsrc hflight) (hat ▸ hread bytes hsrc)
      · exact hbegun.setFlight hsrc (fun _ h => by cases h)

theorem Listing.find {files : List File} (hl : Listing files src) (p : Text) :
    (files.find? fun f => f.1 = p).map Prod.snd = (src p).map List.length := by
  cases hfind : files.find? fun f => f.1 = p with
  | none =>
    rw [Option.map_none, eq_comm, Option.map_eq_none_iff]
    cases hsrc : src p with
    | none => rfl
    | some bytes =>
      have hmem := (hl.mem p bytes.length).2 (by rw [hsrc]; rfl)
      exact absurd (List.find?_eq_none.1 hfind _ hmem) (by simp)
  | some f =>
    have hp : f.1 = p := of_decide_eq_true (List.find?_some (p := fun f : File => decide (f.1 = p)) hfind)
    exact ((hl.mem p f.2).1 (hp ▸ List.mem_of_find?_eq_some hfind)).symm

/-- **Any reads of the source** leave only hashes of the source. -/
theorem sound_observed {files : List File} (hl : Listing files src) {reads : List (Text × Nat × Bytes)}
    (hreads : ∀ r ∈ reads, ∀ bytes, src r.1 = some bytes → r.2.2 <+: bytes.drop r.2.1) :
    (observed blake3 files reads).Sound blake3 src := by
  refine List.foldlRecOn reads _ (motive := SliceHasher.Sound blake3 src) ⟨hl.find, ?_, ?_⟩ fun h hs r hr =>
    sound_observe hs (hreads r hr)
  · exact fun p bytes f _ hf => by cases hf
  · exact fun p l hl => by cases hl

/-! ## What is read again -/

variable (blake3) {σ : Type} {tree : SourceTree} {chunk : Nat} (onSlice : σ → Nat → Hash → Except Refusal σ)

/-- **The loop of `hash_slices`** hands on the slices that have not ended yet, however long the reads are. -/
theorem hashLoop_eq (hserves : tree.Serves src) (hsrc : src path = some bytes) (hchunk : 0 < chunk) {stop : Nat}
    (hstop : stop ≤ bytes.length) {at' : Nat} (hat : at' ≤ stop) {tail : List (Nat × Bytes)}
    (htail : ended sliceSize (bytes.take stop) at' ++ tail = ended sliceSize (bytes.take stop) stop) (turn : Nat) (s : σ) :
    ∃ turn', hashLoop blake3 tree path stop chunk onSlice turn at' (heldAt sliceSize (bytes.take stop) at') s =
      (tail.foldlM (fun s p => onSlice s p.1 (blake3 p.2)) s).map (·, turn') := by
  have hlen : (bytes.take stop).length = stop := by rw [List.length_take, Nat.min_eq_left hstop]
  induction hleft : stop - at' using Nat.strong_induction_on generalizing at' tail turn s with
  | _ left ih =>
    rw [hashLoop]
    split
    · rename_i hlt
      rw [hserves.goes_on turn, if_neg Bool.false_ne_true]
      obtain ⟨buf, hread, hbuf, hpre⟩ := hserves.reads turn path bytes at' (min (stop - at') chunk) hsrc (by omega)
        (by omega)
      rw [hread]
      dsimp only
      rw [dif_neg hbuf]
      have hpiece : buf.take (stop - at') <+: (bytes.take stop).drop at' := by
        rw [List.drop_take]
        exact (List.take_prefix _ _).trans (hpre.trans (List.take_prefix_take_left (Nat.min_le_left _ _)))
      have hpos := List.length_pos_iff.2 hbuf
      obtain ⟨hended, hcut⟩ := cut_piece sliceSize (hlen.symm ▸ hat) hpiece
      rw [hlen] at hended hcut
      have hnextLe : at' + (buf.take (stop - at')).length ≤ stop := by
        rw [List.length_take]
        omega
      -- what is still to come after this read
      obtain ⟨more, hmore⟩ : ended sliceSize (bytes.take stop) _ <+: ended sliceSize (bytes.take stop) stop :=
        ended_grows sliceSize hnextLe hlen.ge
      have hsplit : tail = (cut sliceSize stop at' (heldAt sliceSize (bytes.take stop) at') (buf.take (stop - at'))).1 ++ more := by
        rw [← hmore, ← hended, List.append_assoc, List.append_cancel_left_eq] at htail
        exact htail
      rw [hcut, hsplit, List.foldlM_append]
      cases (cut sliceSize stop at' (heldAt sliceSize (bytes.take stop) at') (buf.take (stop - at'))).1.foldlM
          (fun s p => onSlice s p.1 (blake3 p.2)) s with
      | error e => exact ⟨0, rfl⟩
      | ok s' =>
        refine ih _ ?_ hnextLe hmore (turn + 1) s' rfl
        rw [List.length_take]
        omega
    · rename_i hend
      have hend : at' = stop := by omega
      subst hend
      rw [List.append_right_eq_self] at htail
      exact ⟨turn, by rw [htail]; rfl⟩

/-- **A range of slices**: they are handed on in order, each with the hash of its bytes. -/
theorem hashSlices_eq (hserves : tree.Serves src) (hsrc : src path = some bytes) (hchunk : 0 < chunk) {start stop : Nat}
    (hstart : start ≤ stop) (hstop : stop ≤ bytes.length ⌈/⌉ sliceSize) (turn : Nat) (s : σ) :
    ∃ turn', hashSlices blake3 tree path chunk onSlice bytes.length start stop turn s =
      ((List.range' start (stop - start)).foldlM (fun s k => onSlice s k (blake3 (slice sliceSize bytes k))) s).map
        (·, turn') := by
  rw [hashSlices]
  rcases Nat.eq_or_lt_of_le hstart with heq | hlt
  · refine ⟨turn, ?_⟩
    rw [heq, Nat.sub_self, hashLoop, dif_neg (Nat.not_lt.2 (Nat.min_le_left _ _))]
    rfl
  · have hstep := Nat.mul_le_mul_right sliceSize hlt
    have hfar := Nat.mul_le_mul_right sliceSize hstop
    have hblocks := Blocks.blocks_lt sliceSize_pos bytes.length
    have htail : ended sliceSize (bytes.take (min (stop * sliceSize) bytes.length)) (start * sliceSize) ++
        (List.range' start (stop - start)).map (fun s => (s, slice sliceSize bytes s)) =
          ended sliceSize (bytes.take (min (stop * sliceSize) bytes.length)) (min (stop * sliceSize) bytes.length) := by
      rw [ended_start hlt hstop, ended_stop hstop, ← List.map_append, List.range_eq_range', List.range_eq_range',
        show List.range' start (stop - start) = List.range' (0 + start) (stop - start) by rw [Nat.zero_add],
        List.range'_append_1, Nat.add_sub_cancel' hstart]
    rw [Nat.succ_mul] at hstep
    obtain ⟨turn', hloop⟩ := hashLoop_eq blake3 onSlice hserves hsrc hchunk (Nat.min_le_right _ _) (by omega) htail turn s
    rw [heldAt_mul, List.foldlM_map] at hloop
    exact ⟨turn', hloop⟩

theorem foldlM_push (l : List Nat) (f : Nat → Hash) (acc : List Hash) :
    l.foldlM (fun acc k => (.ok (acc ++ [f k]) : Except Refusal (List Hash))) acc = .ok (acc ++ l.map f) := by
  induction l generalizing acc with
  | nil => rw [List.map_nil, List.append_nil]; rfl
  | cons k l ih =>
    rw [List.foldlM_cons]
    exact (ih _).trans (by rw [List.append_assoc, List.map_cons]; rfl)

/-- The files that were not seen whole get their hashes, and the others keep theirs. -/
theorem hashMissing_eq (hserves : tree.Serves src) : ∀ {fs : List File}, (∀ f ∈ fs, (src f.1).map List.length = some f.2) →
    ∀ (done : Text → Option (List Hash)) (turn : Nat), ∃ done' turn',
      hashMissing blake3 tree fs done turn = .ok (done', turn') ∧
        ∀ p, done' p = if p ∈ fs.map Prod.fst then (src p).map (sliceHashes blake3) else done p
  | [], _, done, turn => ⟨done, turn, rfl, fun p => rfl⟩
  | f :: fs, hfs, done, turn => by
    obtain ⟨bytes, hsrc, hlen⟩ := Option.map_eq_some_iff.1 (hfs f List.mem_cons_self)
    obtain ⟨turn₁, hslices⟩ := hashSlices_eq blake3 (fun slices _ h => .ok (slices ++ [h])) hserves hsrc
      (by decide : 0 < defaultVerifyChunk) (Nat.zero_le _) (Nat.le_refl _) turn []
    rw [foldlM_push, Nat.sub_zero, ← List.range_eq_range', List.nil_append, hlen] at hslices
    obtain ⟨done', turn', hrest, hdone⟩ := hashMissing_eq hserves (fun g hg => hfs g (List.mem_cons_of_mem f hg))
      (Function.update done f.1 (some (sliceHashes blake3 bytes))) turn₁
    refine ⟨done', turn', ?_, fun p => ?_⟩
    · rw [hashMissing, hslices]
      rw [sliceHashes, hlen] at hrest
      exact hrest
    · rw [hdone p, Function.update_apply, List.map_cons]
      by_cases hp : p = f.1
      · rw [if_pos hp, if_pos (List.mem_cons.2 (.inl hp)), hp, hsrc]
        exact ite_self _
      · rw [if_neg hp]
        exact if_congr ⟨List.mem_cons_of_mem _, fun h => (List.mem_cons.1 h).resolve_left hp⟩ rfl rfl

theorem hashMissing_all (hserves : tree.Serves src) {files : List File} (hl : Listing files src)
    (done : Text → Option (List Hash)) (hdone : ∀ p l, done p = some l → (src p).map (sliceHashes blake3) = some l)
    (turn : Nat) :
    ∃ turn', hashMissing blake3 tree (files.filter fun f => (done f.1).isNone) done turn =
      .ok (fun p => (src p).map (sliceHashes blake3), turn') := by
  have hsizes : ∀ f ∈ files.filter (fun f => (done f.1).isNone), (src f.1).map List.length = some f.2 :=
    fun f hf => (hl.mem f.1 f.2).1 (List.mem_filter.1 hf).1
  obtain ⟨done', turn', hmissing, hdone'⟩ := hashMissing_eq blake3 hserves hsizes done turn
  refine ⟨turn', hmissing.trans (congrArg (fun d => Except.ok (d, turn')) (funext fun p => ?_))⟩
  rw [hdone']
  split
  · rfl
  rename_i hseen
  cases hd : done p with
  | some l => exact (hdone p l hd).symm
  | none =>
    cases hsrc : src p with
    | none => rfl
    | some bytes =>
      have hmem := (hl.mem p bytes.length).2 (by rw [hsrc]; rfl)
      exact absurd (List.mem_map_of_mem (List.mem_filter.2 ⟨hmem, by rw [hd]; rfl⟩)) hseen

/-- **The hashes of the source**: after any reads of it that a writer made, and with those that were not seen whole read
now, each file has the hashes of its slices. -/
theorem hashes_eq {files : List File} (hl : Listing files src) {reads : List (Text × Nat × Bytes)}
    (hreads : ∀ r ∈ reads, ∀ bytes, src r.1 = some bytes → r.2.2 <+: bytes.drop r.2.1) (hserves : tree.Serves src)
    {joined : Joined Hash} (hj : joined = .noThread ∨ joined = .finished (observed blake3 files reads).done) (turn : Nat) :
    ∃ turn', hashes blake3 tree files turn joined = .ok (fun p => (src p).map (sliceHashes blake3), turn') := by
  rcases hj with rfl | rfl
  · obtain ⟨turn', h⟩ := hashMissing_all blake3 hserves hl (fun _ => none)
      (fun _ _ h => by cases h) turn
    have hall : (files.filter fun _ => (none : Option (List Hash)).isNone) = files :=
      List.filter_eq_self.2 fun _ _ => rfl
    rw [hall] at h
    exact ⟨turn', h⟩
  · exact hashMissing_all blake3 hserves hl _ (sound_observed hl hreads).done turn

/-! ## A tree that answers in full -/

/-- A tree that gives all that it is asked for. -/
def wholly (src : Text → Option Bytes) : SourceTree where
  readRange := fun _ p at' want => ((src p).map fun bytes => (bytes.drop at').take want).elim (.error "not found") .ok
  cancelled := fun _ => false

theorem wholly_serves (src : Text → Option Bytes) : (wholly src).Serves src where
  goes_on := fun _ => rfl
  reads := fun turn p bytes at' want hsrc hat hwant => by
    refine ⟨(bytes.drop at').take want, by simp only [wholly, hsrc, Option.map_some, Option.elim_some], fun h => ?_, List.prefix_refl _⟩
    have := congrArg List.length h
    rw [List.length_take, List.length_drop, List.length_nil] at this
    omega

end

/-- A tree of three files, one of them empty. -/
def few : Text → Option Bytes := fun p =>
  if p = ['a'] then some [1, 2, 3] else if p = ['d', '/', 'b'] then some [4, 5]
  else if p = ['e'] then some [] else none

def fewFiles : List File := [(['a'], 3), (['d', '/', 'b'], 2), (['e'], 0)]

theorem few_listing : Listing fewFiles few where
  nodup := by decide
  mem p n := by
    simp only [fewFiles, few, List.mem_cons, Prod.mk.injEq, List.not_mem_nil, or_false]
    split
    · rename_i h
      subst h
      simpa using eq_comm
    split
    · rename_i h
      subst h
      simpa using eq_comm
    split
    · rename_i h
      subst h
      simpa using eq_comm
    · simp [*]

end Ps5Upload.ImageBuild
