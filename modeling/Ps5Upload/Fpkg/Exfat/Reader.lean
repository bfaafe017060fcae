import Ps5Upload.Fpkg.Exfat.PlainWalk

/-!
# exFAT: any sequence of reads, any image

The reader over a whole use of it: an image is opened, walked, and its files are read in any order, at
any offsets and lengths.  The reader is compared with one that keeps nothing between two reads.

* `readCalls_plain_iff` — each read is the plain reader's, but for those that end exactly at the end
  of a cluster whose slot cannot be read;
* `fromFile_safe_iff`, `reader_total_iff` — the images on which no check of the reader's arithmetic
  fails.
-/

namespace Ps5Upload.Exfat

open ByteFile Checked Caching

/-- A read of a walked file. -/
structure Call where
  file : ExFatFile
  offset : Nat
  len : Nat

/-- What a sequence of reads returns, each with the state the ones before it left. -/
def readCalls (v : Volume) : List Call → Held → List (Res Bytes)
  | [], _ => []
  | c :: cs, s =>
    (exec (readFile v c.file c.offset c.len) s).1 ::
      readCalls v cs (exec (readFile v c.file c.offset c.len) s).2

/-- What the plain reader returns for a read. -/
def Volume.plainCall (v : Volume) (c : Call) : Option Bytes := v.plainFile c.file c.offset c.len

/-! ## Reads against the plain reader -/

section Reads

variable {v : Volume} (hv : v.Sound)
include hv

/-- A read that starts at a cluster outside the volume has nothing to return. -/
theorem plainFile_of_lone {f : ExFatFile} {offset len : Nat} (h : v.LoneFile f offset len) :
    v.plainFile f offset len = none := by
  obtain ⟨hchain, hfirst, hoffset, hend, -⟩ := h
  have hpos : 0 < v.geom.clusterSize := by have := hv.cluster_ge; omega
  have hcount := hv.count_lt
  have hout : ¬v.Inside f.firstCluster := fun h => by
    have := h.2
    omega
  have hwritten : f.written offset len =
    min (min len (f.size - offset)) (f.valid - offset) := rfl
  rw [Volume.plainFile, if_neg (by omega), if_neg (by omega), Volume.plainStream,
    Nat.div_eq_of_lt hoffset, hchain, Volume.plainFrom, if_neg (by omega),
    plainClusters_none (Blocks.blocks_pos hpos (by omega))]
  · rfl
  · show (some f.firstCluster).bind v.clusterBytes = none
    rw [Option.bind_some, Volume.clusterBytes, if_neg hout]

/-- One read: the plain reader's, or an error in the plain reader's place. -/
theorem readFile_plain {f : ExFatFile} (hf : f.Fits v) (offset len : Nat) {s : Held}
    (hs : v.Keeps s) :
    (exec (readFile v f offset len) s).1.toOption =
        (if v.StopsShort f offset len then none else v.plainFile f offset len) ∧
      v.Keeps (exec (readFile v f offset len) s).2 := by
  refine ⟨?_, (readFile_returns hv hf offset len s hs).2⟩
  rcases (readFile_returns hv hf offset len s hs).1 with ⟨hpanic, hlone⟩ | ⟨-, hr⟩
  · rw [hpanic, plainFile_of_lone hv hlone, ite_self]
    rfl
  · exact hr.toOption

theorem readCalls_plain {calls : List Call} (hcalls : ∀ c ∈ calls, c.file.Fits v) {s : Held}
    (hs : v.Keeps s) :
    List.Forall₂ (fun c (r : Res Bytes) => r.toOption = v.plainCall c ↔
        ¬(v.StopsShort c.file c.offset c.len ∧ (v.plainCall c).isSome))
      calls (readCalls v calls s) := by
  induction calls generalizing s with
  | nil => exact List.Forall₂.nil
  | cons c cs ih =>
    obtain ⟨hr, hkeeps⟩ := readFile_plain hv (hcalls c List.mem_cons_self) c.offset c.len hs
    refine List.Forall₂.cons ?_ (ih (fun c' hc' => hcalls c' (List.mem_cons_of_mem _ hc')) hkeeps)
    rw [hr]
    show (if v.StopsShort c.file c.offset c.len then none else v.plainCall c) = v.plainCall c ↔ _
    by_cases hstop : v.StopsShort c.file c.offset c.len
    · rw [if_pos hstop]
      cases v.plainCall c with
      | none => exact ⟨fun _ h => absurd h.2 (by nofun), fun _ => rfl⟩
      | some bytes => exact ⟨nofun, fun h => absurd ⟨hstop, rfl⟩ h⟩
    · rw [if_neg hstop]
      exact ⟨fun _ h => hstop h.1, fun _ => rfl⟩

/-- What a walk leaves: a state that says what the image says, and files in bounds. -/
theorem walkTree_ok {files : List ExFatFile} {empty : List Text} {s : Held}
    (h : exec (walkTree v) Held.fresh = (.ok (files, empty), s)) :
    v.Keeps s ∧ (∀ f ∈ files, f.Fits v) ∧ v.plainWalk = .ok (files, empty) := by
  obtain ⟨halike, hkeeps⟩ := walkTree_like hv Held.fresh (keeps_fresh v)
  rw [h] at halike hkeeps
  cases hplain : v.plainWalk with
  | ok q =>
    rw [hplain] at halike
    obtain ⟨rfl, hfits⟩ := halike
    exact ⟨hkeeps, hfits, rfl⟩
  | error stop =>
    rw [hplain] at halike
    cases stop <;> exact halike.elim

end Reads

/-- **The reader against the plain reader.**  An image is opened and walked, and its files are read in
any order at any offsets and lengths.  A read has the plain reader's outcome, the same bytes or an
error in both, if and only if it does not end exactly at the end of a cluster of a chained file whose
slot cannot be read while the plain reader has all the bytes asked for. -/
theorem readCalls_plain_iff {img : Image} {label : String} {v : Volume}
    (hopen : fromFile img label = .ok v) {files : List ExFatFile} {empty : List Text} {s : Held}
    (hwalk : exec (walkTree v) Held.fresh = (.ok (files, empty), s)) {calls : List Call}
    (hcalls : ∀ c ∈ calls, c.file ∈ files) :
    List.Forall₂ (fun c (r : Res Bytes) => r.toOption = v.plainCall c ↔
        ¬(v.StopsShort c.file c.offset c.len ∧ (v.plainCall c).isSome))
      calls (readCalls v calls s) := by
  have hv := from_file_sound hopen
  obtain ⟨hkeeps, hfits, -⟩ := walkTree_ok hv hwalk
  exact readCalls_plain hv (fun c hc => hfits c.file (hcalls c hc)) hkeeps

/-- A volume of two clusters whose table is cut after its third slot: the root directory holds one
file, `A`, the 512 bytes of the second cluster. -/
def cutImage : Image where
  bytes :=
    List.replicate 3 0 ++ oem ++ List.replicate 69 0 ++ le 4 3 ++ le 4 0 ++ le 4 1 ++ le 4 2 ++
      le 4 2 ++ List.replicate 8 0 ++ [9, 0] ++ List.replicate 402 0 ++
    ([0x85] ++ List.replicate 3 0 ++ [0x20] ++ List.replicate 27 0 ++
      [0xC0, 1, 0, 1] ++ List.replicate 4 0 ++ le 8 512 ++ List.replicate 4 0 ++ le 4 3 ++ le 8 512 ++
      [0xC1, 0, 0x41] ++ List.replicate 29 0 ++ List.replicate 416 0) ++
    List.replicate 512 7 ++ (le 4 0xFFFFFFF8 ++ le 4 0xFFFFFFFF ++ le 4 0xFFFFFFFF)
  fits := by decide +kernel

def cutVolume : Volume := ⟨cutImage, ⟨0, 512, 512, 2⟩, 1536, 512, 2⟩

def cutFile : ExFatFile := ⟨['A'], 512, 512, 3, false⟩

/-- The plain reader has the file's bytes, and the reader answers with an error. -/
theorem cutImage_read_fails :
    fromFile cutImage "cut" = .ok cutVolume ∧
    (exec (walkTree cutVolume) Held.fresh).1 = .ok ([cutFile], []) ∧
    (readCalls cutVolume [⟨cutFile, 0, 512⟩] (exec (walkTree cutVolume) Held.fresh).2).map
      Except.toOption = [none] ∧
    cutVolume.plainCall ⟨cutFile, 0, 512⟩ = some (List.replicate 512 7) := by
  decide +kernel

/-- The reads of that file that stop inside its cluster are the plain reader's. -/
theorem readCalls_plain_iff_cutImage :
    List.Forall₂ (fun c (r : Res Bytes) => r.toOption = cutVolume.plainCall c ↔
        ¬(cutVolume.StopsShort c.file c.offset c.len ∧ (cutVolume.plainCall c).isSome))
      [⟨cutFile, 3, 5⟩, ⟨cutFile, 0, 512⟩]
      (readCalls cutVolume [⟨cutFile, 3, 5⟩, ⟨cutFile, 0, 512⟩]
        (exec (walkTree cutVolume) Held.fresh).2) := by
  have hopen : fromFile cutImage "cut" = .ok cutVolume := by decide +kernel
  have hwalk : (exec (walkTree cutVolume) Held.fresh).1 = .ok ([cutFile], []) := by decide +kernel
  refine readCalls_plain_iff hopen (Prod.ext hwalk rfl) ?_
  intro c hc
  rcases List.mem_cons.1 hc with rfl | hc
  · exact List.mem_cons_self
  · rw [List.mem_singleton.1 hc]
    exact List.mem_cons_self

/-! ## Images of any bytes -/

/-- The partition a GPT table gives the volume, where the search comes to it, starts at an offset
that 64 bits hold. -/
def Image.GptFits (img : Image) : Prop :=
  ∀ head first, readAt img 0 512 = .ok head → (head.drop 3).take 8 ≠ oem →
    mbrSearch head = .ok none → gptSearch img = .ok (some first) → first < 2 ^ 55

/-- A boot sector that passes every check before that of the root cluster's number, which is no
reserved one. -/
structure ValidBoot (img : Image) (off : Nat) (boot : Bytes) : Prop where
  tag : (boot.drop 3).take 8 = oem
  sector : 9 ≤ leAt boot 108 1 ∧ leAt boot 108 1 ≤ 12
  cluster : leAt boot 108 1 + leAt boot 109 1 ≤ 25
  count : 2 ≤ leAt boot 92 4
  heap : off + leAt boot 88 4 * 2 ^ leAt boot 108 1 +
    leAt boot 92 4 * 2 ^ (leAt boot 108 1 + leAt boot 109 1) ≤ img.len
  fat : off + leAt boot 80 4 * 2 ^ leAt boot 108 1 < img.len
  root : 2 ≤ leAt boot 96 4

/-- An otherwise valid boot sector declares fewer clusters than 32 bits hold with the two reserved
ones. -/
def Image.CountFits (img : Image) : Prop :=
  ∀ off boot, findVolume img = .ok off → readAt img off 512 = .ok boot → ValidBoot img off boot →
    leAt boot 92 4 + 2 < 2 ^ 32

theorem mbrFirst_safe {head : Bytes} (hhead : head.length = 512) {is : List Nat}
    (his : ∀ i ∈ is, i < 4) : Safe (fun o => ∀ lba ∈ o, lba < 2 ^ 32) (mbrFirst head is) := by
  induction is with
  | nil => exact nofun
  | cons i is ih =>
    have hi := his i List.mem_cons_self
    have hrest := ih fun j hj => his j (List.mem_cons_of_mem _ hj)
    refine Safe.bind (safe_slice (by omega) (by omega)) fun e he => ?_
    refine Safe.bind (safe_index (by omega)) fun kind _ => ?_
    split
    · rw [field_eq (by omega), ok_bind]
      split
      · intro lba hlba
        cases hlba
        exact leAt_lt e 8 4
      · exact hrest
    · exact hrest

theorem mbrSearch_safe {head : Bytes} (hhead : head.length = 512) :
    Safe (fun o => ∀ lba ∈ o, lba < 2 ^ 32) (mbrSearch head) := by
  refine Safe.bind (safe_slice (by omega) (by omega)) fun signature _ => ?_
  split
  · exact mbrFirst_safe hhead (by decide)
  · exact nofun

theorem gptFirst_safe (img : Image) (entriesLba : Nat) {size : Nat} (hsize : 128 ≤ size) (i left : Nat) :
    Safe (fun _ => True) (gptFirst img entriesLba size i left) := by
  induction left generalizing i with
  | zero => exact trivial
  | succ left ih =>
    rw [gptFirst]
    split
    · exact trivial
    have hread := safe_readAt img (entriesLba * 512 + i * size) size
    cases h : readAt img (entriesLba * 512 + i * size) size with
    | error f =>
      rw [h] at hread
      cases f with
      | error e => exact trivial
      | panic => exact hread.elim
    | ok entry =>
      rw [h] at hread
      have hlen : entry.length = size := hread.1
      refine Safe.bind (safe_slice (by omega) (by omega)) fun guid _ => ?_
      split
      · refine Safe.bind (safe_field (by omega)) fun first _ => ?_
        split
        · exact trivial
        · exact ih (i + 1)
      · exact ih (i + 1)

theorem gptSearch_safe (img : Image) : Safe (fun _ => True) (gptSearch img) := by
  unfold gptSearch
  split
  · exact trivial
  refine Safe.bind (safe_readAt img 512 512) fun gpt hgpt => ?_
  have hlen := hgpt.1
  refine Safe.bind (safe_slice (by omega) (by omega)) fun signature _ => ?_
  split
  · refine Safe.bind (safe_field (by omega)) fun entriesLba _ => ?_
    refine Safe.bind (safe_field (by omega)) fun count _ => ?_
    refine Safe.bind (safe_field (by omega)) fun size _ => ?_
    split
    · rename_i hsize
      exact gptFirst_safe img entriesLba hsize.1 0 _
    · exact trivial
  · exact trivial

/-- The search for the volume is safe where the GPT partition it takes starts within the range of
offsets. -/
theorem findVolume_safe_iff (img : Image) :
    Safe (fun _ => True) (findVolume img) ↔ img.GptFits := by
  unfold findVolume
  by_cases hsmall : img.len < 512
  · rw [if_pos hsmall]
    refine ⟨fun _ head first hread => ?_, fun _ => safe_fail _⟩
    have := (readAt_ok hread).1
    omega
  obtain ⟨head, hread⟩ : ∃ head, readAt img 0 512 = .ok head := ⟨_, readAt_eq (by omega)⟩
  have hhead := length_of_readAt hread
  rw [if_neg hsmall, hread, ok_bind, slice_eq (by omega) (by omega), ok_bind]
  have hfits : img.GptFits ↔ ((head.drop 3).take 8 ≠ oem → mbrSearch head = .ok none →
      ∀ first, gptSearch img = .ok (some first) → first < 2 ^ 55) := by
    constructor
    · exact fun h h1 h2 first h3 => h head first hread h1 h2 h3
    · intro h head' first hread' h1 h2 h3
      rw [hread] at hread'
      cases hread'
      exact h h1 h2 first h3
  rw [hfits]
  by_cases htag : (head.drop 3).take (11 - 3) = oem
  · rw [if_pos htag]
    exact ⟨fun _ h => absurd htag h, fun _ => trivial⟩
  rw [if_neg htag]
  have hmbr := mbrSearch_safe hhead
  cases hm : mbrSearch head with
  | error f =>
    rw [hm] at hmbr
    cases f with
    | error e => exact ⟨fun _ _ h => (by cases h), fun _ => trivial⟩
    | panic => exact hmbr.elim
  | ok o =>
    rw [hm] at hmbr
    rw [ok_bind]
    cases o with
    | some lba =>
      have := hmbr lba rfl
      dsimp only
      rw [mul_eq (by omega)]
      exact ⟨fun _ _ h => (by cases h), fun _ => trivial⟩
    | none =>
      have hgpt := gptSearch_safe img
      dsimp only
      cases hg : gptSearch img with
      | error f =>
        rw [hg] at hgpt
        cases f with
        | error e => exact ⟨fun _ _ _ first h => (by cases h), fun _ => trivial⟩
        | panic => exact hgpt.elim
      | ok o =>
        rw [ok_bind]
        cases o with
        | none => exact ⟨fun _ _ _ first h => (by cases h), fun _ => safe_fail _⟩
        | some first =>
          dsimp only
          constructor
          · intro h _ _ first' hfirst
            cases hfirst
            by_contra hbig
            have hmul : (mul 64 first 512 : Res Nat) = Checked.panic := if_neg (by omega)
            rw [hmul] at h
            exact h
          · intro h
            have := h htag rfl first rfl
            rw [mul_eq (by omega)]
            exact trivial

/-- The volume opens, or is refused, where its count of clusters fits. -/
theorem fromFile_boot_safe_iff {img : Image} {off : Nat} {boot : Bytes} (label : String)
    (hfind : findVolume img = .ok off) (hread : readAt img off 512 = .ok boot) :
    Safe (fun _ => True) (fromFile img label) ↔
      (ValidBoot img off boot → leAt boot 92 4 + 2 < 2 ^ 32) := by
  have hboot := length_of_readAt hread
  have hlen := img.len_lt
  have hoff := (readAt_ok hread).1
  unfold fromFile
  rw [hfind, ok_bind, hread, ok_bind, slice_eq (by omega) (by omega), ok_bind]
  by_cases htag : (boot.drop 3).take 8 = oem
  case neg =>
    rw [if_pos htag]
    exact ⟨fun _ h => absurd h.tag htag, fun _ => safe_fail _⟩
  rw [if_neg (not_not.2 htag), field_eq (by omega), ok_bind, field_eq (by omega), ok_bind]
  have hfat : leAt boot 80 4 < 2 ^ 32 := leAt_lt boot 80 4
  have hheap : leAt boot 88 4 < 2 ^ 32 := leAt_lt boot 88 4
  have hcount : leAt boot 92 4 < 2 ^ 32 := leAt_lt boot 92 4
  by_cases hsector : 9 ≤ leAt boot 108 1 ∧ leAt boot 108 1 ≤ 12
  case neg =>
    rw [if_pos hsector]
    exact ⟨fun _ h => absurd h.sector hsector, fun _ => safe_fail _⟩
  rw [if_neg (not_not.2 hsector)]
  by_cases hcluster : leAt boot 108 1 + leAt boot 109 1 ≤ 25
  case neg =>
    rw [if_pos (by omega)]
    exact ⟨fun _ h => absurd h.cluster hcluster, fun _ => safe_fail _⟩
  rw [if_neg (by omega)]
  have hvalid : ValidBoot img off boot ↔ (2 ≤ leAt boot 92 4 ∧
      off + leAt boot 88 4 * 2 ^ leAt boot 108 1 +
        leAt boot 92 4 * 2 ^ (leAt boot 108 1 + leAt boot 109 1) ≤ img.len ∧
      off + leAt boot 80 4 * 2 ^ leAt boot 108 1 < img.len ∧ 2 ≤ leAt boot 96 4) :=
    ⟨fun h => ⟨h.count, h.heap, h.fat, h.root⟩,
      fun ⟨h1, h2, h3, h4⟩ => ⟨htag, hsector, hcluster, h1, h2, h3, h4⟩⟩
  rw [hvalid]
  -- the sizes of a sector and of a cluster, and what the counts make of them
  have hpow : 2 ^ leAt boot 108 1 ≤ 2 ^ 12 := Nat.pow_le_pow_right (by omega) hsector.2
  have hpow' : 2 ^ (leAt boot 108 1 + leAt boot 109 1) ≤ 2 ^ 25 :=
    Nat.pow_le_pow_right (by omega) hcluster
  have h1 : leAt boot 80 4 * 2 ^ leAt boot 108 1 ≤ 2 ^ 32 * 2 ^ 12 := Nat.mul_le_mul hfat.le hpow
  have h2 : leAt boot 88 4 * 2 ^ leAt boot 108 1 ≤ 2 ^ 32 * 2 ^ 12 := Nat.mul_le_mul hheap.le hpow
  have h3 : leAt boot 92 4 * 2 ^ (leAt boot 108 1 + leAt boot 109 1) ≤ 2 ^ 32 * 2 ^ 25 :=
    Nat.mul_le_mul hcount.le hpow'
  rw [shl_eq (by omega), ok_bind, Nat.one_shiftLeft, Nat.mod_eq_of_lt (by omega), shl_eq (by omega),
    ok_bind, Nat.shiftLeft_eq, ← pow_add, Nat.mod_eq_of_lt (by omega), field_eq (by omega), ok_bind,
    mul_eq (by omega), ok_bind, add_eq (by omega), ok_bind, field_eq (by omega), ok_bind,
    mul_eq (by omega), ok_bind, add_eq (by omega), ok_bind, field_eq (by omega), ok_bind,
    field_eq (by omega), ok_bind]
  by_cases hmany : 2 ≤ leAt boot 92 4
  case neg =>
    rw [if_pos (by omega)]
    exact ⟨fun _ h => absurd h.1 hmany, fun _ => safe_fail _⟩
  rw [if_neg (by omega), mul_eq (by omega), ok_bind]
  dsimp only
  by_cases hend : off + leAt boot 88 4 * 2 ^ leAt boot 108 1 +
      leAt boot 92 4 * 2 ^ (leAt boot 108 1 + leAt boot 109 1) ≤ img.len
  case neg =>
    rw [if_pos (by omega)]
    exact ⟨fun _ h => absurd h.2.1 hend, fun _ => safe_fail _⟩
  rw [if_neg (by omega)]
  by_cases hfat' : off + leAt boot 80 4 * 2 ^ leAt boot 108 1 < img.len
  case neg =>
    rw [if_pos (by omega)]
    exact ⟨fun _ h => absurd h.2.2.1 hfat', fun _ => safe_fail _⟩
  rw [if_neg (by omega)]
  unfold checkCluster
  by_cases hroot : 2 ≤ leAt boot 96 4
  case neg =>
    rw [if_pos (by omega)]
    exact ⟨fun _ h => absurd h.2.2.2 hroot, fun _ => safe_fail _⟩
  rw [if_neg (by omega)]
  dsimp only
  by_cases hfits : leAt boot 92 4 + 2 < 2 ^ 32
  · rw [add_eq hfits, ok_bind]
    refine ⟨fun _ _ => hfits, fun _ => ?_⟩
    split
    · exact safe_fail _
    · exact trivial
  · have hadd : (add 32 (leAt boot 92 4) 2 : Res Nat) = Checked.panic := if_neg hfits
    rw [hadd]
    constructor
    · exact fun h => h.elim
    · intro h
      exact absurd (h ⟨hmany, hend, hfat', hroot⟩) hfits

/-- **Opening an image** of any bytes is safe where the partition's start and the count of clusters
fit. -/
theorem fromFile_safe_iff (img : Image) (label : String) :
    Safe (fun _ => True) (fromFile img label) ↔ img.GptFits ∧ img.CountFits := by
  have hfind := findVolume_safe_iff img
  cases h : findVolume img with
  | error f =>
    rw [h] at hfind
    have hopen : fromFile img label = .error f := by
      unfold fromFile
      rw [h]
      rfl
    have hcount : img.CountFits := fun off boot h' => by
      rw [h] at h'
      cases h'
    rw [hopen, ← hfind]
    cases f with
    | error e => exact ⟨fun _ => ⟨trivial, hcount⟩, fun _ => trivial⟩
    | panic => exact ⟨fun h => h.elim, fun h => h.1⟩
  | ok off =>
    rw [h] at hfind
    have hgpt : img.GptFits := hfind.1 trivial
    rcases readAt_cases img off 512 with ⟨boot, hr⟩ | ⟨e, hr⟩
    · rw [fromFile_boot_safe_iff label h hr]
      constructor
      · intro hvalid
        refine ⟨hgpt, fun off' boot' h' hr' => ?_⟩
        rw [h] at h'
        cases h'
        rw [hr] at hr'
        cases hr'
        exact hvalid
      · exact fun hfits => hfits.2 off boot h hr
    · have hcount : img.CountFits := fun off' boot h' hr' => by
        rw [h] at h'
        cases h'
        rw [hr] at hr'
        cases hr'
      have hopen : fromFile img label = fail e := by
        unfold fromFile
        rw [h, ok_bind, hr]
        rfl
      rw [hopen]
      exact ⟨fun _ => ⟨hgpt, hcount⟩, fun _ => trivial⟩

/-- No check fails while an image is opened, walked and read in any way. -/
def ReaderTotal (img : Image) (label : String) : Prop :=
  Safe (fun _ => True) (fromFile img label) ∧
    ∀ v, fromFile img label = .ok v →
      Safe (fun _ => True) (exec (walkTree v) Held.fresh).1 ∧
        ∀ files empty s, exec (walkTree v) Held.fresh = (.ok (files, empty), s) →
          ∀ calls : List Call, (∀ c ∈ calls, c.file ∈ files) →
            ∀ r ∈ readCalls v calls s, Safe (fun _ => True) r

theorem ReaderTotal.opens {img : Image} {label : String} (h : ReaderTotal img label) :
    fromFile img label ≠ Checked.panic := Safe.ne_panic h.1

/-- The plain walk comes to no lone directory record, and lists no file with a lone one. -/
def Volume.NoLone (v : Volume) : Prop :=
  v.plainWalk ≠ .error .lone ∧ ∀ files empty, v.plainWalk = .ok (files, empty) →
    ∀ f ∈ files, ¬v.Lone f.firstCluster f.noFatChain f.valid

theorem readCalls_safe {v : Volume} (hv : v.Sound) {calls : List Call}
    (hcalls : ∀ c ∈ calls, c.file.Fits v ∧
      ¬v.Lone c.file.firstCluster c.file.noFatChain c.file.valid)
    {s : Held} (hs : v.Keeps s) : ∀ r ∈ readCalls v calls s, Safe (fun _ => True) r := by
  induction calls generalizing s with
  | nil => exact nofun
  | cons c cs ih =>
    intro r hr
    obtain ⟨hfits, hlone⟩ := hcalls c List.mem_cons_self
    have hread := readFile_returns hv hfits c.offset c.len s hs
    rcases List.mem_cons.1 hr with rfl | hr
    · rcases hread.1 with ⟨-, h⟩ | ⟨-, h⟩
      · obtain ⟨h1, h2, h3, h4, h5⟩ := h
        have hwritten : c.file.written c.offset c.len =
          min (min c.len (c.file.size - c.offset)) (c.file.valid - c.offset) := rfl
        exact absurd ⟨h1, h2, by omega, follow_isSome.2 h5⟩ hlone
      · exact h.safe fun _ _ => trivial
    · exact ih (fun c' hc' => hcalls c' (List.mem_cons_of_mem _ hc')) hread.2 r hr

/-- **The reader on any image.**  Opening it, walking it and reading its files never fails a check if
and only if the start of a GPT partition and the count of clusters fit, and no chained record longer
than a cluster starts at the last number a cluster can have where that number's slot leads on. -/
theorem reader_total_iff (img : Image) (label : String) :
    ReaderTotal img label ↔
      img.GptFits ∧ img.CountFits ∧ ∀ v, fromFile img label = .ok v → v.NoLone := by
  rw [ReaderTotal, fromFile_safe_iff, and_assoc]
  refine and_congr_right fun _ => and_congr_right fun _ => forall_congr' fun v => ?_
  refine imp_congr_right fun hopen => ?_
  have hv := from_file_sound hopen
  obtain ⟨halike, hkeeps⟩ := walkTree_like hv Held.fresh (keeps_fresh v)
  constructor
  · rintro ⟨hwalk, hreads⟩
    refine ⟨fun hlone => ?_, fun files empty hplain f hf hlone => ?_⟩
    · rw [hlone] at halike
      cases hr : (exec (walkTree v) Held.fresh).1 with
      | ok q =>
        rw [hr] at halike
        exact halike.elim
      | error e =>
        rw [hr] at halike hwalk
        cases e with
        | error e => exact halike.elim
        | panic => exact hwalk.elim
    · -- the whole of the file, from its first byte
      rw [hplain] at halike
      cases hr : (exec (walkTree v) Held.fresh).1 with
      | error e =>
        rw [hr] at halike
        cases e <;> exact halike.elim
      | ok q =>
        rw [hr] at halike
        obtain ⟨rfl, hfits⟩ := halike
        have hpanic := (readFile_returns hv (hfits f hf) 0 f.valid _ hkeeps).1
        have hwritten : f.written 0 f.valid = f.valid := by
          have := (hfits f hf).valid
          rw [ExFatFile.written]
          omega
        have hfile : v.LoneFile f 0 f.valid := by
          rw [Volume.LoneFile, hwritten, loneRead_zero hv]
          exact hlone
        have hsafe := hreads files empty _ (Prod.ext hr rfl) [⟨f, 0, f.valid⟩]
          (fun c hc => by rw [List.mem_singleton.1 hc]; exact hf) _ List.mem_cons_self
        rcases hpanic with ⟨hpanic, -⟩ | ⟨hnot, -⟩
        · rw [hpanic] at hsafe
          exact hsafe
        · exact hnot hfile
  · rintro ⟨hwalk, hfiles⟩
    refine ⟨?_, fun files empty s hexec calls hcalls => ?_⟩
    · cases hplain : v.plainWalk with
      | ok q =>
        rw [hplain] at halike
        cases hr : (exec (walkTree v) Held.fresh).1 with
        | ok q => exact trivial
        | error e =>
          rw [hr] at halike
          cases e <;> exact halike.elim
      | error stop =>
        cases stop with
        | lone => exact absurd hplain hwalk
        | refused =>
          rw [hplain] at halike
          cases hr : (exec (walkTree v) Held.fresh).1 with
          | ok q =>
            rw [hr] at halike
            exact halike.elim
          | error e =>
            rw [hr] at halike
            cases e with
            | error e => exact trivial
            | panic => exact halike.elim
    · obtain ⟨hs, hfits, hplain⟩ := walkTree_ok hv hexec
      exact readCalls_safe hv
        (fun c hc => ⟨hfits c.file (hcalls c hc), hfiles files empty hplain c.file (hcalls c hc)⟩) hs

/-- A GPT table whose only partition starts at the first sector past the range of byte offsets. -/
def farPartition : Image where
  bytes := List.replicate 512 0 ++
    (efiPart ++ List.replicate 64 0 ++ le 8 2 ++ le 4 1 ++ le 4 128 ++ List.replicate 424 0) ++
    (basicDataGuid ++ List.replicate 16 0 ++ le 8 (2 ^ 55) ++ List.replicate 88 0)
  fits := by decide +kernel

/-- Looking for the volume there multiplies past 64 bits. -/
theorem farPartition_not_total :
    fromFile farPartition "gpt" = Checked.panic ∧ ¬ReaderTotal farPartition "gpt" := by
  have hpanic : fromFile farPartition "gpt" = Checked.panic := by decide +kernel
  exact ⟨hpanic, fun h => h.opens hpanic⟩

end Ps5Upload.Exfat
