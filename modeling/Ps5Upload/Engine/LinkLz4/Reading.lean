import Ps5Upload.Engine.LinkLz4.Decoder
import Ps5Upload.Lib.Lz4Frame

/-!
# What the decoder's reads bring

A read of so many bytes brings the next bytes of the stream, however the reader splits them, and fails
where fewer are left.  Every loop of the decoder reads something in each turn, so none gets stuck.

* `Gets`, `Fails` — how a program ends, whatever becomes of the reader's splits;
* `gets_fill`, `gets_readU32`, `gets_skip` — reads inside the stream;
* `fails_need`, `fails_needU32`, `fails_skip` — reads past its end;
* `Shrinks`, `startTurn_left`, `blockTurn_work` — the measures of the loops go down.
-/

namespace Ps5Upload.LinkLz4

open ByteFile Loops

variable {α β : Type} {d d₁ d₂ : Decoder} {p : Dec α} {f : α → Dec β} {a : α} {b : β}
  {bytes r : Bytes} {n m : Nat}

/-! ## How a program ends -/

/-- The decoder at another place of the stream. -/
def Decoder.at (d : Decoder) (rest : Bytes) : Decoder := { d with r := ⟨rest, d.r.splits⟩ }

/-- The decoder whose reader will split its reads in this way. -/
def Decoder.splitting (d : Decoder) (splits : Nat → Nat) : Decoder := { d with r := ⟨d.r.rest, splits⟩ }

/-- The program ends well with `a` in `d'`, the reader's splits apart. -/
def Gets (p : Dec α) (d : Decoder) (a : α) (d' : Decoder) : Prop :=
  ∃ splits, p d = .ok (a, d'.splitting splits)

def Fails (p : Dec α) (d : Decoder) : Prop := ∃ e, p d = .error e

theorem Gets.pure (a : α) (d : Decoder) : Gets (Pure.pure a) d a d := ⟨d.r.splits, rfl⟩

theorem Gets.bind (hp : Gets p d a d₁) (hf : ∀ splits, Gets (f a) (d₁.splitting splits) b d₂) :
    Gets (p >>= f) d b d₂ := by
  obtain ⟨sp, hp⟩ := hp
  obtain ⟨sp', hf⟩ := hf sp
  refine ⟨sp', ?_⟩
  show (p d >>= fun q => f q.1 q.2) = _
  rw [hp]
  exact hf

theorem Fails.bind (hp : Fails p d) : Fails (p >>= f) d := by
  obtain ⟨e, hp⟩ := hp
  refine ⟨e, ?_⟩
  show (p d >>= fun q => f q.1 q.2) = _
  rw [hp]
  rfl

theorem Gets.bind_fails (hp : Gets p d a d₁) (hf : ∀ splits, Fails (f a) (d₁.splitting splits)) :
    Fails (p >>= f) d := by
  obtain ⟨sp, hp⟩ := hp
  obtain ⟨e, hf⟩ := hf sp
  refine ⟨e, ?_⟩
  show (p d >>= fun q => f q.1 q.2) = _
  rw [hp]
  exact hf

theorem fails_fail (e : LinkErr) (d : Decoder) : Fails (fail e : Dec α) d := ⟨e, rfl⟩

theorem gets_modify (g : Decoder → Decoder) (d : Decoder) : Gets (modify g) d () (g d) :=
  ⟨(g d).r.splits, rfl⟩

/-- What follows a look at the decoder is run with it. -/
theorem get_bind (f : Decoder → Dec α) (d : Decoder) : (get >>= f) d = f d d := rfl

/-- What a program that ended well has done, in two parts. -/
theorem bind_ok {s s' : Decoder} (h : (p >>= f) s = .ok (b, s')) :
    ∃ a t, p s = .ok (a, t) ∧ f a t = .ok (b, s') := by
  have h' : (p s >>= fun q => f q.1 q.2) = .ok (b, s') := h
  cases hp : p s with
  | error e =>
    rw [hp] at h'
    simp [Bind.bind, Except.bind] at h'
  | ok q =>
    rw [hp] at h'
    exact ⟨q.1, q.2, rfl, h'⟩

/-! ## Reads inside the stream -/

variable {rd : Reader} {got : Bytes} {d' : Decoder} {fx : Flex} {x : Option (Option Bytes)}

theorem fillLoop_append (h : rd.rest = bytes ++ r) (hn : got.length + bytes.length = n) :
    ∃ splits, fillLoop rd n got = .ok (some (got ++ bytes), ⟨r, splits⟩) := by
  induction hm : bytes.length using Nat.strong_induction_on generalizing rd got bytes with
  | _ m ih =>
    rw [fillLoop]
    by_cases hb : bytes = []
    · subst hb
      rw [List.length_nil] at hn
      rw [dif_neg (by omega), List.append_nil]
      exact ⟨rd.splits, by rw [← List.nil_append r, ← h]⟩
    · have hpos := List.length_pos_iff.2 hb
      rw [dif_pos (by omega)]
      have hk : min (n - got.length) (max 1 (rd.splits 0)) ≤ bytes.length := by omega
      have hp : (rd.read (n - got.length)).1 = bytes.take (min (n - got.length) (max 1 (rd.splits 0))) := by
        rw [Reader.read, h, List.take_append_of_le_length hk]
      have hrest : (rd.read (n - got.length)).2.rest =
          bytes.drop (min (n - got.length) (max 1 (rd.splits 0))) ++ r := by
        rw [Reader.read, h, List.drop_append_of_le_length hk]
      have hne : (rd.read (n - got.length)).1 ≠ [] := by
        intro hnil
        have := congrArg List.length hnil
        rw [hp, List.length_take, List.length_nil] at this
        omega
      rw [dif_neg hne]
      have hlen : (got ++ (rd.read (n - got.length)).1).length +
          (bytes.drop (min (n - got.length) (max 1 (rd.splits 0)))).length = n := by
        rw [hp, List.length_append, List.length_take, List.length_drop]
        omega
      obtain ⟨sp, hsp⟩ := ih _ (by rw [List.length_drop]; omega) hrest hlen rfl
      refine ⟨sp, ?_⟩
      rw [hsp, hp, List.append_assoc, List.take_append_drop]

/-- Fewer bytes than asked for, but some: the stream ends in the middle. -/
theorem fillLoop_short (hn : got.length + rd.rest.length < n)
    (hne : got ≠ [] ∨ rd.rest ≠ []) : fillLoop rd n got = .error .midBlock := by
  induction hm : rd.rest.length using Nat.strong_induction_on generalizing rd got with
  | _ m ih =>
    rw [fillLoop, dif_pos (by omega)]
    by_cases hrest : rd.rest = []
    · have hp : (rd.read (n - got.length)).1 = [] := by rw [Reader.read, hrest, List.take_nil]
      rw [dif_pos hp, if_neg (hne.resolve_right (by simp [hrest]))]
    · have hpos := List.length_pos_iff.2 hrest
      have hp : (rd.read (n - got.length)).1 ≠ [] := by
        intro hnil
        have := congrArg List.length hnil
        rw [Reader.read, List.length_take, List.length_nil] at this
        omega
      rw [dif_neg hp]
      refine ih _ ?_ ?_ (.inl (by simp [hp])) rfl
      · rw [Reader.read, List.length_drop]
        omega
      · rw [Reader.read, List.length_append, List.length_take, List.length_drop]
        omega

theorem gets_fill (h : d.r.rest = bytes ++ r) (hn : bytes.length = n) :
    Gets (fill n) d (some bytes) (d.at r) := by
  have hlen : ([] : Bytes).length + bytes.length = n := by rw [List.length_nil, Nat.zero_add, hn]
  obtain ⟨sp, hsp⟩ := fillLoop_append h hlen
  refine ⟨sp, ?_⟩
  rw [fill, hsp]
  rfl

theorem gets_fill_end (h : d.r.rest = []) (hn : 0 < n) : Gets (fill n) d none (d.at []) := by
  refine ⟨fun i => d.r.splits (i + 1), ?_⟩
  have hp : (d.r.read (n - ([] : Bytes).length)).1 = [] := by rw [Reader.read, h, List.take_nil]
  have hr : (d.r.read (n - ([] : Bytes).length)).2 = ⟨[], fun i => d.r.splits (i + 1)⟩ := by
    rw [Reader.read, h, List.drop_nil]
  have hlen : ([] : Bytes).length < n := hn
  rw [fill, fillLoop, dif_pos hlen]
  dsimp only
  rw [dif_pos hp, if_pos rfl, hr]
  rfl

theorem fails_fill (hn : d.r.rest.length < n) (hne : d.r.rest ≠ []) : Fails (fill n) d := by
  refine ⟨.midBlock, ?_⟩
  rw [fill, fillLoop_short (by rw [List.length_nil]; omega) (.inr hne)]

theorem le32_le (hm : m < 2 ^ 32) : (le32 (le 4 m)).toNat = m := by
  have := leAt_le 4 m []
  rw [List.append_nil] at this
  rw [le32, this, UInt32.toNat_ofNat']
  omega

theorem gets_readU32 (h : d.r.rest = le 4 m ++ r) :
    Gets readU32 d (some (le32 (le 4 m))) (d.at r) :=
  (gets_fill h (length_le 4 m)).bind fun _ => .pure _ _

theorem gets_readU32_end (h : d.r.rest = []) : Gets readU32 d none (d.at []) :=
  (gets_fill_end h (by decide)).bind fun _ => .pure _ _

theorem gets_needU32 (h : d.r.rest = le 4 m ++ r) : Gets needU32 d (le32 (le 4 m)) (d.at r) :=
  (gets_readU32 h).bind fun _ => .pure _ _

theorem gets_need {e : LinkErr} (h : d.r.rest = bytes ++ r) (hn : bytes.length = n) :
    Gets (need n e) d bytes (d.at r) :=
  (gets_fill h hn).bind fun _ => .pure _ _

theorem gets_skip (h : d.r.rest = bytes ++ r) : Gets (skip bytes.length) d () (d.at r) := by
  induction hm : bytes.length using Nat.strong_induction_on generalizing d bytes with
  | _ m ih =>
    rw [skip]
    split
    · rename_i hpos
      have hsplit : d.r.rest = bytes.take (min m (1024 * 1024)) ++
          (bytes.drop (min m (1024 * 1024)) ++ r) := by
        rw [← List.append_assoc, List.take_append_drop, h]
      have hlen : (bytes.drop (min m (1024 * 1024))).length = m - min m (1024 * 1024) := by
        rw [List.length_drop, hm]
      refine (gets_need hsplit (by rw [List.length_take]; omega)).bind fun sp => ?_
      have hrest : ((d.at (bytes.drop (min m (1024 * 1024)) ++ r)).splitting sp).r.rest =
          bytes.drop (min m (1024 * 1024)) ++ r := rfl
      exact ih _ (by omega) hrest hlen
    · rename_i hpos
      obtain rfl : bytes = [] := List.length_eq_zero_iff.1 (by omega)
      refine ⟨d.r.splits, ?_⟩
      rw [Decoder.at, Decoder.splitting, ← List.nil_append r, ← h]
      rfl

/-! ## Reads past the end -/

theorem fails_need {e : LinkErr} (hn : d.r.rest.length < n) : Fails (need n e) d := by
  by_cases hne : d.r.rest = []
  · exact (gets_fill_end hne (by omega)).bind_fails fun _ => fails_fail _ _
  · exact (fails_fill hn hne).bind

theorem fails_needU32 (hn : d.r.rest.length < 4) : Fails needU32 d := by
  by_cases hne : d.r.rest = []
  · exact (gets_readU32_end hne).bind_fails fun _ => fails_fail _ _
  · exact Fails.bind (Fails.bind (fails_fill hn hne))

theorem fails_readU32 (hn : d.r.rest.length < 4) (hne : d.r.rest ≠ []) : Fails readU32 d :=
  Fails.bind (fails_fill hn hne)

theorem fails_skip (hn : d.r.rest.length < n) : Fails (skip n) d := by
  induction hm : n using Nat.strong_induction_on generalizing d n with
  | _ m ih =>
    subst hm
    rw [skip, dif_pos (by omega)]
    by_cases hlt : d.r.rest.length < min n (1024 * 1024)
    · exact (fails_need hlt).bind
    · have hsplit := (List.take_append_drop (min n (1024 * 1024)) d.r.rest).symm
      refine (gets_need hsplit (by rw [List.length_take]; omega)).bind_fails fun sp => ?_
      refine ih _ (by omega) ?_ rfl
      show (d.r.rest.drop _).length < _
      rw [List.length_drop]
      omega

/-! ## The measures of the loops -/

/-- A program that ends well leaves no more of the stream than there was. -/
def Shrinks (p : Dec α) : Prop := ∀ d a d', p d = .ok (a, d') → d'.left ≤ d.left

theorem shrinks_pure (a : α) : Shrinks (Pure.pure a : Dec α) := by
  intro d a' d' h
  cases h
  exact le_refl _

theorem shrinks_fail (e : LinkErr) : Shrinks (fail e : Dec α) := fun _ _ _ h => absurd h (by simp [fail])

theorem Shrinks.bind (hp : Shrinks p) (hf : ∀ a, Shrinks (f a)) : Shrinks (p >>= f) := by
  intro d b d' h
  obtain ⟨a, t, h1, h2⟩ := bind_ok h
  exact Nat.le_trans (hf a t b d' h2) (hp d a t h1)

theorem shrinks_get : Shrinks (get : Dec Decoder) := by
  intro d a d' h
  cases h
  exact le_refl _

theorem shrinks_modify {g : Decoder → Decoder} (h : ∀ d, (g d).r = d.r) : Shrinks (modify g : Dec Unit) := by
  intro d a d' hd
  cases hd
  rw [Decoder.left, h]
  exact le_refl _

theorem fillLoop_length {rd' : Reader} {o : Option Bytes} (h : fillLoop rd n got = .ok (o, rd')) :
    rd'.rest.length ≤ rd.rest.length ∧
      (o.isSome → got.length ≤ n → rd'.rest.length + n = rd.rest.length + got.length) := by
  induction hm : n - got.length using Nat.strong_induction_on generalizing rd got with
  | _ m ih =>
    rw [fillLoop] at h
    split at h
    · dsimp only at h
      split at h
      · split at h
        · cases h
          refine ⟨?_, by simp⟩
          rw [Reader.read, List.length_drop]
          omega
        · simp at h
      · rename_i hne
        have hpos := List.length_pos_iff.2 hne
        have hlen : (rd.read (n - got.length)).1.length + (rd.read (n - got.length)).2.rest.length =
            rd.rest.length := by
          rw [Reader.read, List.length_take, List.length_drop]
          omega
        have hle : (rd.read (n - got.length)).1.length ≤ n - got.length := by
          rw [Reader.read, List.length_take]
          omega
        obtain ⟨h1, h2⟩ := ih _ (by rw [List.length_append]; omega) h rfl
        refine ⟨by omega, fun ho _ => ?_⟩
        have := h2 ho (by rw [List.length_append]; omega)
        rw [List.length_append] at this
        omega
    · cases h
      exact ⟨le_refl _, fun _ _ => by omega⟩

theorem fill_left {o : Option Bytes} (h : fill n d = .ok (o, d')) :
    d'.left ≤ d.left ∧ (o.isSome → d'.left + n = d.left) := by
  rw [fill] at h
  split at h
  · rename_i hf
    cases h
    obtain ⟨h1, h2⟩ := fillLoop_length hf
    exact ⟨h1, fun ho => by have := h2 ho (Nat.zero_le _); simpa [Decoder.left] using this⟩
  · simp at h

theorem shrinks_fill (n : Nat) : Shrinks (fill n) := fun _ _ _ h => (fill_left h).1

theorem shrinks_readU32 : Shrinks readU32 := by
  refine (shrinks_fill 4).bind fun o => ?_
  cases o with
  | none => exact shrinks_pure _
  | some b => exact shrinks_pure _

theorem readU32_left {w : UInt32} (h : readU32 d = .ok (some w, d')) : d'.left + 4 = d.left := by
  obtain ⟨o, t, h1, h2⟩ := bind_ok h
  cases o with
  | none => cases h2
  | some b =>
    cases h2
    exact (fill_left h1).2 rfl

theorem needU32_left {w : UInt32} (h : needU32 d = .ok (w, d')) : d'.left + 4 = d.left := by
  obtain ⟨o, t, h1, h2⟩ := bind_ok h
  cases o with
  | none => simp [fail] at h2
  | some w =>
    cases h2
    exact readU32_left h1

theorem shrinks_needU32 : Shrinks needU32 := fun _ _ _ h => by have := needU32_left h; omega

theorem shrinks_need (n : Nat) (e : LinkErr) : Shrinks (need n e) := by
  refine (shrinks_fill n).bind fun o => ?_
  cases o with
  | none => exact shrinks_fail _
  | some b => exact shrinks_pure _

theorem shrinks_skip (n : Nat) : Shrinks (skip n) := by
  induction n using Nat.strong_induction_on with
  | _ n ih =>
    rw [skip]
    split
    · exact (shrinks_need _ _).bind fun _ => ih _ (by omega)
    · exact shrinks_pure _

theorem shrinks_nextMagic : Shrinks nextMagic := by
  refine shrinks_get.bind fun d => ?_
  split
  · exact (shrinks_modify (by intro; rfl)).bind fun _ => shrinks_pure _
  · exact shrinks_readU32

theorem shrinks_startHeader : Shrinks startHeader := by
  refine (shrinks_need _ _).bind fun b => ?_
  dsimp only
  split
  · exact shrinks_fail _
  split
  · exact shrinks_fail _
  split
  · exact shrinks_fail _
  have hlast : ∀ g : Decoder → Decoder, (∀ d, (g d).r = d.r) → Shrinks (do
      let _ ← need 1 .midHeader
      modify g) := fun g hg => (shrinks_need _ _).bind fun _ => shrinks_modify hg
  split
  · refine (shrinks_need _ _).bind fun b => ?_
    exact (shrinks_modify (by intro; rfl)).bind fun _ => hlast _ (by intro; rfl)
  · exact (shrinks_modify (by intro; rfl)).bind fun _ => hlast _ (by intro; rfl)

/-- A turn of `start_frame` that goes on has read something. -/
theorem startTurn_left (h : startTurn d = .ok (none, d')) : d'.left < d.left := by
  obtain ⟨o, t, h1, h2⟩ := bind_ok h
  have ht := shrinks_nextMagic _ _ _ h1
  cases o with
  | none =>
    obtain ⟨s, t', h3, h4⟩ := bind_ok h2
    split at h4
    · cases h4
    · simp [fail] at h4
  | some magic =>
    dsimp only at h2
    split at h2
    · obtain ⟨n, t1, h3, h4⟩ := bind_ok h2
      obtain ⟨_, t2, h5, h6⟩ := bind_ok h4
      cases h6
      have h7 := needU32_left h3
      have h8 := shrinks_skip _ _ _ _ h5
      omega
    · split at h2
      · obtain ⟨_, t1, h3, h4⟩ := bind_ok h2
        cases h4
      · split at h2
        · obtain ⟨s, t', h3, h4⟩ := bind_ok h2
          split at h4
          · simp [fail] at h4
          · simp [fail] at h4
        · obtain ⟨_, t1, h3, h4⟩ := bind_ok h2
          cases h4

theorem shrinks_startTurn : Shrinks startTurn := by
  refine shrinks_nextMagic.bind fun o => ?_
  cases o with
  | none =>
    refine shrinks_get.bind fun s => ?_
    split
    · exact shrinks_pure _
    · exact shrinks_fail _
  | some magic =>
    dsimp only
    split
    · exact shrinks_needU32.bind fun n => (shrinks_skip _).bind fun _ => shrinks_pure _
    split
    · exact (shrinks_modify (by intro; rfl)).bind fun _ => shrinks_pure _
    split
    · refine shrinks_get.bind fun s => ?_
      split
      · exact shrinks_fail _
      · exact shrinks_fail _
    · exact shrinks_startHeader.bind fun _ => shrinks_pure _

theorem shrinks_startFrame : Shrinks startFrame := by
  intro d b d' h
  obtain ⟨t, ht, hb⟩ := loop_rule (I := fun t => t.left ≤ d.left)
    (fun s s' hs hb => Nat.le_of_lt (Nat.lt_of_lt_of_le (startTurn_left hb) hs)) (le_refl _) h
  exact Nat.le_trans (shrinks_startTurn t _ d' hb) ht

theorem startHeader_cur (h : startHeader d = .ok ((), d')) : d'.cur ≠ none := by
  obtain ⟨b, t, -, h2⟩ := bind_ok h
  dsimp only at h2
  split at h2
  · simp [fail] at h2
  split at h2
  · simp [fail] at h2
  split at h2
  · simp [fail] at h2
  split at h2
  · obtain ⟨_, _, -, h3⟩ := bind_ok h2
    obtain ⟨_, _, -, h4⟩ := bind_ok h3
    obtain ⟨_, _, -, h5⟩ := bind_ok h4
    cases h5
    simp
  · obtain ⟨_, _, -, h3⟩ := bind_ok h2
    obtain ⟨_, _, -, h4⟩ := bind_ok h3
    cases h4
    simp

/-- A container has been started when `start_frame` says so. -/
theorem startFrame_cur (h : startFrame d = .ok (true, d')) : d'.cur ≠ none := by
  obtain ⟨t, -, hb⟩ := loop_rule (I := fun _ => True) (fun _ _ _ _ => trivial) trivial h
  obtain ⟨o, t1, -, h2⟩ := bind_ok hb
  cases o with
  | none =>
    obtain ⟨s, t', -, h4⟩ := bind_ok h2
    split at h4
    · cases h4
    · simp [fail] at h4
  | some magic =>
    dsimp only at h2
    split at h2
    · obtain ⟨n, t1, -, h4⟩ := bind_ok h2
      obtain ⟨_, t2, -, h6⟩ := bind_ok h4
      cases h6
    split at h2
    · obtain ⟨_, t1, h3, h4⟩ := bind_ok h2
      cases h3
      cases h4
      simp
    split at h2
    · obtain ⟨s, t', -, h4⟩ := bind_ok h2
      split at h4
      · simp [fail] at h4
      · simp [fail] at h4
    · obtain ⟨_, t1, h3, h4⟩ := bind_ok h2
      cases h4
      exact startHeader_cur h3

theorem shrinks_undamaged (o : Option Bytes) : Shrinks (undamaged o) := by
  cases o with
  | none => exact shrinks_fail _
  | some out => exact shrinks_pure _

/-- What a turn inside a legacy stream reads. -/
theorem legacyTurn_left
    (h : legacyTurn fx d = .ok (x, d')) : x ≠ some none → d'.left + 4 ≤ d.left := by
  obtain ⟨o, t, h1, h2⟩ := bind_ok h
  cases o with
  | none =>
    obtain ⟨_, t1, -, h4⟩ := bind_ok h2
    cases h4
    exact fun hx => absurd rfl hx
  | some word =>
    have hword := readU32_left h1
    intro _
    have hrest : Shrinks (do
        let input ← need word.toNat .midBlock
        let out ← undamaged (fx.decompressInto input LEGACY_BLOCK)
        return some (some out) : Dec (Option (Option Bytes))) :=
      (shrinks_need _ _).bind fun _ => (shrinks_undamaged _).bind fun _ => shrinks_pure _
    dsimp only at h2
    split at h2
    · obtain ⟨_, t1, h3, h4⟩ := bind_ok h2
      cases h3
      cases h4
      exact Nat.le_of_eq hword
    split at h2
    · simp [fail] at h2
    · have := hrest _ _ _ h2
      omega

/-- What a turn inside a frame reads. -/
theorem frameTurn_left {i bc cc : Bool} {max : Nat} (h : frameTurn fx i bc cc max d = .ok (x, d')) : d'.left + 4 ≤ d.left := by
  obtain ⟨word, t, h1, h2⟩ := bind_ok h
  have hword := needU32_left h1
  have hend : ∀ y : Option (Option Bytes), Shrinks (do
      modify fun d => { d with cur := none, closed := true }
      return y : Dec (Option (Option Bytes))) := fun y =>
    (shrinks_modify (by intro; rfl)).bind fun _ => shrinks_pure _
  have htail : ∀ out, Shrinks (do
      if !i then modify fun d => { d with dict := slide d.dict out }
      return some (some out) : Dec (Option (Option Bytes))) := by
    intro out
    split
    · exact (shrinks_modify (by intro; rfl)).bind fun _ => shrinks_pure _
    · exact shrinks_pure _
  have hrest : d'.left ≤ t.left := by
    dsimp only at h2
    split at h2
    · split at h2
      · exact (shrinks_needU32.bind fun _ => hend none) _ _ _ h2
      · exact hend none _ _ _ h2
    split at h2
    · simp [fail] at h2
    · refine ((shrinks_need _ _).bind fun input => shrinks_get.bind fun s => Shrinks.bind ?_ fun out => ?_) _ _ _ h2
      · split
        · exact shrinks_pure _
        split
        · exact shrinks_undamaged _
        · exact shrinks_undamaged _
      · split
        · exact shrinks_needU32.bind fun _ => htail out
        · exact htail out
  omega

theorem blockTurn_none (h : d.cur = none) : blockTurn fx d =
    (startFrame >>= fun b => if b then return none else return some none : Dec (Option (Option Bytes))) d := by
  rw [blockTurn, get_bind, h]

theorem blockTurn_legacy (h : d.cur = some .legacy) : blockTurn fx d = legacyTurn fx d := by
  rw [blockTurn, get_bind, h]

theorem blockTurn_frame {i bc cc : Bool} {max : Nat} (h : d.cur = some (.frame i bc cc max)) :
    blockTurn fx d = frameTurn fx i bc cc max d := by
  rw [blockTurn, get_bind, h]

/-- What a turn of `next_block` does to the measure, unless it is at the end. -/
theorem blockTurn_work
    (h : blockTurn fx d = .ok (x, d')) (hx : x ≠ some none) : d'.work < d.work := by
  rw [Decoder.work, Decoder.work]
  cases hcur : d.cur with
  | none =>
    rw [blockTurn_none hcur] at h
    obtain ⟨b, t, h3, h4⟩ := bind_ok h
    have hleft := shrinks_startFrame _ _ _ h3
    cases b with
    | true =>
      cases h4
      have := startFrame_cur h3
      rw [Option.isNone_none, if_pos rfl, if_neg (by simpa [Option.isNone_iff_eq_none] using this)]
      omega
    | false =>
      cases h4
      exact absurd rfl hx
  | some container =>
    have hleft : d'.left + 4 ≤ d.left := by
      cases container with
      | legacy =>
        rw [blockTurn_legacy hcur] at h
        exact legacyTurn_left h hx
      | frame i bc cc max =>
        rw [blockTurn_frame hcur] at h
        exact frameTurn_left h
    simp only [Option.isNone_some, Bool.false_eq_true, if_false]
    split <;> omega

/-- A block of the stream has been read. -/
theorem nextBlock_work {b : Bytes} (h : nextBlock fx d = .ok (some b, d')) : d'.work < d.work := by
  obtain ⟨t, ht, hb⟩ := loop_rule (I := fun t => t.work ≤ d.work)
    (fun s s' hs hb => Nat.le_of_lt (Nat.lt_of_lt_of_le (blockTurn_work hb (by simp)) hs)) (le_refl _) h
  exact Nat.lt_of_lt_of_le (blockTurn_work hb (by simp)) ht

end Ps5Upload.LinkLz4
