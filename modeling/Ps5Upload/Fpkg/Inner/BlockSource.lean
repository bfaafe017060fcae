import Ps5Upload.Fpkg.Inner.Region
import Ps5Upload.Lib.PartitionPoint

/-!
# The image block by block

`BlockSource` against `write_with`: the image that is given on demand, block by block, is the one that is written at once.

* `block_source_image` — **the blocks of a source, in any order, are those of the image**.
-/

namespace Ps5Upload.Inner

open Blocks ByteFile Checked Stamps Utf8 PartitionPoint

variable {zlib : Bytes → Except String Bytes} {keys : KeystoneKeys} {plan : Plan} {passcode : Text}
  {read : Text → Except String Bytes} {range : RangeRead} {time : Time} {codec : MetaCodec} {data : List Bytes}
  {tail image : Bytes}

/-! ## The source -/

def spanFor (plan : Plan) (fi : Nat) : Span :=
  ⟨(fileAt plan.files fi).onDiskOffset, (fileAt plan.files fi).onDiskOffset + (fileAt plan.files fi).size, fi⟩

/-- What a source is made of. -/
def sourceOf (keys : KeystoneKeys) (passcode : Text) (plan : Plan) (tail : Bytes) : BlockSource where
  plan
  spans := plan.afidOrder.map (spanFor plan)
  table := blockInfoTable plan
  tableBlock := plan.dataEnd / block
  stored := (List.range ((tail.length + (block - 1)) / block)).map fun j => setLen ((tail.drop (j * block)).take block) block
  metaBlock := plan.metaBase / block
  keystone := keystone keys passcode

theorem spansOf_eq : ∀ {fis : List Nat}, (∀ fi ∈ fis, fi < plan.files.length) →
    spansOf plan fis = .ok (fis.map (spanFor plan))
  | [], _ => rfl
  | fi :: fis, h => by
    have hfi := h fi List.mem_cons_self
    have hspan : spanOf plan fi = .ok (spanFor plan fi) := by
      rw [spanOf, index_eq (List.getElem?_eq_getElem hfi), ok_bind, spanFor, fileAt, List.getElem?_eq_getElem hfi]
      rfl
    rw [spansOf, hspan, ok_bind, spansOf_eq fun fi' h' => h fi' (List.mem_cons_of_mem _ h')]
    rfl

theorem padLast_eq : ∀ {bs : List Bytes}, (∀ b ∈ bs.dropLast, b.length = block) → padLast bs = bs.map (setLen · block)
  | [], _ => rfl
  | [b], _ => rfl
  | b :: b' :: bs, h => by
    rw [List.dropLast_cons_cons] at h
    have hb := h b List.mem_cons_self
    rw [padLast, padLast_eq fun c hc => h c (List.mem_cons_of_mem _ hc), List.map_cons, List.map_cons, List.map_cons,
      setLen_of_le hb.ge, List.take_of_length_le hb.le]
    exact List.cons_ne_nil _ _

/-- All blocks of a list but the last are full. -/
theorem length_dropLast_blocksOf {l b : Bytes} (h : b ∈ (blocksOf l).dropLast) : b.length = block := by
  have hpos := block_pos
  rw [blocksOf, List.dropLast_eq_take, List.length_map, List.length_range, ← List.map_take, List.take_range] at h
  obtain ⟨j, hj, rfl⟩ := List.mem_map.1 h
  have hlt := Nat.add_lt_of_lt_sub ((List.mem_range.1 hj).trans_le (Nat.min_le_left _ _))
  have hle := (Nat.le_div_iff_mul_le hpos).1 hlt
  rw [Nat.succ_mul, Nat.succ_mul] at hle
  rw [List.length_take, List.length_drop]
  omega

theorem stored_eq (l : Bytes) : padLast (blocksOf l) =
    (List.range ((l.length + (block - 1)) / block)).map fun j => setLen ((l.drop (j * block)).take block) block := by
  rw [padLast_eq fun b hb => length_dropLast_blocksOf hb, blocksOf, List.map_map]
  rfl

/-- The spans in afid order are in the order of their places. -/
theorem LaidOut.before (h : LaidOut plan) :
    (plan.afidOrder.map (spanFor plan)).Pairwise fun a b => a.stop ≤ b.start := by
  have hasc := (ascending_of_laid (fun fi => zeros (fileAt plan.files fi).size) h.laid
    fun fi _ => List.length_replicate).before
  rw [List.pairwise_map] at hasc ⊢
  refine hasc.imp fun {a b} hab => ?_
  rw [zeros, List.length_replicate] at hab
  exact hab

theorem LaidOut.start_le {span : Span} (hspan : span ∈ plan.afidOrder.map (spanFor plan)) : span.start ≤ span.stop := by
  obtain ⟨fi, -, rfl⟩ := List.mem_map.1 hspan
  exact Nat.le_add_right _ _

/-- The spans that end at a place or before it come first. -/
theorem LaidOut.ended (h : LaidOut plan) (lo : Nat) : (plan.afidOrder.map (spanFor plan)).Pairwise fun x y =>
    decide (y.stop ≤ lo) = true → decide (x.stop ≤ lo) = true := by
  refine h.before.imp_of_mem fun _ hy hxy => ?_
  have := LaidOut.start_le hy
  simp only [decide_eq_true_eq]
  omega

theorem newWith_eq (h : LaidOut plan) (htail : plannedTail zlib plan time codec = .ok tail) :
    BlockSource.newWith zlib keys plan passcode time codec = .ok (sourceOf keys passcode plan tail) := by
  have hsorted : (plan.afidOrder.map (spanFor plan)).insertionSort (fun a b => a.start ≤ b.start) =
      plan.afidOrder.map (spanFor plan) := by
    refine List.Pairwise.insertionSort_eq ?_
    have hbefore := h.before
    rw [List.pairwise_map] at hbefore ⊢
    exact hbefore.imp fun {a b} hab => Nat.le_trans (Nat.le_add_right _ _) hab
  rw [BlockSource.newWith, spansOf_eq fun fi hfi => List.mem_range.1 (h.order.mem_iff.1 hfi), ok_bind, htail, ok_bind,
    hsorted, stored_eq, alignUp_of_dvd block_pos h.aligned.1]
  rfl

/-! ## A block of the files -/

/-- What a file's range gives: the image's bytes there. -/
def Gives (s : BlockSource) (range : RangeRead) (image : Bytes) (span : Span) : Prop :=
  ∀ offset want, offset + want ≤ span.stop - span.start →
    (index s.plan.files span.file >>= fun f => spanBytes s range f offset want) =
      .ok ((image.drop (span.start + offset)).take want)

theorem eq_block {image : Bytes} (lo hi : Nat) {buf : Bytes} (hlen : buf.length = hi - lo)
    (h : ∀ k, lo + k < hi → buf[k]? = image[lo + k]?) : buf = (image.drop lo).take (hi - lo) := by
  refine List.ext_getElem? fun k => ?_
  by_cases hk : lo + k < hi
  · rw [List.getElem?_take_of_lt (by omega), List.getElem?_drop, h k hk]
  · rw [List.getElem?_eq_none (by omega), List.getElem?_eq_none ((List.length_take_le _ _).trans (by omega))]

/-- **The loop over the spans** fills the block: what is before `a` is there, and from `a` on it is still zeros. -/
theorem fillSpans_eq {s : BlockSource} {lo hi : Nat} (hlo : lo ≤ hi) (hin : hi ≤ image.length) :
    ∀ {spans : List Span} (a : Nat) {buf : Bytes}, buf.length = hi - lo → (∀ span ∈ spans, Gives s range image span) →
      (∀ span ∈ spans, a ≤ span.start ∧ span.start ≤ span.stop) → spans.Pairwise (fun x y => x.stop ≤ y.start) →
      (∀ p, a ≤ p → lo ≤ p → p < hi → (∀ span ∈ spans, p < span.start ∨ span.stop ≤ p) → image[p]? = some 0) →
      (∀ k, lo + k < a → lo + k < hi → buf[k]? = image[lo + k]?) →
      (∀ k, a ≤ lo + k → lo + k < hi → buf[k]? = some 0) →
        fillSpans s range lo hi spans buf = (.ok (), (image.drop lo).take (hi - lo))
  | [], a, buf, hlen, _, _, _, hzero, hbefore, hbehind => by
    rw [fillSpans, ← eq_block lo hi hlen fun k hk => ?_]
    by_cases hka : lo + k < a
    · exact hbefore k hka hk
    · rw [hbehind k (by omega) hk, hzero _ (by omega) (Nat.le_add_right _ _) hk (nofun)]
  | span :: spans, a, buf, hlen, hgives, hplace, hpair, hzero, hbefore, hbehind => by
    obtain ⟨hstart, hstop⟩ := hplace span List.mem_cons_self
    obtain ⟨hlater, hpair⟩ := List.pairwise_cons.1 hpair
    have hrest : ∀ y ∈ spans, span.stop ≤ y.start ∧ y.start ≤ y.stop := fun y hy =>
      ⟨hlater y hy, (hplace y (List.mem_cons_of_mem _ hy)).2⟩
    -- up to this span's end nothing else has a byte
    have hgap : ∀ p, a ≤ p → lo ≤ p → p < hi → p < span.start → image[p]? = some 0 := fun p ha hlop hp hps =>
      hzero p ha hlop hp fun y hy => by
        rcases List.mem_cons.1 hy with rfl | hy
        · exact .inl hps
        · have := (hrest y hy).1
          exact .inl (by omega)
    have hzero' : ∀ p, span.stop ≤ p → lo ≤ p → p < hi → (∀ y ∈ spans, p < y.start ∨ y.stop ≤ p) →
        image[p]? = some 0 := fun p hsp hlop hp hno => hzero p (by omega) hlop hp fun y hy => by
        rcases List.mem_cons.1 hy with rfl | hy
        · exact .inr hsp
        · exact hno y hy
    rw [fillSpans]
    split
    · rename_i hbreak
      rw [← eq_block lo hi hlen fun k hk => ?_]
      by_cases hka : lo + k < a
      · exact hbefore k hka hk
      · rw [hbehind k (by omega) hk, hgap _ (by omega) (Nat.le_add_right _ _) hk (by omega)]
    split
    · rename_i hmiss
      refine fillSpans_eq hlo hin span.stop hlen (fun y hy => hgives y (List.mem_cons_of_mem _ hy)) hrest hpair hzero'
        (fun k hk hk' => ?_) fun k hk hk' => hbehind k (by omega) hk'
      by_cases hka : lo + k < a
      · exact hbefore k hka hk'
      · rw [hbehind k (by omega) hk', hgap _ (by omega) (Nat.le_add_right _ _) hk' (by omega)]
    · rename_i hhit
      dsimp only
      have hread := hgives span List.mem_cons_self (max span.start lo - span.start)
        (min span.stop hi - max span.start lo) (by omega)
      rw [show span.start + (max span.start lo - span.start) = max span.start lo by omega] at hread
      set bytes := (image.drop (max span.start lo)).take (min span.stop hi - max span.start lo) with hbytes
      have hbytesLen : bytes.length = min span.stop hi - max span.start lo := by
        rw [hbytes, List.length_take, List.length_drop]
        omega
      obtain ⟨buf', hblit, hlen', hout, hput⟩ := blit_piece (ε := String) (d := buf) (i := max span.start lo - lo)
        (w := bytes) (by omega)
      have hturn : (index s.plan.files span.file >>= fun f => spanBytes s range f (max span.start lo - span.start)
          (min span.stop hi - max span.start lo) >>= fun bytes => blit buf (max span.start lo - lo) bytes) = .ok buf' := by
        rw [← bind_assoc, hread, ok_bind, hblit]
      rw [hturn]
      dsimp only
      refine fillSpans_eq hlo hin span.stop (hlen'.trans hlen) (fun y hy => hgives y (List.mem_cons_of_mem _ hy)) hrest hpair hzero'
        (fun k hk hk' => ?_) fun k hk hk' => ?_
      · by_cases hks : lo + k < max span.start lo
        · rw [hout k (.inl (by omega))]
          by_cases hka : lo + k < a
          · exact hbefore k hka hk'
          · rw [hbehind k (by omega) hk', hgap _ (by omega) (Nat.le_add_right _ _) hk' (by omega)]
        · have hin' := hput (lo + k - max span.start lo) (by omega)
          rw [show max span.start lo - lo + (lo + k - max span.start lo) = k by omega] at hin'
          rw [hin', hbytes, List.getElem?_take_of_lt (by omega), List.getElem?_drop,
            show max span.start lo + (lo + k - max span.start lo) = lo + k by omega]
      · rw [hout k (.inr (by omega))]
        exact hbehind k (by omega) hk'

/-! ## Every block -/

/-- A ranged read gives what a whole read gives there. -/
def Ranged (read : Text → Except String Bytes) (range : RangeRead) : Prop :=
  ∀ path d, read path = .ok d → ∀ offset want, offset + want ≤ d.length →
    range path offset want = .ok ((d.drop offset).take want)

/-- Every file's range gives what the image has there. -/
theorem Written.gives (hw : Written plan data tail image) (h : LaidOut plan)
    (hp : payloads keys passcode read plan.files = .ok data) (hrange : Ranged read range) :
    ∀ span ∈ (sourceOf keys passcode plan tail).spans, Gives (sourceOf keys passcode plan tail) range image span := by
  intro span hspan offset want hfit
  obtain ⟨fi, hfi, rfl⟩ := List.mem_map.1 hspan
  have hlt := List.mem_range.1 (h.order.mem_iff.1 hfi)
  obtain ⟨hpayload, hsize⟩ := (payloads_ok hp).2 fi hlt
  have hpiece := hw.files _ (List.mem_map_of_mem hfi)
  rw [pieceAt] at hpiece
  rw [spanFor] at hfit ⊢
  dsimp only at hpiece hfit ⊢
  have hfile : (index (sourceOf keys passcode plan tail).plan.files fi : Res String _) = .ok (fileAt plan.files fi) :=
    index_eq (by rw [fileAt, sourceOf, List.getElem?_eq_getElem hlt]; rfl)
  rw [Nat.add_sub_cancel_left, ← hsize] at hfit
  rw [hfile, ok_bind, spanBytes]
  -- a range of the file is a range of the image
  have hrangeOf : (((data[fi]?.getD []).drop offset).take want : Bytes) =
      (image.drop ((fileAt plan.files fi).onDiskOffset + offset)).take want := by
    have hcut := congrArg (fun d : Bytes => (d.drop offset).take want) hpiece
    rw [List.drop_take, List.take_take, List.drop_drop, Nat.min_eq_left (by omega)] at hcut
    exact hcut.symm
  rw [payload] at hpayload
  split at hpayload
  · rename_i hkeystone
    have hdata : keystone keys passcode = data[fi]?.getD [] := Except.ok.inj hpayload
    rw [if_pos hkeystone, sourceOf]
    dsimp only
    rw [hdata, if_pos hfit, hrangeOf]
  · rename_i hkeystone
    rw [if_neg hkeystone]
    cases hread : read (fileAt plan.files fi).path with
    | error e =>
      rw [hread] at hpayload
      cases hpayload
    | ok d =>
      rw [hread] at hpayload
      have hd : d = data[fi]?.getD [] := Except.ok.inj hpayload
      rw [hrange _ d hread offset want (hd ▸ hfit), hd]
      dsimp only
      rw [if_neg (not_not.2 ?_), hrangeOf]
      rw [List.length_take, List.length_drop]
      omega

theorem Written.diskBlocks (hw : Written plan data tail image) (h : LaidOut plan) (keys : KeystoneKeys)
    (passcode : Text) :
    (sourceOf keys passcode plan tail).diskBlocks * block = image.length := by
  rw [hw.length, alignUp_add block_pos h.base, BlockSource.diskBlocks, sourceOf]
  dsimp only
  rw [List.length_map, List.length_range, Nat.add_mul, Nat.div_mul_cancel h.base]
  rfl

theorem length_block_of {i n : Nat} (hlen : n * block = image.length) (hi : i < n) :
    ((image.drop (i * block)).take block).length = block := by
  have := Nat.mul_le_mul_right block (Nat.succ_le_of_lt hi)
  rw [Nat.succ_mul] at this
  rw [List.length_take, List.length_drop]
  omega

/-- A block is told by its places. -/
theorem eq_block_of {i : Nat} {b : Bytes} (hb : b.length = block)
    (h : ∀ k < block, b[k]? = image[i * block + k]?) : b = (image.drop (i * block)).take block := by
  have hblock := eq_block (i * block) (i * block + block)
    (by rw [hb, Nat.add_sub_cancel_left]) fun k hk => h k (Nat.lt_of_add_lt_add_left hk)
  rwa [Nat.add_sub_cancel_left] at hblock

theorem getElem?_setLen (b : Bytes) {n k : Nat} (hk : k < n) : (setLen b n)[k]? = some (b[k]?.getD 0) := by
  rw [setLen]
  rcases Nat.lt_or_ge k b.length with hb | hb
  · rw [List.getElem?_append_left (by rw [List.length_take]; omega), List.getElem?_take_of_lt hk,
      List.getElem?_eq_getElem hb, Option.getD_some]
  · rw [List.take_of_length_le (by omega), List.getElem?_append_right hb, List.getElem?_replicate, if_pos (by omega),
      List.getElem?_eq_none hb, Option.getD_none]

/-- **One block** of the source is the image's. -/
theorem block_eq (hw : Written plan data tail image) (h : LaidOut plan)
    (hp : payloads keys passcode read plan.files = .ok data) (hrange : Ranged read range) {i : Nat}
    (hi : i < (sourceOf keys passcode plan tail).diskBlocks) {buf : Bytes} (hbuf : buf.length = block) :
    ∃ buf', (sourceOf keys passcode plan tail).block range i buf = (.ok ((image.drop (i * block)).take block), buf') ∧
      buf'.length = block := by
  have hpos := block_pos
  have hlen := length_block_of (hw.diskBlocks h keys passcode) hi
  have hbase := h.base
  have hgap := h.gap
  have hdata := h.aligned.1
  have hasc := h.ascending fun j hj => ((payloads_ok hp).2 j hj).2
  have htable := length_blockInfoTable plan
  have hroom : (blockInfoTable plan).length ≤ block := by
    rw [htable]
    decide
  have hzeros : (zeros block).length = block := List.length_replicate
  have hzero : ∀ k < block, (zeros block)[k]? = some 0 := fun k hk => by rw [zeros, List.getElem?_replicate, if_pos hk]
  have hend : plan.dataEnd / block * block = plan.dataEnd := Nat.div_mul_cancel hdata
  have hmeta : plan.metaBase / block * block = plan.metaBase := Nat.div_mul_cancel hbase
  rw [BlockSource.block, if_neg (Nat.not_le.2 hi), hbuf]
  dsimp only
  split
  · -- the metadata
    rename_i hstored
    have hstored : plan.metaBase / block ≤ i := hstored
    have hj : i - plan.metaBase / block < (tail.length + (block - 1)) / block := by
      have : i < plan.metaBase / block + _ := hi
      rw [sourceOf] at this
      dsimp only at this
      rw [List.length_map, List.length_range] at this
      omega
    have hget : (sourceOf keys passcode plan tail).stored[i - (sourceOf keys passcode plan tail).metaBlock]? =
        some (setLen ((tail.drop ((i - plan.metaBase / block) * block)).take block) block) := by
      rw [sourceOf]
      dsimp only
      rw [List.getElem?_map, List.getElem?_range hj, Option.map_some]
    rw [hget]
    refine ⟨_, congrArg (fun b => (Except.ok b, zeros block)) (eq_block_of ?_ fun k hk => ?_), hzeros⟩
    · rw [length_setLen]
    · rw [getElem?_setLen _ hk, List.getElem?_take_of_lt hk, List.getElem?_drop]
      have hplace : i * block = plan.metaBase + (i - plan.metaBase / block) * block := by
        rw [← hmeta, ← Nat.add_mul, Nat.mul_div_cancel _ hpos, Nat.add_sub_cancel' hstored]
      have hlast := Nat.mul_le_mul_right block (Nat.succ_le_of_lt hi)
      rw [hw.diskBlocks h keys passcode, Nat.succ_mul] at hlast
      rw [hplace, Nat.add_assoc]
      rcases Nat.lt_or_ge ((i - plan.metaBase / block) * block + k) tail.length with hin | hout
      · rw [hw.stored _ hin, List.getElem?_eq_getElem hin, Option.getD_some]
      · rw [hw.padding _ (by omega) (by omega), List.getElem?_eq_none hout, Option.getD_none]
  rename_i hstored
  have hstored : i < plan.metaBase / block := Nat.not_le.1 hstored
  have hbelow := Nat.mul_le_mul_right block (Nat.succ_le_of_lt hstored)
  rw [Nat.succ_mul, hmeta] at hbelow
  split
  · -- the table
    rename_i hat
    have hat : i = plan.dataEnd / block := hat
    have hlo : i * block = plan.dataEnd := by rw [hat, hend]
    have htake : (sourceOf keys passcode plan tail).table.take (min (sourceOf keys passcode plan tail).table.length block) =
        blockInfoTable plan := List.take_of_length_le (Nat.le_min.2 ⟨Nat.le_refl _, hroom⟩)
    obtain ⟨filled, hblit, hfilled, hout, hput⟩ := blit_piece (ε := String) (d := zeros block) (i := 0)
      (w := blockInfoTable plan) (by omega)
    rw [htake, hblit]
    refine ⟨filled, congrArg (fun b => (Except.ok b, filled)) (eq_block_of (hfilled.trans hzeros) fun k hk => ?_),
      hfilled.trans hzeros⟩
    rw [hlo]
    rcases Nat.lt_or_ge k (blockInfoTable plan).length with hin | hpast
    · rw [hw.table k hin, ← hput k hin, Nat.zero_add]
    · rw [hout k (.inr (by omega)), hzero k hk, hw.gaps _ (by omega) (fun q hq => .inr ?_) (.inr (by omega))]
      exact (hasc.mem q hq).2.trans (Nat.le_add_right _ _)
  rename_i hat
  have hat : i ≠ plan.dataEnd / block := hat
  split
  · -- the gap behind the table
    rename_i hpad
    have hpad : min ((i + 1) * block) plan.dataEnd ≤ i * block := hpad
    rw [Nat.succ_mul] at hpad
    have hlo : plan.dataEnd + block ≤ i * block := by
      have hge : plan.dataEnd / block ≤ i := by
        rcases min_le_iff.1 hpad with hfull | hend'
        · exact absurd hfull (Nat.not_le.2 (Nat.lt_add_of_pos_right hpos))
        · exact Nat.div_le_of_le_mul (Nat.mul_comm i block ▸ hend')
      have := Nat.mul_le_mul_right block (Nat.succ_le_of_lt (Nat.lt_of_le_of_ne hge hat.symm))
      rw [Nat.succ_mul, hend] at this
      exact this
    refine ⟨_, congrArg (fun b => (Except.ok b, zeros block)) (eq_block_of hzeros fun k hk => ?_), hzeros⟩
    rw [hzero k hk, hw.gaps _ (by omega) (fun q hq => .inr ?_) (.inr (by omega))]
    exact (hasc.mem q hq).2.trans (by omega)
  · -- the files
    rename_i hpad
    have hpad : ¬min ((i + 1) * block) plan.dataEnd ≤ i * block := hpad
    have hhi : min ((i + 1) * block) plan.dataEnd = i * block + block := by
      have hlt : i < plan.dataEnd / block := Nat.lt_of_mul_lt_mul_right (a := block)
        (by rw [hend]; exact Nat.not_le.1 fun hle => hpad ((Nat.min_le_right _ _).trans hle))
      have := Nat.mul_le_mul_right block (Nat.succ_le_of_lt hlt)
      rw [Nat.succ_mul, hend] at this
      rw [Nat.succ_mul, Nat.min_eq_left this]
    have hdrop : (sourceOf keys passcode plan tail).spans.drop
        (partitionPoint (fun span => decide (span.stop ≤ i * block)) (sourceOf keys passcode plan tail).spans) =
          (plan.afidOrder.map (spanFor plan)).filter fun span => !decide (span.stop ≤ i * block) := by
      rw [partitionPoint, drop_length_takeWhile]
      exact dropWhile_eq_filter (h.ended _)
    have hpastEnd : i * block + block ≤ plan.dataEnd := by
      rw [← hhi]
      exact Nat.min_le_right _ _
    have hlong : i * block + block ≤ image.length := by
      rw [← hw.diskBlocks h keys passcode, ← Nat.succ_mul]
      exact Nat.mul_le_mul_right _ hi
    have hfill := fillSpans_eq (Nat.le_add_right (i * block) block) hlong 0
      (show (zeros block).length = i * block + block - i * block by rw [hzeros, Nat.add_sub_cancel_left])
      (fun span hspan => hw.gives h hp hrange span (List.mem_of_mem_filter hspan :
        span ∈ (plan.afidOrder.map (spanFor plan))))
      (fun span hspan => ⟨Nat.zero_le _, LaidOut.start_le (List.mem_of_mem_filter hspan)⟩)
      (h.before.sublist (List.filter_sublist (p := fun span => !decide (span.stop ≤ i * block))))
      (fun p _ hlo hpast hno => hw.gaps p (Nat.lt_of_lt_of_le hpast hbelow) (fun q hq => ?_)
        (.inl (Nat.lt_of_lt_of_le hpast hpastEnd)))
      (fun k hk => absurd hk (Nat.not_lt_zero _)) (fun k _ hk => hzero k (Nat.lt_of_add_lt_add_left hk))
    · rw [Nat.add_sub_cancel_left] at hfill
      rw [hdrop, show (sourceOf keys passcode plan tail).plan.dataEnd = plan.dataEnd from rfl, hhi, hfill]
      exact ⟨_, rfl, hlen⟩
    · obtain ⟨fi, hfi, rfl⟩ := List.mem_map.1 hq
      have hsize := ((payloads_ok hp).2 fi (List.mem_range.1 (h.order.mem_iff.1 hfi))).2
      rw [pieceAt]
      dsimp only
      rw [hsize]
      by_cases hended : (spanFor plan fi).stop ≤ i * block
      · exact .inr (Nat.le_trans hended hlo)
      · exact hno (spanFor plan fi) (List.mem_filter.2 ⟨List.mem_map_of_mem hfi, by simpa using hended⟩)

/-- The spans of a block are those of the files that have a byte in it. -/
theorem blockSpans_eq (h : LaidOut plan) (keys : KeystoneKeys) (passcode : Text) (tail : Bytes) (i : Nat) :
    (sourceOf keys passcode plan tail).blockSpans i = (plan.afidOrder.map (spanFor plan)).filter fun span =>
      max span.start (i * block) < min span.stop (i * block + block) := by
  rw [BlockSource.blockSpans, partitionPoint, partitionPoint]
  refine (between_eq_filter (h.ended _) ?_ fun span hspan hended => ?_).trans (List.filter_congr fun span hspan => ?_)
  · refine h.before.imp_of_mem fun hx _ hxy => ?_
    have := LaidOut.start_le hx
    simp only [decide_eq_true_eq]
    omega
  · have := LaidOut.start_le hspan
    have hpos := block_pos
    simp only [decide_eq_true_eq] at hended ⊢
    omega
  · -- a file without bytes stands on a boundary
    have hle := LaidOut.start_le hspan
    obtain ⟨fi, hfi, rfl⟩ := List.mem_map.1 hspan
    obtain ⟨k, hk⟩ : block ∣ (spanFor plan fi).start := h.aligned.2 _ (List.mem_map_of_mem hfi)
    have hpos := block_pos
    rw [Bool.eq_iff_iff]
    simp only [Bool.and_eq_true, Bool.not_eq_true', decide_eq_false_iff_not, decide_eq_true_eq]
    have hempty : (spanFor plan fi).start = (spanFor plan fi).stop → i * block < (spanFor plan fi).stop →
        ¬(spanFor plan fi).start < i * block + block := fun heq hlo hhi => by
      rw [← heq, hk, Nat.mul_comm block k] at hlo
      rw [hk, Nat.mul_comm block k] at hhi
      have hnext := Nat.mul_le_mul_right block (Nat.succ_le_of_lt (Nat.lt_of_mul_lt_mul_right hlo))
      rw [Nat.succ_mul] at hnext
      omega
    omega

/-- **The streaming source is the writer**: where `write_with` gives an image, the source of the plan is there, its blocks
come to the image's length, asked for in any order they are the image's, and its spans of a block are the files that have
a byte in it. -/
theorem block_source_image {input : List SourceFile} {emptyDirs : List Text}
    (hplan : buildTree input emptyDirs false = .ok plan) (hrange : Ranged read range)
    (hw : writeWith zlib keys plan passcode read time codec = .ok image) :
    ∃ s, BlockSource.newWith zlib keys plan passcode time codec = .ok s ∧ s.diskBlocks * block = image.length ∧
      (∀ is, (∀ i ∈ is, i < s.diskBlocks) → s.blocks range is (zeros block) =
        is.map fun i => .ok ((image.drop (i * block)).take block)) ∧
      ∀ i, s.blockSpans i = (plan.afidOrder.map (spanFor plan)).filter fun span =>
        max span.start (i * block) < min span.stop (i * block + block) := by
  have h := (planned hplan).laidOut_of_written hw
  obtain ⟨data, tail, hp, htail, hwritten⟩ := writeWith_written h hw
  refine ⟨_, newWith_eq h htail, hwritten.diskBlocks h keys passcode, fun is his => ?_, fun i => ?_⟩
  · have hblocks : ∀ (is : List Nat) (buf : Bytes), (∀ i ∈ is, i < (sourceOf keys passcode plan tail).diskBlocks) →
        buf.length = block → (sourceOf keys passcode plan tail).blocks range is buf =
          is.map fun i => .ok ((image.drop (i * block)).take block) := by
      intro is
      induction is with
      | nil => exact fun buf _ _ => rfl
      | cons i is ih =>
        intro buf his hbuf
        obtain ⟨buf', hblock, hbuf'⟩ := block_eq hwritten h hp hrange (his i List.mem_cons_self) hbuf
        rw [BlockSource.blocks, hblock]
        dsimp only
        rw [ih buf' (fun j hj => his j (List.mem_cons_of_mem _ hj)) hbuf', List.map_cons]
    exact hblocks is _ his List.length_replicate
  · exact blockSpans_eq h keys passcode tail i

theorem block_source_image_lone : ∃ plan image s, writeWith .ok loneKeys plan [] loneRead (0, 0) .stored = .ok image ∧
    BlockSource.newWith .ok loneKeys plan [] (0, 0) .stored = .ok s ∧ s.diskBlocks * block = image.length := by
  obtain ⟨plan, hplan, hfits, hreads⟩ := lone_reads
  obtain ⟨data, hp⟩ := payloads_iff.2 hreads
  have hroomy := (planned hplan).roomy hfits
  obtain ⟨image, hw⟩ := writeWith_ok ((planned hplan).laidOut hfits) hroomy hp (shrinks_stored hroomy .ok (0, 0))
  have hrange : Ranged loneRead loneRange := fun _ d hd offset want _ => by
    cases hd
    rfl
  obtain ⟨s, hs, hblocks, -⟩ := block_source_image hplan hrange hw
  exact ⟨plan, image, s, hw, hs, hblocks⟩

end Ps5Upload.Inner
