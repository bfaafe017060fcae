import Ps5Upload.Fpkg.Inner.Layout
import Ps5Upload.Fpkg.Inner.Write

/-!
# What `write_with` writes

The image of a plan that is not spread, place by place: the files, the block-info table behind them, the stored metadata,
and zeros everywhere else.

* `LaidOut` — the files stand in afid order, each from a boundary on, and the metadata behind them.
-/

namespace Ps5Upload.Inner

open Blocks ByteFile Checked Stamps Utf8

variable {zlib : Bytes → Except String Bytes} {keys : KeystoneKeys} {plan : Plan} {passcode : Text}
  {read : Text → Except String Bytes} {time : Time} {codec : MetaCodec} {data : List Bytes} {image : Bytes}

/-! ## The files' bytes -/

/-- A file's bytes at its place. -/
def pieceAt (plan : Plan) (data : List Bytes) (fi : Nat) : Nat × Bytes :=
  ((fileAt plan.files fi).onDiskOffset, data[fi]?.getD [])

/-- The files' bytes in afid order. -/
def pieces (plan : Plan) (data : List Bytes) : List (Nat × Bytes) := plan.afidOrder.map (pieceAt plan data)

/-- What was read is of the sizes that were planned. -/
theorem payloads_ok : ∀ {files : List PlannedFile} {data : List Bytes}, payloads keys passcode read files = .ok data →
    data.length = files.length ∧ ∀ i < files.length, payload keys passcode read (fileAt files i) = .ok (data[i]?.getD []) ∧
      (data[i]?.getD []).length = (fileAt files i).size
  | [], data, h => by
    cases h
    exact ⟨rfl, fun i hi => absurd hi (Nat.not_lt_zero i)⟩
  | f :: files, data, h => by
    rw [payloads] at h
    obtain ⟨d, hd, h⟩ := bind_eq_ok.1 h
    obtain ⟨hsize, h⟩ := refuse_eq_ok.1 h
    obtain ⟨rest, hrest, h⟩ := bind_eq_ok.1 h
    cases h
    obtain ⟨hlen, hall⟩ := payloads_ok hrest
    refine ⟨congrArg (· + 1) hlen, fun i hi => ?_⟩
    cases i with
    | zero => exact ⟨hd, not_not.1 hsize⟩
    | succ i => exact hall i (Nat.lt_of_succ_lt_succ hi)

/-- Files laid one after the other are pieces in order. -/
theorem ascending_of_laid (bytesOf : Nat → Bytes) : ∀ {fis : List Nat} {a stop : Nat},
    Laid a (fis.map (fileAt plan.files)) stop → (∀ fi ∈ fis, (bytesOf fi).length = (fileAt plan.files fi).size) →
      Ascending a (fis.map fun fi => ((fileAt plan.files fi).onDiskOffset, bytesOf fi)) stop
  | [], _, _, h, _ => Nat.le_of_eq h
  | fi :: fis, a, stop, h, hsize => by
    obtain ⟨hat, hrest⟩ := h
    have hasc := ascending_of_laid bytesOf hrest fun fi' h' => hsize fi' (List.mem_cons_of_mem _ h')
    refine ⟨Nat.le_of_eq hat.symm, hasc.mono ?_ (Nat.le_refl _)⟩
    rw [hat, hsize fi List.mem_cons_self]
    exact le_alignUp (by decide) _

/-- They stand from boundary to boundary. -/
theorem dvd_of_laid : ∀ {files : List PlannedFile} {a stop : Nat}, Laid a files stop → block ∣ a →
    block ∣ stop ∧ ∀ f ∈ files, block ∣ f.onDiskOffset
  | [], _, _, h, ha => ⟨h ▸ ha, (nofun)⟩
  | f :: files, a, stop, h, ha => by
    have hrest := dvd_of_laid h.2 (dvd_alignUp _ _)
    exact ⟨hrest.1, List.forall_mem_cons.2 ⟨h.1 ▸ ha, hrest.2⟩⟩

/-- A plan that is not spread, and that the mount has room for. -/
structure LaidOut (plan : Plan) : Prop where
  order : plan.afidOrder.Perm (List.range plan.files.length)
  laid : Laid 0 plan.inOrder plan.dataEnd
  base : block ∣ plan.metaBase
  /-- The region is a block behind the data at least, and within the mount. -/
  gap : plan.dataEnd + block ≤ plan.metaBase
  mount : plan.metaBase ≤ wrap (plan.ndblock * block)

theorem LaidOut.ascending (h : LaidOut plan) (hdata : ∀ i < plan.files.length,
    (data[i]?.getD []).length = (fileAt plan.files i).size) : Ascending 0 (pieces plan data) plan.dataEnd :=
  ascending_of_laid (fun fi => data[fi]?.getD []) h.laid fun fi hfi =>
    hdata fi (List.mem_range.1 (h.order.mem_iff.1 hfi))

theorem LaidOut.aligned (h : LaidOut plan) : block ∣ plan.dataEnd ∧ ∀ f ∈ plan.inOrder, block ∣ f.onDiskOffset :=
  dvd_of_laid h.laid (Nat.dvd_zero _)

/-- Plans that fit. -/
theorem Planned.laidOut {sizes : List Nat} (h : Planned sizes false plan) (hfits : Fits64 sizes plan) :
    LaidOut plan := by
  have hroomy := h.roomy hfits
  obtain ⟨hbase, -, -, hgap⟩ := h.metaBase_fits hfits
  have hublock : ublock = 0x40000 := rfl
  unfold Fits64 at hfits
  obtain ⟨c, hplaced, hend, -⟩ := h.files_fit (by omega)
  have hwrap : wrap (plan.ndblock * block) = plan.ndblock * block := Nat.mod_eq_of_lt hroomy.short
  refine ⟨h.order, hend ▸ hplaced.laid, hbase, hgap rfl, ?_⟩
  rw [hwrap, hroomy.mount]
  exact Nat.le_add_right _ _

/-! ## The image -/

/-- The image of a plan, place by place. -/
structure Written (plan : Plan) (data : List Bytes) (tail image : Bytes) : Prop where
  length : image.length = alignUp (plan.metaBase + tail.length) block
  inside : alignUp (plan.metaBase + tail.length) block ≤ wrap (plan.ndblock * block)
  files : ∀ q ∈ pieces plan data, (image.drop q.1).take q.2.length = q.2
  table : ∀ k < (blockInfoTable plan).length, image[plan.dataEnd + k]? = (blockInfoTable plan)[k]?
  gaps : ∀ p < plan.metaBase, (∀ q ∈ pieces plan data, p < q.1 ∨ q.1 + q.2.length ≤ p) →
    p < plan.dataEnd ∨ plan.dataEnd + (blockInfoTable plan).length ≤ p → image[p]? = some 0
  stored : ∀ k < tail.length, image[plan.metaBase + k]? = tail[k]?
  padding : ∀ p, plan.metaBase + tail.length ≤ p → p < image.length → image[p]? = some 0

theorem storeFiles_eq : ∀ {fis : List Nat} {image : Bytes}, data.length = plan.files.length →
    (∀ fi ∈ fis, fi < plan.files.length) →
    (∀ fi ∈ fis, (pieceAt plan data fi).1 + (pieceAt plan data fi).2.length ≤ image.length) →
      storeFiles plan data fis image = stamp image (fis.map (pieceAt plan data))
  | [], _, _, _, _ => rfl
  | fi :: fis, image, hlen, hin, hfit => by
    have hfi := hin fi List.mem_cons_self
    have hdata : fi < data.length := hlen ▸ hfi
    have hfitted := hfit fi List.mem_cons_self
    have hpiece : pieceAt plan data fi = (plan.files[fi].onDiskOffset, data[fi]) := by
      rw [pieceAt, fileAt, List.getElem?_eq_getElem hfi, List.getElem?_eq_getElem hdata, Option.getD_some, Option.getD_some]
    rw [hpiece] at hfitted
    rw [storeFiles, index_eq (List.getElem?_eq_getElem hfi), ok_bind, index_eq (List.getElem?_eq_getElem hdata), ok_bind,
      if_neg (Nat.not_lt.2 hfitted), List.map_cons, hpiece, stamp, blit_eq hfitted, ok_bind, ok_bind]
    refine storeFiles_eq hlen (fun fi' h => hin fi' (List.mem_cons_of_mem _ h)) fun fi' h => ?_
    refine (hfit fi' (List.mem_cons_of_mem _ h)).trans (Nat.le_of_eq ?_)
    simp only [List.length_append, List.length_take, List.length_drop]
    dsimp only at hfitted
    omega

theorem length_blockInfoTable (plan : Plan) : (blockInfoTable plan).length = 256 := by
  rw [blockInfoTable, List.length_flatMap]
  simp only [List.length_append, length_le, List.map_const', List.length_range, blockInfoEntries]
  rfl

/-- Files are stored inside the image only. -/
theorem storeFiles_inside : ∀ {fis : List Nat} {image image' : Bytes}, storeFiles plan data fis image = .ok image' →
    image'.length = image.length ∧ ∀ fi ∈ fis,
      (fileAt plan.files fi).onDiskOffset + (data[fi]?.getD []).length ≤ image.length
  | [], image, image', h => by
    cases h
    exact ⟨rfl, nofun⟩
  | fi :: fis, image, image', h => by
    rw [storeFiles] at h
    obtain ⟨f, hf, h⟩ := bind_eq_ok.1 h
    obtain ⟨d, hd, h⟩ := bind_eq_ok.1 h
    obtain ⟨hin, h⟩ := refuse_eq_ok.1 h
    obtain ⟨stored, hstored, h⟩ := bind_eq_ok.1 h
    have hlen := length_blit hstored
    obtain ⟨hrest, hall⟩ := storeFiles_inside h
    rw [hlen] at hrest hall
    refine ⟨hrest, List.forall_mem_cons.2 ⟨?_, hall⟩⟩
    rw [fileAt, index_eq_ok.1 hf, index_eq_ok.1 hd]
    exact Nat.not_lt.1 hin

/-- What the writer's checks say of the plan: the cursors of its layout have not wrapped. -/
theorem Planned.laidOut_of_written {sizes : List Nat} (h : Planned sizes false plan)
    (hw : writeWith zlib keys plan passcode read time codec = .ok image) : LaidOut plan := by
  rw [writeWith] at hw
  obtain ⟨data, hdata, hw⟩ := bind_eq_ok.1 hw
  obtain ⟨filled, hfilled, hw⟩ := bind_eq_ok.1 hw
  obtain ⟨hroom, hw⟩ := refuse_eq_ok.1 hw
  obtain ⟨tabled, htabled, hw⟩ := bind_eq_ok.1 hw
  obtain ⟨tail, -, hw⟩ := bind_eq_ok.1 hw
  obtain ⟨hfits, -⟩ := refuse_eq_ok.1 hw
  obtain ⟨-, hsizes⟩ := payloads_ok hdata
  obtain ⟨hlen, hinside⟩ := storeFiles_inside hfilled
  have hzeros : (zeros (wrap (plan.ndblock * block))).length = wrap (plan.ndblock * block) := List.length_replicate
  have hshort : wrap (plan.ndblock * block) < 2 ^ 64 := Nat.mod_lt _ (by decide)
  have hdvd : block ∣ wrap (plan.ndblock * block) := (Nat.dvd_mod_iff (by decide)).2 (Nat.dvd_mul_left _ _)
  rw [hzeros] at hlen hinside
  obtain ⟨c, hplaced, hend⟩ := h.placed
  have hlaid : Laid 0 plan.inOrder plan.dataEnd := by
    refine hend ▸ hplaced.laid hshort hdvd fun f hf => ?_
    obtain ⟨fi, hfi, rfl⟩ := List.mem_map.1 hf
    have hin := hinside fi hfi
    rwa [(hsizes fi (List.mem_range.1 (h.order.mem_iff.1 hfi))).2] at hin
  obtain ⟨haligned, -⟩ := dvd_of_laid hlaid (Nat.dvd_zero _)
  rw [length_blockInfoTable, alignUp_of_dvd block_pos haligned] at hroom
  rw [length_blit htabled, hlen] at hfits
  have hmeta := h.metaBase
  rw [metaBaseOf, if_neg Bool.false_ne_true] at hmeta
  -- a base that has wrapped is zero, and the table would not be in front of it
  have hlow : plan.dataEnd + block ≤ 2 ^ 64 := by
    have hle := Nat.le_of_dvd (by omega) (Nat.dvd_sub (show block ∣ 2 ^ 64 by decide) haligned)
    omega
  have hsum : wrap (plan.dataEnd + block) = plan.dataEnd + block := by
    refine Nat.mod_eq_of_lt (Nat.lt_of_le_of_ne hlow fun heq => ?_)
    rw [heq] at hmeta
    have hzero : wrap (alignUp (wrap (2 ^ 64)) metaAlign) = 0 := by decide
    omega
  rw [hsum] at hmeta
  have hup := le_alignUp (n := metaAlign) (by decide) (plan.dataEnd + block)
  have hround : wrap (alignUp (plan.dataEnd + block) metaAlign) = alignUp (plan.dataEnd + block) metaAlign := by
    refine Nat.mod_eq_of_lt (Nat.lt_of_le_of_ne (alignUp_le (by decide) (by decide) hlow) fun heq => ?_)
    rw [heq] at hmeta
    have hzero : wrap (2 ^ 64) = 0 := by decide
    omega
  rw [hround] at hmeta
  exact ⟨h.order, hlaid, hmeta ▸ (by decide : block ∣ metaAlign).trans (dvd_alignUp _ _), by omega, by omega⟩

/-- **The image that is written** is the image of the plan. -/
theorem writeWith_written (h : LaidOut plan)
    (hw : writeWith zlib keys plan passcode read time codec = .ok image) :
    ∃ data tail, payloads keys passcode read plan.files = .ok data ∧ plannedTail zlib plan time codec = .ok tail ∧
      Written plan data tail image := by
  rw [writeWith] at hw
  obtain ⟨data, hdata, hw⟩ := bind_eq_ok.1 hw
  obtain ⟨filled, hfilled, hw⟩ := bind_eq_ok.1 hw
  obtain ⟨-, hw⟩ := refuse_eq_ok.1 hw
  obtain ⟨tabled, htabled, hw⟩ := bind_eq_ok.1 hw
  obtain ⟨tail, htail, hw⟩ := bind_eq_ok.1 hw
  obtain ⟨hfits, hw⟩ := refuse_eq_ok.1 hw
  obtain ⟨hlen, hsizes⟩ := payloads_ok hdata
  have hasc := h.ascending fun i hi => (hsizes i hi).2
  have hend := h.aligned.1
  have hgap := h.gap
  have hmount := h.mount
  have hblock := block_pos
  have htable := length_blockInfoTable plan
  have hroom : (blockInfoTable plan).length ≤ block := by
    rw [htable]
    decide
  have hzeros : (zeros (wrap (plan.ndblock * block))).length = wrap (plan.ndblock * block) := List.length_replicate
  -- the files over zeros
  have hinside : ∀ q ∈ pieces plan data, q.1 + q.2.length ≤ (zeros (wrap (plan.ndblock * block))).length := fun q hq => by
    have := (hasc.mem q hq).2
    omega
  rw [storeFiles_eq hlen (fun fi hfi => List.mem_range.1 (h.order.mem_iff.1 hfi))
    fun fi hfi => hinside _ (List.mem_map_of_mem hfi)] at hfilled
  obtain ⟨filled', hstamp, hfilledLen, hout, hall⟩ := stamp_apart (ε := String) hinside hasc.pairwise
  rw [pieces, hfilled] at hstamp
  cases hstamp
  -- the table over that
  rw [alignUp_of_dvd block_pos hend] at htabled
  obtain ⟨tabled', hblit, htabledLen, htableOut, htableIn⟩ := blit_piece (ε := String)
    (d := filled) (i := plan.dataEnd) (w := blockInfoTable plan) (by omega)
  rw [htabled] at hblit
  cases hblit
  -- cut, and the metadata over that
  have hstop : alignUp (plan.metaBase + tail.length) block ≤ tabled.length := by
    refine alignUp_le block_pos ?_ (Nat.not_lt.1 hfits)
    rw [htabledLen, hfilledLen, hzeros]
    exact (Nat.dvd_mod_iff (by decide)).2 (Nat.dvd_mul_left _ _)
  have hcut := le_alignUp block_pos (plan.metaBase + tail.length)
  have htake : (tabled.take (alignUp (plan.metaBase + tail.length) block)).length =
      alignUp (plan.metaBase + tail.length) block := List.length_take_of_le hstop
  obtain ⟨image', hblit, himageLen, himageOut, himageIn⟩ := blit_piece (ε := String)
    (d := tabled.take (alignUp (plan.metaBase + tail.length) block)) (i := plan.metaBase) (w := tail) (by omega)
  rw [hw] at hblit
  cases hblit
  have hlow : ∀ p < plan.metaBase, image[p]? = tabled[p]? := fun p hp => by
    rw [himageOut p (.inl hp), List.getElem?_take_of_lt (by omega)]
  have hdata' : ∀ p < plan.dataEnd, image[p]? = filled[p]? := fun p hp => by
    rw [hlow p (by omega), htableOut p (.inl hp)]
  have hin := hstop
  rw [htabledLen, hfilledLen, hzeros] at hin
  refine ⟨data, tail, hdata, htail, himageLen.trans htake, hin, fun q hq => ?_, fun k hk => ?_, fun p hp hno hoff => ?_,
    himageIn, fun p hp hin => ?_⟩
  · have hstop' := (hasc.mem q hq).2
    refine Eq.trans (List.ext_getElem? fun k => ?_) (hall q hq)
    rcases Nat.lt_or_ge k q.2.length with hk | hk
    · rw [List.getElem?_take_of_lt hk, List.getElem?_take_of_lt hk, List.getElem?_drop, List.getElem?_drop,
        hdata' _ (by omega)]
    · rw [List.getElem?_eq_none ((List.length_take_le _ _).trans hk),
        List.getElem?_eq_none ((List.length_take_le _ _).trans hk)]
  · rw [hlow _ (by omega), htableIn k hk]
  · rw [hlow p hp, htableOut p hoff, hout p hno, zeros, List.getElem?_replicate, if_pos (by omega)]
  · rw [himageLen, htake] at hin
    have hbehind : ∀ q ∈ pieces plan data, p < q.1 ∨ q.1 + q.2.length ≤ p := fun q hq =>
      .inr (((hasc.mem q hq).2).trans (by omega))
    rw [himageOut p (.inr hp), List.getElem?_take_of_lt hin, htableOut p (.inr (by omega)), hout p hbehind, zeros,
      List.getElem?_replicate, if_pos (by omega)]

end Ps5Upload.Inner
