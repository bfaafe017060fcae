import Ps5Upload.Lib.Runs
import Ps5Upload.Payload.Mesh.Docs

/-!
# Changing the console's drive list

The model of `doc_read` and `doc_update` of `ps5upload-engine/src/mesh_drive.rs`, run by any number
of engines against one console: read the document, change it, put it back under the revision that
was read, and do it all again when another engine wrote in between.

* serde_json and the conversions derived for the document type are parameters (`Serde`); what the
  code relies on is that `from_slice` reads the helper's replies (`ReadsReplies`).
* `updates_in_order`: the document is what the updates whose put was accepted make of it, one after
  another.

An update fails when the reply to its put is lost, whether the put was accepted or not.  A revision
is a 64-bit number that wraps, so a put is safe as long as fewer than 2^64 other puts were accepted
since its get (`StillFresh`).  `lost_reply_and_last_revision` has an example of each.
-/

namespace Ps5Upload.DocUpdate

open ByteFile WebuiCodec CText JsonText Mesh Runs

/-! ## Requests -/

def drives : Bytes := ascii "drives"

def getBody : Bytes := (Json.obj (.cons (ascii "name") (.str drives) .nil)).print

/-- The body of a put; the keys of a map are written in order. -/
def putBody (rev : UInt64) (doc : Json) : Bytes :=
  (Json.obj (.cons (ascii "base") (.num (JsonNum.ofNat rev.toNat)) (.cons (ascii "doc") doc
    (.cons (ascii "name") (.str drives) .nil)))).print

theorem putBody_shape (rev : UInt64) (doc : Json) :
    putBody rev doc = 0x7b :: (printStr (ascii "base") ++ 0x3a ::
      ((Json.num (JsonNum.ofNat rev.toNat)).print ++ 0x2c :: (printStr (ascii "doc") ++ 0x3a ::
        (doc.print ++ 0x2c :: (printStr (ascii "name") ++ 0x3a ::
          ((Json.str drives).print ++ [0x7d])))))) := by
  simp [putBody, Json.print, Members.print]

theorem topValue_brace {key : Bytes} {cs v : Bytes} (h : topValue (0x7b :: cs) key = some v) :
    memberValue key (0x7b :: cs).length cs = some v := by
  rw [topValue, ws_cons (by decide)] at h
  simpa using h

/-- Past 64 bits nothing is read; otherwise the digits say the number. -/
theorem digits_value {v n v' n' : Nat} {p rest : Bytes} (h : digits v n p = some (v', n', rest)) :
    v' = readDigits v p := by
  induction p generalizing v n with
  | nil =>
    simp only [digits, Option.some.injEq, Prod.mk.injEq] at h
    exact h.1.symm
  | cons c cs ih =>
    rw [digits] at h
    split at h
    · rename_i hc
      simp only at h
      split at h
      · cases h
      · rw [readDigits, if_pos (by simpa [isDigit] using hc)]
        exact ih h
    · rename_i hc
      cases h
      rw [readDigits, if_neg (by simpa [isDigit] using hc)]

theorem putBody_base {rev : UInt64} {doc : Json} {base : Nat}
    (h : (jsonU64 (putBody rev doc) "base").value? = some base) : base = rev.toNat := by
  unfold jsonU64 at h
  cases htop : topValue (putBody rev doc) (ascii "base") with
  | none => simp [htop, Found.value?] at h
  | some p =>
    rw [putBody_shape] at htop
    have hp := memberValue_found (by decide) (topValue_brace htop)
    simp only [htop, putBody_shape] at h
    cases hdig : digits 0 0 p with
    | none => simp [hdig, Found.value?] at h
    | some t =>
      obtain ⟨v, n, rest⟩ := t
      have hv := digits_value hdig
      simp only [hdig] at h
      split at h
      · cases h
      · cases h
        rw [hv, hp, print_ofNat]
        exact readDigits_dec rev.toNat (noDigit_cons (show isDigit 0x2c = false by decide) _)

theorem putBody_name {rev : UInt64} {doc : Json} {name : Bytes}
    (h : (jsonStr (putBody rev doc) "name" 48).value? = some name) : name = drives := by
  unfold jsonStr at h
  cases htop : topValue (putBody rev doc) (ascii "name") with
  | none => simp [htop, Found.value?] at h
  | some p =>
    have hfound := htop
    rw [putBody_shape] at hfound
    obtain ⟨turns, h1⟩ := memberValue_next (by decide) (topValue_brace hfound)
    obtain ⟨turns, h2⟩ := memberValue_next (by decide) h1
    have hp := memberValue_found (by decide) h2
    have hdecode : decodeStr 48 p = some drives := by
      rw [hp]
      decide
    simp only [htop, hdecode, Found.value?, Option.some.injEq] at h
    exact h.symm

/-- **The helper keeps the document as the engine wrote it.** -/
theorem putBody_doc {rev : UInt64} {doc : Json} {v : Bytes}
    (h : topSpan (putBody rev doc) (ascii "doc") = some v) : v = doc.print := by
  rw [putBody_shape, topSpan, ws_cons (by decide)] at h
  simp only [if_true] at h
  obtain ⟨turns, h1⟩ := topSpanFrom_next (by decide) h
  exact topSpanFrom_found (by decide) (endsValue_comma _) h1

/-! ## Reading -/

/-- serde_json, and the conversions derived for the document type. -/
structure Serde (D : Type) where
  fromSlice : Bytes → Option Json
  toValue : D → Json
  fromValue : Json → Option D
  default_ : D

variable {D : Type}

/-- What a document's text reads as. -/
def Serde.readText (sj : Serde D) : Option Bytes → Option Json
  | some text => sj.fromSlice text
  | none => some .null

/-- No document, or one an engine wrote. -/
def Serde.Wrote (sj : Serde D) (doc : Option Bytes) : Prop :=
  doc = none ∨ ∃ d, doc = some (sj.toValue d).print

/-- `from_slice` reads the helper's replies: a member's value is what its text reads as. -/
structure ReadsReplies (sj : Serde D) : Prop where
  get : ∀ rev doc, sj.Wrote doc → sj.fromSlice (getReply rev doc) = (sj.readText doc).map fun v =>
    .obj (.cons (ascii "doc") v (.cons (ascii "ok") (.bool true)
      (.cons (ascii "rev") (.num (JsonNum.ofNat rev.toNat)) .nil)))
  saved : ∀ rev, sj.fromSlice (savedReply rev) = some
    (.obj (.cons (ascii "ok") (.bool true) (.cons (ascii "rev") (.num (JsonNum.ofNat rev.toNat))
      (.cons (ascii "saved") (.bool true) .nil))))
  stale : ∀ rev doc, sj.Wrote doc → sj.fromSlice (staleReply rev doc) = (sj.readText doc).map fun v =>
    .obj (.cons (ascii "doc") v (.cons (ascii "ok") (.bool true)
      (.cons (ascii "rev") (.num (JsonNum.ofNat rev.toNat)) (.cons (ascii "saved") (.bool false) .nil))))

/-- The document a value is; a list this version cannot read is an error, none is the empty one. -/
def Serde.docOf (sj : Serde D) (v : Option Json) : Option D :=
  match v with
  | some d => if d.isObject then sj.fromValue d else some sj.default_
  | none => some sj.default_

/-- `doc_read`; `none` is an error. -/
def docRead (sj : Serde D) (docs : Docs) : Option (UInt64 × D) :=
  match meshDocGet docs getBody with
  | .fail _ => none
  | .ok text =>
    (sj.fromSlice text).bind fun v =>
      (sj.docOf (v.get (ascii "doc"))).map fun d =>
        (((v.get (ascii "rev")).bind Json.asU64).getD 0, d)

/-! ## Engines and a console -/

/-- What an update has read.  `seen` is not in the source: how many puts were accepted by then. -/
structure Reading (D : Type) where
  rev : UInt64
  doc : D
  seen : Nat

/-- A running `doc_update`: its change function at each call of it, the turns of its loop that are
over, and what it read in this turn. -/
structure Update (D : Type) where
  change : Nat → D → Option D
  turns : Nat
  reading : Option (Reading D)

/-- An update whose put was accepted, and whether it reported saved. -/
structure Accepted (D : Type) where
  change : D → Option D
  reported : Bool

/-- The console's documents and the running updates.  `accepted` is not in the source: the updates
whose put was accepted, in that order. -/
structure System (D : Type) where
  docs : Docs
  updates : Nat → Option (Update D)
  accepted : List (Accepted D)

/-- A put's reply is `delivered`, or lost after the helper is done with the put. -/
inductive Action (D : Type) where
  | start (e : Nat) (change : Nat → D → Option D)
  | get (e : Nat)
  | put (e : Nat) (count : Nat) (written delivered : Bool)
  | fail (e : Nat)
  | restart

/-- The update is over, or goes into its next turn; after six it gives up. -/
def nextTurn (u : Update D) : Option (Update D) :=
  if u.turns + 1 < 6 then some { u with turns := u.turns + 1, reading := none } else none

/-- What an engine makes of the reply to its put: it was saved, or not. -/
def reportsSaved (sj : Serde D) (r : DocReply) : Option Bool :=
  match r with
  | .fail _ => none
  | .ok text => (sj.fromSlice text).map fun v => (v.get (ascii "saved")).bind Json.asBool = some true

def putStep (sj : Serde D) (s : System D) (e : Nat) (u : Update D) (r : Reading D) (count : Nat)
    (written delivered : Bool) : System D :=
  match u.change u.turns r.doc with
  | none => { s with updates := Function.update s.updates e none }
  | some d =>
    let put := meshDocPut s.docs (putBody r.rev (sj.toValue d)) count written
    if delivered then
      match reportsSaved sj put.2.2 with
      | none => { s with docs := put.1, updates := Function.update s.updates e none }
      | some true =>
        { docs := put.1, updates := Function.update s.updates e none
          accepted := s.accepted ++ [⟨u.change u.turns, true⟩] }
      | some false =>
        { s with docs := put.1, updates := Function.update s.updates e (nextTurn u) }
    else
      { docs := put.1, updates := Function.update s.updates e none
        accepted := s.accepted ++ if put.2.1 then [⟨u.change u.turns, false⟩] else [] }

/-- One step of one engine, a call of its that does not reach the console, or a restart of the
helper, which keeps no document in memory. -/
def step (sj : Serde D) (s : System D) : Action D → Option (System D)
  | .start e change =>
    match s.updates e with
    | none => some { s with updates := Function.update s.updates e (some ⟨change, 0, none⟩) }
    | some _ => none
  | .get e =>
    match s.updates e with
    | some ⟨change, turns, none⟩ =>
      some { s with
        updates := Function.update s.updates e ((docRead sj s.docs).map fun r =>
          ⟨change, turns, some ⟨r.1, r.2, s.accepted.length⟩⟩) }
    | _ => none
  | .put e count written delivered =>
    match s.updates e with
    | some ⟨change, turns, some r⟩ =>
      some (putStep sj s e ⟨change, turns, some r⟩ r count written delivered)
    | _ => none
  | .fail e => some { s with updates := Function.update s.updates e none }
  | .restart => some s

/-- A console without documents, and no update running. -/
def init (D : Type) : System D := ⟨fun _ => none, fun _ => none, []⟩

/-- A put comes before 2^64 others were accepted since its get. -/
def StillFresh (s : System D) : Action D → Prop
  | .put e _ _ _ => ∀ u r, s.updates e = some u → u.reading = some r →
      s.accepted.length < r.seen + 2 ^ 64
  | _ => True

/-- The document an update leaves: its change, applied to what the text there reads as. -/
def applyUpdate (sj : Serde D) (doc : Option Bytes) (change : D → Option D) : Option (Option Bytes) :=
  (((sj.readText doc).bind fun v => sj.docOf (some v)).bind change).map fun d =>
    some (sj.toValue d).print

/-- Their changes, applied one after another to no document. -/
def applyAll (sj : Serde D) (accepted : List (Accepted D)) : Option (Option Bytes) :=
  accepted.foldlM (fun doc a => applyUpdate sj doc a.change) none

/-! ## What an engine sees -/

theorem docRead_spec {sj : Serde D} (hsj : ReadsReplies sj) {docs : Docs}
    (hdoc : sj.Wrote (docLoad docs drives).2) {rev : UInt64} {d : D}
    (h : docRead sj docs = some (rev, d)) :
    rev = (docLoad docs drives).1 ∧
      ((sj.readText (docLoad docs drives).2).bind fun v => sj.docOf (some v)) = some d := by
  have hget : meshDocGet docs getBody = reply (getReply (docLoad docs drives).1 (docLoad docs drives).2) := by
    have hlen : ¬meshReqMax < getBody.length := by decide
    have hname : (jsonStr getBody "name" 48).value? = some drives := by decide
    have hok : docNameOk drives = true := by decide
    simp only [meshDocGet, if_neg hlen, doDocGet, hname, hok, Bool.not_true, Bool.false_eq_true, if_false]
  rw [docRead, hget, reply] at h
  split at h
  · cases h
  · rename_i text hreply
    split at hreply
    · cases hreply
    · cases hreply
      rw [hsj.get _ _ hdoc] at h
      cases hread : sj.readText (docLoad docs drives).2 with
      | none => simp [hread] at h
      | some v =>
        have hgetdoc : Json.get (.obj (.cons (ascii "doc") v (.cons (ascii "ok") (.bool true)
            (.cons (ascii "rev") (.num (JsonNum.ofNat (docLoad docs drives).1.toNat)) .nil))))
            (ascii "doc") = some v := rfl
        have hgetrev : Json.get (.obj (.cons (ascii "doc") v (.cons (ascii "ok") (.bool true)
            (.cons (ascii "rev") (.num (JsonNum.ofNat (docLoad docs drives).1.toNat)) .nil))))
            (ascii "rev") = some (.num (JsonNum.ofNat (docLoad docs drives).1.toNat)) := rfl
        simp only [hread, Option.map_some, Option.bind_some, hgetdoc, hgetrev, asU64_ofNat,
          Option.getD_some, Option.map_eq_some_iff, Prod.mk.injEq] at h
        obtain ⟨d', hd', hrev, rfl⟩ := h
        exact ⟨hrev.symm, hd'⟩

theorem savedReply_fits (rev : UInt64) : reply (savedReply rev) = .ok (savedReply rev) := by
  have hdigits : (dec rev.toNat).length ≤ 20 :=
    length_dec_le (by omega) (rev.toNat_lt.trans (by omega))
  have hlen : (savedReply rev).length ≤ 60 := by
    have h1 : (ascii "\x7b\"ok\":true,\"saved\":true,\"rev\":").length = 30 := rfl
    have h2 : (ascii "\x7d").length = 1 := rfl
    simp only [savedReply, List.length_append, h1, h2]
    omega
  refine if_neg ?_
  have hmax : meshReplyMax = 204800 := rfl
  omega

/-- **A put is accepted and its reply says so**, or changes nothing and is not reported as saved.  An
accepted one was made from the revision that was there. -/
theorem put_outcome {sj : Serde D} (hsj : ReadsReplies sj) {docs : Docs}
    (hdoc : sj.Wrote (docLoad docs drives).2) (rev : UInt64) (d : D) (count : Nat) (written : Bool) :
    let put := meshDocPut docs (putBody rev (sj.toValue d)) count written
    (put.2.1 = true ∧ reportsSaved sj put.2.2 = some true ∧ rev = (docLoad docs drives).1 ∧
      docLoad put.1 drives = (rev + 1, some (sj.toValue d).print)) ∨
    (put.2.1 = false ∧ reportsSaved sj put.2.2 ≠ some true ∧ put.1 = docs) := by
  intro put
  have hput : put = meshDocPut docs (putBody rev (sj.toValue d)) count written := rfl
  obtain ⟨docs', saved, r⟩ := put
  unfold meshDocPut at hput
  split at hput
  · cases hput
    exact Or.inr ⟨rfl, by simp [reportsSaved], rfl⟩
  · cases saved with
    | true =>
      obtain ⟨name, v, hname, hspan, -, -, hbase, hload, -, rfl⟩ := doDocPut_saved hput.symm
      have hn := putBody_name hname
      have hv := putBody_doc hspan
      have hb := putBody_base hbase
      subst hn hv
      have hrev : rev = (docLoad docs drives).1 := UInt64.toNat_inj.1 hb.symm
      refine Or.inl ⟨rfl, ?_, hrev, by rw [hload, hrev]⟩
      have hsaved : Json.get (.obj (.cons (ascii "ok") (.bool true)
          (.cons (ascii "rev") (.num (JsonNum.ofNat ((docLoad docs drives).1 + 1).toNat))
            (.cons (ascii "saved") (.bool true) .nil)))) (ascii "saved") = some (.bool true) := rfl
      simp only [savedReply_fits, reportsSaved, hsj.saved, Option.map_some, hsaved, Option.bind_some,
        Json.asBool, decide_true]
    | false =>
      obtain ⟨rfl, ⟨token, rfl⟩ | ⟨name, hname, rfl⟩⟩ := doDocPut_refused hput.symm
      · exact Or.inr ⟨rfl, by simp [reportsSaved], rfl⟩
      · have hn := putBody_name hname
        subst hn
        refine Or.inr ⟨rfl, ?_, rfl⟩
        unfold reply
        split
        · simp [reportsSaved]
        · simp only [reportsSaved, hsj.stale _ _ hdoc, Option.map_map]
          cases hread : sj.readText (docLoad docs' drives).2 with
          | none => simp
          | some v =>
            have hsaved : Json.get (.obj (.cons (ascii "doc") v (.cons (ascii "ok") (.bool true)
                (.cons (ascii "rev") (.num (JsonNum.ofNat (docLoad docs' drives).1.toNat))
                  (.cons (ascii "saved") (.bool false) .nil))))) (ascii "saved")
                = some (.bool false) := rfl
            simp [hsaved, Json.asBool]

/-! ## Runs -/

/-- A reading is what the document was after the puts accepted by then. -/
def ReadAt (sj : Serde D) (accepted : List (Accepted D)) (r : Reading D) : Prop :=
  r.seen ≤ accepted.length ∧ r.rev = UInt64.ofNat r.seen ∧
    ∃ doc, applyAll sj (accepted.take r.seen) = some doc ∧
      ((sj.readText doc).bind fun v => sj.docOf (some v)) = some r.doc

/-- What holds between steps: the revision counts the accepted puts, the document is what they make,
and every reading is one of an earlier document. -/
structure Good (sj : Serde D) (s : System D) : Prop where
  rev : (docLoad s.docs drives).1 = UInt64.ofNat s.accepted.length
  doc : applyAll sj s.accepted = some (docLoad s.docs drives).2
  wrote : sj.Wrote (docLoad s.docs drives).2
  reads : ∀ e u r, s.updates e = some u → u.reading = some r → ReadAt sj s.accepted r

theorem good_init (sj : Serde D) : Good sj (init D) where
  rev := rfl
  doc := rfl
  wrote := Or.inl rfl
  reads := by
    intro e u r h
    cases h

/-- Only one engine's update changed, and what it has read, if anything, is good. -/
theorem Good.update {sj : Serde D} {s : System D} (h : Good sj s) (e : Nat) {o : Option (Update D)}
    (ho : ∀ u r, o = some u → u.reading = some r → ReadAt sj s.accepted r) :
    Good sj { s with updates := Function.update s.updates e o } := by
  refine ⟨h.rev, h.doc, h.wrote, ?_⟩
  intro e' u r hu hr
  by_cases he : e' = e
  · subst he
    simp only [Function.update_self] at hu
    exact ho u r hu hr
  · simp only [Function.update_of_ne he] at hu
    exact h.reads e' u r hu hr

theorem readAt_append {sj : Serde D} {accepted : List (Accepted D)} {r : Reading D}
    (h : ReadAt sj accepted r) (a : Accepted D) : ReadAt sj (accepted ++ [a]) r := by
  obtain ⟨hle, hrev, doc, hfold, hdoc⟩ := h
  refine ⟨?_, hrev, doc, ?_, hdoc⟩
  · rw [List.length_append, List.length_singleton]
    omega
  · rw [List.take_append_of_le_length hle]
    exact hfold

theorem nextTurn_reading {u u' : Update D} (h : nextTurn u = some u') : u'.reading = none := by
  unfold nextTurn at h
  split at h
  · cases h
    rfl
  · cases h

/-- Two counts that are fewer than 2^64 apart and the same revision are the same count. -/
theorem seen_eq {m n : Nat} (h : UInt64.ofNat m = UInt64.ofNat n) (hle : m ≤ n) (hlt : n < m + 2 ^ 64) :
    m = n := by
  have hmod := congrArg UInt64.toNat h
  simp only [UInt64.toNat_ofNat'] at hmod
  omega

/-- The put of an update that read the document which is still there. -/
theorem good_accept {sj : Serde D} {s : System D} (h : Good sj s) {e : Nat} {u : Update D}
    {r : Reading D} (hr : ReadAt sj s.accepted r) (hfresh : s.accepted.length < r.seen + 2 ^ 64)
    {d : D} (hd : u.change u.turns r.doc = some d) {docs' : Docs}
    (hrev : r.rev = (docLoad s.docs drives).1)
    (hload : docLoad docs' drives = (r.rev + 1, some (sj.toValue d).print)) (reported : Bool) :
    Good sj { docs := docs', updates := Function.update s.updates e none
              accepted := s.accepted ++ [⟨u.change u.turns, reported⟩] } := by
  -- the revision read is the one that is there, so the document read is, too
  obtain ⟨hle, hseen, doc, hfold, hdoc⟩ := hr
  have heq : r.seen = s.accepted.length := seen_eq (by rw [← hseen, hrev, h.rev]) hle hfresh
  rw [heq, List.take_length, h.doc, Option.some.injEq] at hfold
  have happly : applyUpdate sj (docLoad s.docs drives).2 (u.change u.turns)
      = some (some (sj.toValue d).print) := by
    rw [applyUpdate, hfold, hdoc, Option.bind_some, hd, Option.map_some]
  have hdocNow := h.doc
  rw [applyAll] at hdocNow
  refine ⟨?_, ?_, ?_, ?_⟩
  · rw [hload]
    simp only [hseen, heq, List.length_append, List.length_singleton]
    rw [UInt64.ofNat_add]
    rfl
  · simp only [applyAll, hload, List.foldlM_append, hdocNow, Option.bind_eq_bind, Option.bind_some,
      List.foldlM_cons, happly, List.foldlM_nil]
    rfl
  · rw [hload]
    exact Or.inr ⟨d, rfl⟩
  · intro e' u' r' hu' hr'
    by_cases he : e' = e
    · subst he
      simp at hu'
    · simp only [Function.update_of_ne he] at hu'
      exact readAt_append (h.reads e' u' r' hu' hr') _

theorem good_put {sj : Serde D} (hsj : ReadsReplies sj) {s : System D} (h : Good sj s) {e : Nat}
    {u : Update D} {r : Reading D} (hr : ReadAt sj s.accepted r)
    (hfresh : s.accepted.length < r.seen + 2 ^ 64) (count : Nat) (written delivered : Bool) :
    Good sj (putStep sj s e u r count written delivered) := by
  unfold putStep
  split
  · exact h.update e (by simp)
  · rename_i d hd
    have hout := put_outcome hsj h.wrote r.rev d count written
    simp only at hout ⊢
    rcases hout with ⟨htaken, hsaved, hrev, hload⟩ | ⟨htaken, hsaved, hdocs⟩
    · have haccept := good_accept (e := e) h hr hfresh hd hrev hload
      split
      · rw [hsaved]
        exact haccept true
      · exact haccept false
    · have hsame : ∀ o : Option (Update D), (∀ u', o = some u' → u'.reading = none) →
          Good sj { s with
            docs := (meshDocPut s.docs (putBody r.rev (sj.toValue d)) count written).1
            updates := Function.update s.updates e o } := by
        intro o ho
        rw [hdocs]
        refine h.update e ?_
        intro u' r' hu' hr'
        rw [ho u' hu'] at hr'
        cases hr'
      split
      · split
        · exact hsame none (by simp)
        · rename_i htrue
          exact absurd htrue hsaved
        · exact hsame _ fun u' hu' => nextTurn_reading hu'
      · rw [if_neg (by simp [htaken]), List.append_nil]
        exact hsame none (by simp)

theorem good_step {sj : Serde D} (hsj : ReadsReplies sj) (s : System D) (a : Action D) (s' : System D)
    (h : Good sj s) (hfresh : StillFresh s a) (hstep : step sj s a = some s') : Good sj s' := by
  cases a with
  | start e change =>
    simp only [step] at hstep
    split at hstep
    · cases hstep
      refine h.update e ?_
      rintro u r ⟨⟩ hr
      cases hr
    · cases hstep
  | get e =>
    simp only [step] at hstep
    split at hstep
    · rename_i change turns hu
      cases hstep
      refine h.update e ?_
      intro u r hur hr
      rw [Option.map_eq_some_iff] at hur
      obtain ⟨⟨rev, d⟩, hread, rfl⟩ := hur
      obtain ⟨hrev, hdoc⟩ := docRead_spec hsj h.wrote hread
      cases hr
      exact ⟨Nat.le_refl _, hrev.trans h.rev, _, by rw [List.take_length]; exact h.doc, hdoc⟩
    · cases hstep
  | put e count written delivered =>
    simp only [step] at hstep
    split at hstep
    · rename_i change turns r hu
      cases hstep
      exact good_put hsj h (h.reads e _ r hu rfl) (hfresh _ r hu rfl) count written delivered
    · cases hstep
  | fail e =>
    cases hstep
    exact h.update e (by simp)
  | restart =>
    cases hstep
    exact h

/-- A step adds at most one accepted put; it is reported unless the step loses the reply. -/
theorem accepted_step {sj : Serde D} {s s' : System D} {a : Action D} (h : step sj s a = some s') :
    s'.accepted = s.accepted ∨ ∃ added, s'.accepted = s.accepted ++ [added] ∧
      ((∀ e count written, a ≠ .put e count written false) → added.reported = true) := by
  cases a with
  | start e change =>
    simp only [step] at h
    split at h
    · cases h
      exact Or.inl rfl
    · cases h
  | get e =>
    simp only [step] at h
    split at h
    · cases h
      exact Or.inl rfl
    · cases h
  | put e count written delivered =>
    simp only [step] at h
    split at h
    · cases h
      unfold putStep
      split
      · exact Or.inl rfl
      · simp only
        split
        · split
          · exact Or.inl rfl
          · exact Or.inr ⟨_, rfl, fun _ => rfl⟩
          · exact Or.inl rfl
        · rename_i hlost
          split
          · refine Or.inr ⟨_, rfl, ?_⟩
            intro hkept
            exact absurd (by rw [Bool.not_eq_true] at hlost; rw [hlost]) (hkept e count written)
          · exact Or.inl (List.append_nil _)
    · cases h
  | fail e =>
    cases h
    exact Or.inl rfl
  | restart =>
    cases h
    exact Or.inl rfl

theorem accepted_length_step {sj : Serde D} {s s' : System D} {a : Action D}
    (h : step sj s a = some s') : s'.accepted.length ≤ s.accepted.length + 1 := by
  rcases accepted_step h with hsame | ⟨added, hadded, -⟩
  · rw [hsame]
    exact Nat.le_succ _
  · rw [hadded, List.length_append, List.length_singleton]

/-- Where no reply to a put is lost, the updates whose put was accepted are those that reported. -/
theorem reported_of_delivered {sj : Serde D} {run : List (Action D)} {s : System D}
    (hrun : exec (step sj) (init D) run = some s)
    (hkept : ∀ e count written, Action.put e count written false ∉ run) :
    ∀ added ∈ s.accepted, added.reported = true := by
  have hm : Meets (step sj) (fun _ a => ∀ e count written, a ≠ .put e count written false)
      (init D) run :=
    meets_of_forall (by
      rintro - a ha e count written rfl
      exact hkept e count written ha) _
  refine exec_inv_of_meets (P := fun s => ∀ added ∈ s.accepted, added.reported = true) ?_ ?_ hm hrun
  · intro s a s' hs hkept hstep
    rcases accepted_step hstep with hsame | ⟨added, hadded, hreported⟩
    · rw [hsame]
      exact hs
    · rw [hadded]
      intro b hb
      rcases List.mem_append.1 hb with hb | hb
      · exact hs b hb
      · rw [List.mem_singleton.1 hb]
        exact hreported hkept
  · intro added hadded
    cases hadded

/-- A run of fewer than 2^64 steps has no put that comes too late. -/
theorem stillFresh_of_length (sj : Serde D) {run : List (Action D)} {s : System D}
    (h : s.accepted.length + run.length < 2 ^ 64) : Meets (step sj) StillFresh s run := by
  induction run generalizing s with
  | nil => trivial
  | cons a run ih =>
    rw [List.length_cons] at h
    refine meets_cons ?_ ?_
    · cases a with
      | put e count written delivered =>
        intro u r _ _
        omega
      | start e change => trivial
      | get e => trivial
      | fail e => trivial
      | restart => trivial
    · intro s' hs'
      have := accepted_length_step hs'
      exact ih (by omega)

/-- **No update is lost.**  In every run of engines, lost replies and restarts in which each put comes
before 2^64 others were accepted since its get, the document is the result of applying the change
functions of the updates whose put was accepted, one after another in that order; where no reply is
lost, these are the updates that reported saved.  And every document a put is accepted with is given
back byte for byte by the next load, with the next 64-bit revision. -/
theorem updates_in_order (sj : Serde D) (hsj : ReadsReplies sj) (run : List (Action D))
    (s : System D) (hrun : exec (step sj) (init D) run = some s)
    (hfresh : Meets (step sj) StillFresh (init D) run) :
    s.accepted.foldlM (fun doc a => applyUpdate sj doc a.change) none
      = some (docLoad s.docs drives).2 ∧
    ((∀ e count written, Action.put e count written false ∉ run) →
      ∀ added ∈ s.accepted, added.reported = true) ∧
    ∀ docs body count written docs' r, doDocPut docs body count written = (docs', true, r) →
      ∃ name v, (jsonStr body "name" 48).value? = some name ∧
        topSpan body (ascii "doc") = some v ∧ isOne v 0x7b = true ∧ v.length ≤ meshDocMax ∧
        docLoad docs' name = ((docLoad docs name).1 + 1, some v) := by
  refine ⟨?_, reported_of_delivered hrun, ?_⟩
  · exact (exec_inv_of_meets (good_step hsj) (good_init sj) hfresh hrun).doc
  · intro docs body count written docs' r h
    obtain ⟨name, v, hname, hspan, hone, hlen, -, hload, -, -⟩ := doDocPut_saved h
    exact ⟨name, v, hname, hspan, hone, hlen, hload⟩

/-! ## A document that is a number -/

/-- What follows a text in front. -/
def afterText (p b : Bytes) : Option Bytes := if p.isPrefixOf b then some (b.drop p.length) else none

theorem afterText_append (p r : Bytes) : afterText p (p ++ r) = some r := by
  simp [afterText]

def countValue (n : Nat) : Json := .obj (.cons (ascii "n") (.num (JsonNum.ofNat n)) .nil)

def readCount (b : Bytes) : Option Json :=
  if b = ascii "null" then some .null
  else
    (afterText (ascii "\x7b\"n\":") b).bind fun p =>
      if p = dec (readDigits 0 p) ++ ascii "\x7d" then some (countValue (readDigits 0 p)) else none

/-- The number at the front, and what follows it. -/
def readRev (p : Bytes) : Nat × Bytes := (readDigits 0 p, p.drop (dec (readDigits 0 p)).length)

/-- `from_slice`, for the texts that come up with this document. -/
def readReply (b : Bytes) : Option Json :=
  match afterText (ascii "\x7b\"ok\":true,\"rev\":") b with
  | some p =>
    ((afterText (ascii ",\"doc\":") (readRev p).2).bind fun q => readCount q.dropLast).map fun v =>
      .obj (.cons (ascii "doc") v (.cons (ascii "ok") (.bool true)
        (.cons (ascii "rev") (.num (JsonNum.ofNat (readRev p).1)) .nil)))
  | none =>
    match afterText (ascii "\x7b\"ok\":true,\"saved\":true,\"rev\":") b with
    | some p =>
      some (.obj (.cons (ascii "ok") (.bool true) (.cons (ascii "rev") (.num (JsonNum.ofNat (readRev p).1))
        (.cons (ascii "saved") (.bool true) .nil))))
    | none =>
      match afterText (ascii "\x7b\"ok\":true,\"saved\":false,\"rev\":") b with
      | some p =>
        ((afterText (ascii ",\"doc\":") (readRev p).2).bind fun q => readCount q.dropLast).map fun v =>
          .obj (.cons (ascii "doc") v (.cons (ascii "ok") (.bool true)
            (.cons (ascii "rev") (.num (JsonNum.ofNat (readRev p).1))
              (.cons (ascii "saved") (.bool false) .nil))))
      | none => readCount b

def countSerde : Serde Nat where
  fromSlice := readReply
  toValue := countValue
  fromValue v := ((v.get (ascii "n")).bind Json.asU64).map UInt64.toNat
  default_ := 0

theorem readRev_dec (n : Nat) {rest : Bytes} (h : NoDigit rest) :
    readRev (dec n ++ rest) = (n, rest) := by
  simp [readRev, readDigits_dec n h]

theorem print_countValue (n : Nat) :
    (countValue n).print = ascii "\x7b\"n\":" ++ dec n ++ ascii "\x7d" := by
  simp [countValue, Json.print, Members.print, JsonNum.text, JsonNum.ofNat, Digits.ofNat, printStr, ascii,
    escapeByte]

theorem readText_count {doc : Option Bytes} (h : countSerde.Wrote doc) :
    readCount (docText doc) = countSerde.readText doc := by
  rcases h with rfl | ⟨n, rfl⟩
  · rfl
  · have hnone : readReply (countValue n).print = readCount (countValue n).print := by
      rw [print_countValue]
      rfl
    exact hnone.symm

theorem readDoc_count (doc : Option Bytes) (h : countSerde.Wrote doc) :
    readCount (docText doc ++ ascii "\x7d").dropLast = countSerde.readText doc := by
  have hlast : (docText doc ++ ascii "\x7d").dropLast = docText doc := List.dropLast_concat
  rw [hlast, readText_count h]

theorem readRev_doc (rev : UInt64) (rest : Bytes) :
    readRev (dec rev.toNat ++ (ascii ",\"doc\":" ++ rest)) = (rev.toNat, ascii ",\"doc\":" ++ rest) :=
  readRev_dec rev.toNat (noDigit_cons (show isDigit 0x2c = false by decide) _)

theorem countSerde_reads : ReadsReplies countSerde where
  get rev doc h := by
    have hshape : getReply rev doc = ascii "\x7b\"ok\":true,\"rev\":" ++
        (dec rev.toNat ++ (ascii ",\"doc\":" ++ (docText doc ++ ascii "\x7d"))) := by
      simp [getReply]
    rw [hshape, ← readDoc_count doc h]
    simp only [countSerde, readReply, afterText_append, readRev_doc, Option.bind_some]
  saved rev := by
    have hread := readRev_dec rev.toNat (noDigit_cons (show isDigit 0x7d = false by decide) [])
    have hshape : savedReply rev = ascii "\x7b\"ok\":true,\"saved\":true,\"rev\":" ++
        (dec rev.toNat ++ [0x7d]) := List.append_assoc _ _ _
    have hget : afterText (ascii "\x7b\"ok\":true,\"rev\":")
        (ascii "\x7b\"ok\":true,\"saved\":true,\"rev\":" ++ (dec rev.toNat ++ [0x7d])) = none := rfl
    rw [hshape]
    simp only [countSerde, readReply, hget, afterText_append, hread]
  stale rev doc h := by
    have hshape : staleReply rev doc = ascii "\x7b\"ok\":true,\"saved\":false,\"rev\":" ++
        (dec rev.toNat ++ (ascii ",\"doc\":" ++ (docText doc ++ ascii "\x7d"))) := by
      simp [staleReply]
    have hget : afterText (ascii "\x7b\"ok\":true,\"rev\":")
        (ascii "\x7b\"ok\":true,\"saved\":false,\"rev\":" ++
          (dec rev.toNat ++ (ascii ",\"doc\":" ++ (docText doc ++ ascii "\x7d")))) = none := rfl
    have hsaved : afterText (ascii "\x7b\"ok\":true,\"saved\":true,\"rev\":")
        (ascii "\x7b\"ok\":true,\"saved\":false,\"rev\":" ++
          (dec rev.toNat ++ (ascii ",\"doc\":" ++ (docText doc ++ ascii "\x7d")))) = none := rfl
    rw [hshape, ← readDoc_count doc h]
    simp only [countSerde, readReply, hget, hsaved, afterText_append, readRev_doc, Option.bind_some]

/-- Two engines add to the number at the same time; the second one's put comes too late and is made
again, and its reply is lost. -/
def bothAdd : List (Action Nat) :=
  [.start 0 fun _ n => some (n + 1), .start 1 fun _ n => some (n + 10), .get 0, .get 1,
    .put 1 0 true true, .restart, .put 0 1 true true, .get 0, .put 0 1 true false]

theorem bothAdd_doc : ∃ s, exec (step countSerde) (init Nat) bothAdd = some s ∧
    s.accepted.map Accepted.reported = [true, false] ∧
    (docLoad s.docs drives).2 = some (countValue 11).print := by
  have h : ((exec (step countSerde) (init Nat) bothAdd).map fun s =>
      (s.accepted.map Accepted.reported, (docLoad s.docs drives).2))
        = some ([true, false], some (countValue 11).print) := by
    decide +kernel
  rw [Option.map_eq_some_iff] at h
  obtain ⟨s, hs, hval⟩ := h
  rw [Prod.mk.injEq] at hval
  exact ⟨s, hs, hval⟩

theorem updates_in_order_bothAdd : ∃ s, exec (step countSerde) (init Nat) bothAdd = some s ∧
    s.accepted.map Accepted.reported = [true, false] ∧
    s.accepted.foldlM (fun doc a => applyUpdate countSerde doc a.change) none
      = some (some (countValue 11).print) := by
  obtain ⟨s, hs, hreported, hdoc⟩ := bothAdd_doc
  refine ⟨s, hs, hreported, ?_⟩
  rw [← hdoc]
  exact (updates_in_order countSerde countSerde_reads bothAdd s hs
    (stillFresh_of_length countSerde (by decide))).1

/-- One engine adds to the number, and never hears that its put was accepted. -/
def lostReply : List (Action Nat) := [.start 0 fun _ n => some (n + 1), .get 0, .put 0 0 true false]

/-- A document at the last 64-bit revision. -/
def lastRevision : Docs :=
  Function.update (fun _ => none) drives (some (docFile 0xffffffffffffffff (ascii "\x7b\x7d")))

/-- An update that reported nothing is in the document when the reply to its put is lost; and the put
after the last revision is accepted, and the next load gives revision 0, which is not one higher. -/
theorem lost_reply_and_last_revision :
    (¬∀ run s, exec (step countSerde) (init Nat) run = some s →
      applyAll countSerde (s.accepted.filter Accepted.reported) = some (docLoad s.docs drives).2) ∧
    ¬∀ docs body count written docs' r, doDocPut docs body count written = (docs', true, r) →
      ∀ name, (jsonStr body "name" 48).value? = some name →
        (docLoad docs' name).1.toNat = (docLoad docs name).1.toNat + 1 := by
  refine ⟨?_, ?_⟩
  · intro h
    have hrun : ((exec (step countSerde) (init Nat) lostReply).map fun s =>
        decide (applyAll countSerde (s.accepted.filter Accepted.reported)
          = some (docLoad s.docs drives).2)) = some false := by
      decide +kernel
    rw [Option.map_eq_some_iff] at hrun
    obtain ⟨s, hs, hval⟩ := hrun
    exact of_decide_eq_false hval (h lostReply s hs)
  · intro h
    have hsaved : (doDocPut lastRevision (putBody 0xffffffffffffffff (.obj .nil)) 1 true).2.1
        = true := by
      decide +kernel
    have hname : (jsonStr (putBody 0xffffffffffffffff (.obj .nil)) "name" 48).value?
        = some drives := by
      decide +kernel
    have hload : (docLoad (doDocPut lastRevision (putBody 0xffffffffffffffff (.obj .nil)) 1 true).1
        drives).1.toNat = 0 := by
      decide +kernel
    have hput : doDocPut lastRevision (putBody 0xffffffffffffffff (.obj .nil)) 1 true
        = ((doDocPut lastRevision (putBody 0xffffffffffffffff (.obj .nil)) 1 true).1, true,
          (doDocPut lastRevision (putBody 0xffffffffffffffff (.obj .nil)) 1 true).2.2) :=
      Prod.ext rfl (Prod.ext hsaved rfl)
    have := h _ _ _ _ _ _ hput drives hname
    omega

end Ps5Upload.DocUpdate
