import Ps5Upload.Payload.Mesh.JsonSpan

/-!
# The console's documents

The model of `doc_load`, `do_doc_get` and `do_doc_put` of `payload/src/mesh.c`.  A document is a file
that holds its revision and its text; the helper keeps nothing of it in memory.  A put names the
revision it was made from and is accepted only when the file still has it.

`doDocPut_saved` says what an accepted put leaves: the next load gives the text of the request byte
for byte.  Its revision is one higher as a 64-bit number, so it goes back to 0 after the last one.
-/

namespace Ps5Upload.Mesh

open ByteFile WebuiCodec CText JsonText

def meshDocMax : Nat := 160 * 1024
def meshDocsMax : Nat := 32
def meshReqMax : Nat := meshDocMax + 1024
def meshReplyMax : Nat := 200 * 1024

/-- The document files, by the document's name. -/
abbrev Docs := Bytes → Option Bytes

def docNameOk (s : Bytes) : Bool :=
  s.length ≠ 0 && s.length ≤ 40 &&
    s.all fun c => (0x61 ≤ c && c ≤ 0x7a) || isDigit c || c = 0x2d || c = 0x5f

/-- The revision and the text of a document; revision 0 and no text when there is none. -/
def docLoad (docs : Docs) (name : Bytes) : UInt64 × Option Bytes :=
  match docs name with
  | none => (0, none)
  | some p =>
    if meshDocMax + 32 < p.length then (0, none)
    else
      match p.dropWhile (· ≠ 0x0a) with
      | [] => (0, none)
      | _ :: doc => if isOne doc 0x7b then (strtoull p, some doc) else (0, none)

/-- The text of a document's file. -/
def docFile (rev : UInt64) (doc : Bytes) : Bytes := dec rev.toNat ++ 0x0a :: doc

inductive DocReply where
  | fail (token : String)
  | ok (text : Bytes)
  deriving DecidableEq

/-- A reply has to fit the caller's buffer. -/
def reply (text : Bytes) : DocReply :=
  if meshReplyMax < text.length + 1 then .fail "reply_too_large" else .ok text

def docText : Option Bytes → Bytes
  | some doc => doc
  | none => ascii "null"

def getReply (rev : UInt64) (doc : Option Bytes) : Bytes :=
  ascii "\x7b\"ok\":true,\"rev\":" ++ dec rev.toNat ++ ascii ",\"doc\":" ++ docText doc
    ++ ascii "\x7d"

def savedReply (rev : UInt64) : Bytes :=
  ascii "\x7b\"ok\":true,\"saved\":true,\"rev\":" ++ dec rev.toNat ++ ascii "\x7d"

def staleReply (rev : UInt64) (doc : Option Bytes) : Bytes :=
  ascii "\x7b\"ok\":true,\"saved\":false,\"rev\":" ++ dec rev.toNat ++ ascii ",\"doc\":"
    ++ docText doc ++ ascii "\x7d"

def doDocGet (docs : Docs) (body : Bytes) : DocReply :=
  match (jsonStr body "name" 48).value? with
  | none => .fail "bad_request"
  | some name =>
    if !docNameOk name then .fail "bad_request"
    else
      let (rev, doc) := docLoad docs name
      reply (getReply rev doc)

/-- What a put leaves, whether it was saved, and the reply.  `count` is the number of document files
there are, `written` whether the file could be written. -/
def doDocPut (docs : Docs) (body : Bytes) (count : Nat) (written : Bool) : Docs × Bool × DocReply :=
  match (jsonStr body "name" 48).value?, (jsonU64 body "base").value?, topSpan body (ascii "doc") with
  | some name, some base, some v =>
    if !docNameOk name || !isOne v 0x7b then (docs, false, .fail "bad_request")
    else if meshDocMax < v.length then (docs, false, .fail "too_large")
    else
      let (rev, cur) := docLoad docs name
      if base = rev.toNat then
        if cur.isNone && meshDocsMax ≤ count then (docs, false, .fail "docs_full")
        else if !written then (docs, false, .fail "io")
        else
          (Function.update docs name (some (docFile (rev + 1) v)), true, reply (savedReply (rev + 1)))
      else (docs, false, reply (staleReply rev cur))
  | _, _, _ => (docs, false, .fail "bad_request")

/-- `mesh_call`: a body that is too large is not looked at. -/
def meshDocGet (docs : Docs) (body : Bytes) : DocReply :=
  if meshReqMax < body.length then .fail "too_large" else doDocGet docs body

def meshDocPut (docs : Docs) (body : Bytes) (count : Nat) (written : Bool) : Docs × Bool × DocReply :=
  if meshReqMax < body.length then (docs, false, .fail "too_large")
  else doDocPut docs body count written

/-! ## What a put leaves -/

theorem docLoad_docFile {docs : Docs} {name : Bytes} {rev : UInt64} {doc : Bytes}
    (hfile : docs name = some (docFile rev doc)) (hone : isOne doc 0x7b = true)
    (hlen : doc.length ≤ meshDocMax) : docLoad docs name = (rev, some doc) := by
  have hdigits : (dec rev.toNat).length ≤ 20 :=
    length_dec_le (by omega) (rev.toNat_lt.trans (by omega))
  have hsize : ¬meshDocMax + 32 < (docFile rev doc).length := by
    simp only [docFile, List.length_append, List.length_cons]
    omega
  have hnl : (0x0a : UInt8) ∉ dec rev.toNat := fun h => absurd (mem_dec h) (by decide)
  have hcut : (docFile rev doc).dropWhile (· ≠ 0x0a) = 0x0a :: doc := dropWhile_ne_append hnl doc
  have hrev : strtoull (docFile rev doc) = rev :=
    strtoull_dec rev (noDigit_cons (by decide) doc)
  simp only [docLoad, hfile, if_neg hsize, hcut, hone, if_true, hrev]

/-- **An accepted put** writes the text of the request under the next revision, and the next load
gives it back byte for byte. -/
theorem doDocPut_saved {docs docs' : Docs} {body : Bytes} {count : Nat} {written : Bool}
    {r : DocReply} (h : doDocPut docs body count written = (docs', true, r)) :
    ∃ name v, (jsonStr body "name" 48).value? = some name ∧
      topSpan body (ascii "doc") = some v ∧ isOne v 0x7b = true ∧ v.length ≤ meshDocMax ∧
      (jsonU64 body "base").value? = some (docLoad docs name).1.toNat ∧
      docLoad docs' name = ((docLoad docs name).1 + 1, some v) ∧
      (∀ other, other ≠ name → docs' other = docs other) ∧
      r = reply (savedReply ((docLoad docs name).1 + 1)) := by
  unfold doDocPut at h
  split at h
  · rename_i name base v hname hbase hspan
    split at h
    · cases h
    · rename_i hok
      split at h
      · cases h
      · rename_i hlen
        simp only [Bool.or_eq_true, Bool.not_eq_true', not_or, Bool.not_eq_false] at hok
        simp only at h
        split at h
        · rename_i hrev
          split at h
          · cases h
          · split at h
            · cases h
            · cases h
              have hfile : Function.update docs name (some (docFile ((docLoad docs name).1 + 1) v)) name
                  = some (docFile ((docLoad docs name).1 + 1) v) := Function.update_self ..
              refine ⟨name, v, hname, hspan, hok.2, Nat.not_lt.1 hlen, by rw [hbase, hrev],
                docLoad_docFile hfile hok.2 (Nat.not_lt.1 hlen), ?_, rfl⟩
              intro other hne
              exact Function.update_of_ne hne _ docs
        · cases h
  · cases h

/-- A put that is not accepted changes nothing; it fails, or says what is there. -/
theorem doDocPut_refused {docs docs' : Docs} {body : Bytes} {count : Nat} {written : Bool}
    {r : DocReply} (h : doDocPut docs body count written = (docs', false, r)) :
    docs' = docs ∧ ((∃ token, r = .fail token) ∨
      ∃ name, (jsonStr body "name" 48).value? = some name ∧
        r = reply (staleReply (docLoad docs name).1 (docLoad docs name).2)) := by
  unfold doDocPut at h
  split at h
  · rename_i name base v hname hbase hspan
    split at h
    · cases h
      exact ⟨rfl, Or.inl ⟨_, rfl⟩⟩
    · split at h
      · cases h
        exact ⟨rfl, Or.inl ⟨_, rfl⟩⟩
      · simp only at h
        split at h
        · split at h
          · cases h
            exact ⟨rfl, Or.inl ⟨_, rfl⟩⟩
          · split at h
            · cases h
              exact ⟨rfl, Or.inl ⟨_, rfl⟩⟩
            · cases h
        · cases h
          exact ⟨rfl, Or.inr ⟨name, hname, rfl⟩⟩
  · cases h
    exact ⟨rfl, Or.inl ⟨_, rfl⟩⟩

end Ps5Upload.Mesh
