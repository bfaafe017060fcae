import Mathlib.Data.List.DropRight
import Ps5Upload.Lib.JsonValue
import Ps5Upload.Lib.ListAt
import Ps5Upload.Engine.QueueApi.Book

/-!
# The engine's queue: what an item keeps of a request

The model of `url_without_secret`, `take_secrets`, `with_secrets` and `default_label` in
`engine/crates/ps5upload-engine/src/queue_api.rs`, with the item that `add_handler` builds from a
request and the JSON that is written to disk and shown to clients.

* `secrets_stay_in_memory` — nothing of an item that leaves the engine's memory depends on a
  password, or on what a link can hide.
-/

namespace Ps5Upload.QueueApi

open JsonValue ListAt

/-! ## Links -/

/-- The text cut around the first place of a pattern. -/
def splitOnce (pattern : List Char) : List Char → Option (List Char × List Char)
  | [] => if pattern = [] then some ([], []) else none
  | c :: s =>
    if pattern.isPrefixOf (c :: s) then some ([], (c :: s).drop pattern.length)
    else (splitOnce pattern s).map fun p => (c :: p.1, p.2)

/-- Where a link's query or fragment begins. -/
def isExtra (c : Char) : Bool := c = '?' || c = '#'

/-- A link without its user, up to its path, and whether it had a user: the user goes up to the
last `@` before the first `/`. -/
def withoutUser (link : List Char) : List Char × Bool :=
  match splitOnce "://".toList link with
  | none => (link, false)
  | some (scheme, rest) =>
    let authority := rest.takeWhile (· ≠ '/')
    if '@' ∈ authority then
      (scheme ++ "://".toList ++ authority.rtakeWhile (· ≠ '@') ++ rest.dropWhile (· ≠ '/'), true)
    else (link, false)

/-- `https://user:pw@host/a.pkg?token=x#f` without what can carry a secret, and whether it had
any. -/
def urlWithoutSecret (url : List Char) : List Char × Bool :=
  let link := url.takeWhile fun c => !isExtra c
  let (plain, user) := withoutUser link
  let had := decide (link.length < url.length) || user
  (if had then plain ++ "?...".toList else plain, had)

/-! ## Requests -/

/-- The link's place in a request, by kind. -/
def urlSlot (kind : ItemKind) (body : Value) : Option Value :=
  match kind with
  | .linkDownload => body.get "url"
  | .install => (body.get "source").bind (·.get "url")
  | _ => none

/-- The link's place, written through. -/
def writeSlot (kind : ItemKind) (body v : Value) : Value :=
  match kind with
  | .linkDownload => body.update "url" fun _ => v
  | .install => body.update "source" fun source => source.update "url" fun _ => v
  | _ => body

/-- The request without what its link hides, and the link. -/
def takeUrl (kind : ItemKind) (body : Value) : Value × Option String :=
  match (urlSlot kind body).bind Value.asStr with
  | none => (body, none)
  | some url =>
    let (plain, had) := urlWithoutSecret url.toList
    if had then (writeSlot kind body (.string (String.ofList plain)), some url) else (body, none)

/-- The request without its password, and the password. -/
def takePassword (body : Value) : Value × Option String :=
  let rest := body.remove "password"
  match body.get "password" with
  | some (.string password) => (rest, some password)
  | some .null | none => (rest, none)
  -- Not a password the route could read: the route's own check refuses it.
  | some other => (rest.insert "password" other, none)

/-- Takes out of a request what must not reach the disk or another client. -/
def takeSecrets (kind : ItemKind) (body : Value) : Value × Secrets :=
  let (body, url) := takeUrl kind body
  let (body, password) := takePassword body
  (body, { password, url })

def isSeparator (c : Char) : Bool := c = '/' || c = '\\'

/-- The first text among the members of an install's source, or among their paths. -/
def sourceText : List (String × Value) → Option String
  | [] => none
  | p :: ps =>
    match p.2.asStr.or ((p.2.get "path").bind Value.asStr) with
    | some text => some text
    | none => sourceText ps

/-- A name for an item that was not given one: the last part of where it goes or comes from. -/
def defaultLabel (kind : ItemKind) (body : Value) : String :=
  let field (name : String) := (body.get name).bind Value.asStr
  let whole := match kind with
    | .install =>
      match body.get "source" with
      | some (.object members) => sourceText members
      | _ => none
    | .uploadFile => field "src"
    | .uploadDir => field "src_dir"
    | .uploadZip => field "zip_path"
    | .upload7z | .uploadRar => field "archive_path"
    | .uploadFileList => field "dest_root"
    | .linkDownload => field "url"
    | .download => field "src_path"
    | .imageBuild | .packageBuild | .folderBuild => field "source"
  let text := (whole.getD "").toList
  let plain := if "?...".toList.isSuffixOf text then text.take (text.length - 4) else text
  String.ofList ((plain.rdropWhile isSeparator).rtakeWhile fun c => !isSeparator c)

/-! ## Items -/

/-- An item with what it keeps of its request. -/
structure KeptItem extends Item where
  label : String
  /-- The route's body, without any secret. -/
  request : Value
  addedAtMs : Nat
  /-- The latest figures of the job. -/
  progress : Option Value := none

/-- The request as its route takes it. -/
def withSecrets (item : KeptItem) : Value :=
  let body := match item.secrets.url with
    | some url => writeSlot item.kind item.request (.string url)
    | none => item.request
  match item.secrets.password with
  | some password => body.insert "password" (.string password)
  | none => body

/-- What a client gave beside the request; its label cut already, if it gave one. -/
structure Added where
  id : String
  console : String
  kind : ItemKind
  label : Option String
  stopOnFailure : Bool
  addedAtMs : Nat

/-- The item that `add_handler` builds. -/
def addedItem (a : Added) (body : Value) : KeptItem :=
  let (request, secrets) := takeSecrets a.kind body
  { id := a.id
    console := a.console
    kind := a.kind
    label := a.label.getD (defaultLabel a.kind request)
    request
    stopOnFailure := a.stopOnFailure
    addedAtMs := a.addedAtMs
    secretInMemory := !secrets.isEmpty
    secrets }

def ItemKind.name : ItemKind → String
  | .uploadFile => "upload_file"
  | .uploadDir => "upload_dir"
  | .uploadZip => "upload_zip"
  | .upload7z => "upload_7z"
  | .uploadRar => "upload_rar"
  | .uploadFileList => "upload_file_list"
  | .linkDownload => "link_download"
  | .download => "download"
  | .install => "install"
  | .imageBuild => "image_build"
  | .packageBuild => "package_build"
  | .folderBuild => "folder_build"

def Status.name : Status → String
  | .queued => "queued"
  | .running => "running"
  | .paused => "paused"
  | .done => "done"
  | .failed => "failed"
  | .cancelled => "cancelled"
  | .interrupted => "interrupted"

def natValue (n : Nat) : Value := .number (toString n)

/-- `json!(item)`: what is written to disk. -/
def KeptItem.json (item : KeptItem) : Value :=
  let always : List (String × Value) :=
    [("id", .string item.id), ("console", .string item.console),
      ("kind", .string item.kind.name), ("label", .string item.label),
      ("status", .string item.status.name), ("request", item.request),
      ("stop_on_failure", .bool item.stopOnFailure), ("added_at_ms", natValue item.addedAtMs),
      ("runs", natValue item.runs)]
  let maybe : List (String × Option Value) :=
    [("started_at_ms", item.startedAtMs.map natValue),
      ("finished_at_ms", item.finishedAtMs.map natValue),
      ("job_id", item.jobId.map .string), ("error", item.error.map .string),
      ("code", item.code.map .string), ("verdict", item.verdict.map .string),
      ("hint", item.hint.map .string), ("progress", item.progress),
      ("secret_in_memory", if item.secretInMemory then some (.bool true) else none)]
  let present := maybe.filterMap fun p => p.2.map fun v => (p.1, v)
  (always ++ present).foldl (fun object p => object.insert p.1 p.2) (.object [])

/-- How many waiting items of the console stand before the item. -/
def position (items : List KeptItem) (item : KeptItem) : Option Nat :=
  if item.status.waiting then
    some (((items.takeWhile fun other => other.id ≠ item.id).filter fun other =>
      other.console = item.console ∧ other.status.waiting).length)
  else none

/-- What a client is shown of an item. -/
def view (items : List KeptItem) (item : KeptItem) : Value :=
  match position items item with
  | some n => item.json.insert "position" (natValue n)
  | none => item.json

/-! ## What a link hides -/

/-- A link with a scheme.  Its extra part is its query and its fragment, with their marks. -/
structure Link where
  scheme : List Char
  user : Option (List Char)
  host : List Char
  path : List Char
  extra : List Char
  scheme_plain : ∀ c ∈ scheme, c ≠ ':' ∧ isExtra c = false
  user_plain : ∀ u ∈ user, ∀ c ∈ u, c ≠ '/' ∧ isExtra c = false
  host_plain : ∀ c ∈ host, c ≠ '/' ∧ c ≠ '@' ∧ isExtra c = false
  path_starts : ∀ c ∈ path.head?, c = '/'
  path_plain : ∀ c ∈ path, isExtra c = false
  extra_starts : ∀ c ∈ extra.head?, isExtra c = true

namespace Link

def userText (l : Link) : List Char := (l.user.map (· ++ ['@'])).getD []

def text (l : Link) : List Char :=
  l.scheme ++ "://".toList ++ (l.userText ++ l.host ++ l.path) ++ l.extra

/-- The link has a part that can carry a secret. -/
def Carries (l : Link) : Prop := l.user.isSome ∨ l.extra ≠ []

end Link

/-- Two links that differ in nothing but what can carry a secret, and both carry some. -/
inductive Alike : List Char → List Char → Prop
  /-- They differ behind the first `?` or `#`, whatever stands before it. -/
  | extra (base : List Char) (q r : Char) (x y : List Char) (hbase : ∀ c ∈ base, isExtra c = false)
      (hq : isExtra q = true) (hr : isExtra r = true) : Alike (base ++ q :: x) (base ++ r :: y)
  | link (l m : Link) (hscheme : l.scheme = m.scheme) (hhost : l.host = m.host)
      (hpath : l.path = m.path) (hl : l.Carries) (hm : m.Carries) : Alike l.text m.text

theorem splitOnce_append {before after : List Char} (h : ':' ∉ before) :
    splitOnce "://".toList (before ++ "://".toList ++ after) = some (before, after) := by
  induction before with
  | nil => rfl
  | cons c before ih =>
    have hc : c ≠ ':' := fun hc => h (hc ▸ List.mem_cons_self)
    have hprefix : List.isPrefixOf "://".toList (c :: (before ++ "://".toList ++ after)) = false := by
      have : "://".toList = ':' :: "//".toList := by decide
      rw [this, List.isPrefixOf]
      simp [Ne.symm hc]
    rw [List.cons_append, List.cons_append, splitOnce, hprefix, if_neg (by simp),
      ih fun hm => h (List.mem_cons_of_mem c hm)]
    rfl

theorem takeWhile_extra {base x : List Char} (hbase : ∀ c ∈ base, isExtra c = false)
    (hx : ∀ c ∈ x.head?, isExtra c = true) :
    (base ++ x).takeWhile (fun c => !isExtra c) = base := by
  rw [List.takeWhile_append_of_pos fun c hc => by rw [hbase c hc]; rfl]
  cases x with
  | nil => simp
  | cons c x => simp [hx c rfl]

/-- A link's user goes, and it is told that there was one. -/
theorem withoutUser_link (l : Link) :
    withoutUser (l.scheme ++ "://".toList ++ (l.userText ++ l.host ++ l.path)) =
      (l.scheme ++ "://".toList ++ l.host ++ l.path, l.user.isSome) := by
  have hscheme : ':' ∉ l.scheme := fun h => (l.scheme_plain _ h).1 rfl
  have hslash : ∀ c ∈ l.userText ++ l.host, decide (c ≠ '/') = true := by
    intro c hc
    refine decide_eq_true fun h => ?_
    rcases List.mem_append.1 hc with hc | hc
    · rw [Link.userText] at hc
      cases hu : l.user with
      | none =>
        rw [hu] at hc
        cases hc
      | some u =>
        rw [hu] at hc
        rcases List.mem_append.1 hc with hc | hc
        · exact (l.user_plain u hu c hc).1 h
        · rw [List.mem_singleton.1 hc] at h
          exact absurd h (by decide)
    · exact (l.host_plain c hc).1 h
  have htake : (l.userText ++ l.host ++ l.path).takeWhile (· ≠ '/') = l.userText ++ l.host := by
    rw [List.takeWhile_append_of_pos hslash]
    cases hp : l.path with
    | nil => simp
    | cons c p =>
      have : c = '/' := l.path_starts c (by rw [hp]; rfl)
      simp [this]
  have hdrop : (l.userText ++ l.host ++ l.path).dropWhile (· ≠ '/') = l.path := by
    rw [List.dropWhile_append_of_pos hslash]
    cases hp : l.path with
    | nil => rfl
    | cons c p =>
      have : c = '/' := l.path_starts c (by rw [hp]; rfl)
      simp [this]
  have hhost : ∀ c ∈ l.host, decide (c ≠ '@') = true := fun c hc =>
    decide_eq_true (l.host_plain c hc).2.1
  rw [withoutUser, splitOnce_append hscheme]
  simp only [htake, hdrop]
  cases hu : l.user with
  | none =>
    have hat : '@' ∉ l.host := fun h => (l.host_plain _ h).2.1 rfl
    simp [Link.userText, hu, hat]
  | some u =>
    have hlast : (u ++ ['@'] ++ l.host).rtakeWhile (· ≠ '@') = l.host := by
      rw [List.rtakeWhile, List.reverse_append, List.takeWhile_append_of_pos]
      · simp
      · exact fun c hc => hhost c (List.mem_reverse.1 hc)
    simp only [Link.userText, hu, Option.map_some, Option.getD_some, hlast]
    simp

/-- Of a link that hides something its scheme, its host and its path are kept. -/
theorem urlWithoutSecret_text (l : Link) (h : l.Carries) :
    urlWithoutSecret l.text =
      (l.scheme ++ "://".toList ++ l.host ++ l.path ++ "?...".toList, true) := by
  have hbase : ∀ c ∈ l.scheme ++ "://".toList ++ (l.userText ++ l.host ++ l.path),
      isExtra c = false := by
    intro c hc
    simp only [List.mem_append, or_assoc] at hc
    rcases hc with hc | hc | hc | hc | hc
    · exact (l.scheme_plain c hc).2
    · have : c = ':' ∨ c = '/' := by simpa using hc
      rcases this with rfl | rfl <;> rfl
    · rw [Link.userText] at hc
      cases hu : l.user with
      | none =>
        rw [hu] at hc
        cases hc
      | some u =>
        rw [hu] at hc
        rcases List.mem_append.1 hc with hc | hc
        · exact (l.user_plain u hu c hc).2
        · rw [List.mem_singleton.1 hc]
          rfl
    · exact (l.host_plain c hc).2.2
    · exact l.path_plain c hc
  have hlink := takeWhile_extra hbase l.extra_starts
  have hhad : (decide ((l.scheme ++ "://".toList ++ (l.userText ++ l.host ++ l.path)).length <
      l.text.length) || l.user.isSome) = true := by
    rcases h with h | h
    · simp [h]
    · have := List.length_pos_iff.2 h
      simp only [Link.text, List.length_append, Bool.or_eq_true, decide_eq_true_eq]
      omega
  rw [urlWithoutSecret]
  rw [show l.text.takeWhile (fun c => !isExtra c) = _ from hlink, withoutUser_link]
  simp only [hhad, if_true]

theorem urlWithoutSecret_extra {base : List Char} {q : Char} {x : List Char}
    (hbase : ∀ c ∈ base, isExtra c = false) (hq : isExtra q = true) :
    urlWithoutSecret (base ++ q :: x) = ((withoutUser base).1 ++ "?...".toList, true) := by
  have hlink := takeWhile_extra (x := q :: x) hbase (by simpa using hq)
  have hhad : decide (base.length < (base ++ q :: x).length) = true := by simp
  rw [urlWithoutSecret, hlink]
  simp only [hhad, Bool.true_or, if_true]

theorem urlWithoutSecret_alike {u v : List Char} (h : Alike u v) :
    urlWithoutSecret u = urlWithoutSecret v ∧ (urlWithoutSecret u).2 = true := by
  cases h with
  | extra base q r x y hbase hq hr =>
    rw [urlWithoutSecret_extra hbase hq, urlWithoutSecret_extra hbase hr]
    exact ⟨rfl, rfl⟩
  | link l m hscheme hhost hpath hl hm =>
    rw [urlWithoutSecret_text l hl, urlWithoutSecret_text m hm, hscheme, hhost, hpath]
    exact ⟨rfl, rfl⟩

/-! ## The link's place -/

section Slot

variable {kind : ItemKind} {b v w : Value}

theorem writeSlot_writeSlot (kind : ItemKind) (b v w : Value) :
    writeSlot kind (writeSlot kind b v) w = writeSlot kind b w := by
  cases kind with
  | linkDownload => exact Value.update_update _ _ _ b
  | install =>
    rw [writeSlot, writeSlot, Value.update_update]
    refine congrArg (b.update "source") (funext fun source => ?_)
    exact Value.update_update _ _ _ source
  | _ => rfl

theorem writeSlot_self (h : urlSlot kind b = some v) : writeSlot kind b v = b := by
  cases kind with
  | linkDownload => exact Value.update_self h
  | install =>
    obtain ⟨source, hsource, hurl⟩ := Option.bind_eq_some_iff.1 h
    have hkeep : source.update "url" (fun _ => v) = source := Value.update_self hurl
    rw [writeSlot]
    calc b.update "source" (fun source => source.update "url" fun _ => v)
        = (b.update "source" fun _ => source).update "source"
            (fun source => source.update "url" fun _ => v) := by rw [Value.update_self hsource]
      _ = b.update "source" fun _ => source := by
          rw [Value.update_update]
          exact congrArg (b.update "source") (funext fun _ => hkeep)
      _ = b := Value.update_self hsource
  | _ => cases h

theorem urlSlot_writeSlot (h : (urlSlot kind b).isSome) : urlSlot kind (writeSlot kind b w) = some w := by
  cases kind with
  | linkDownload =>
    rw [urlSlot, writeSlot, Value.get_update]
    obtain ⟨u, hu⟩ := Option.isSome_iff_exists.1 h
    rw [show b.get "url" = some u from hu]
    rfl
  | install =>
    obtain ⟨u, hu⟩ := Option.isSome_iff_exists.1 h
    obtain ⟨source, hsource, hurl⟩ := Option.bind_eq_some_iff.1 hu
    rw [urlSlot, writeSlot, Value.get_update, hsource, Option.map_some, Option.bind_some,
      Value.get_update, hurl]
    rfl
  | _ => cases h

/-- The password's place is not the link's. -/
theorem urlSlot_insert (kind : ItemKind) (b v : Value) :
    urlSlot kind (b.insert "password" v) = urlSlot kind b := by
  cases kind with
  | linkDownload => exact Value.get_insert_ne (by decide) v b
  | install =>
    rw [urlSlot, urlSlot, Value.get_insert_ne (by decide)]
  | _ => rfl

theorem writeSlot_insert (kind : ItemKind) (b v w : Value) :
    writeSlot kind (b.insert "password" v) w = (writeSlot kind b w).insert "password" v := by
  cases kind with
  | linkDownload => exact Value.update_insert (by decide) _ v b
  | install => exact Value.update_insert (by decide) _ v b
  | _ => rfl

theorem writeSlot_remove (kind : ItemKind) (b w : Value) :
    writeSlot kind (b.remove "password") w = (writeSlot kind b w).remove "password" := by
  cases kind with
  | linkDownload => exact Value.update_remove (by decide) _ b
  | install => exact Value.update_remove (by decide) _ b
  | _ => rfl

theorem get_writeSlot (kind : ItemKind) (b w : Value) :
    (writeSlot kind b w).get "password" = b.get "password" := by
  cases kind with
  | linkDownload => exact Value.get_update_ne (by decide) _ b
  | install => exact Value.get_update_ne (by decide) _ b
  | _ => rfl

end Slot

/-! ## Back to the request -/

/-- The request without a password that is `null`. -/
def withoutNullPassword (b : Value) : Value :=
  match b.get "password" with
  | some .null => b.remove "password"
  | _ => b

theorem takePassword_eq {b : Value} (hb : b.Sorted) :
    (∃ p, b.get "password" = some (.string p) ∧ takePassword b = (b.remove "password", some p)) ∨
      takePassword b = (withoutNullPassword b, none) := by
  rw [takePassword, withoutNullPassword]
  cases hget : b.get "password" with
  | none =>
    right
    simp only [Value.remove_eq_self hget]
  | some v =>
    cases v with
    | string p => exact .inl ⟨p, rfl, rfl⟩
    | null => exact .inr rfl
    | bool _ | number _ | array _ | object _ =>
      right
      simp only [Value.insert_remove hb hget]

/-- Either nothing is taken out of the link's place, or its text is, and another is left there. -/
theorem takeUrl_cases (kind : ItemKind) (b : Value) : takeUrl kind b = (b, none) ∨
    ∃ url, urlSlot kind b = some (.string url) ∧
      takeUrl kind b = (writeSlot kind b
        (.string (String.ofList (urlWithoutSecret url.toList).1)), some url) := by
  rw [takeUrl]
  split
  · exact .inl rfl
  · rename_i url hurl
    obtain ⟨v, hv, hs⟩ := Option.bind_eq_some_iff.1 hurl
    obtain rfl : v = .string url := by
      cases v with
      | string s =>
        cases hs
        rfl
      | _ => cases hs
    simp only
    split
    · exact .inr ⟨url, hv, rfl⟩
    · exact .inl rfl

/-- What the password's removal leaves is a map again, and so is what the link's does. -/
theorem sorted_writeSlot (kind : ItemKind) {b : Value} (hb : b.Sorted) (s : String) :
    (writeSlot kind b (.string s)).Sorted := by
  cases kind with
  | linkDownload => exact hb.update fun _ _ => .string s
  | install => exact hb.update fun _ h => h.update fun _ _ => .string s
  | _ => exact hb

theorem writeSlot_withoutNullPassword (kind : ItemKind) (b w : Value) :
    writeSlot kind (withoutNullPassword b) w = withoutNullPassword (writeSlot kind b w) := by
  rw [withoutNullPassword, withoutNullPassword, get_writeSlot]
  split
  · exact writeSlot_remove kind b w
  · rfl

theorem withoutNullPassword_eq_self {b : Value} {p : String}
    (h : b.get "password" = some (.string p)) : withoutNullPassword b = b := by
  rw [withoutNullPassword, h]

/-- The request comes back as it was given, but for a password that is `null`. -/
theorem withSecrets_addedItem (a : Added) {b : Value} (hb : b.Sorted) :
    withSecrets (addedItem a b) = withoutNullPassword b := by
  have hitem : ∀ {c : Value} {url password : Option String}, takeUrl a.kind b = (c, url) →
      (takePassword c).2 = password → withSecrets (addedItem a b) =
        match password with
        | some p => (match url with
            | some u => writeSlot a.kind (takePassword c).1 (.string u)
            | none => (takePassword c).1).insert "password" (.string p)
        | none => match url with
            | some u => writeSlot a.kind (takePassword c).1 (.string u)
            | none => (takePassword c).1 := by
    rintro c url password hurl rfl
    simp only [withSecrets, addedItem, takeSecrets, hurl]
  rcases takeUrl_cases a.kind b with hnone | ⟨url, hslot, hsome⟩
  · rcases takePassword_eq hb with ⟨p, hget, htake⟩ | htake
    · rw [hitem hnone (by rw [htake]), htake, withoutNullPassword_eq_self hget]
      exact Value.insert_remove hb hget
    · rw [hitem hnone (by rw [htake]), htake]
  · have hsorted := sorted_writeSlot a.kind hb (String.ofList (urlWithoutSecret url.toList).1)
    generalize hleft : writeSlot a.kind b (.string (String.ofList (urlWithoutSecret url.toList).1))
      = left at hsome hsorted
    have hback : writeSlot a.kind left (.string url) = b := by
      rw [← hleft, writeSlot_writeSlot, writeSlot_self hslot]
    rcases takePassword_eq hsorted with ⟨p, hget, htake⟩ | htake
    · have hget' : b.get "password" = some (.string p) := by
        rw [← hget, ← hleft, get_writeSlot]
      rw [hitem hsome (by rw [htake]), htake, withoutNullPassword_eq_self hget']
      simp only [writeSlot_remove, hback]
      exact Value.insert_remove hb hget'
    · rw [hitem hsome (by rw [htake]), htake]
      simp only [writeSlot_withoutNullPassword, hback]

/-! ## What leaves the memory -/

/-- Two requests that differ in nothing but a secret: the text of the password, or what the link of a
download (`url`) or of an install (`source.url`) hides. -/
inductive Hidden : ItemKind → Value → Value → Prop
  | password (kind : ItemKind) (b : Value) (p p' : String) (h : b.get "password" = some (.string p)) :
      Hidden kind b (b.insert "password" (.string p'))
  | link (b : Value) (u v : String) (h : b.get "url" = some (.string u))
      (halike : Alike u.toList v.toList) :
      Hidden .linkDownload b (b.update "url" fun _ => .string v)
  | source (b s : Value) (u v : String) (hs : b.get "source" = some s)
      (h : s.get "url" = some (.string u)) (halike : Alike u.toList v.toList) :
      Hidden .install b (b.update "source" fun source => source.update "url" fun _ => .string v)

theorem takePassword_insert (b : Value) (p p' : String) (h : b.get "password" = some (.string p)) :
    (takePassword (b.insert "password" (.string p'))).1 = (takePassword b).1 ∧
      (takePassword (b.insert "password" (.string p'))).2.isSome ∧ (takePassword b).2.isSome := by
  have h' : (b.insert "password" (.string p')).get "password" = some (.string p') :=
    Value.get_insert_self (by rw [h]; rfl)
  simp only [takePassword, h, h', Value.remove_insert, Option.isSome_some, and_self]

theorem takeSecrets_alike {u v : String} (hslot : urlSlot kind b = some (.string u))
    (halike : Alike u.toList v.toList) :
    (takeSecrets kind b).1 = (takeSecrets kind (writeSlot kind b (.string v))).1 ∧
      (takeSecrets kind b).2.isEmpty = (takeSecrets kind (writeSlot kind b (.string v))).2.isEmpty := by
  obtain ⟨heq, hhad⟩ := urlWithoutSecret_alike halike
  have hslot' : urlSlot kind (writeSlot kind b (.string v)) = some (.string v) :=
    urlSlot_writeSlot (by rw [hslot]; rfl)
  have hu : takeUrl kind b = (writeSlot kind b
      (.string (String.ofList (urlWithoutSecret u.toList).1)), some u) := by
    simp only [takeUrl, hslot, Option.bind_some, Value.asStr, hhad, if_true]
  have hv : takeUrl kind (writeSlot kind b (.string v)) = (writeSlot kind b
      (.string (String.ofList (urlWithoutSecret u.toList).1)), some v) := by
    simp only [takeUrl, hslot', Option.bind_some, Value.asStr, ← heq, hhad, if_true,
      writeSlot_writeSlot]
  simp only [takeSecrets, hu, hv, Secrets.isEmpty, Option.isNone_some, Bool.and_false, and_self]

/-- The kept request of either is the same, and so is whether it had a secret. -/
theorem takeSecrets_hidden {kind : ItemKind} {b b' : Value} (h : Hidden kind b b') :
    (takeSecrets kind b).1 = (takeSecrets kind b').1 ∧
      (takeSecrets kind b).2.isEmpty = (takeSecrets kind b').2.isEmpty := by
  cases h with
  | password _ _ p p' hget =>
    have hurl : takeUrl kind (b.insert "password" (.string p')) =
        ((takeUrl kind b).1.insert "password" (.string p'), (takeUrl kind b).2) := by
      simp only [takeUrl, urlSlot_insert, writeSlot_insert]
      cases (urlSlot kind b).bind Value.asStr with
      | none => rfl
      | some url =>
        simp only
        split <;> rfl
    have hleft : (takeUrl kind b).1.get "password" = some (.string p) := by
      rcases takeUrl_cases kind b with h | ⟨url, -, h⟩
      · rw [h]
        exact hget
      · rw [h, get_writeSlot]
        exact hget
    obtain ⟨hfst, hsome', hsome⟩ := takePassword_insert _ p p' hleft
    simp only [takeSecrets, hurl, hfst, Secrets.isEmpty, true_and]
    rw [Option.isNone_eq_false_iff.2 hsome, Option.isNone_eq_false_iff.2 hsome']
  | link _ u v h halike => exact takeSecrets_alike h halike
  | source _ s u v hs h halike =>
    exact takeSecrets_alike (by rw [urlSlot, hs]; exact h) halike

/-- An item as it is written to disk and shown: without its secrets. -/
def KeptItem.shown (item : KeptItem) : KeptItem := { item with secrets := {}, intent := none }

theorem json_shown (item : KeptItem) : item.shown.json = item.json := rfl

theorem position_shown (items : List KeptItem) (item : KeptItem) :
    position (items.map KeptItem.shown) item.shown = position items item := by
  have htake : (items.map KeptItem.shown).takeWhile (fun other => other.id ≠ item.id) =
      (items.takeWhile fun other => other.id ≠ item.id).map KeptItem.shown := by
    rw [List.takeWhile_map]
    rfl
  simp only [position]
  rw [show item.shown.id = item.id from rfl, htake, List.filter_map, List.length_map]
  rfl

/-- Items that show the same are viewed the same in books that show the same. -/
theorem view_congr {items items' : List KeptItem} {item item' : KeptItem}
    (hitems : items.map KeptItem.shown = items'.map KeptItem.shown)
    (hitem : item.shown = item'.shown) : view items item = view items' item' := by
  rw [view, view, ← position_shown items, ← position_shown items', hitems, hitem,
    ← json_shown item, ← json_shown item', hitem]

theorem addedItem_shown (a : Added) {b b' : Value} (h : Hidden a.kind b b') :
    (addedItem a b).shown = (addedItem a b').shown := by
  obtain ⟨hrequest, hempty⟩ := takeSecrets_hidden h
  simp only [addedItem, KeptItem.shown, hrequest, hempty]

/-- A request comes back as it was given, but for a password that is `null`; and with another
password, or with another secret in its link, the same is written to disk, every view of the book
it is in is the same, and so is the name it is given. -/
theorem secrets_stay_in_memory (a : Added) (b : Value) (hb : b.Sorted) :
    withSecrets (addedItem a b) = withoutNullPassword b ∧
    ∀ b', Hidden a.kind b b' →
      (addedItem a b).json = (addedItem a b').json ∧
      (∀ before after : List KeptItem,
        (before ++ addedItem a b :: after).map (view (before ++ addedItem a b :: after)) =
          (before ++ addedItem a b' :: after).map (view (before ++ addedItem a b' :: after))) ∧
      defaultLabel a.kind (takeSecrets a.kind b).1 = defaultLabel a.kind (takeSecrets a.kind b').1 := by
  refine ⟨withSecrets_addedItem a hb, fun b' h => ?_⟩
  have hshown := addedItem_shown a h
  refine ⟨?_, fun before after => ?_, ?_⟩
  · rw [← json_shown, hshown, json_shown]
  · have hbook : (before ++ addedItem a b :: after).map KeptItem.shown =
        (before ++ addedItem a b' :: after).map KeptItem.shown := by
      simp only [List.map_append, List.map_cons, hshown]
    rw [List.map_append, List.map_append, List.map_cons, List.map_cons, view_congr hbook hshown]
    have hother : view (before ++ addedItem a b :: after) =
        view (before ++ addedItem a b' :: after) := funext fun other => view_congr hbook rfl
    rw [hother]
  · rw [(takeSecrets_hidden h).1]

/-- An install by a link with a user, and the same with another one and a token. -/
theorem secrets_stay_sample :
    let body (url : String) : Value := .object
      [("password", .null), ("ps5_addr", .string "10.0.0.2"),
        ("source", .object [("url", .string url)])]
    let a : Added :=
      { id := "q-1", console := "10.0.0.2", kind := .install, label := none, stopOnFailure := false,
        addedAtMs := 0 }
    withSecrets (addedItem a (body "https://me:pw@h/a.pkg")) =
        .object [("ps5_addr", .string "10.0.0.2"),
          ("source", .object [("url", .string "https://me:pw@h/a.pkg")])] ∧
      (addedItem a (body "https://me:pw@h/a.pkg")).json =
        (addedItem a (body "https://you@there@h/a.pkg?token=1")).json := by
  intro body a
  have hsorted : (body "https://me:pw@h/a.pkg").Sorted := by
    refine .object (by decide) fun p hp => ?_
    simp only [List.mem_cons, List.not_mem_nil, or_false] at hp
    rcases hp with rfl | rfl | rfl
    · exact .null
    · exact .string _
    · refine .object (by decide) fun p hp => ?_
      rw [List.mem_singleton.1 hp]
      exact .string _
  obtain ⟨hback, hhidden⟩ := secrets_stay_in_memory a (body "https://me:pw@h/a.pkg") hsorted
  let l : Link :=
    { scheme := "https".toList, user := some "me:pw".toList, host := "h".toList,
      path := "/a.pkg".toList, extra := [], scheme_plain := forall_mem_of_all rfl,
      user_plain := fun _ hu => by cases hu; exact forall_mem_of_all rfl
      host_plain := forall_mem_of_all rfl, path_starts := fun _ hc => by cases hc; rfl
      path_plain := forall_mem_of_all rfl, extra_starts := fun _ hc => by cases hc }
  let m : Link :=
    { scheme := "https".toList, user := some "you@there".toList, host := "h".toList,
      path := "/a.pkg".toList, extra := "?token=1".toList, scheme_plain := forall_mem_of_all rfl,
      user_plain := fun _ hu => by cases hu; exact forall_mem_of_all rfl
      host_plain := forall_mem_of_all rfl, path_starts := fun _ hc => by cases hc; rfl
      path_plain := forall_mem_of_all rfl, extra_starts := fun _ hc => by cases hc; rfl }
  refine ⟨hback, (hhidden (body "https://you@there@h/a.pkg?token=1") ?_).1⟩
  have halike : Alike "https://me:pw@h/a.pkg".toList "https://you@there@h/a.pkg?token=1".toList :=
    .link l m rfl rfl rfl (.inl rfl) (.inl rfl)
  exact .source _ _ _ "https://you@there@h/a.pkg?token=1" rfl rfl halike

end Ps5Upload.QueueApi
