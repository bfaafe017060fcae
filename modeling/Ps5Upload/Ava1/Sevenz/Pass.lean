import Mathlib.Algebra.BigOperators.Group.List.Basic
import Ps5Upload.Ava1.Sevenz.Source

/-!
# A 7z archive as a forward-only source: the pass and its forecast

What a pass that nothing stops does over a decoder that yields what the header lists, and what the
forecast says of it.

* `opened_of_openArchive` — where `open` files what the header lists.
-/

namespace Ps5Upload.Sevenz

open ByteFile

/-! ## What a pass should do -/

/-- Nothing stops the pass. -/
def Env.Calm (env : Env) : Prop := (∀ n, env.cancel n = false) ∧ ∀ t e, env.takes t e = true

/-- A decoder's entry is what the header lists. -/
structure Yields (m : Member) (y : Yielded) : Prop where
  name : y.name = m.raw
  reads : ∀ c ∈ y.chunks, c ≠ [] ∧ c.length ≤ bufLen
  size : y.chunks.flatten.length = m.size
  sound : y.failure = none

/-- The entries of a decoder's folder that have data. -/
def Decoded.streams (d : Decoded) : List Yielded := d.entries.filter (·.hasStream)

/-- Every folder yields its members, in header order. -/
def Faithful (src : SevenzSource) (decoder : Nat → Decoded) : Prop :=
  ∀ b members, src.folders[b]? = some members → List.Forall₂ Yields members (decoder b).streams

section Spec

variable (want : String → Nat → Bool) (decoder : Nat → Decoded)

/-- A wanted entry: begun once, fed its whole data, ended. -/
def handedEntry (m : Member) (y : Yielded) : List Event :=
  match m.path with
  | some p => if want p m.size then .begin p :: y.chunks.map .data ++ [.end_] else []
  | none => []

def handedFolder (members : List Member) (ys : List Yielded) : List Event :=
  (members.zip ys).flatMap fun p => handedEntry want p.1 p.2

def handedFolders : Nat → List (List Member) → List Event
  | _, [] => []
  | b, members :: rest => handedFolder want members (decoder b).streams ++ handedFolders (b + 1) rest

def handedEmpties (empties : List String) : List Event :=
  empties.flatMap fun p => if want p 0 then [.begin p, .end_] else []

/-- The folders that hold a wanted member, from the `b`-th on. -/
def openedFolders : Nat → List (List Member) → List Nat
  | _, [] => []
  | b, members :: rest =>
    (if members.any (wanted want) then [b] else []) ++ openedFolders (b + 1) rest

/-- The bytes of a folder before its last wanted member that are not wanted. -/
def discarded : List Member → Nat
  | [] => 0
  | m :: ms =>
    if ms.any (wanted want) then (if wanted want m then 0 else m.size) + discarded ms else 0

def discardedFolders (folders : List (List Member)) : Nat := (folders.map (discarded want)).sum

end Spec

/-- One part of a pass: what it handed on, the folders it opened and the bytes it discarded. -/
structure Did (s s' : PassState) (events : List Event) (folders : List Nat) (bytes : Nat) : Prop where
  trace : s'.trace = s.trace ++ events
  opened : s'.opened = s.opened ++ folders
  skipped : s'.skipped = s.skipped + UInt64.ofNat bytes

namespace Did

variable {s s' s'' : PassState} {es es' : List Event} {fs fs' : List Nat} {n n' : Nat}

theorem refl (s : PassState) : Did s s [] [] 0 :=
  ⟨(List.append_nil _).symm, (List.append_nil _).symm, (UInt64.add_zero _).symm⟩

theorem trans (h : Did s s' es fs n) (h' : Did s' s'' es' fs' n') :
    Did s s'' (es ++ es') (fs ++ fs') (n + n') where
  trace := by rw [h'.trace, h.trace, List.append_assoc]
  opened := by rw [h'.opened, h.opened, List.append_assoc]
  skipped := by rw [h'.skipped, h.skipped, UInt64.ofNat_add, UInt64.add_assoc]

end Did

section Pass

variable {env : Env} {want : String → Nat → Bool}

theorem poll_did (hcalm : env.Calm) (s : PassState) :
    ∃ s', poll env s = .ok s' ∧ Did s s' [] [] 0 := by
  refine ⟨{ s with polls := s.polls + 1 }, ?_, ?_⟩
  · rw [poll, hcalm.1, if_neg (by simp)]
  · exact ⟨(List.append_nil _).symm, (List.append_nil _).symm, (UInt64.add_zero _).symm⟩

theorem emit_did (hcalm : env.Calm) (e : Event) (s : PassState) :
    ∃ s', emit env e s = .ok s' ∧ Did s s' [e] [] 0 := by
  refine ⟨{ s with trace := s.trace ++ [e] }, ?_, ?_⟩
  · rw [emit, hcalm.2, if_pos rfl]
  · exact ⟨rfl, (List.append_nil _).symm, (UInt64.add_zero _).symm⟩

/-- The reads of an entry are all discarded or all handed on. -/
theorem pump_did (hcalm : env.Calm) (skipping : Bool) {cs : List Bytes} (hcs : ∀ c ∈ cs, c ≠ [])
    (total : Nat) (s : PassState) :
    ∃ s', pump env skipping none cs total s = .ok (total + cs.flatten.length, s') ∧
      Did s s' (if skipping then [] else cs.map .data) [] (if skipping then cs.flatten.length else 0) := by
  induction cs generalizing total s with
  | nil =>
    obtain ⟨s1, h1, d1⟩ := poll_did hcalm s
    refine ⟨s1, ?_, ?_⟩
    · rw [pump, h1]
      rfl
    · simpa using d1
  | cons c cs ih =>
    obtain ⟨s1, h1, d1⟩ := poll_did hcalm s
    have hc : c ≠ [] := hcs c List.mem_cons_self
    have hrest : ∀ c ∈ cs, c ≠ [] := fun c' h => hcs c' (List.mem_cons_of_mem c h)
    set s2 : PassState := { s1 with decoded := s1.decoded + UInt64.ofNat c.length } with hs2
    have d2 : Did s1 s2 [] [] 0 :=
      ⟨(List.append_nil _).symm, (List.append_nil _).symm, (UInt64.add_zero _).symm⟩
    cases skipping with
    | true =>
      have d3 : Did s2 { s2 with skipped := s2.skipped + UInt64.ofNat c.length } [] [] c.length :=
        ⟨(List.append_nil _).symm, (List.append_nil _).symm, rfl⟩
      obtain ⟨s', h', d'⟩ := ih hrest (total + c.length)
        { s2 with skipped := s2.skipped + UInt64.ofNat c.length }
      refine ⟨s', ?_, ?_⟩
      · rw [pump, h1]
        show (if c = [] then _ else _) = _
        rw [if_neg hc]
        show pump env true none cs (total + c.length) _ = _
        rw [List.flatten_cons, List.length_append, ← Nat.add_assoc]
        exact h'
      · have := ((d1.trans d2).trans d3).trans d'
        simpa [List.length_append] using this
    | false =>
      obtain ⟨s3, h3, d3⟩ := emit_did hcalm (.data c) s2
      obtain ⟨s', h', d'⟩ := ih hrest (total + c.length) s3
      refine ⟨s', ?_, ?_⟩
      · rw [pump, h1]
        show (if c = [] then _ else _) = _
        rw [if_neg hc]
        show (emit env (.data c) s2 >>= fun s => pump env false none cs (total + c.length) s) = _
        rw [h3, List.flatten_cons, List.length_append, ← Nat.add_assoc]
        exact h'
      · have := ((d1.trans d2).trans d3).trans d'
        simpa using this

variable (want) in
/-- A member that is not wanted is discarded; a wanted one is handed on. -/
theorem feed_did (hcalm : env.Calm) {m : Member} {y : Yielded} (hy : Yields m y) (s : PassState) :
    ∃ s', feed env m (!wanted want m) y s = .ok s' ∧
      Did s s' (handedEntry want m y) [] (if wanted want m then 0 else m.size) := by
  have hcs : ∀ c ∈ y.chunks, c ≠ [] := fun c hc => (hy.reads c hc).1
  cases hw : wanted want m with
  | false =>
    obtain ⟨s1, h1, d1⟩ := pump_did hcalm true hcs 0 s
    rw [Nat.zero_add, hy.size] at h1
    have hevents : handedEntry want m y = [] := by
      rw [handedEntry]
      cases hp : m.path with
      | none => rfl
      | some p =>
        have : want p m.size = false := by simpa [wanted, hp] using hw
        simp [this]
    refine ⟨s1, ?_, ?_⟩
    · rw [feed, hy.sound]
      show (pump env true none y.chunks 0 s >>= _) = _
      rw [h1]
      show (if m.size ≠ m.size then _ else _) = _
      rw [if_neg (by simp)]
      rfl
    · rw [hevents]
      simpa [hy.size] using d1
  | true =>
    obtain ⟨p, hp⟩ : ∃ p, m.path = some p := by
      cases hp : m.path with
      | none => simp [wanted, hp] at hw
      | some p => exact ⟨p, rfl⟩
    have hwant : want p m.size = true := by simpa [wanted, hp] using hw
    obtain ⟨s1, h1, d1⟩ := emit_did hcalm (.begin p) s
    obtain ⟨s2, h2, d2⟩ := pump_did hcalm false hcs 0 s1
    obtain ⟨s3, h3, d3⟩ := emit_did hcalm .end_ s2
    rw [Nat.zero_add, hy.size] at h2
    refine ⟨s3, ?_, ?_⟩
    · rw [feed, hy.sound, hp]
      show (emit env (.begin p) s >>= fun s => pump env false none y.chunks 0 s >>= _) = _
      rw [h1]
      show (pump env false none y.chunks 0 s1 >>= _) = _
      rw [h2]
      show (if m.size ≠ m.size then _ else _) = _
      rw [if_neg (by simp)]
      exact h3
    · have := (d1.trans d2).trans d3
      simpa [handedEntry, hp, hwant] using this

theorem rposition_cons (k : Bool) (ks : List Bool) : rposition (k :: ks) =
    match rposition ks with
    | some i => some (i + 1)
    | none => if k then some 0 else none := rfl

variable {ms : List Member}

theorem rposition_eq_none :
    rposition (ms.map (wanted want)) = none ↔ ms.any (wanted want) = false := by
  induction ms with
  | nil => simp [rposition]
  | cons m ms ih =>
    rw [List.map_cons, rposition_cons, List.any_cons]
    cases hr : rposition (ms.map (wanted want)) with
    | some i =>
      have : ms.any (wanted want) = true := by
        cases ha : ms.any (wanted want) with
        | true => rfl
        | false => rw [ih.2 ha] at hr; cases hr
      simp [this]
    | none => cases hw : wanted want m <;> simp [ih.1 hr]

theorem any_of_rposition {l : Nat}
    (h : rposition (ms.map (wanted want)) = some l) : ms.any (wanted want) = true := by
  cases ha : ms.any (wanted want) with
  | true => rfl
  | false =>
    rw [rposition_eq_none.2 ha] at h
    cases h

/-- Of a folder without a wanted member nothing is handed on. -/
theorem handedFolder_none (h : ms.any (wanted want) = false) (ys : List Yielded) :
    handedFolder want ms ys = [] := by
  refine List.flatMap_eq_nil_iff.2 fun p hp => ?_
  have hm : wanted want p.1 = false := by
    have := List.any_eq_false.1 h p.1 (List.of_mem_zip hp).1
    simpa using this
  rw [handedEntry]
  cases hpath : p.1.path with
  | none => rfl
  | some q =>
    have : want q p.1.size = false := by simpa [wanted, hpath] using hm
    simp [this]

theorem discarded_none (h : ms.any (wanted want) = false) : discarded want ms = 0 := by
  cases ms with
  | nil => rfl
  | cons m ms =>
    rw [List.any_cons, Bool.or_eq_false_iff] at h
    rw [discarded, h.2, if_neg (by simp)]

/-- The walk over what is left of a folder, up to its last wanted member. -/
theorem walk_did (hcalm : env.Calm) {ys : List Yielded} (pre : List Member) {l : Nat}
    (hys : List.Forall₂ Yields ms (ys.filter (·.hasStream)))
    (hl : rposition (ms.map (wanted want)) = some l) (s : PassState) :
    ∃ s', walk env (pre ++ ms) ((pre ++ ms).map (wanted want)) (pre.length + l) ys pre.length s =
        .ok (pre.length + l + 1, true, s') ∧
      Did s s' (handedFolder want ms (ys.filter (·.hasStream))) [] (discarded want ms) := by
  induction ys generalizing pre ms l s with
  | nil =>
    cases hys
    cases hl
  | cons y ys ih =>
    cases hstream : y.hasStream with
    | false =>
      have hskip : (y :: ys).filter (·.hasStream) = ys.filter (·.hasStream) := by simp [hstream]
      rw [hskip] at hys ⊢
      rw [walk, hstream]
      exact ih pre hys hl s
    | true =>
      have hkeep : (y :: ys).filter (·.hasStream) = y :: ys.filter (·.hasStream) := by
        simp [hstream]
      rw [hkeep] at hys ⊢
      cases hys with
      | @cons m _ ms _ hy hrest =>
        obtain ⟨s1, h1, d1⟩ := feed_did want hcalm hy s
        have hm : (pre ++ m :: ms)[pre.length]? = some m := by simp
        have hk : ((pre ++ m :: ms).map (wanted want))[pre.length]? = some (wanted want m) := by simp
        have hstep : ∀ last, walk env (pre ++ m :: ms) ((pre ++ m :: ms).map (wanted want)) last
            (y :: ys) pre.length s = if pre.length < last then
              walk env (pre ++ m :: ms) ((pre ++ m :: ms).map (wanted want)) last ys
                (pre.length + 1) s1 else .ok (pre.length + 1, true, s1) := by
          intro last
          rw [walk, hstream, hm, hk]
          show (if y.name ≠ m.raw then _ else feed env m (!wanted want m) y s >>= _) = _
          rw [if_neg (by simp [hy.name]), h1]
          rfl
        have hhanded : handedFolder want (m :: ms) (y :: ys.filter (·.hasStream)) =
            handedEntry want m y ++ handedFolder want ms (ys.filter (·.hasStream)) := rfl
        rw [List.map_cons, rposition_cons] at hl
        cases hr : rposition (ms.map (wanted want)) with
        | some i =>
          rw [hr] at hl
          cases hl
          obtain ⟨s2, h2, d2⟩ := ih (pre ++ [m]) hrest hr s1
          have hlen : (pre ++ [m]).length = pre.length + 1 := by simp
          have hsame : pre ++ [m] ++ ms = pre ++ m :: ms := by simp
          rw [hlen, hsame, Nat.add_assoc pre.length 1 i, Nat.add_comm 1 i] at h2
          refine ⟨s2, ?_, ?_⟩
          · rw [hstep, if_pos (by omega)]
            exact h2
          · rw [hhanded, discarded, if_pos (any_of_rposition hr)]
            exact d1.trans d2
        | none =>
          -- Nothing is wanted behind this member: the walk ends with it.
          rw [hr] at hl
          have hnone := rposition_eq_none.1 hr
          cases hw : wanted want m with
          | false => simp [hw] at hl
          | true =>
            rw [hw] at hl d1
            cases hl
            refine ⟨s1, ?_, ?_⟩
            · rw [hstep, if_neg (by omega), Nat.add_zero]
            · rw [hhanded, handedFolder_none hnone, List.append_nil, discarded, hnone,
                if_neg (by simp)]
              exact d1

variable (want) in
theorem passFolder_did (hcalm : env.Calm) {decoder : Nat → Decoded} {b : Nat}
    {members : List Member} (hys : List.Forall₂ Yields members (decoder b).streams)
    (s : PassState) :
    ∃ s', passFolder env want decoder b members s = .ok s' ∧
      Did s s' (handedFolder want members (decoder b).streams)
        (if members.any (wanted want) then [b] else []) (discarded want members) := by
  obtain ⟨s1, h1, d1⟩ := poll_did hcalm s
  rw [passFolder, h1]
  dsimp only [bind, Except.bind]
  cases hr : rposition (members.map (wanted want)) with
  | none =>
    have hnone := rposition_eq_none.1 hr
    refine ⟨s1, rfl, ?_⟩
    rw [handedFolder_none hnone, discarded_none hnone, hnone]
    exact d1
  | some last =>
    have d2 : Did s1 { s1 with opened := s1.opened ++ [b] } [] [b] 0 :=
      ⟨(List.append_nil _).symm, rfl, (UInt64.add_zero _).symm⟩
    obtain ⟨s2, h2, d3⟩ := walk_did hcalm [] hys hr { s1 with opened := s1.opened ++ [b] }
    rw [List.nil_append, List.length_nil, Nat.zero_add] at h2
    refine ⟨s2, ?_, ?_⟩
    · show (walk env members (members.map (wanted want)) last (decoder b).entries 0 _ >>= _) = _
      rw [h2]
      rfl
    · rw [any_of_rposition hr, if_pos rfl]
      have := (d1.trans d2).trans d3
      simpa [Decoded.streams] using this

variable (want) in
theorem passFolders_did (hcalm : env.Calm) (decoder : Nat → Decoded) (folders : List (List Member))
    (b : Nat) (hys : ∀ i members, folders[i]? = some members →
      List.Forall₂ Yields members (decoder (b + i)).streams) (s : PassState) :
    ∃ s', passFolders env want decoder b folders s = .ok s' ∧
      Did s s' (handedFolders want decoder b folders) (openedFolders want b folders)
        (discardedFolders want folders) := by
  induction folders generalizing b s with
  | nil => exact ⟨s, rfl, Did.refl s⟩
  | cons members rest ih =>
    obtain ⟨s1, h1, d1⟩ := passFolder_did want hcalm (hys 0 members rfl) s
    obtain ⟨s2, h2, d2⟩ := ih (b + 1) (fun i ms h => by
      have := hys (i + 1) ms h
      rwa [Nat.add_comm i 1, ← Nat.add_assoc] at this) s1
    refine ⟨s2, ?_, ?_⟩
    · rw [passFolders]
      show (passFolder env want decoder b members s >>= _) = _
      rw [show passFolder env want decoder b members s = .ok s1 from h1]
      exact h2
    · exact d1.trans d2

variable (want) in
theorem passEmpties_did (hcalm : env.Calm) (ps : List String) (s : PassState) :
    ∃ s', passEmpties env want ps s = .ok s' ∧ Did s s' (handedEmpties want ps) [] 0 := by
  induction ps generalizing s with
  | nil => exact ⟨s, rfl, Did.refl s⟩
  | cons p ps ih =>
    obtain ⟨s1, h1, d1⟩ := poll_did hcalm s
    cases hw : want p 0 with
    | false =>
      obtain ⟨s2, h2, d2⟩ := ih s1
      refine ⟨s2, ?_, ?_⟩
      · rw [passEmpties, h1]
        simp only [hw]
        exact h2
      · simpa [handedEmpties, hw] using d1.trans d2
    | true =>
      obtain ⟨s2, h2, d2⟩ := emit_did hcalm (.begin p) s1
      obtain ⟨s3, h3, d3⟩ := emit_did hcalm .end_ s2
      obtain ⟨s4, h4, d4⟩ := ih s3
      refine ⟨s4, ?_, ?_⟩
      · rw [passEmpties, h1]
        simp only [hw, if_true]
        show (emit env (.begin p) s1 >>= _) = _
        rw [h2]
        show (emit env .end_ s2 >>= _) = _
        rw [h3]
        exact h4
      · have := ((d1.trans d2).trans d3).trans d4
        simpa [handedEmpties, hw] using this

variable (want) in
/-- What a pass does that nothing stops, over a decoder that yields what the header lists. -/
theorem pass_did (hcalm : env.Calm) {src : SevenzSource} {decoder : Nat → Decoded}
    (hdec : Faithful src decoder) (restart : Nat) (s : PassState) :
    ∃ s', src.pass env want decoder restart s = .ok s' ∧
      Did s s' (handedFolders want decoder restart (src.folders.drop restart) ++
          handedEmpties want src.empties)
        (openedFolders want restart (src.folders.drop restart))
        (discardedFolders want (src.folders.drop restart)) := by
  obtain ⟨s1, h1, d1⟩ := passFolders_did want hcalm decoder (src.folders.drop restart)
    restart (fun i members h => by
      rw [List.getElem?_drop] at h
      exact hdec _ members h) s
  obtain ⟨s2, h2, d2⟩ := passEmpties_did want hcalm src.empties s1
  refine ⟨s2, ?_, ?_⟩
  · rw [SevenzSource.pass, h1]
    exact h2
  · simpa using d1.trans d2

end Pass

/-! ## The forecast -/

section Forecast

variable {want : String → Nat → Bool}

theorem foldl_saturatingAdd {α : Type} (f : α → Nat) (l : List α) {n : Nat} :
    l.foldl (fun n a => saturatingAdd n (f a)) (min n u64Max) = min (n + (l.map f).sum) u64Max := by
  induction l generalizing n with
  | nil => rfl
  | cons a l ih =>
    have hstep : saturatingAdd (min n u64Max) (f a) = min (n + f a) u64Max := by
      rw [saturatingAdd]
      omega
    rw [List.foldl_cons, hstep, ih, List.map_cons, List.sum_cons, Nat.add_assoc]

/-- The entries the forecast counts in a folder are those the walk discards. -/
theorem sum_skips {ms : List Member} {l : Nat} (h : rposition (ms.map (wanted want)) = some l) :
    ((((ms.take (l + 1)).zip (ms.map fun m => !wanted want m)).filter (·.2)).map
      fun p => p.1.size).sum = discarded want ms := by
  induction ms generalizing l with
  | nil => cases h
  | cons m ms ih =>
    rw [List.map_cons, rposition_cons] at h
    cases hr : rposition (ms.map (wanted want)) with
    | some i =>
      rw [hr] at h
      cases h
      rw [discarded, if_pos (any_of_rposition hr), ← ih hr]
      cases hw : wanted want m <;> simp [hw]
    | none =>
      rw [hr] at h
      have hnone := rposition_eq_none.1 hr
      cases hw : wanted want m with
      | false => simp [hw] at h
      | true =>
        rw [hw] at h
        cases h
        simp [discarded, hnone, hw]

theorem folderToSkip_eq (ms : List Member) (n : Nat) :
    folderToSkip want ms (min n u64Max) = min (n + discarded want ms) u64Max := by
  have hkeeps : (ms.map fun m => !wanted want m).map (!·) = ms.map (wanted want) := by
    simp [Function.comp_def]
  rw [folderToSkip]
  simp only [hkeeps]
  cases hr : rposition (ms.map (wanted want)) with
  | none => rw [discarded_none (rposition_eq_none.1 hr), Nat.add_zero]
  | some l =>
    rw [← sum_skips hr]
    exact foldl_saturatingAdd (fun p : Member × Bool => p.1.size) _

/-- The forecast is the bytes that the pass discards, as far as 64 bits hold them. -/
theorem bytesToSkip_eq (src : SevenzSource) (restart : Nat) :
    src.bytesToSkip want restart =
      min (discardedFolders want (src.folders.drop restart)) u64Max := by
  have hall : ∀ (folders : List (List Member)) (n : Nat),
      folders.foldl (fun n ms => folderToSkip want ms n) (min n u64Max) =
        min (n + discardedFolders want folders) u64Max := by
    intro folders
    induction folders with
    | nil =>
      intro n
      rfl
    | cons ms rest ih =>
      intro n
      rw [List.foldl_cons, folderToSkip_eq, ih, discardedFolders, discardedFolders, List.map_cons,
        List.sum_cons, Nat.add_assoc]
  have := hall (src.folders.drop restart) 0
  rw [Nat.zero_add] at this
  exact this

end Forecast

/-! ## Restarts -/

section Restarts

variable {sanitizeEntry : String → Option String} {isExcluded : String → Bool}
  {checkPath : String → Option String}

/-- Every file that is listed is in its folder, or among the empty ones. -/
def Filed (l : Listed) : Prop :=
  ∀ p block size mtime, l.files.get p = some (block, size, mtime) →
    (∀ b, block = some b → ∃ members, l.folders[b]? = some members ∧
      ∃ m ∈ members, m.path = some p ∧ m.size = size) ∧
    (block = none → p ∈ l.empties ∧ size = 0)

/-- A file that is filed is found again, and the others stay where they are. -/
theorem Filed.fileEntry {l l' : Listed} (h : Filed l) {e : ArchiveFile} {path : Option String}
    (hl : fileEntry l e path = .ok l') :
    Filed l' ∧ l'.files = l.files ∧ ∀ p, path = some p →
      (∀ b, e.block = some b → ∃ members, l'.folders[b]? = some members ∧
        ∃ m ∈ members, m.path = some p ∧ m.size = e.size) ∧
      (e.block = none → p ∈ l'.empties ∧ e.size = 0) := by
  unfold Sevenz.fileEntry at hl
  split at hl
  · rename_i b hb
    split at hl
    · rename_i hlt
      cases hl
      set new : Member := { raw := e.name, path, size := e.size } with hnew
      have hmod : ∀ (c : Nat) (members : List Member), l.folders[c]? = some members →
          ∃ members', (l.folders.modify b (· ++ [new]))[c]? = some members' ∧
            members ⊆ members' := by
        intro c members hc
        rw [List.getElem?_modify, hc]
        by_cases hbc : b = c
        · exact ⟨members ++ [new], by simp [hbc], List.subset_append_left _ _⟩
        · exact ⟨members, by simp [hbc], List.Subset.refl _⟩
      refine ⟨fun p block size mtime hget => ?_, rfl, fun p hp => ⟨fun c hc => ?_, fun hn => ?_⟩⟩
      · obtain ⟨hin, hempty⟩ := h p block size mtime hget
        refine ⟨fun c hc => ?_, hempty⟩
        obtain ⟨members, hm, m, hmem, hpath⟩ := hin c hc
        obtain ⟨members', hm', hsub⟩ := hmod c members hm
        exact ⟨members', hm', m, hsub hmem, hpath⟩
      · rw [hb] at hc
        cases hc
        refine ⟨l.folders[b] ++ [new], ?_, new, by simp, hp, rfl⟩
        show (l.folders.modify b (· ++ [new]))[b]? = _
        rw [List.getElem?_modify, List.getElem?_eq_getElem hlt]
        simp
      · rw [hb] at hn
        cases hn
    · cases hl
  · rename_i hb
    cases hl
    refine ⟨fun p block size mtime hget => ?_, rfl, fun p hp => ⟨fun c hc => ?_, fun _ => ?_⟩⟩
    · obtain ⟨hin, hempty⟩ := h p block size mtime hget
      exact ⟨hin, fun hn => ⟨List.mem_append_left _ (hempty hn).1, (hempty hn).2⟩⟩
    · rw [hb] at hc
      cases hc
    · exact ⟨List.mem_append_right _ (by simp [hp]), e.size_of_no_block hb⟩

theorem Filed.listFile {l l' : Listed} (h : Filed l) {e : ArchiveFile}
    (hl : listFile sanitizeEntry isExcluded l e = .ok l') : Filed l' := by
  unfold Sevenz.listFile at hl
  split at hl
  · cases hl
  split at hl
  · -- a directory
    split at hl
    · split at hl <;> cases hl <;> exact h
    · cases hl
      exact h
  cases hs : sanitize sanitizeEntry e.name with
  | error err =>
    rw [hs] at hl
    cases hl
  | ok rel =>
    rw [hs] at hl
    simp only [bind, Except.bind] at hl
    cases hf : Sevenz.fileEntry l e (if isExcluded rel then none else some rel) with
    | error err =>
      rw [hf] at hl
      cases hl
    | ok filed =>
      rw [hf] at hl
      simp only at hl
      obtain ⟨hfiled, hsame, hnew⟩ := h.fileEntry hf
      split at hl
      · cases hl
        exact hfiled
      rename_i hex
      split at hl
      · cases hl
      cases hl
      obtain ⟨hin, hempty⟩ := hnew rel (if_neg hex)
      intro p block size mtime hget
      rw [show ({ filed with files := filed.files.insert rel (e.block, e.size, e.mtime) } :
        Listed).files = filed.files.insert rel (e.block, e.size, e.mtime) from rfl,
        BTreeMap.get_insert] at hget
      split at hget
      · rename_i hp
        subst hp
        cases hget
        exact ⟨hin, hempty⟩
      · exact hfiled p block size mtime hget

theorem Filed.listFiles {es : List ArchiveFile} {l l' : Listed} (h : Filed l)
    (hl : listFiles sanitizeEntry isExcluded es l = .ok l') : Filed l' := by
  induction es generalizing l with
  | nil =>
    cases hl
    exact h
  | cons e es ih =>
    rw [Sevenz.listFiles] at hl
    cases hf : Sevenz.listFile sanitizeEntry isExcluded l e with
    | error err =>
      rw [hf] at hl
      cases hl
    | ok l1 =>
      rw [hf] at hl
      exact ih (h.listFile hf) hl

/-- What an open source says of its files: each is in the folder that is its restart point, or it
is empty. -/
structure Opened (entries : List Entry) (src : SevenzSource) : Prop where
  filed : ∀ (i : Nat) (e : Entry), entries[i]? = some e → e.kind = .file →
    (∃ members, src.folders[src.restartFor i]? = some members ∧
      ∃ m ∈ members, m.path = some e.path ∧ m.size = e.size) ∨
    e.path ∈ src.empties ∧ e.size = 0

theorem opened_of_openArchive {path : String} {a : Archive} {entries : List Entry}
    {src : SevenzSource}
    (h : openArchive sanitizeEntry isExcluded checkPath path a = .ok (entries, src)) :
    Opened entries src := by
  unfold openArchive at h
  split at h
  · cases h
  cases hl : listFiles sanitizeEntry isExcluded a.files { folders := List.replicate a.nblocks [] } with
  | error err =>
    rw [hl] at h
    cases h
  | ok l =>
    rw [hl] at h
    simp only [bind, Except.bind] at h
    split at h
    · cases h
    split at h
    · cases h
    split at h
    · cases h
    cases h
    have hfiled : Filed l := by
      refine Filed.listFiles (fun p block size mtime hget => ?_) hl
      rw [show ({ folders := List.replicate a.nblocks [] } : Listed).files = ∅ from rfl,
        BTreeMap.get_empty] at hget
      cases hget
    constructor
    intro i e he hkind
    have hmem := List.mem_mergeSort.1 (List.mem_of_getElem? he)
    have hget : ∃ block, l.files.get e.path = some (block, e.size, e.mtime) := by
      rcases List.mem_append.1 hmem with hd | hf
      · obtain ⟨d, -, rfl⟩ := List.mem_map.1 hd
        cases hkind
      · obtain ⟨p, hp, rfl⟩ := List.mem_map.1 hf
        exact ⟨p.2.1, BTreeMap.get_eq_some.2 hp⟩
    obtain ⟨block, hget⟩ := hget
    obtain ⟨hin, hempty⟩ := hfiled e.path block e.size e.mtime hget
    cases block with
    | none => exact .inr (hempty rfl)
    | some b =>
      refine .inl ?_
      have hrestart : restartOf l.files e = b := by
        rw [restartOf, hget, hkind]
      rw [SevenzSource.restartFor, List.getElem?_map, he]
      show ∃ members, l.folders[restartOf l.files e]? = some members ∧ _
      rw [hrestart]
      exact hin b rfl

/-- A file was handed on: begun, fed as many bytes as it has, and ended. -/
def Handed (es : List Event) (e : Entry) : Prop :=
  ∃ chunks : List Bytes, chunks.flatten.length = e.size ∧
    (.begin e.path :: chunks.map .data ++ [.end_]) <:+: es

variable {want : String → Nat → Bool} {decoder : Nat → Decoded}

variable (want) in
theorem handedFolder_infix {members : List Member} {ys : List Yielded}
    (hys : List.Forall₂ Yields members ys) {m : Member} (hm : m ∈ members) :
    ∃ y, Yields m y ∧ handedEntry want m y <:+: handedFolder want members ys := by
  induction hys with
  | nil => cases hm
  | @cons m' y' ms ys hy _ ih =>
    rcases List.mem_cons.1 hm with rfl | hm
    · exact ⟨y', hy, (List.prefix_append _ _).isInfix⟩
    · obtain ⟨y, hy', hsub⟩ := ih hm
      exact ⟨y, hy', hsub.trans (List.suffix_append _ _).isInfix⟩

variable (want decoder) in
theorem handedFolders_infix {folders : List (List Member)} (b : Nat) {i : Nat} {members : List Member}
    (h : folders[i]? = some members) :
    handedFolder want members (decoder (b + i)).streams <:+: handedFolders want decoder b folders := by
  induction folders generalizing b i with
  | nil => cases h
  | cons ms rest ih =>
    cases i with
    | zero =>
      cases h
      exact (List.prefix_append _ _).isInfix
    | succ i =>
      have := ih (b + 1) (i := i) h
      rw [Nat.add_assoc, Nat.add_comm 1 i] at this
      exact this.trans (List.suffix_append _ _).isInfix

/-- From a restart point that is none of the file's later ones, the file is handed on. -/
theorem restart_reaches {entries : List Entry} {src : SevenzSource} (hopen : Opened entries src)
    (hdec : Faithful src decoder) {i restart : Nat} {e : Entry} (he : entries[i]? = some e)
    (hkind : e.kind = .file) (hwant : want e.path e.size = true)
    (hle : restart ≤ src.restartFor i) :
    Handed (handedFolders want decoder restart (src.folders.drop restart) ++
      handedEmpties want src.empties) e := by
  rcases hopen.filed i e he hkind with ⟨members, hmembers, m, hm, hpath, hsize⟩ | ⟨hmem, hsize⟩
  · obtain ⟨y, hy, hsub⟩ := handedFolder_infix want (hdec _ _ hmembers) hm
    have hdrop : (src.folders.drop restart)[src.restartFor i - restart]? = some members := by
      rw [List.getElem?_drop, Nat.add_sub_cancel' hle]
      exact hmembers
    have hfolder := handedFolders_infix want decoder restart hdrop
    rw [Nat.add_sub_cancel' hle] at hfolder
    have hentry : handedEntry want m y = .begin e.path :: y.chunks.map .data ++ [.end_] := by
      rw [handedEntry, hpath]
      simp only [hsize, hwant, if_true]
    rw [hentry] at hsub
    exact ⟨y.chunks, hy.size.trans hsize, (hsub.trans hfolder).trans (List.prefix_append _ _).isInfix⟩
  · refine ⟨[], by rw [hsize]; rfl, ?_⟩
    obtain ⟨pre, post, hsplit⟩ := List.append_of_mem hmem
    rw [hsize] at hwant
    refine List.IsInfix.trans ?_ (List.suffix_append _ _).isInfix
    rw [handedEmpties, hsplit, List.flatMap_append, List.flatMap_cons, if_pos hwant]
    exact ⟨_, _, by rw [List.append_assoc]; rfl⟩

end Restarts

/-- The least restart point of some files. -/
def SevenzSource.leastRestart (src : SevenzSource) (ids : List Nat) : Nat :=
  (ids.map src.restartFor).foldr min u64Max

theorem leastRestart_le {src : SevenzSource} {ids : List Nat} {i : Nat} (h : i ∈ ids) :
    src.leastRestart ids ≤ src.restartFor i := by
  induction ids with
  | nil => cases h
  | cons j ids ih =>
    rcases List.mem_cons.1 h with rfl | h
    · exact Nat.min_le_left _ _
    · exact (Nat.min_le_right _ _).trans (ih h)

/-- A pass over an archive that nothing stops, from any restart point: the sink is handed the
wanted members of the folders from there on, and then the wanted empty files; the folders opened
are those that hold a wanted member; and the counter grows by the bytes discarded, which the
forecast says as far as 64 bits hold it.  A pass from the least restart point of some wanted files
hands on each of them. -/
theorem pass_forecast {sanitizeEntry : String → Option String} {isExcluded : String → Bool}
    {checkPath : String → Option String} {path : String} {a : Archive} {entries : List Entry}
    {src : SevenzSource}
    (hopen : openArchive sanitizeEntry isExcluded checkPath path a = .ok (entries, src))
    {decoder : Nat → Decoded} (hdec : Faithful src decoder) {env : Env} (hcalm : env.Calm)
    (want : String → Nat → Bool) (restart : Nat) (s : PassState) :
    (∃ s', src.pass env want decoder restart s = .ok s' ∧
      s'.trace = s.trace ++ (handedFolders want decoder restart (src.folders.drop restart) ++
        handedEmpties want src.empties) ∧
      s'.opened = s.opened ++ openedFolders want restart (src.folders.drop restart) ∧
      s'.skipped = s.skipped +
        UInt64.ofNat (discardedFolders want (src.folders.drop restart)) ∧
      src.bytesToSkip want restart =
        min (discardedFolders want (src.folders.drop restart)) u64Max) ∧
    ∀ ids : List Nat, restart = src.leastRestart ids → ∀ i ∈ ids, ∀ e, entries[i]? = some e →
      e.kind = .file → want e.path e.size = true →
      Handed (handedFolders want decoder restart (src.folders.drop restart) ++
        handedEmpties want src.empties) e := by
  constructor
  · obtain ⟨s', hpass, hdid⟩ := pass_did want hcalm hdec restart s
    exact ⟨s', hpass, hdid.trace, hdid.opened, hdid.skipped, bytesToSkip_eq src restart⟩
  · rintro ids rfl i hi e he hkind hwant
    exact restart_reaches (opened_of_openArchive hopen) hdec he hkind hwant (leastRestart_le hi)

/-! ## A forecast past 64 bits -/

/-- Two excluded files of 2^63 bytes, and a small one that is kept. -/
def largeArchive : Archive :=
  let file (name : String) (size : Nat) : ArchiveFile :=
    { name, isDirectory := false, hasStream := true, size, mtime := 0, block := some 0,
      size_of_no_block := nofun }
  { nblocks := 1
    encrypted := false
    files := [file "a" (2 ^ 63), file "b" (2 ^ 63), file "c" 1] }

def largeSource : SevenzSource :=
  { folders := [[⟨"a", none, 2 ^ 63⟩, ⟨"b", none, 2 ^ 63⟩, ⟨"c", some "c", 1⟩]]
    empties := []
    restarts := [0] }

theorem open_large : openArchive some (fun p => decide (p ≠ "c")) (fun _ => none) "x.7z" largeArchive =
    .ok ([{ kind := .file, mode := 0o644, size := 1, mtime := 0, path := "c" }], largeSource) := by
  have hlist : listFiles some (fun p => decide (p ≠ "c")) largeArchive.files
      { folders := List.replicate largeArchive.nblocks [] } =
    .ok { folders := largeSource.folders, files := (∅ : BTreeMap _ _).insert "c" (some 0, 1, 0) } := rfl
  have hdirs : (((∅ : BTreeMap String (Option Nat × Nat × Nat)).insert "c" (some 0, 1, 0)).keys.flatMap
      parents).foldl (fun dirs d => dirs.insert d ()) (∅ : BTreeMap String Unit) = ∅ := by
    have hparents : parents "c" = [] := by decide
    show (parents "c" ++ []).foldl _ _ = _
    rw [hparents]
    rfl
  have hentries : entriesOf
      { folders := largeSource.folders, files := (∅ : BTreeMap _ _).insert "c" (some 0, 1, 0) } ∅ =
      [{ kind := .file, mode := 0o644, size := 1, mtime := 0, path := "c" }] :=
    List.mergeSort_singleton _
  unfold openArchive
  simp only [hlist, bind, Except.bind, hdirs, hentries]
  rfl

/-- A decoder that yields the three files, read through a full buffer as far as it goes. -/
def largeDecoder (_ : Nat) : Decoded :=
  let half : List Bytes := List.replicate (2 ^ 45) (List.replicate bufLen 0)
  { entries := [⟨"a", true, half, none⟩, ⟨"b", true, half, none⟩, ⟨"c", true, [[0]], none⟩] }

theorem faithful_large : Faithful largeSource largeDecoder := by
  have hhalf : ∀ name, Yields ⟨name, none, 2 ^ 63⟩
      ⟨name, true, List.replicate (2 ^ 45) (List.replicate bufLen 0), none⟩ := fun name =>
    { name := rfl
      reads := fun c hc => by
        rw [List.eq_of_mem_replicate hc, List.length_replicate]
        refine ⟨fun h => ?_, Nat.le_refl _⟩
        have := congrArg List.length h
        rw [List.length_replicate] at this
        cases this
      size := by
        rw [List.flatten_replicate_replicate, List.length_replicate]
        rfl
      sound := rfl }
  rintro b members hb
  have hzero : b = 0 ∧ members = [⟨"a", none, 2 ^ 63⟩, ⟨"b", none, 2 ^ 63⟩, ⟨"c", some "c", 1⟩] := by
    cases b with
    | zero =>
      cases hb
      exact ⟨rfl, rfl⟩
    | succ b => cases hb
  rw [hzero.2]
  refine .cons (hhalf "a") (.cons (hhalf "b") (.cons ⟨rfl, ?_, rfl, rfl⟩ .nil))
  intro c hc
  rw [List.mem_singleton.1 hc]
  decide

def calmEnv : Env := { cancel := fun _ => false, takes := fun _ _ => true }

theorem calmEnv_calm : calmEnv.Calm := ⟨fun _ => rfl, fun _ _ => rfl⟩

/-- Two excluded files of 2^63 bytes before a wanted one: the counter wraps to where it was, and the
forecast stays at the largest number. -/
theorem forecast_saturates :
    ∃ s', largeSource.pass calmEnv (fun _ _ => true) largeDecoder 0 {} = .ok s' ∧
      s'.skipped = 0 ∧ largeSource.bytesToSkip (fun _ _ => true) 0 = u64Max ∧
      s'.skipped ≠ ({} : PassState).skipped +
        UInt64.ofNat (largeSource.bytesToSkip (fun _ _ => true) 0) := by
  obtain ⟨s', hpass, hdid⟩ := pass_did (fun _ _ => true) calmEnv_calm faithful_large 0 {}
  have hsum : discardedFolders (fun _ _ => true) (largeSource.folders.drop 0) = 2 ^ 64 := by decide
  have hskipped : s'.skipped = 0 := by
    rw [hdid.skipped, hsum]
    rfl
  have hforecast : largeSource.bytesToSkip (fun _ _ => true) 0 = u64Max := by
    rw [bytesToSkip_eq, hsum]
    rfl
  refine ⟨s', hpass, hskipped, hforecast, ?_⟩
  rw [hskipped, hforecast]
  decide

/-- The same archive with its last file wanted: it is handed on, behind two discarded ones. -/
theorem pass_forecast_large :
    ∃ s', largeSource.pass calmEnv (fun _ _ => true) largeDecoder 0 {} = .ok s' ∧
      s'.trace = [.begin "c", .data [0], .end_] ∧ s'.opened = [0] := by
  obtain ⟨⟨s', hpass, htrace, hopened, -⟩, -⟩ := pass_forecast open_large faithful_large calmEnv_calm
    (fun _ _ => true) 0 {}
  exact ⟨s', hpass, htrace, hopened⟩

end Ps5Upload.Sevenz
