import Ps5Upload.Ava1.Upload.Aggregate
import Ps5Upload.Ava1.Upload.Split

/-!
# The report of a list in several jobs

`merge_results` of `ps5upload-ava1/src/upload.rs`: the results of a list's jobs as one result.  The
acknowledgement of the first job is kept, and some of its numbers are added up over the jobs.
-/

namespace Ps5Upload.Upload

/-! ## Acknowledgements -/

/-- A value of an acknowledgement. -/
inductive Value where
  | num (n : Nat)
  | text (t : Text)
  | bool (b : Bool)
  deriving DecidableEq

def Value.asU64 : Value → Option Nat
  | .num n => some n
  | _ => none

/-- `serde_json::Map` -/
abbrev Ack := BTreeMap Text Value

/-- `get(k).and_then(as_u64).unwrap_or(0)` -/
def Ack.number (ack : Ack) (k : Text) : Nat := ((ack.get k).bind Value.asU64).getD 0

structure TransferResult where
  txIdHex : Text
  filesSent : Nat
  bytesSent : Nat
  dest : Text
  /-- `none`: a body that is no JSON object. -/
  commitAckBody : Option Ack

/-- `serde_json::from_str(…).unwrap_or_default()` -/
def TransferResult.ack (r : TransferResult) : Ack := r.commitAckBody.getD ∅

/-! ## `merge_results` -/

/-- The keys that are added up. -/
def summed : List Text :=
  ["files".toList, "bytes".toList, "resent".toList, "skipped_files".toList, "skipped_bytes".toList,
    "files_sent".toList]

def addSums (other : Ack) : List Text → Ack → Ack
  | [], ack => ack
  | k :: ks, ack => addSums other ks (ack.insert k (.num (ack.number k + other.number k)))

/-- One more job's acknowledgement. -/
def addAck (ack other : Ack) : Ack :=
  let sums := addSums other summed ack
  sums.insert "max_lanes".toList (.num (max (sums.number "max_lanes".toList) (other.number "max_lanes".toList)))

def mergeLoop : List TransferResult → TransferResult → Ack → TransferResult × Ack
  | [], out, ack => (out, ack)
  | p :: rest, out, ack =>
    mergeLoop rest { out with filesSent := out.filesSent + p.filesSent, bytesSent := out.bytesSent + p.bytesSent }
      (addAck ack p.ack)

/-- `none` where there is no job at all, which the source excludes. -/
def mergeResults (parts : List TransferResult) : Option TransferResult :=
  match parts with
  | [] => none
  | first :: rest =>
    let r := mergeLoop rest first first.ack
    some { r.1 with commitAckBody := some (r.2.insert "jobs".toList (.num parts.length)) }

/-! ## What is added up -/

theorem number_insert (ack : Ack) (k : Text) (n : Nat) (k' : Text) :
    (Ack.number (ack.insert k (.num n)) k') = if k' = k then n else ack.number k' := by
  unfold Ack.number
  rw [BTreeMap.get_insert]
  by_cases h : k' = k
  · rw [if_pos h, if_pos h]
    rfl
  · rw [if_neg h, if_neg h]

theorem number_addSums (other : Ack) {ks : List Text} (hks : ks.Nodup) (ack : Ack) (k : Text) :
    (addSums other ks ack).number k = if k ∈ ks then ack.number k + other.number k else ack.number k := by
  induction ks generalizing ack with
  | nil => rw [if_neg List.not_mem_nil, addSums]
  | cons k' ks ih =>
    obtain ⟨hk', hks⟩ := List.nodup_cons.1 hks
    rw [addSums, ih hks, number_insert]
    by_cases h : k = k'
    · subst h
      rw [if_neg hk', if_pos rfl, if_pos List.mem_cons_self]
    · simp only [h, if_false, List.mem_cons, false_or]

theorem get_addSums (other : Ack) {ks : List Text} (ack : Ack) {k : Text} (h : k ∉ ks) :
    (addSums other ks ack).get k = ack.get k := by
  induction ks generalizing ack with
  | nil => rfl
  | cons k' ks ih =>
    rw [List.mem_cons, not_or] at h
    rw [addSums, ih _ h.2, BTreeMap.get_insert_of_ne _ _ h.1]

theorem summed_nodup : summed.Nodup := by decide

theorem lanes_not_summed : "max_lanes".toList ∉ summed := by decide

/-- What a later acknowledgement adds to a number. -/
theorem number_addAck {k : Text} (h : k ∈ summed) (ack other : Ack) :
    (addAck ack other).number k = ack.number k + other.number k := by
  have hne : k ≠ "max_lanes".toList := fun heq => lanes_not_summed (heq ▸ h)
  rw [addAck, number_insert, if_neg hne, number_addSums _ summed_nodup, if_pos h]

theorem lanes_addAck (ack other : Ack) : (addAck ack other).number "max_lanes".toList =
    max (ack.number "max_lanes".toList) (other.number "max_lanes".toList) := by
  rw [addAck, number_insert, if_pos rfl, number_addSums _ summed_nodup, if_neg lanes_not_summed]

/-- The other fields stay as the first job wrote them. -/
theorem get_addAck {k : Text} (h : k ∉ summed) (hne : k ≠ "max_lanes".toList) (ack other : Ack) :
    (addAck ack other).get k = ack.get k := by
  rw [addAck, BTreeMap.get_insert_of_ne _ _ hne, get_addSums _ _ h]

/-! ## All the jobs -/

/-- The sum of a number over the jobs. -/
def sumOf (k : Text) (parts : List TransferResult) : Nat := (parts.map fun p => p.ack.number k).sum

/-- The largest of a number over the jobs. -/
def maxOf (k : Text) (parts : List TransferResult) : Nat := (parts.map fun p => p.ack.number k).foldr max 0

theorem mergeLoop_spec (rest : List TransferResult) (out : TransferResult) (ack : Ack) :
    ((mergeLoop rest out ack).1.filesSent = out.filesSent + (rest.map (·.filesSent)).sum ∧
      (mergeLoop rest out ack).1.bytesSent = out.bytesSent + (rest.map (·.bytesSent)).sum) ∧
    (∀ k ∈ summed, (mergeLoop rest out ack).2.number k = ack.number k + sumOf k rest) ∧
    ((mergeLoop rest out ack).2.number "max_lanes".toList =
      max (ack.number "max_lanes".toList) (maxOf "max_lanes".toList rest)) ∧
    ∀ k, k ∉ summed → k ≠ "max_lanes".toList → (mergeLoop rest out ack).2.get k = ack.get k := by
  induction rest generalizing out ack with
  | nil => exact ⟨⟨rfl, rfl⟩, fun _ _ => rfl, (Nat.max_zero _).symm, fun _ _ _ => rfl⟩
  | cons p rest ih =>
    obtain ⟨⟨hfiles, hbytes⟩, hsums, hlanes, hkept⟩ := ih
      { out with filesSent := out.filesSent + p.filesSent, bytesSent := out.bytesSent + p.bytesSent }
      (addAck ack p.ack)
    rw [mergeLoop]
    refine ⟨⟨?_, ?_⟩, fun k hk => ?_, ?_, fun k hk hne => ?_⟩
    · rw [hfiles, List.map_cons, List.sum_cons, Nat.add_assoc]
    · rw [hbytes, List.map_cons, List.sum_cons, Nat.add_assoc]
    · rw [hsums k hk, number_addAck hk, sumOf, sumOf, List.map_cons, List.sum_cons, Nat.add_assoc]
    · rw [hlanes, lanes_addAck, maxOf, maxOf, List.map_cons, List.foldr_cons, Nat.max_assoc]
    · rw [hkept k hk hne, get_addAck hk hne]

/-- What is reported of a list: the sums over its jobs, the most lanes, and a warning if any job has one. -/
structure LikeOneJob (parts : List TransferResult) (out : TransferResult) : Prop where
  filesSent : out.filesSent = (parts.map (·.filesSent)).sum
  bytesSent : out.bytesSent = (parts.map (·.bytesSent)).sum
  sums : ∀ k ∈ "resumed_bytes".toList :: summed, out.ack.number k = sumOf k parts
  lanes : out.ack.number "max_lanes".toList = maxOf "max_lanes".toList parts
  warning : (∃ p ∈ parts, (p.ack.get "warning".toList).isSome) → (out.ack.get "warning".toList).isSome

/-- Nothing that the later jobs report is dropped: no bytes they resumed, and no first warning. -/
def NothingDropped : List TransferResult → Prop
  | [] => True
  | first :: rest =>
    (∀ p ∈ rest, p.ack.number "resumed_bytes".toList = 0) ∧
      ((∃ p ∈ rest, (p.ack.get "warning".toList).isSome) → (first.ack.get "warning".toList).isSome)

theorem sum_eq_zero_iff {parts : List TransferResult} {k : Text} :
    sumOf k parts = 0 ↔ ∀ p ∈ parts, p.ack.number k = 0 := by
  rw [sumOf, List.sum_eq_zero_iff, List.forall_mem_map]

/-- What the merged result says. -/
theorem mergeResults_spec {first : TransferResult} {rest : List TransferResult} {out : TransferResult}
    (h : mergeResults (first :: rest) = some out) :
    (out.filesSent = first.filesSent + (rest.map (·.filesSent)).sum ∧
      out.bytesSent = first.bytesSent + (rest.map (·.bytesSent)).sum) ∧
    (∀ k ∈ summed, out.ack.number k = first.ack.number k + sumOf k rest) ∧
    (out.ack.number "max_lanes".toList =
      max (first.ack.number "max_lanes".toList) (maxOf "max_lanes".toList rest)) ∧
    ∀ k, k ∉ summed → k ≠ "max_lanes".toList → k ≠ "jobs".toList → out.ack.get k = first.ack.get k := by
  obtain ⟨hsent, hsums, hlanes, hkept⟩ := mergeLoop_spec rest first first.ack
  rw [mergeResults] at h
  cases h
  have hjobs : ∀ k, k ≠ "jobs".toList →
      BTreeMap.get ((mergeLoop rest first first.ack).2.insert "jobs".toList (.num (first :: rest).length)) k =
        (mergeLoop rest first first.ack).2.get k := fun k hk => BTreeMap.get_insert_of_ne _ _ hk
  have hnumber : ∀ k, k ≠ "jobs".toList →
      Ack.number ((mergeLoop rest first first.ack).2.insert "jobs".toList (.num (first :: rest).length)) k =
        (mergeLoop rest first first.ack).2.number k := fun k hk => by rw [Ack.number, hjobs k hk, Ack.number]
  have hne : "jobs".toList ∉ summed := by decide
  refine ⟨hsent, fun k hk => ?_, ?_, fun k hk hlane hjob => ?_⟩
  · exact (hnumber k fun heq => hne (heq ▸ hk)).trans (hsums k hk)
  · exact (hnumber _ (by decide)).trans hlanes
  · exact (hjobs k hjob).trans (hkept k hk hlane)

/-- The merged result is what one job would report where nothing is dropped, and only there. -/
theorem likeOneJob_iff {parts : List TransferResult} {out : TransferResult} (h : mergeResults parts = some out) :
    LikeOneJob parts out ↔ NothingDropped parts := by
  cases parts with
  | nil => cases h
  | cons first rest =>
    obtain ⟨⟨hfiles, hbytes⟩, hsums, hlanes, hkept⟩ := mergeResults_spec h
    have hwarning := hkept "warning".toList (by decide) (by decide) (by decide)
    have hresumed : out.ack.number "resumed_bytes".toList = first.ack.number "resumed_bytes".toList := by
      rw [Ack.number, hkept _ (by decide) (by decide) (by decide), Ack.number]
    have hsum : ∀ k, sumOf k (first :: rest) = first.ack.number k + sumOf k rest := fun k => by
      rw [sumOf, List.map_cons, List.sum_cons, sumOf]
    constructor
    · rintro ⟨-, -, hs, -, hw⟩
      refine ⟨sum_eq_zero_iff.1 ?_, fun ⟨p, hp, hsome⟩ => ?_⟩
      · have hr := hs _ List.mem_cons_self
        rw [hresumed, hsum] at hr
        omega
      · rw [← hwarning]
        exact hw ⟨p, List.mem_cons_of_mem _ hp, hsome⟩
    · rintro ⟨hr, hw⟩
      refine ⟨?_, ?_, fun k hk => ?_, hlanes, fun ⟨p, hp, hsome⟩ => ?_⟩
      · rw [List.map_cons, List.sum_cons, hfiles]
      · rw [List.map_cons, List.sum_cons, hbytes]
      · rw [hsum]
        rcases List.mem_cons.1 hk with rfl | hk
        · rw [hresumed, sum_eq_zero_iff.2 hr, Nat.add_zero]
        · exact hsums k hk
      · rw [hwarning]
        rcases List.mem_cons.1 hp with rfl | hp
        · exact hsome
        · exact hw ⟨p, hp, hsome⟩

/-! ## The list as one job -/

/-- A list cut into groups, with the results of their jobs and the run of their counters up to `t`, is like one
job: every entry in one group, ids and roots apart, one report, counters that only go up and end as the sums. -/
structure ReportsLikeOne {α : Type} (root : Text) (entries : List (FileListEntry α)) (base : List UInt8)
    (groups : List (ListGroup α)) (parts : List TransferResult) (ticks : List Tick) (t : Counters) : Prop where
  covers : Covers root entries groups
  ids : (jobIds base groups).Nodup
  report : ∃ out, mergeResults parts = some out ∧ LikeOneJob parts out
  steady : ∀ before after s, ticks = before ++ after → Runs.exec Counters.step .fresh before = some s →
    ∀ c, s.real c ≤ t.real c
  ends : t.phase = .idle → ∀ c, t.real c = t.total c

/-- A list is reported like one job where nothing the later jobs report is dropped, and only there. -/
theorem list_reports_iff {α : Type} {checkPath : Text → Bool} {destRoot : Text} {entries : List (FileListEntry α)}
    {groups : List (ListGroup α)} {base : List UInt8} {parts : List TransferResult} {ticks : List Tick} {t : Counters}
    (hsplit : splitList checkPath destRoot entries = some groups) (hbase : base.length = 16)
    (hlen : groups.length ≤ 2 ^ 64) (hparts : parts ≠ []) (hrun : Runs.exec Counters.step .fresh ticks = some t) :
    ReportsLikeOne (rootOf destRoot) entries base groups parts ticks t ↔ NothingDropped parts := by
  obtain ⟨first, rest, rfl⟩ := List.exists_cons_of_ne_nil hparts
  have hmerge : ∃ out, mergeResults (first :: rest) = some out := ⟨_, rfl⟩
  obtain ⟨out, hout⟩ := hmerge
  constructor
  · rintro ⟨-, -, ⟨out', hout', hlike⟩, -, -⟩
    exact (likeOneJob_iff hout').1 hlike
  · intro hdrop
    refine ⟨splitList_covers hsplit, jobIds_nodup hbase hlen, ⟨out, hout, (likeOneJob_iff hout).2 hdrop⟩, ?_,
      real_eq_sum (exec_inv_fresh hrun)⟩
    rintro before after s rfl hs
    obtain ⟨u, hu, hafter⟩ := (Runs.exec_append _).1 hrun
    obtain rfl : s = u := Option.some.inj (hs.symm.trans hu)
    exact exec_real_le (exec_inv_fresh hs) hafter

/-- Two entries in two directories. -/
def twoEntries : List (FileListEntry Unit) :=
  [⟨(), "/data/games/a".toList⟩, ⟨(), "/data/other/b".toList⟩]

/-- A job's result with `resumed` bytes that the console had. -/
def resumedResult (resumed : Nat) : TransferResult :=
  ⟨[], 1, 8, [], some ((∅ : Ack).insert "resumed_bytes".toList (.num resumed))⟩

/-- A whole job that counts `n` files. -/
def oneJob (n : Nat) : List Tick :=
  [.start, .work .files n, .load .files, .store, .stop, .join, .mirror, .mirror, .mirror, .mirror, .mirror, .finish]

theorem list_reports_iff_two :
    ∃ groups t, splitList (fun _ => true) "/data/games".toList twoEntries = some groups ∧
      Runs.exec Counters.step .fresh (oneJob 1 ++ oneJob 1) = some t ∧
      (ReportsLikeOne (rootOf "/data/games".toList) twoEntries (List.replicate 16 0) groups
        [resumedResult 5, resumedResult 0] (oneJob 1 ++ oneJob 1) t ↔
          NothingDropped [resumedResult 5, resumedResult 0]) :=
  ⟨_, _, rfl, rfl,
    @list_reports_iff _ (fun _ => true) "/data/games".toList _ _ _ _ _ _ rfl rfl (by decide) (by decide) rfl⟩

/-- The second job resumes a file, and the merged result says that nothing was resumed. -/
theorem second_resume_dropped :
    ∃ groups t, splitList (fun _ => true) "/data/games".toList twoEntries = some groups ∧
      Runs.exec Counters.step .fresh (oneJob 1 ++ oneJob 1) = some t ∧
      ¬ ReportsLikeOne (rootOf "/data/games".toList) twoEntries (List.replicate 16 0) groups
        [resumedResult 0, resumedResult 5] (oneJob 1 ++ oneJob 1) t := by
  refine ⟨_, _, rfl, rfl, fun h => ?_⟩
  obtain ⟨out, hout, hlike⟩ := h.report
  have hdrop := (likeOneJob_iff hout).1 hlike
  exact absurd (hdrop.1 (resumedResult 5) List.mem_cons_self) (by decide)

end Ps5Upload.Upload
