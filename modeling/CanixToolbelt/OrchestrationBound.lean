import CanixToolbelt.OrchestrationAtomic

/-! An owner whose sources stay as they are is prepared afresh at most eight times, by a
potential that pays for each request. -/
namespace CanixToolbelt
namespace Orchestration

open Fallible Json Canonical

/-- What a potential pays for happens no more often than its first value. -/
theorem countP_le_potential {Φ : ℕ → ℕ} {b : ℕ → Bool}
    (h : ∀ t, Φ (t+1) + (if b t then 1 else 0) ≤ Φ t) (k : ℕ) :
    (List.range k).countP b + Φ k ≤ Φ 0 := by
  induction k with
  | zero => simp
  | succ k ih =>
    have hstep := h k
    rw [List.range_succ,List.countP_append,List.countP_singleton]
    omega

variable {lib : Library}

/-! ## The potential of a row -/

/-- The version that the row was last asked to request. -/
def requested (r : Json) : Json :=
  if (r.get "pending").isNull then r.get "deliveredVersion" else (r.get "pending").get "version"

/-- One request is due when the row's version is another one. -/
def due (r : Json) : ℕ := if r.get "version" = requested r then 0 else 1

/-- A recheck or a recovery that the row's version does not count yet. -/
def unstamped (lib : Library) (r : Json) : ℕ := if r.get "version" = stamp lib r then 0 else 1

/-- Whether the given report can still become the row's progress. -/
def progressLeft (lib : Library) (report : Option Json) (r : Json) : ℕ :=
  match report with
  | none => 0
  | some report => if r.get "progressVersion" = .str (digest lib report) then 0 else 1

/-- One recheck for the adopted report, and one for the given report. -/
def rechecksLeft (lib : Library) (report : Option Json) (r : Json) : ℕ :=
  (if r.get "recheckedReport" = .str (digest lib (r.get "workerStatus")) then 0 else 1) +
    match report with
    | none => 0
    | some report => if r.get "workerStatus" = report then 0 else 1

/-- Whether the recoveries that the row counts are of its observation. -/
def recovering (r : Json) : Bool :=
  (r.get "idleRecovery").isObject && (r.get "idleRecovery").get "source" = r.get "observationVersion"

/-- The recoveries left for the row's observation. -/
def recoveriesLeft (r : Json) : ℕ :=
  if recovering r then 3 - ((r.get "idleRecovery").get "attempts").asU64.getD 0 else 3

/-- What can still change the row's version. -/
def changesLeft (lib : Library) (report : Option Json) (r : Json) : ℕ :=
  unstamped lib r + progressLeft lib report r + rechecksLeft lib report r + recoveriesLeft r

theorem asRow_get (r : Json) (k : String) : Row.get ⟨r.asObject.getD []⟩ k = r.get k := by
  cases r <;> rfl

theorem stamp_congr {r r' : Json} (h : ∀ k ∈ ["versionInputs","progressVersion","recoveryVersion",
    "recheckVersion"], r'.get k = r.get k) : stamp lib r' = stamp lib r := by
  simp only [stamp,eventInputs,List.foldl,asRow_get,h "versionInputs" (by decide),
    h "progressVersion" (by decide),h "recoveryVersion" (by decide),h "recheckVersion" (by decide)]

/-- The keys that the potential reads. -/
def watched : List String :=
  ["version","versionInputs","progressVersion","recoveryVersion","recheckVersion","recheckedReport",
    "workerStatus","idleRecovery","observationVersion"]

theorem changesLeft_congr {report : Option Json} {r r' : Json}
    (h : ∀ k ∈ watched, r'.get k = r.get k) : changesLeft lib report r' = changesLeft lib report r := by
  have hstamp : stamp lib r' = stamp lib r := stamp_congr fun k hk => h k (by revert k; decide)
  unfold changesLeft unstamped progressLeft rechecksLeft recoveriesLeft recovering
  rw [hstamp,h "version" (by decide),h "progressVersion" (by decide),h "recheckedReport" (by decide),
    h "workerStatus" (by decide),h "idleRecovery" (by decide),h "observationVersion" (by decide)]

theorem requested_null {r : Json} (h : (r.get "pending").isNull = true) :
    requested r = r.get "deliveredVersion" := if_pos h

theorem requested_pending {r : Json} (h : (r.get "pending").isNull = false) :
    requested r = (r.get "pending").get "version" := if_neg (by simp [h])

theorem due_congr {r r' : Json} (hversion : r'.get "version" = r.get "version")
    (hpending : r'.get "pending" = r.get "pending")
    (hdelivered : r'.get "deliveredVersion" = r.get "deliveredVersion") : due r' = due r := by
  unfold due requested
  rw [hversion,hpending,hdelivered]

theorem due_le (r : Json) : due r ≤ 1 := by
  unfold due
  split <;> omega

theorem unstamped_le (r : Json) : unstamped lib r ≤ 1 := by
  unfold unstamped
  split <;> omega

theorem progressLeft_le (lib : Library) (report : Option Json) (r : Json) :
    progressLeft lib report r ≤ 1 := by
  unfold progressLeft
  split
  · omega
  · split <;> omega

theorem rechecksLeft_le (lib : Library) (report : Option Json) (r : Json) :
    rechecksLeft lib report r ≤ 2 := by
  unfold rechecksLeft
  cases report <;> dsimp only <;> split_ifs <;> omega

theorem recoveriesLeft_le (r : Json) : recoveriesLeft r ≤ 3 := by
  unfold recoveriesLeft
  split <;> omega

/-! ## Follow-ups on a row -/

/-- A recheck is scheduled once for the report that the row has adopted. -/
theorem scheduleRecheck_cases (lib : Library) (policy : Policy) (now : ℤ) (ps : Row) :
    scheduleRecheck lib policy now ps = (ps,false) ∨ ∃ version,
      ps.get "recheckedReport" ≠ .str (digest lib (ps.get "workerStatus")) ∧
      scheduleRecheck lib policy now ps = ((ps.set "recheckedReport"
        (.str (digest lib (ps.get "workerStatus")))).set "recheckVersion" version,true) := by
  unfold scheduleRecheck
  split
  · exact .inl rfl
  · dsimp only
    split
    · exact .inl rfl
    · split
      · exact .inl rfl
      · split
        · exact .inl rfl
        · rename_i hnew
          rw [not_or] at hnew
          exact .inr ⟨_,hnew.1,rfl⟩

/-- The recoveries left once the row counts `recovery`. -/
theorem recoveriesLeft_set {ps : Row} {recovery : Json} (hobject : recovery.isObject = true)
    (hsource : recovery.get "source" = ps.get "observationVersion") :
    recoveriesLeft (ps.set "idleRecovery" recovery).json =
      3 - (recovery.get "attempts").asU64.getD 0 := by
  have hrecovering : recovering (ps.set "idleRecovery" recovery).json = true := by
    simp [recovering,hobject,hsource]
  rw [recoveriesLeft,if_pos hrecovering,Row.json_get,Row.get_set,if_pos rfl]

theorem recoveriesLeft_congr {r r' : Json} (hrecovery : r'.get "idleRecovery" = r.get "idleRecovery")
    (hobservation : r'.get "observationVersion" = r.get "observationVersion") :
    recoveriesLeft r' = recoveriesLeft r := by
  unfold recoveriesLeft recovering
  rw [hrecovery,hobservation]

/-- The row that counts the recoveries of its own observation. -/
def countingRow (ps : Row) : Row :=
  if ¬ (ps.get "idleRecovery").isObject ∨
      (ps.get "idleRecovery").get "source" ≠ ps.get "observationVersion" then
    ps.set "idleRecovery" (object [("source",ps.get "observationVersion"),("attempts",nat 0),
      ("idleIDs",.arr [])])
  else ps

theorem countingRow_spec (ps : Row) :
    ((countingRow ps).get "idleRecovery").isObject = true ∧
      ((countingRow ps).get "idleRecovery").get "source" = (countingRow ps).get "observationVersion" ∧
      recoveriesLeft (countingRow ps).json = recoveriesLeft ps.json ∧
      Row.Keeps ["idleRecovery"] ps (countingRow ps) := by
  unfold countingRow
  split
  · rename_i hother
    have hnew : recovering ps.json = false := by
      simp only [recovering,Row.json_get,Bool.and_eq_false_iff]
      rcases hother with hobject | hsource
      · exact .inl (by simpa using hobject)
      · exact .inr (decide_eq_false hsource)
    have hobject := isObject_object [("source",ps.get "observationVersion"),("attempts",nat 0),
      ("idleIDs",Json.arr [])]
    have hsource : (object [("source",ps.get "observationVersion"),("attempts",nat 0),
        ("idleIDs",.arr [])]).get "source" = ps.get "observationVersion" :=
      object_get (by simp) (by simp)
    have hattempts : (object [("source",ps.get "observationVersion"),("attempts",nat 0),
        ("idleIDs",.arr [])]).get "attempts" = nat 0 := object_get (by simp) (by simp)
    refine ⟨by simpa using hobject,by simpa using hsource,?_,(Row.Keeps.refl _ _).set _ (by simp)⟩
    rw [recoveriesLeft_set hobject hsource,hattempts]
    simp [recoveriesLeft,hnew,asU64_nat]
  · rename_i hsame
    simp only [not_or,not_not] at hsame
    exact ⟨hsame.1,hsame.2,rfl,.refl _ _⟩

/-- A counted recovery uses up one of those left; an uncounted one leaves them. -/
theorem countRecovery_cases (lib : Library) (ps : Row) (idle : Json) (id : String) :
    ((countRecovery lib ps idle id).2 = false ∧
      (countRecovery lib ps idle id).1.get "recoveryVersion" = ps.get "recoveryVersion" ∧
      recoveriesLeft (countRecovery lib ps idle id).1.json = recoveriesLeft ps.json) ∨
    ((countRecovery lib ps idle id).2 = true ∧
      recoveriesLeft (countRecovery lib ps idle id).1.json + 1 = recoveriesLeft ps.json) := by
  obtain ⟨hobject,hsource,hleft,hkeeps⟩ := countingRow_spec ps
  have hversion : (countingRow ps).get "recoveryVersion" = ps.get "recoveryVersion" :=
    hkeeps.get (by decide)
  have hread : recoveriesLeft (countingRow ps).json =
      3 - (((countingRow ps).get "idleRecovery").get "attempts").asU64.getD 0 := by
    have hrecovering : recovering (countingRow ps).json = true := by
      simp [recovering,hobject,hsource]
    rw [recoveriesLeft,if_pos hrecovering,Row.json_get]
  generalize hqs : countingRow ps = qs at hobject hsource hleft hversion hread
  unfold countingRow at hqs
  unfold countRecovery
  dsimp only
  rw [hqs]
  split
  · exact .inl ⟨rfl,hversion,hleft⟩
  · split
    · refine .inl ⟨rfl,by simpa using hversion,?_⟩
      rw [← hleft]
      exact recoveriesLeft_congr (by simp) (by simp)
    · rename_i hfew
      have hassignable := assignable_of_isObject hobject
      split
      · rename_i ids hids
        right
        refine ⟨rfl,?_⟩
        have hset := assignable_of_isObject (isObject_set hassignable "idleIDs" (.arr (ids ++ [.str id])))
        rw [← hleft,hread]
        have hcount : recoveriesLeft (qs.set "idleRecovery" (((qs.get "idleRecovery").set "idleIDs"
            (.arr (ids ++ [.str id]))).set "attempts"
              (nat (((qs.get "idleRecovery").get "attempts").asU64.getD 0 + 1)))).json =
            3 - (((qs.get "idleRecovery").get "attempts").asU64.getD 0 + 1) := by
          rw [recoveriesLeft_set (isObject_set hset _ _)]
          · rw [Json.get_set hset,if_pos rfl,asU64_nat (by omega),Option.getD_some]
          · rw [get_set_ne _ _ (by decide),get_set_ne _ _ (by decide),hsource]
        have hlast : ∀ v w, recoveriesLeft (((qs.set "idleRecovery" (((qs.get "idleRecovery").set
            "idleIDs" (.arr (ids ++ [.str id]))).set "attempts"
              (nat (((qs.get "idleRecovery").get "attempts").asU64.getD 0 + 1)))).set
                "recoveryVersion" v).set "lastIdleOutcome" w).json =
            3 - (((qs.get "idleRecovery").get "attempts").asU64.getD 0 + 1) := by
          intro v w
          rw [← hcount]
          exact recoveriesLeft_congr (by simp) (by simp)
        rw [hlast]
        omega
      · rename_i ids hids
        left
        refine ⟨rfl,by simpa using hversion,?_⟩
        rw [recoveriesLeft_set (isObject_set hassignable _ _),get_set_ne _ _ (by decide),← hleft,hread]
        rw [get_set_ne _ _ (by decide),hsource]

theorem recordIdleRecovery_cases (lib : Library) (idle : Json) (now : ℤ) (ps : Row) :
    recordIdleRecovery lib idle now ps = (ps,false) ∨
      ∃ id, recordIdleRecovery lib idle now ps = countRecovery lib ps idle id := by
  unfold recordIdleRecovery
  split
  · exact .inl rfl
  · split
    · exact .inl rfl
    · split
      · exact .inl rfl
      · exact .inr ⟨_,rfl⟩

/-- What a refresh of the same sources does to a row, for the potential. -/
structure Restamped (lib : Library) (report : Option Json) (r r' : Json) : Prop where
  keeps : ∀ k ∈ ["pending","deliveredVersion","recheckedReport","idleRecovery","recoveryVersion",
    "recheckVersion"], r'.get k = r.get k
  inputs : r'.get "versionInputs" = r.get "versionInputs"
  observation : r'.get "observationVersion" = r.get "observationVersion"
  stamped : r'.get "version" = stamp lib r'
  progress : r'.get "progressVersion" = r.get "progressVersion" ∨
    ∃ given, report = some given ∧ r'.get "progressVersion" = .str (digest lib given)
  status : r'.get "workerStatus" = r.get "workerStatus" ∨ report = some (r'.get "workerStatus")

theorem Restamped.rechecksLeft_le {report : Option Json} {r r' : Json} (h : Restamped lib report r r') :
    rechecksLeft lib report r' ≤ rechecksLeft lib report r := by
  have hrechecked := h.keeps "recheckedReport" (by decide)
  by_cases hsame : r'.get "workerStatus" = r.get "workerStatus"
  · unfold rechecksLeft
    rw [hsame,hrechecked]
  · have hgiven := h.status.resolve_left hsame
    unfold rechecksLeft
    rw [hgiven]
    dsimp only
    rw [if_pos rfl,if_neg (c := r.get "workerStatus" = r'.get "workerStatus") (Ne.symm hsame)]
    split_ifs <;> omega

/-- A version that changes is paid for by the progress or by what it had not counted. -/
theorem Restamped.due_le {report : Option Json} {r r' : Json} (h : Restamped lib report r r') :
    progressLeft lib report r' + due r' ≤ unstamped lib r + progressLeft lib report r + due r := by
  have hdue := Orchestration.due_le r'
  have hrequested : requested r' = requested r := by
    unfold requested
    rw [h.keeps "pending" (by decide),h.keeps "deliveredVersion" (by decide)]
  by_cases hsame : r'.get "progressVersion" = r.get "progressVersion"
  · have hprogress : progressLeft lib report r' = progressLeft lib report r := by
      unfold progressLeft
      rw [hsame]
    have hstamp : stamp lib r' = stamp lib r := by
      apply stamp_congr
      intro k hk
      simp only [List.mem_cons,List.not_mem_nil,or_false] at hk
      rcases hk with rfl | rfl | rfl | rfl
      · exact h.inputs
      · exact hsame
      · exact h.keeps _ (by decide)
      · exact h.keeps _ (by decide)
    by_cases hcounted : r.get "version" = stamp lib r
    · have hversion : r'.get "version" = r.get "version" := by rw [h.stamped,hstamp,hcounted]
      have hsame : due r' = due r := by
        unfold due
        rw [hversion,hrequested]
      omega
    · have hone : unstamped lib r = 1 := if_neg hcounted
      omega
  · obtain ⟨given,rfl,hgiven⟩ := h.progress.resolve_left hsame
    have hzero : progressLeft lib (some given) r' = 0 := if_pos hgiven
    have hone : progressLeft lib (some given) r = 1 := if_neg fun heq => hsame (hgiven.trans heq.symm)
    omega

theorem Restamped.changesLeft_le {report : Option Json} {r r' : Json} (h : Restamped lib report r r') :
    changesLeft lib report r' + due r' ≤ changesLeft lib report r + due r := by
  have hunstamped : unstamped lib r' = 0 := if_pos h.stamped
  have hrechecks := h.rechecksLeft_le
  have hrecoveries := recoveriesLeft_congr (h.keeps "idleRecovery" (by decide)) h.observation
  have hdue := h.due_le
  unfold changesLeft
  omega

/-! ## What a step does to a row -/

/-- What counts of a step: a fresh prepare, a recheck of a report or a recovery of an
observation. -/
inductive Event where
  | none
  | wake
  | recheck (report : String)
  | recovery (observation : Json)
  deriving DecidableEq

/-- The keys of the potential and of the last request. -/
def followed : List String := "pending" :: "deliveredVersion" :: watched

/-- A step of the owner beside a refresh. -/
inductive Move (lib : Library) (r r' : Json) : Event → Prop
  | still (hdue : due r' = due r) (hkeeps : ∀ k ∈ watched, r'.get k = r.get k) : Move lib r r' .none
  | wake (hdue : due r = 1) (hdone : due r' = 0) (hkeeps : ∀ k ∈ watched, r'.get k = r.get k) :
      Move lib r r' .wake
  | recheck (hnew : r.get "recheckedReport" ≠ .str (digest lib (r.get "workerStatus")))
      (hset : r'.get "recheckedReport" = .str (digest lib (r.get "workerStatus")))
      (hkeeps : ∀ k ∈ followed, k ∉ ["recheckedReport","recheckVersion"] → r'.get k = r.get k) :
      Move lib r r' (.recheck (digest lib (r.get "workerStatus")))
  | recovery (hleft : recoveriesLeft r' + 1 = recoveriesLeft r)
      (hkeeps : ∀ k ∈ followed, k ∉ ["idleRecovery","recoveryVersion"] → r'.get k = r.get k) :
      Move lib r r' (.recovery (r.get "observationVersion"))
  | blocked (hleft : recoveriesLeft r' = recoveriesLeft r)
      (hkeeps : ∀ k ∈ followed, k ≠ "idleRecovery" → r'.get k = r.get k) : Move lib r r' .none

theorem Move.same {r r' : Json} (h : ∀ k ∈ followed, r'.get k = r.get k) : Move lib r r' .none :=
  .still (due_congr (h _ (by decide)) (h _ (by decide)) (h _ (by decide)))
    fun k hk => h k (by simp [followed,hk])

/-- A step never makes a request due, and a fresh prepare meets the due one. -/
theorem Move.due_le {r r' : Json} {e : Event} (h : Move lib r r' e) :
    due r' + (if e = .wake then 1 else 0) ≤ due r := by
  have hsame : (∀ k ∈ ["version","pending","deliveredVersion"], r'.get k = r.get k) →
      due r' = due r := fun h => due_congr (h _ (by decide)) (h _ (by decide)) (h _ (by decide))
  cases h with
  | still hdue hkeeps => simp [hdue]
  | wake hdue hdone hkeeps => simp [hdue,hdone]
  | recheck hnew hset hkeeps =>
    rw [hsame fun k hk => hkeeps k (by revert k; decide) (by revert k; decide)]
    simp
  | recovery hleft hkeeps =>
    rw [hsame fun k hk => hkeeps k (by revert k; decide) (by revert k; decide)]
    simp
  | blocked hleft hkeeps =>
    rw [hsame fun k hk => hkeeps k (by revert k; decide) (by revert k; decide)]
    simp

/-- A recheck or a recovery uses up what it changes. -/
theorem Move.changesLeft_le (report : Option Json) {r r' : Json} {e : Event} (h : Move lib r r' e) :
    changesLeft lib report r' ≤ changesLeft lib report r := by
  have hunstamped : unstamped lib r' ≤ 1 := unstamped_le r'
  cases h with
  | still hdue hkeeps => rw [changesLeft_congr hkeeps]
  | wake hdue hdone hkeeps => rw [changesLeft_congr hkeeps]
  | recheck hnew hset hkeeps =>
    have hread : ∀ k ∈ ["progressVersion","workerStatus","idleRecovery","observationVersion"],
        r'.get k = r.get k := fun k hk => hkeeps k (by revert k; decide) (by revert k; decide)
    have hprogress : progressLeft lib report r' = progressLeft lib report r := by
      unfold progressLeft
      rw [hread _ (by decide)]
    have hrechecks : rechecksLeft lib report r' + 1 = rechecksLeft lib report r := by
      unfold rechecksLeft
      rw [hread "workerStatus" (by decide),if_pos hset,if_neg hnew]
      omega
    have hrecoveries := recoveriesLeft_congr (hread "idleRecovery" (by decide))
      (hread "observationVersion" (by decide))
    unfold changesLeft
    omega
  | recovery hleft hkeeps =>
    have hread : ∀ k ∈ ["progressVersion","workerStatus","recheckedReport"],
        r'.get k = r.get k := fun k hk => hkeeps k (by revert k; decide) (by revert k; decide)
    have hprogress : progressLeft lib report r' = progressLeft lib report r := by
      unfold progressLeft
      rw [hread _ (by decide)]
    have hrechecks : rechecksLeft lib report r' = rechecksLeft lib report r := by
      unfold rechecksLeft
      rw [hread "workerStatus" (by decide),hread "recheckedReport" (by decide)]
    unfold changesLeft
    omega
  | blocked hleft hkeeps =>
    have hread : ∀ k ∈ ["version","versionInputs","progressVersion","recoveryVersion",
        "recheckVersion","workerStatus","recheckedReport"], r'.get k = r.get k :=
      fun k hk => hkeeps k (by revert k; decide) (by revert k; decide)
    have hstamp : stamp lib r' = stamp lib r :=
      stamp_congr fun k hk => hread k (by revert k; decide)
    unfold changesLeft unstamped progressLeft rechecksLeft
    rw [hstamp,hleft,hread "version" (by decide),hread "progressVersion" (by decide),
      hread "workerStatus" (by decide),hread "recheckedReport" (by decide)]

/-- A recovery is counted for the row's own observation, which no move changes. -/
theorem Move.recoveries {r r' : Json} {e : Event} (h : Move lib r r' e) :
    r'.get "observationVersion" = r.get "observationVersion" ∧
      recoveriesLeft r' + (if e = .recovery (r.get "observationVersion") then 1 else 0) ≤
        recoveriesLeft r ∧
      ∀ o, e = .recovery o → o = r.get "observationVersion" := by
  cases h with
  | still hdue hkeeps =>
    simp [hkeeps "observationVersion" (by decide),
      recoveriesLeft_congr (hkeeps _ (by decide)) (hkeeps _ (by decide))]
  | wake hdue hdone hkeeps =>
    simp [hkeeps "observationVersion" (by decide),
      recoveriesLeft_congr (hkeeps _ (by decide)) (hkeeps _ (by decide))]
  | recheck hnew hset hkeeps =>
    simp [hkeeps "observationVersion" (by decide) (by decide),
      recoveriesLeft_congr (hkeeps _ (by decide) (by decide)) (hkeeps _ (by decide) (by decide))]
  | recovery hleft hkeeps =>
    simp [hkeeps "observationVersion" (by decide) (by decide),hleft,eq_comm]
  | blocked hleft hkeeps => simp [hkeeps "observationVersion" (by decide) (by decide),hleft]

theorem mapRow_row (j : Journal) (n : ℕ) (f : Row → Row) : (j.mapRow n f).row n =
    match j.row n with
    | .obj fields => (f ⟨fields⟩).json
    | v => v := by
  unfold Journal.mapRow
  cases hrow : j.row n with
  | obj fields =>
    simp only [Journal.row_put_packets (objects_of_row hrow),if_pos]
  | _ => exact hrow

namespace Run

variable (run : Run lib) (t n : ℕ)

/-- What the step at `t` is for the owner `n`. -/
def event : Event :=
  match run.op t with
  | .prepare p policy text at_ =>
    if p.number = n ∧ ((run.row t n).get "pending").isNull = true ∧
        (Orchestration.prepare lib (run.state t) p policy text at_).1.isOk = true then .wake else .none
  | .recheck m policy now =>
    match run.row t n with
    | .obj fields =>
      if m = n ∧ (scheduleRecheck lib policy now ⟨fields⟩).2 = true then
        .recheck (digest lib (Row.get ⟨fields⟩ "workerStatus"))
      else .none
    | _ => .none
  | .recover m idle now =>
    match run.row t n with
    | .obj fields =>
      if m = n ∧ (recordIdleRecovery lib idle now ⟨fields⟩).2 = true then
        .recovery (Row.get ⟨fields⟩ "observationVersion")
      else .none
    | _ => .none
  | _ => .none

variable {run t n}

/-- The event is a fresh prepare exactly when the owner is prepared afresh. -/
theorem event_wake : run.event t n = .wake ↔
    ∃ p policy text at_ body, run.Prepares t n p policy text at_ body := by
  constructor
  · intro h
    unfold event at h
    split at h
    · rename_i p policy text at_ hop
      split at h
      · rename_i hfresh
        obtain ⟨body,hbody⟩ := exists_of_isOk hfresh.2.2
        exact ⟨p,policy,text,at_,body,hop,hfresh.1,hbody,hfresh.2.1⟩
      · cases h
    · split at h
      · split at h <;> cases h
      · cases h
    · split at h
      · split at h <;> cases h
      · cases h
    · cases h
  · rintro ⟨p,policy,text,at_,body,hop,hnumber,hbody,hfresh⟩
    unfold event
    rw [hop]
    exact if_pos ⟨hnumber,hfresh,by rw [hbody]; rfl⟩

theorem move_same (hkeys : ∀ k ∈ followed, k ∉ (run.op t).keys n) :
    Move lib (run.row t n) (run.row (t+1) n) .none :=
  Move.same fun k hk => run.row_keeps (hkeys k hk)

theorem move_recheck {m : ℕ} {policy : Policy} {now : ℤ} (hop : run.op t = .recheck m policy now) :
    Move lib (run.row t n) (run.row (t+1) n) (run.event t n) := by
  have hnext : run.row (t+1) n = (run.state t |>.mapRow m fun ps =>
      (scheduleRecheck lib policy now ps).1).row n := by
    rw [row_succ,hop]
    rfl
  unfold event
  rw [hop]
  dsimp only
  by_cases hmn : m = n
  · subst hmn
    rw [hnext,mapRow_row,show (run.state t).row m = run.row t m from rfl]
    cases hrow : run.row t m with
    | obj fields =>
      dsimp only
      rcases scheduleRecheck_cases lib policy now ⟨fields⟩ with hno | ⟨v,hnew,hyes⟩
      · rw [hno,if_neg (by simp)]
        exact Move.same fun _ _ => rfl
      · rw [hyes,if_pos ⟨rfl,rfl⟩]
        refine Move.recheck (r := .obj fields) hnew ?_ fun k hk hother => ?_
        · rw [Row.json_get,Row.get_set,if_neg (by decide),Row.get_set,if_pos rfl]
          rfl
        · simp only [List.mem_cons,List.not_mem_nil,or_false,not_or] at hother
          rw [Row.json_get,Row.get_set,if_neg hother.2,Row.get_set,if_neg hother.1]
          rfl
    | _ => exact Move.same fun _ _ => rfl
  · have hsame : Move lib (run.row t n) (run.row (t+1) n) .none := by
      refine move_same fun k _ => ?_
      rw [hop,Operation.keys,if_neg hmn]
      simp
    split
    · rw [if_neg fun h => hmn h.1]
      exact hsame
    · exact hsame

theorem move_recover {m : ℕ} {idle : Json} {now : ℤ} (hop : run.op t = .recover m idle now) :
    Move lib (run.row t n) (run.row (t+1) n) (run.event t n) := by
  have hnext : run.row (t+1) n = (run.state t |>.mapRow m fun ps =>
      (recordIdleRecovery lib idle now ps).1).row n := by
    rw [row_succ,hop]
    rfl
  unfold event
  rw [hop]
  dsimp only
  by_cases hmn : m = n
  · subst hmn
    rw [hnext,mapRow_row,show (run.state t).row m = run.row t m from rfl]
    cases hrow : run.row t m with
    | obj fields =>
      dsimp only
      rcases recordIdleRecovery_cases lib idle now ⟨fields⟩ with hno | ⟨id,hyes⟩
      · rw [hno,if_neg (by simp)]
        exact Move.same fun _ _ => rfl
      · have hkeeps : Row.Keeps _ _ (countRecovery lib ⟨fields⟩ idle id).1 := countRecovery_keeps _ _ _
        have hfollowed : ∀ k ∈ followed, k ≠ "idleRecovery" → k ≠ "recoveryVersion" →
            k ∉ ["idleRecovery","continuationBlocker","recoveryVersion","lastIdleOutcome"] := by decide
        rw [hyes]
        rcases countRecovery_cases lib ⟨fields⟩ idle id with ⟨hno,hversion,hleft⟩ | ⟨hyes,hleft⟩
        · rw [hno,if_neg (by simp)]
          refine .blocked hleft fun k hk hother => ?_
          by_cases hk' : k = "recoveryVersion"
          · rw [hk']
            exact hversion
          · exact hkeeps.get (hfollowed k hk hother hk')
        · rw [hyes,if_pos ⟨rfl,rfl⟩]
          refine Move.recovery (r := .obj fields) hleft fun k hk hother => ?_
          simp only [List.mem_cons,List.not_mem_nil,or_false,not_or] at hother
          exact hkeeps.get (hfollowed k hk hother.1 hother.2)
    | _ => exact Move.same fun _ _ => rfl
  · have hsame : Move lib (run.row t n) (run.row (t+1) n) .none := by
      refine move_same fun k _ => ?_
      rw [hop,Operation.keys,if_neg hmn]
      simp
    split
    · rw [if_neg fun h => hmn h.1]
      exact hsame
    · exact hsame

theorem move_prepare {p : Packet} {policy : Policy} {text at_ : String}
    (hop : run.op t = .prepare p policy text at_) :
    Move lib (run.row t n) (run.row (t+1) n) (run.event t n) := by
  have hnext : run.row (t+1) n = (Orchestration.prepare lib (run.state t) p policy text at_).2.row n := by
    rw [row_succ,hop]
    rfl
  have hkeeps : ∀ k ∈ watched, (run.row (t+1) n).get k = (run.row t n).get k := by
    refine fun k hk => run.row_keeps ?_
    rw [hop,Operation.keys]
    have hwatched : ∀ k ∈ watched, k ∉ ["admissionGeneration","pending"] := by decide
    split
    · exact hwatched k hk
    · simp
  have hdelivered : (run.row (t+1) n).get "deliveredVersion" = (run.row t n).get "deliveredVersion" := by
    refine run.row_keeps ?_
    rw [hop,Operation.keys]
    split <;> simp
  unfold event
  rw [hop]
  dsimp only
  split
  · rename_i hfresh
    obtain ⟨rfl,hnull,hok⟩ := hfresh
    obtain ⟨body,hbody⟩ := exists_of_isOk hok
    have hadmitted := prepare_fresh hbody hnull
    rw [← hnext,show (run.state t).row p.number = run.row t p.number from rfl] at hadmitted
    have hpending : ((run.row (t+1) p.number).get "pending").isNull = false := by
      have hstored := hadmitted.stored
      cases hrow : (run.row (t+1) p.number).get "pending" with
      | null =>
        rw [hrow] at hstored
        have hid := hadmitted.id
        rw [← hstored] at hid
        cases hid
      | _ => rfl
    have hdue := hadmitted.due
    simp only [needsWake,Bool.and_eq_true,decide_eq_true_eq] at hdue
    refine .wake ?_ ?_ hkeeps
    · rw [due,requested_null hnull,if_neg hdue.2]
    · rw [due,requested_pending hpending,hadmitted.version,hkeeps "version" (by decide),if_pos rfl]
  · rename_i hstale
    refine .still (due_congr (hkeeps _ (by decide)) ?_ hdelivered) hkeeps
    by_cases hn : p.number = n
    · subst hn
      rw [hnext]
      unfold Orchestration.prepare
      split
      · exact Journal.entry_get _ _ _ _
      · rename_i ps hps
        obtain ⟨hobjects,hrow,-⟩ := journalPacket_ok hps
        split
        · exact Journal.entry_get _ _ _ _
        · rename_i ps' body hprepare
          rw [Journal.row_put hobjects,if_pos rfl,Row.json_get]
          -- the request was pending already
          have hnull : ((run.row t p.number).get "pending").isNull = false := by
            by_contra hnull
            refine hstale ⟨rfl,by simpa using hnull,?_⟩
            unfold Orchestration.prepare
            rw [hps]
            dsimp only
            rw [hprepare]
            rfl
          unfold prepareRow at hprepare
          have hheld : (ps.get "pending").isNull = false := by
            rw [journalPacket_get hps]
            exact hnull
          rw [if_pos (by rw [hheld]; rfl)] at hprepare
          obtain ⟨rfl,-⟩ := Prod.mk.inj (Except.ok.inj hprepare)
          exact journalPacket_get hps _
    · refine run.row_keeps ?_
      rw [hop,Operation.keys,if_neg hn]
      simp

theorem move_acknowledge {m : ℕ} {id at_ : String} (hop : run.op t = .acknowledge m id at_) :
    Move lib (run.row t n) (run.row (t+1) n) .none := by
  have hkeeps : ∀ k ∈ watched, (run.row (t+1) n).get k = (run.row t n).get k := by
    refine fun k hk => run.row_keeps ?_
    rw [hop,Operation.keys]
    have hwatched : ∀ k ∈ watched, k ∉ ["deliveredVersion","deliveredObservationVersion",
      "deliveredAt","deliveredPreparedAt","deliveredSubmissionAttemptAt","deliveredProgressVersion",
      "goalAckVersion","pending"] := by decide
    split
    · exact hwatched k hk
    · simp
  by_cases hacc : m = n ∧ (Orchestration.acknowledge (run.state t) m id at_).1 = .ok ()
  · obtain ⟨rfl,hok⟩ := hacc
    have hnext : run.row (t+1) m = (Orchestration.acknowledge (run.state t) m id at_).2.row m := by
      rw [row_succ,hop]
      rfl
    obtain ⟨hid,hdelivered⟩ := acknowledge_ok hok
    rw [← hnext,show (run.state t).row m = run.row t m from rfl] at hdelivered
    have hpending : ((run.row t m).get "pending").isNull = false := by
      cases hrow : (run.row t m).get "pending" with
      | null =>
        rw [show (run.state t).row m = run.row t m from rfl,hrow] at hid
        cases hid
      | _ => rfl
    refine .still ?_ hkeeps
    have hnull : ((run.row (t+1) m).get "pending").isNull = true := by
      rw [hdelivered.pending]
      rfl
    rw [due,due,requested_null hnull,requested_pending hpending,hdelivered.version,
      hkeeps "version" (by decide)]
  · refine .still (due_congr (hkeeps _ (by decide)) ?_ ?_) hkeeps
    all_goals
      rw [row_succ,hop]
      exact acknowledge_get (fun hmn hok => hacc ⟨hmn,hok⟩) _

/-- A step is a refresh of the owner, or a move of its row. -/
theorem refreshes_or_moves : (∃ m policy inputs p, run.Refreshes t n m policy inputs p) ∨
    Move lib (run.row t n) (run.row (t+1) n) (run.event t n) := by
  cases hop : run.op t with
  | observe prs =>
    right
    rw [show run.event t n = .none by unfold event; rw [hop]]
    exact move_same fun k _ => by simp [hop,Operation.keys]
  | refresh m policy inputs =>
    rcases run.refreshes_or_same n hop with ⟨p,hr⟩ | hsame
    · exact .inl ⟨m,policy,inputs,p,hr⟩
    · right
      rw [show run.event t n = .none by unfold event; rw [hop],hsame]
      exact Move.same fun _ _ => rfl
  | recheck m policy now => exact .inr (move_recheck hop)
  | recover m idle now => exact .inr (move_recover hop)
  | prepare p policy text at_ => exact .inr (move_prepare hop)
  | acknowledge m id at_ =>
    right
    rw [show run.event t n = .none by unfold event; rw [hop]]
    exact move_acknowledge hop

theorem Refreshes.event {m : Manifest} {policy : Policy} {inputs : Inputs} {p : Packet}
    (h : run.Refreshes t n m policy inputs p) : run.event t n = .none := by
  unfold Run.event
  rw [h.op]

/-! ## Refreshes of the same sources -/

/-- Records that agree on what an event version counts, beside the fields that a refresh
keeps itself. -/
def SameRecord (a b : Json) : Prop :=
  ∀ k ∉ ["feedbackGeneration","url"], ignored (closed a) k = false → b.get? k = a.get? k

/-- From time `T` on the owner's assignment, goal, report, evidence and records are those of
`p`, `policy`, `inputs` and the records at `T`. -/
structure Stable (run : Run lib) (T n : ℕ) (p : Packet) (policy : Policy) (inputs : Inputs) :
    Prop where
  refreshes : ∀ t ≥ T, ∀ m policy' inputs' p', run.Refreshes t n m policy' inputs' p' →
    p'.prs = p.prs ∧ p'.dependencies = p.dependencies ∧ policy'.goalPolicy = policy.goalPolicy ∧
      inputs'.reports.lookup n = inputs.reports.lookup n ∧
      ∀ id ∈ p.dependencies, inputs'.dependencies.lookup id = inputs.dependencies.lookup id
  records : ∀ t ≥ T, ∀ u ∈ p.prs, SameRecord ((run.state T).pr u) ((run.state t).pr u)

theorem SameRecord.closed {a b : Json} (h : SameRecord a b) : closed b = closed a := by
  unfold Orchestration.closed
  have hstate : b.get? "state" = a.get? "state" :=
    h "state" (by decide) (by cases Orchestration.closed a <;> decide)
  have hread : b.get "state" = a.get "state" := congrArg (Option.getD · Json.null) hstate
  rw [hread]

theorem get?_of_get {v : Json} {k s : String} (h : v.get k = .str s) : v.get? k = some (.str s) := by
  unfold Json.get at h
  cases hv : v.get? k with
  | none =>
    rw [hv] at h
    cases h
  | some x =>
    rw [hv] at h
    exact congrArg some h

section Again
variable {a b c : Json} {url : String}

/-- Records of one address and generation that agree with `a` have one event version. -/
theorem SameRecord.eventVersion (hb : SameRecord a b) (hc : SameRecord a c)
    (hburl : b.get "url" = .str url) (hcurl : c.get "url" = .str url)
    (hgeneration : c.get? "feedbackGeneration" = b.get? "feedbackGeneration") :
    eventVersion lib c = eventVersion lib b := by
  refine eventVersion_congr (hc.closed.trans hb.closed.symm) fun k hk => ?_
  rw [hb.closed] at hk
  by_cases hg : k = "feedbackGeneration"
  · rw [hg,hgeneration]
  · by_cases hu : k = "url"
    · rw [hu,get?_of_get hburl,get?_of_get hcurl]
    · rw [hb k (by simp [hg,hu]) hk,hc k (by simp [hg,hu]) hk]

theorem SameRecord.feedbackInputs (hb : SameRecord a b) (hc : SameRecord a c)
    (hburl : b.get "url" = .str url) (hcurl : c.get "url" = .str url) :
    feedbackInputs c = feedbackInputs b := by
  unfold Orchestration.feedbackInputs
  congr 1
  refine List.map_congr_left fun k hk => ?_
  by_cases hu : k = "url"
  · rw [hu,hburl,hcurl]
  · have hcounted : ∀ k ∈ ["url","state","head","mergeCommit","issueComments","comments","reviews",
        "threads","inlineComments"], ∀ terminal, k ≠ "url" →
          k ∉ ["feedbackGeneration","url"] ∧ ignored terminal k = false := by decide
    obtain ⟨hother,hread⟩ := hcounted k hk (Orchestration.closed a) hu
    have hget : c.get k = b.get k :=
      congrArg (Option.getD · Json.null) ((hc k hother hread).trans (hb k hother hread).symm)
    rw [hget]

end Again

/-- Feedback that is the recorded one keeps its generation. -/
theorem feedbackGeneration_same {r : Json} {raw : String} {g : ℕ} (hg : g < 2^64) {url : String}
    (h : (r.get "feedbackObservations").get url = .obj [("generation",nat g),("version",.str raw)]) :
    feedbackGeneration r url raw = .ok g := by
  have hgeneration : (Json.obj [("generation",nat g),("version",.str raw)]).get "generation" = nat g :=
    rfl
  have hversion : (Json.obj [("generation",nat g),("version",.str raw)]).get "version" = .str raw := rfl
  unfold feedbackGeneration
  rw [h]
  dsimp only
  rw [hgeneration,hversion,asU64_nat hg]
  simp [asStr]

section Stability
variable {T : ℕ} {p : Packet} {policy : Policy} {inputs : Inputs}
variable {m m' : Manifest} {policy₁ policy₂ : Policy} {inputs₁ inputs₂ : Inputs} {p₁ p₂ : Packet}

theorem Stable.evidence (h : run.Stable T n p policy inputs) (ht : T ≤ t)
    (hr : run.Refreshes t n m policy₁ inputs₁ p₁) :
    evidence p₁ inputs₁.dependencies = evidence p inputs.dependencies ∧
      evidenceComplete p₁ inputs₁.dependencies = evidenceComplete p inputs.dependencies := by
  obtain ⟨-,hdependencies,-,-,hlookup⟩ := h.refreshes t ht m policy₁ inputs₁ p₁ hr
  unfold Orchestration.evidence evidenceComplete
  rw [hdependencies]
  constructor
  · congr 1
    exact List.map_congr_left fun id hid => by rw [hlookup id hid]
  · rw [Bool.eq_iff_iff,List.all_eq_true,List.all_eq_true]
    exact forall₂_congr fun id hid => by rw [hlookup id hid]

/-- A second refresh of the same sources observes what the first did. -/
theorem Stable.observes_again (h : run.Stable T n p policy inputs) {r : ℕ} (hTr : T ≤ r) (hrt : r < t)
    (h₁ : run.Refreshes r n m policy₁ inputs₁ p₁) (h₂ : run.Refreshes t n m' policy₂ inputs₂ p₂)
    (hread : ∀ k ∉ followUpKeys, (run.row t n).get k = (run.row (r+1) n).get k) :
    (run.row (t+1) n).get "versionInputs" = (run.row t n).get "versionInputs" := by
  obtain ⟨hprs₁,hdeps₁,hgoal₁,-,-⟩ := h.refreshes r hTr m policy₁ inputs₁ p₁ h₁
  obtain ⟨hprs₂,hdeps₂,hgoal₂,-,-⟩ := h.refreshes t (by omega) m' policy₂ inputs₂ p₂ h₂
  obtain ⟨hevidence₁,hcomplete₁⟩ := h.evidence hTr h₁
  obtain ⟨hevidence₂,hcomplete₂⟩ := h.evidence (by omega) h₂
  have hk₁ := h₁.packet
  have hk₂ := h₂.packet
  have hinputs₁ := hk₁.inputs_version
  have hinputs₂ := hk₂.inputs_version
  rw [h₁.row] at hinputs₁
  rw [h₂.row] at hinputs₂
  -- the records are of one generation, since their feedback is the one recorded
  have hrecord : ∀ u ∈ p.prs, eventVersion lib ((run.state (t+1)).pr u) =
      eventVersion lib ((run.state (r+1)).pr u) := by
    intro u hu
    have hseen₁ := hk₁.feedback u (by rw [hprs₁]; exact hu)
    have hseen₂ := hk₂.feedback u (by rw [hprs₂]; exact hu)
    rw [h₁.row,h₁.row] at hseen₁
    rw [h₂.row,h₂.row] at hseen₂
    have hsame₁ := h.records (r+1) (by omega) u hu
    have hsame₂ := h.records (t+1) (by omega) u hu
    refine hsame₁.eventVersion hsame₂ hseen₁.identity hseen₂.identity ?_
    have hrecorded := hseen₁.recorded
    rw [← hread _ (by decide)] at hrecorded
    have hgeneration := hseen₂.generation
    rw [hsame₁.feedbackInputs hsame₂ hseen₁.identity hseen₂.identity,
      feedbackGeneration_same (feedbackGeneration_lt hseen₁.generation) hrecorded] at hgeneration
    rw [hseen₁.field,hseen₂.field,Except.ok.inj hgeneration]
  have hgenerations : generationOf (run.row (t+1) n) = generationOf (run.row (r+1) n) := by
    have hsame : generationOf (run.row t n) = generationOf (run.row (r+1) n) := by
      unfold generationOf
      rw [hread _ (by decide)]
    have hcounts₁ := hk₁.counts
    have hcounts₂ := hk₂.counts
    rw [h₁.row,h₁.row] at hcounts₁
    rw [h₂.row,h₂.row] at hcounts₂
    rw [← hsame]
    cases hcomplete : evidenceComplete p inputs.dependencies with
    | true => exact (hcounts₂.kept (hcomplete₂.trans hcomplete)).1
    | false =>
      refine hcounts₂.again (hcomplete₂.trans hcomplete) ?_
      have hflag := hcounts₁.flagged (hcomplete₁.trans hcomplete)
      unfold incomplete at hflag ⊢
      rwa [hread _ (by decide)]
  rw [hread _ (by decide),hinputs₁,hinputs₂,hgenerations]
  have hmap : (sources inputs₂ p₂ (run.state (t+1))).prs.map (eventVersion lib) =
      (sources inputs₁ p₁ (run.state (r+1))).prs.map (eventVersion lib) := by
    simp only [sources,hprs₁,hprs₂,List.map_map]
    exact List.map_congr_left fun u hu => hrecord u ((List.mem_insertionSort _).mp hu)
  rw [observationInputs_congr policy₂ p₂ _ hmap (hevidence₂.trans hevidence₁.symm)]
  unfold observationInputs producers
  rw [hgoal₁,hgoal₂,hdeps₁,hdeps₂]

theorem Stable.restamped (h : run.Stable T n p policy inputs) {r : ℕ} (hTr : T ≤ r) (hrt : r < t)
    (h₁ : run.Refreshes r n m policy₁ inputs₁ p₁) (h₂ : run.Refreshes t n m' policy₂ inputs₂ p₂) :
    Restamped lib (inputs.reports.lookup n) (run.row t n) (run.row (t+1) n) := by
  obtain ⟨q,m₃,policy₃,inputs₃,p₃,hrq,hqt,h₃,hread⟩ := run.last_refresh h₁ hrt
  have hinputs := h.observes_again (by omega) hqt h₃ h₂ hread
  obtain ⟨-,-,-,hreport,-⟩ := h.refreshes t (by omega) m' policy₂ inputs₂ p₂ h₂
  have hk₂ := h₂.packet
  have hkeeps := hk₂.keeps
  have hdigested₂ := hk₂.digested
  have hdigested₃ := h₃.packet.digested
  have hstamped := hk₂.stamped
  have hreported := hk₂.reported
  rw [h₂.row,h₂.row,h₂.number,hreport] at hreported
  rw [h₂.row,h₂.row] at hkeeps
  rw [h₂.row] at hdigested₂ hstamped
  rw [h₃.row] at hdigested₃
  rw [← hread _ (by decide),← hread _ (by decide)] at hdigested₃
  constructor
  · intro k hk
    have hother : ∀ k ∈ ["pending","deliveredVersion","recheckedReport","idleRecovery",
        "recoveryVersion","recheckVersion"], k ∉ "feedbackObservations" :: refreshKeys := by decide
    exact congrArg (Option.getD · Json.null) (hkeeps k (hother k hk))
  · exact hinputs
  · rw [hdigested₂,hdigested₃,hinputs]
  · exact hstamped
  · exact hreported "progressVersion" (by decide)
  · rcases hreported "workerStatus" (by decide) with hsame | ⟨given,hgiven,hset⟩
    · exact .inl hsame
    · right
      rw [hgiven,hset]
      rfl

/-- What a refresh does to the adopted report and its recheck, also the first one. -/
theorem Stable.report (h : run.Stable T n p policy inputs) (ht : T ≤ t)
    (h₁ : run.Refreshes t n m policy₁ inputs₁ p₁) :
    (∀ k ∈ ["recheckedReport","idleRecovery"], (run.row (t+1) n).get k = (run.row t n).get k) ∧
    ((run.row (t+1) n).get "workerStatus" = (run.row t n).get "workerStatus" ∨
      inputs.reports.lookup n = some ((run.row (t+1) n).get "workerStatus")) := by
  obtain ⟨-,-,-,hreport,-⟩ := h.refreshes t ht m policy₁ inputs₁ p₁ h₁
  have hkeeps := h₁.packet.keeps
  have hreported := h₁.packet.reported "workerStatus" (by decide)
  rw [h₁.row,h₁.row] at hkeeps
  rw [h₁.row,h₁.row,h₁.number,hreport] at hreported
  constructor
  · intro k hk
    have hother : ∀ k ∈ ["recheckedReport","idleRecovery"],
        k ∉ "feedbackObservations" :: refreshKeys := by decide
    exact congrArg (Option.getD · Json.null) (hkeeps k (hother k hk))
  · rcases hreported with hsame | ⟨given,hgiven,hset⟩
    · exact .inl hsame
    · right
      rw [hgiven,hset]
      rfl

end Stability

/-! ## The potential of a run -/

/-- The owner was refreshed between `T` and `t`. -/
def RefreshedSince (run : Run lib) (T n t : ℕ) : Prop :=
  ∃ r, T ≤ r ∧ r < t ∧ ∃ m policy inputs p, run.Refreshes r n m policy inputs p

section Potential
variable {T : ℕ} {p : Packet} {policy : Policy} {inputs : Inputs}

theorem refreshedSince_succ (ht : T ≤ t) : run.RefreshedSince T n (t+1) ↔
    run.RefreshedSince T n t ∨ ∃ m policy inputs p, run.Refreshes t n m policy inputs p := by
  constructor
  · rintro ⟨r,hTr,hrt,hr⟩
    by_cases heq : r = t
    · subst heq
      exact .inr hr
    · exact .inl ⟨r,hTr,by omega,hr⟩
  · rintro (⟨r,hTr,hrt,hr⟩ | hr)
    · exact ⟨r,hTr,by omega,hr⟩
    · exact ⟨t,ht,by omega,hr⟩

open Classical in
/-- One request that is due, and then one for every change of the version: at most seven
before the first refresh, which is one of them. -/
noncomputable def wakesLeft (run : Run lib) (T n : ℕ) (report : Option Json) (t : ℕ) : ℕ :=
  due (run.row t n) +
    if run.RefreshedSince T n t then changesLeft lib report (run.row t n) else 7

theorem wakesLeft_step (h : run.Stable T n p policy inputs) (ht : T ≤ t) :
    wakesLeft run T n (inputs.reports.lookup n) (t+1) + (if run.event t n = .wake then 1 else 0) ≤
      wakesLeft run T n (inputs.reports.lookup n) t := by
  unfold wakesLeft
  by_cases hrefresh : ∃ m policy inputs p, run.Refreshes t n m policy inputs p
  · have hsince : run.RefreshedSince T n (t+1) := (refreshedSince_succ ht).mpr (.inr hrefresh)
    obtain ⟨m,policy₁,inputs₁,p₁,h₁⟩ := hrefresh
    rw [h₁.event,if_pos hsince,if_neg (by decide)]
    by_cases hagain : run.RefreshedSince T n t
    · rw [if_pos hagain]
      obtain ⟨r,hTr,hrt,m₀,policy₀,inputs₀,p₀,h₀⟩ := hagain
      have hle := (h.restamped hTr hrt h₀ h₁).changesLeft_le
      omega
    · rw [if_neg hagain]
      have hstamped := h₁.packet.stamped
      rw [h₁.row] at hstamped
      have hunstamped : unstamped lib (run.row (t+1) n) = 0 := if_pos hstamped
      have hdue := due_le (run.row (t+1) n)
      have hprogress := progressLeft_le lib (inputs.reports.lookup n) (run.row (t+1) n)
      have hrechecks := rechecksLeft_le lib (inputs.reports.lookup n) (run.row (t+1) n)
      have hrecoveries := recoveriesLeft_le (run.row (t+1) n)
      unfold changesLeft
      omega
  · have hmove := run.refreshes_or_moves.resolve_left hrefresh
    have hdue := hmove.due_le
    have hchanges := hmove.changesLeft_le (inputs.reports.lookup n)
    by_cases hsince : run.RefreshedSince T n t
    · rw [if_pos hsince,if_pos ((refreshedSince_succ ht).mpr (.inl hsince))]
      omega
    · rw [if_neg hsince,if_neg fun hnow => ((refreshedSince_succ ht).mp hnow).elim hsince hrefresh]
      omega

/-- Whether the report of digest `d` can still be rechecked. -/
def recheckLeft (lib : Library) (report : Option Json) (d : String) (r : Json) : ℕ :=
  if digest lib (r.get "workerStatus") = d then (if r.get "recheckedReport" = .str d then 0 else 1)
  else
    match report with
    | none => 0
    | some given => if r.get "workerStatus" ≠ given ∧ digest lib given = d then 1 else 0

theorem recheckLeft_le (lib : Library) (report : Option Json) (d : String) (r : Json) :
    recheckLeft lib report d r ≤ 1 := by
  unfold recheckLeft
  cases report <;> dsimp only <;> split_ifs <;> omega

theorem recheckLeft_congr (report : Option Json) (d : String) {r r' : Json}
    (hstatus : r'.get "workerStatus" = r.get "workerStatus")
    (hrechecked : r'.get "recheckedReport" = r.get "recheckedReport") :
    recheckLeft lib report d r' = recheckLeft lib report d r := by
  unfold recheckLeft
  rw [hstatus,hrechecked]

/-- Adopting the given report leaves a recheck of it only where one was left. -/
theorem recheckLeft_adopt (d : String) {given r r' : Json} (hset : r'.get "workerStatus" = given)
    (hrechecked : r'.get "recheckedReport" = r.get "recheckedReport") :
    recheckLeft lib (some given) d r' ≤ recheckLeft lib (some given) d r := by
  unfold recheckLeft
  rw [hset,hrechecked]
  dsimp only
  by_cases hgiven : digest lib given = d
  · by_cases hold : digest lib (r.get "workerStatus") = d
    · rw [if_pos hgiven,if_pos hold]
    · have hne : r.get "workerStatus" ≠ given := by
        rintro rfl
        exact hold hgiven
      have hleft : r.get "workerStatus" ≠ given ∧ digest lib given = d := ⟨hne,hgiven⟩
      rw [if_pos hgiven,if_neg hold,if_pos hleft]
      split <;> omega
  · rw [if_neg hgiven,if_neg fun h => h.1 rfl]
    omega

theorem recheckLeft_move (report : Option Json) (d : String) {r r' : Json} {e : Event}
    (h : Move lib r r' e) : recheckLeft lib report d r' + (if e = .recheck d then 1 else 0) ≤
      recheckLeft lib report d r := by
  have hsame : (∀ k ∈ ["workerStatus","recheckedReport"], r'.get k = r.get k) →
      recheckLeft lib report d r' = recheckLeft lib report d r :=
    fun h => recheckLeft_congr report d (h _ (by decide)) (h _ (by decide))
  cases h with
  | still hdue hkeeps => simp [hsame fun k hk => hkeeps k (by revert k; decide)]
  | wake hdue hdone hkeeps => simp [hsame fun k hk => hkeeps k (by revert k; decide)]
  | recheck hnew hset hkeeps =>
    have hstatus := hkeeps "workerStatus" (by decide) (by decide)
    unfold recheckLeft
    rw [hstatus]
    by_cases hd : digest lib (r.get "workerStatus") = d
    · subst hd
      rw [if_pos rfl,if_pos rfl,if_pos hset,if_pos rfl,if_neg hnew]
    · rw [if_neg hd,if_neg hd,if_neg fun heq => hd (Event.recheck.inj heq),Nat.add_zero]
  | recovery hleft hkeeps =>
    simp [hsame fun k hk => hkeeps k (by revert k; decide) (by revert k; decide)]
  | blocked hleft hkeeps =>
    simp [hsame fun k hk => hkeeps k (by revert k; decide) (by revert k; decide)]

theorem recheckLeft_step (h : run.Stable T n p policy inputs) (ht : T ≤ t) (d : String) :
    recheckLeft lib (inputs.reports.lookup n) d (run.row (t+1) n) +
        (if run.event t n = .recheck d then 1 else 0) ≤
      recheckLeft lib (inputs.reports.lookup n) d (run.row t n) := by
  by_cases hrefresh : ∃ m policy inputs p, run.Refreshes t n m policy inputs p
  · obtain ⟨m,policy₁,inputs₁,p₁,h₁⟩ := hrefresh
    obtain ⟨hkeeps,hstatus⟩ := h.report ht h₁
    have hrechecked := hkeeps "recheckedReport" (by decide)
    rw [h₁.event,if_neg (by simp),Nat.add_zero]
    rcases hstatus with hsame | hgiven
    · rw [recheckLeft_congr _ d hsame hrechecked]
    · rw [hgiven]
      exact recheckLeft_adopt d rfl hrechecked
  · exact recheckLeft_move _ d (run.refreshes_or_moves.resolve_left hrefresh)

open Classical in
/-- The recoveries that can still be counted for the observation `o`. -/
noncomputable def recoveryLeft (run : Run lib) (T n : ℕ) (o : Json) (t : ℕ) : ℕ :=
  if (run.row t n).get "observationVersion" = o then recoveriesLeft (run.row t n)
  else if run.RefreshedSince T n t then 0 else 3

theorem recoveryLeft_le (run : Run lib) (T n : ℕ) (o : Json) (t : ℕ) :
    recoveryLeft run T n o t ≤ 3 := by
  have hle := recoveriesLeft_le (run.row t n)
  unfold recoveryLeft
  split_ifs <;> omega

theorem recoveryLeft_step (h : run.Stable T n p policy inputs) (ht : T ≤ t) (o : Json) :
    recoveryLeft run T n o (t+1) + (if run.event t n = .recovery o then 1 else 0) ≤
      recoveryLeft run T n o t := by
  by_cases hrefresh : ∃ m policy inputs p, run.Refreshes t n m policy inputs p
  · have hsince : run.RefreshedSince T n (t+1) := (refreshedSince_succ ht).mpr (.inr hrefresh)
    obtain ⟨m,policy₁,inputs₁,p₁,h₁⟩ := hrefresh
    rw [h₁.event,if_neg (by simp)]
    have hrecovery := (h.report ht h₁).1 "idleRecovery" (by decide)
    have hle := recoveriesLeft_le (run.row (t+1) n)
    unfold recoveryLeft
    rw [if_pos hsince]
    by_cases hnext : (run.row (t+1) n).get "observationVersion" = o
    · rw [if_pos hnext]
      by_cases hold : (run.row t n).get "observationVersion" = o
      · rw [if_pos hold,recoveriesLeft_congr hrecovery (hnext.trans hold.symm)]
        omega
      · have hfirst : ¬ run.RefreshedSince T n t := by
          rintro ⟨r,hTr,hrt,m₀,policy₀,inputs₀,p₀,h₀⟩
          exact hold ((h.restamped hTr hrt h₀ h₁).observation.symm.trans hnext)
        rw [if_neg hold,if_neg hfirst]
        omega
    · rw [if_neg hnext]
      omega
  · have hmove := run.refreshes_or_moves.resolve_left hrefresh
    have hsince : run.RefreshedSince T n (t+1) ↔ run.RefreshedSince T n t :=
      (refreshedSince_succ ht).trans (or_iff_left hrefresh)
    obtain ⟨hobservation,hcount,hsource⟩ := hmove.recoveries
    unfold recoveryLeft
    rw [hobservation]
    by_cases ho : (run.row t n).get "observationVersion" = o
    · subst ho
      rw [if_pos rfl,if_pos rfl]
      exact hcount
    · rw [if_neg ho,if_neg ho,if_neg fun heq => ho (hsource o heq).symm,Nat.add_zero]
      by_cases hs : run.RefreshedSince T n t
      · rw [if_pos hs,if_pos (hsince.mpr hs)]
      · rw [if_neg hs,if_neg fun hnow => hs (hsince.mp hnow)]

end Potential

section Bounds
variable {T : ℕ} {p : Packet} {policy : Policy} {inputs : Inputs}

/-- How often `e` happens at the owner `n` in the `k` steps from time `T` on. -/
def occurrences (run : Run lib) (T n k : ℕ) (e : Event) : ℕ :=
  (List.range k).countP fun i => run.event (T+i) n = e

theorem occurrences_le {Φ : ℕ → ℕ} {e : Event} {bound : ℕ} (hbound : Φ T ≤ bound)
    (h : ∀ t, T ≤ t → Φ (t+1) + (if run.event t n = e then 1 else 0) ≤ Φ t) (k : ℕ) :
    run.occurrences T n k e ≤ bound := by
  have hcount := countP_le_potential (Φ := fun i => Φ (T+i))
    (b := fun i => decide (run.event (T+i) n = e)) (fun i => by
      simpa [Nat.add_assoc] using h (T+i) (by omega)) k
  unfold occurrences
  simp only [Nat.add_zero] at hcount
  omega

/-- An owner whose sources, report, evidence and policy stay as they are from time `T` on is
prepared afresh at most eight times, however long the run: for the event due at `T`, the
event of these sources, the progress of the report, a recheck of the adopted and of the given
report, and three recoveries.  Every report is rechecked once at most, and every observation
recovered three times. -/
theorem wakes_bounded (h : run.Stable T n p policy inputs) (k : ℕ) :
    run.occurrences T n k .wake ≤ 8 ∧
      (∀ report, run.occurrences T n k (.recheck report) ≤ 1) ∧
      ∀ observation, run.occurrences T n k (.recovery observation) ≤ 3 := by
  refine ⟨occurrences_le (Φ := wakesLeft run T n (inputs.reports.lookup n)) ?_
      (fun t ht => wakesLeft_step h ht) k,
    fun d => occurrences_le (Φ := fun t => recheckLeft lib (inputs.reports.lookup n) d (run.row t n))
      (recheckLeft_le _ _ _ _) (fun t ht => recheckLeft_step h ht d) k,
    fun o => occurrences_le (recoveryLeft_le run T n o T) (fun t ht => recoveryLeft_step h ht o) k⟩
  have hdue := due_le (run.row T n)
  have hfirst : ¬ run.RefreshedSince T n T := fun ⟨r,hTr,hrT,_⟩ => by omega
  unfold wakesLeft
  rw [if_neg hfirst]
  omega

end Bounds

end Run

/-! The new campaign of one owner is stable from its beginning. -/

theorem apply_prs {op : Operation} (h : op.FollowUp) (j : Journal) : (op.apply lib j).prs = j.prs := by
  cases op with
  | observe prs => exact h.elim
  | refresh m policy inputs => exact h.elim
  | recheck n policy now =>
    simp only [Operation.apply,Journal.mapRow]
    split <;> rfl
  | recover n idle now =>
    simp only [Operation.apply,Journal.mapRow]
    split <;> rfl
  | prepare p policy text at_ =>
    simp only [Operation.apply,prepare]
    split
    · exact Journal.prs_entry _ _
    · split
      · exact Journal.prs_entry _ _
      · rfl
  | acknowledge n id at_ =>
    simp only [Operation.apply,acknowledge]
    split
    · exact Journal.prs_entry _ _
    · split
      · exact Journal.prs_entry _ _
      · rfl

def newRun : Run requestLibrary := .start requestLibrary emptyJournal newCampaign

theorem newCampaign_followUp (t : ℕ) : (newCampaign (t+1)).FollowUp := by
  match t with
  | 0 => trivial
  | 1 => trivial
  | 2 => trivial
  | t+3 => trivial

theorem newRun_prs (t : ℕ) : (newRun.state (t+1)).prs = (newRun.state 1).prs := by
  induction t with
  | zero => rfl
  | succ t ih =>
    exact (apply_prs (newCampaign_followUp t) _).trans ih

theorem newRun_record : ((newRun.state 1).pr "one").asObject.map (fun fs => fs.map Prod.fst) =
    some ["classification","progress","url"] := by
  decide +kernel

theorem newRun_stable : newRun.Stable 0 1 soloOwner soloPolicy ⟨[],[],[]⟩ := by
  constructor
  · intro t _ m policy inputs p hr
    match t,hr.op with
    | 0,hop =>
      obtain ⟨rfl,rfl,rfl⟩ := Operation.refresh.inj hop
      obtain rfl := List.mem_singleton.mp hr.owner
      exact ⟨rfl,rfl,rfl,rfl,fun _ _ => rfl⟩
    | 1,hop => cases hop
    | 2,hop => cases hop
    | 3,hop => cases hop
    | t+4,hop => cases hop
  · intro t _ u hu
    obtain rfl := List.mem_singleton.mp hu
    match t with
    | 0 => exact fun _ _ _ => rfl
    | t+1 =>
      intro k hk hread
      rw [Journal.pr,newRun_prs t]
      have hkeys := newRun_record
      rw [Journal.pr] at hkeys
      cases hrecord : (newRun.state 1).prs.get "one" with
      | obj fs =>
        rw [hrecord] at hkeys
        have hfs : fs.map Prod.fst = ["classification","progress","url"] := Option.some.inj hkeys
        have hno : k ∉ fs.map Prod.fst := by
          rw [hfs]
          simp only [List.mem_cons,List.not_mem_nil,or_false,not_or] at hk ⊢
          refine ⟨?_,?_,hk.2⟩
          · rintro rfl
            simp [ignored] at hread
          · rintro rfl
            simp [ignored] at hread
        rw [mem_keys_iff,Option.not_isSome_iff_eq_none] at hno
        exact hno
      | _ =>
        rw [hrecord] at hkeys
        cases hkeys

theorem newRun_bounded : newRun.occurrences 0 1 9 .wake ≤ 8 :=
  (Run.wakes_bounded newRun_stable 9).1

end Orchestration
end CanixToolbelt
