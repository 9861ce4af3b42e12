import CanixToolbelt.Manifest
import Mathlib.Data.List.Sort
import Mathlib.Data.List.Dedup

/-! The campaign journal and the operations on it: refresh, the bounded follow-ups,
prepare and acknowledge. -/
namespace CanixToolbelt
namespace Orchestration

open Fallible Json Canonical

/-- A journal row, which `journal_packet` has found to be an object. -/
structure Row where
  fields : List (String × Json)
  deriving DecidableEq

namespace Row

def json (r : Row) : Json := .obj r.fields
def get? (r : Row) (k : String) : Option Json := r.json.get? k
def get (r : Row) (k : String) : Json := r.json.get k
def set (r : Row) (k : String) (v : Json) : Row := ⟨insertField k v r.fields⟩

theorem get?_set (r : Row) (k k' : String) (v : Json) :
    (r.set k v).get? k' = if k' = k then some v else r.get? k' := lookup_insertField k k' v r.fields

@[simp] theorem get_set (r : Row) (k k' : String) (v : Json) :
    (r.set k v).get k' = if k' = k then v else r.get k' := by
  simp only [get,Json.get]
  rw [show (r.set k v).json.get? k' = _ from get?_set r k k' v]
  split <;> rfl

end Row

/-- The journal.  Its retained manifest is absent, unreadable or a manifest. -/
structure Journal where
  retained : Option (Except String Manifest)
  prs : Json
  packets : Json
  coverage : Option Coverage := none

namespace Journal

/-- `state["packets"][number]`. -/
def row (j : Journal) (n : ℕ) : Json := j.packets.get (toString n)

/-- `state["prs"][url]`. -/
def pr (j : Journal) (url : String) : Json := j.prs.get url

/-- The journal as `journal_packet` leaves it: a missing row is inserted empty. -/
def entry (j : Journal) (n : ℕ) : Journal :=
  if j.packets.isObject && j.prs.isObject && (j.packets.get? (toString n)).isNone then
    { j with packets := j.packets.set (toString n) (.obj []) }
  else j

def put (j : Journal) (n : ℕ) (r : Row) : Journal :=
  { j with packets := j.packets.set (toString n) r.json }

end Journal

variable (lib : Library)

/-! ## Versions -/

def feedbackInputs (pr : Json) : Json :=
  object (["url","state","head","mergeCommit","issueComments","comments","reviews","threads",
    "inlineComments"].map fun key => (key,pr.get key))

def feedbackVersion (pr : Json) : String :=
  if (pr.get "feedbackGeneration").asU64.any (0 < ·) then
    digest lib ((feedbackInputs pr).set "feedbackGeneration" (pr.get "feedbackGeneration"))
  else digest lib (feedbackInputs pr)

def closed (pr : Json) : Bool := pr.get "state" = .str "MERGED" || pr.get "state" = .str "CLOSED"

/-- The fields of a pull request that `event_version` leaves out. -/
def ignored (terminal : Bool) (key : String) : Bool :=
  key ∈ ["capturedAt","lastError","lastErrorAt","updatedAt","deepAt","classification","progress"] ||
    (terminal && key ∈ ["base","reportedBase","checks","mergeable","mergeState","reviewDecision"])

def eventVersion (pr : Json) : String :=
  digest lib (.obj ((pr.asObject.getD []).filter fun f => !ignored (closed pr) f.1))

def dependencyFingerprint (producers : List ℕ) (evidence : Json) (generation : ℕ) : String :=
  let inputs := .obj [("evidence",evidence),("producers",.arr (producers.map nat))]
  digest lib (if 0 < generation then inputs.set "generation" (nat generation) else inputs)

def needsWake (packet : Json) : Bool :=
  packet.get "terminal" ≠ .bool true && (packet.get "pending").isNull &&
    packet.get "version" ≠ packet.get "deliveredVersion"

def present : Json → Bool
  | .null => false
  | .bool b => b
  | .str s => s ≠ ""
  | .arr items => !items.isEmpty
  | .obj fields => !fields.isEmpty
  | .int n => n ≠ 0
  | .float text => !lib.zero text

def undeliveredProgress (ps : Json) : Bool :=
  present lib (ps.get "progressVersion") &&
    ps.get "progressVersion" ≠ ps.get "deliveredProgressVersion"

/-- `checked_add(1)` on a `u64`. -/
def bump (n : ℕ) (e : String) : Except String ℕ := if n + 1 < 2^64 then .ok (n+1) else .error e

/-! ## Reading a row -/

def hexDigit (c : Char) : Bool :=
  c.isDigit || ('a' ≤ c && c ≤ 'f') || ('A' ≤ c && c ≤ 'F')

def validObservation (o : Json) : Bool :=
  (o.get "generation").asU64.isSome &&
    (o.get "version").asStr.any fun version =>
      version.utf8ByteSize = 64 && version.toList.all hexDigit

def nonempty (v : Json) : Bool := v.asStr.any (· ≠ "")

def validPending (pending : Json) : Bool :=
  let body := pending.get "body"
  pending.isObject && body.isObject &&
    (["version","goalPolicy","preparedAt"].all fun key => nonempty (pending.get key)) &&
    (["observationVersion","progressVersion"].all fun key =>
      (pending.get key).isNull || (pending.get key).isString) &&
    (((body.get "metadata").get "eventVersion").isNull ||
      (body.get "metadata").get "eventVersion" = pending.get "version") &&
    (body.get "id").asStr.any fun id => id ≠ "" && identifier id

def validGeneration (r : Row) : Bool :=
  (r.get? "dependencyGeneration").all (·.asU64.isSome) &&
    (r.get? "dependencyEvidenceIncomplete").all (·.isBoolean) &&
    !(r.get "dependencyEvidenceIncomplete" = .bool true &&
      (r.get "dependencyGeneration").asU64.getD 0 = 0)

def checkRow (n : ℕ) (v : Json) : Except String Row :=
  match v with
  | .obj fields => do
    let r : Row := ⟨fields⟩
    require (validGeneration r) s!"invalid dependency audit generation for {n}"
    match ["auditedFeedback","auditedCheckpoints","auditedDependencies","feedbackObservations"].find?
        fun key => !((r.get key).isNull || (r.get key).isObject) with
    | some key => .error s!"invalid {key} journal field for {n}"
    | none =>
      require (((r.get "feedbackObservations").asObject.getD []).all fun f => validObservation f.2)
        s!"invalid feedback observation for {n}"
      require ((r.get "pending").isNull || validPending (r.get "pending"))
        s!"invalid pending request for {n}"
      .ok r
  | _ => .error s!"invalid journal packet {n}"

/-- `journal_packet`; `Journal.entry` is what it leaves in the journal. -/
def journalPacket (j : Journal) (n : ℕ) : Except String Row :=
  if ¬ j.packets.isObject ∨ ¬ j.prs.isObject then
    .error "campaign journal must contain packets and prs objects"
  else checkRow n ((j.entry n).row n)

/-! ## Progress -/

def stages : List String :=
  ["ready_for_work","waiting_for_codex","waiting_for_ci","waiting_for_producer",
    "waiting_for_operator_or_maintainer","ready_for_merge","ready_for_close"]

def checkpointed (pr reported : Json) : Bool :=
  (pr.get "head").isString && (pr.get "base").isString && reported.get "head" = pr.get "head" &&
    reported.get "base" = pr.get "base" && (reported.get "stage").asStr.any (· ∈ stages) &&
    (!(reported.get "stage" = .str "ready_for_merge" || reported.get "stage" = .str "ready_for_close") ||
      present lib (reported.get "evidence"))

def stage (pr : Json) : String × String :=
  if pr.get "state" = .str "MERGED" then
    ("merged","Original merged; historical audit and any linked follow-up remain tracked")
  else if pr.get "state" = .str "CLOSED" then
    ("closed","Verify the closure reason and historical finding disposition; keep the original closed")
  else if pr.get "state" ≠ .str "OPEN" then
    ("waiting_for_operator_or_maintainer",
      "Forge evidence unavailable; retry observation without declaring acceptance")
  else if pr.get "draft" = .bool true then
    ("ready_for_work","Decide merge/repair/closure; qualify and mark ready when warranted, " ++
        "preserving any explicit maintainer hold")
  else if 0 < (pr.get "unresolvedCodex").asU64.getD 0 then
    ("ready_for_work","Inspect all current and historical Codex findings; resolution flags do not " ++
        "establish disposition")
  else
    let checks := ((((pr.get "checks").get "state").asStr).getD "").toUpper
    if checks = "FAILURE" ∨ checks = "ERROR" then
      ("ready_for_work","Investigate failing exact-revision qualification")
    else if checks = "PENDING" ∨ checks = "EXPECTED" then
      ("waiting_for_ci","Exact-revision CI remains pending; independent siblings can proceed")
    else
      ("waiting_for_codex","Worker must reconcile current complete-candidate code review and " ++
        "all-history finding audit")

def progress (pr reported : Json) : Json :=
  let result := object [("stage",.str "ready_for_work"),
    ("reason",.str "Reconcile findings and qualification"),("head",pr.get "head"),
    ("base",pr.get "base")]
  if !closed pr && checkpointed lib pr reported then
    (["stage","reason","evidence","blockers"].foldl (fun result key =>
      match reported.get? key with
      | some v => result.set key v
      | none => result) result).set "source" (.str "exact-revision worker checkpoint")
  else (result.set "stage" (.str (stage pr).1)).set "reason" (.str (stage pr).2)

/-! ## Refresh -/

/-- The reports, audits and producer digests one refresh is given. -/
structure Inputs where
  reports : List (ℕ × Json)
  audits : List (ℕ × Json)
  dependencies : List (ℕ × String)

def reportItems (report : Json) : List Json :=
  (report.get "prs").items ++ (report.get "linkedReleasePRs").items

def validateReportUrls (report : Json) (n : ℕ) : Except String Unit := do
  let _ ← ["prs","linkedReleasePRs"].foldlM (fun urls key => do
    require ((report.get key).isNull || (report.get key).isArray)
      s!"invalid worker report PR collection for {n}"
    (report.get key).items.foldlM (fun urls item =>
      match (item.get "url").asStr with
      | some url =>
        if url = "" then .error s!"missing worker report URL for {n}"
        else if url ∈ urls then .error s!"duplicate worker report URL for {n}: {url}"
        else .ok (url :: urls)
      | none => .error s!"missing worker report URL for {n}") urls) ([] : List String)
  .ok ()

/-- Every record and row of the journal belongs to the manifest. -/
def inScope (m : Manifest) (j : Journal) : Bool :=
  j.prs.isObject && j.packets.isObject &&
    ((j.prs.asObject.getD []).all fun f => m.packets.any fun p => f.1 ∈ p.prs) &&
    (j.packets.asObject.getD []).all fun f => m.packets.any fun p => toString p.number = f.1

def claim (p : Packet) (owners : List String) (assignment : Json) : Except String (List String) :=
  match assignment.asStr with
  | none => .error "invalid imported assignment ownership"
  | some url =>
    if url = "" then .error "invalid imported assignment ownership"
    else if url ∉ p.prs ∨ url ∈ owners then .error "imported journal assignments changed ownership"
    else .ok (url :: owners)

def claimRow (m : Manifest) (owners : List String) (entry : String × Json) :
    Except String (List String) :=
  match m.packets.find? fun p => toString p.number = entry.1 with
  | none => .error "validated retained owner"
  | some p =>
    if (entry.2.get "sessionID").asStr ≠ some p.sessionId ∨
        (entry.2.get "ownerHost").asStr ≠ some p.ownerHost then
      .error ("imported journal lacks matching retained owner identity; " ++
        "retain its historical manifest before migration")
    else
      match (entry.2.get "prs").asArray with
      | none => .error ("imported journal lacks retained assignment ownership; " ++
          "retain its historical manifest before migration")
      | some assignments => assignments.foldlM (claim p) owners

/-- The ownership check of a journal that retains no manifest. -/
def imported (m : Manifest) (j : Journal) : Except String Unit := do
  let owners ← (j.packets.asObject.getD []).foldlM (claimRow m) []
  require ((j.prs.asObject.getD []).all fun f => f.1 ∈ owners)
    "imported journal lacks complete retained assignment ownership"

def validateRetained (m : Manifest) (j : Journal) : Except String Unit :=
  match j.retained with
  | some (.error e) => .error s!"invalid retained manifest: {e}"
  | some (.ok old) => m.validate (some old)
  | none => m.validate none

/-- The checks before any owner is refreshed. -/
def admitManifest (m : Manifest) (j : Journal) : Except String Unit := do
  validateRetained m j
  require (inScope m j) "manifest drops retained journal scope"
  match j.retained with
  | none => imported m j
  | some _ => .ok ()

def objectOr (v : Json) : Json := if v.isObject then v else .obj []

def addressed (pr : Json) (url : String) : Json :=
  if (pr.get? "url").isNone then pr.set "url" (.str url) else pr

/-- The pull request record under `url`, inserted or completed with its address. -/
def identified (prs : Json) (url : String) : Except String Json :=
  let pr := (prs.get? url).getD (.obj [("url",.str url)])
  if ¬ pr.isObject then .error s!"invalid PR journal record {url}"
  else if (addressed pr url).get "url" ≠ .str url then
    .error s!"PR journal identity differs from assignment {url}"
  else .ok (addressed pr url)

/-- The feedback generation of `url`: one more when the feedback is not the recorded one. -/
def feedbackGeneration (r : Json) (url raw : String) : Except String ℕ :=
  let prior := (r.get "feedbackObservations").get url
  let previous := (prior.get "version").asStr <|> ((r.get "auditedFeedback").get url).asStr
  let generation := (prior.get "generation").asU64.getD 0
  if previous.any (· ≠ raw) then bump generation "feedback audit generation exhausted"
  else .ok generation

/-- Only the journal's generation stands in the record. -/
def restoreGeneration (pr : Json) (generation : ℕ) : Json :=
  if 0 < generation then pr.set "feedbackGeneration" (nat generation)
  else pr.remove "feedbackGeneration"

def observeFeedback (n : ℕ) (j : Journal) (url : String) : Except String Journal := do
  let pr ← identified j.prs url
  let raw := digest lib (feedbackInputs pr)
  let generation ← feedbackGeneration (j.row n) url raw
  let j := { j with prs := j.prs.set url (restoreGeneration pr generation) }
  let ps ← journalPacket j n
  .ok (j.put n (ps.set "feedbackObservations" ((objectOr (ps.get "feedbackObservations")).set url
    (.obj [("generation",nat generation),("version",.str raw)]))))

/-- The producers' digests as the journal keeps them; an unknown one is `null`. -/
def evidence (p : Packet) (dependencies : List (ℕ × String)) : Json :=
  object (p.dependencies.map fun id =>
    (toString id,((dependencies.lookup id).map Json.str).getD .null))

def evidenceComplete (p : Packet) (dependencies : List (ℕ × String)) : Bool :=
  p.dependencies.all fun id => (dependencies.lookup id).any fun hash => !blank hash

def producers (p : Packet) : List ℕ := (p.dependencies.insertionSort (· ≤ ·)).dedup

/-- What one refresh observes of one owner. -/
structure Sources where
  prs : List Json
  evidence : Json
  complete : Bool

def generationOf (ps : Json) : ℕ := (ps.get "dependencyGeneration").asU64.getD 0

/-- Incomplete evidence starts a generation, once, and forgets what was audited. -/
def observeEvidence (complete : Bool) (ps : Row) : Except String (Row × ℕ) :=
  if complete then .ok (ps.set "dependencyEvidenceIncomplete" (.bool false),generationOf ps.json)
  else if ps.get "dependencyEvidenceIncomplete" ≠ .bool true then do
    let generation ← bump (generationOf ps.json) "dependency audit generation exhausted"
    .ok (((ps.set "dependencyGeneration" (nat generation)).set "auditedDependencies" (.obj [])).set
      "dependencyEvidenceIncomplete" (.bool true),generation)
  else .ok ((ps.set "auditedDependencies" (.obj [])).set "dependencyEvidenceIncomplete" (.bool true),
    generationOf ps.json)

/-- The inputs of the observation version. -/
def observationInputs (policy : Policy) (p : Packet) (src : Sources) (generation : ℕ) : Json :=
  let inputs := .obj [("dependencies",src.evidence),("goalPolicy",.str policy.goalPolicy),
    ("prs",.arr (src.prs.map fun pr => .str (eventVersion lib pr)))]
  let inputs :=
    if p.dependencies ≠ [] then inputs.set "producers" (.arr ((producers p).map nat)) else inputs
  if 0 < generation then inputs.set "dependencyGeneration" (nat generation) else inputs

/-- An imported delivery is bound to its retained, unchanged observation. -/
def bindDelivery (ps : Row) : Row :=
  if (ps.get "deliveredObservationVersion").isNull && (ps.get "deliveredVersion").isString &&
      ps.get "deliveredVersion" = ps.get "version" && (ps.get "observationVersion").isString then
    ps.set "deliveredObservationVersion" (ps.get "observationVersion")
  else ps

def bindProgress (ps : Row) : Row :=
  if (ps.get "deliveredProgressVersion").isNull && (ps.get "deliveredVersion").isString &&
      ps.get "deliveredVersion" = ps.get "version" && present lib (ps.get "progressVersion") then
    ps.set "deliveredProgressVersion" (ps.get "progressVersion")
  else ps

def keepWaiting (ps : Row) : Row :=
  if (ps.get "workerStatus").get "status" = .str "waiting" then
    ps.set "waitingReportPending" (.bool true)
  else ps

/-- Records that the feedback of `url` was audited under the current dependencies. -/
def audited (ps : Row) (url : String) (feedback : Json) (dependencyVersion : String) : Row :=
  (ps.set "auditedFeedback" ((ps.get "auditedFeedback").set url feedback)).set
    "auditedDependencies" ((objectOr (ps.get "auditedDependencies")).set url (.str dependencyVersion))

/-- Whether a report's item certifies the closed pull request `pr`. -/
def certifies (src : Sources) (pr item : Json) : Bool :=
  src.complete &&
    (pr.get "state" = .str "MERGED" ||
      (pr.get "state" = .str "CLOSED" && present lib (item.get "disposition"))) &&
    (pr.get "head").isString && item.get "head" = pr.get "head" &&
    item.get "auditComplete" = .bool true && present lib (item.get "evidence")

def acceptItem (src : Sources) (dependencyVersion : String) (report : Json) (ps : Row) (pr : Json) :
    Except String Row :=
  match (reportItems report).find? fun item => item.get "url" = pr.get "url" with
  | none => .ok ps
  | some item =>
    match (pr.get "url").asStr with
    | none => .error "missing journal URL"
    | some url =>
      let checkpoint := .str (digest lib (.arr [report.get "eventVersion",item]))
      if certifies lib src pr item && (ps.get "auditedCheckpoints").get url ≠ checkpoint then
        .ok (audited (ps.set "auditedCheckpoints" ((ps.get "auditedCheckpoints").set url checkpoint))
          url (.str (feedbackVersion lib pr)) dependencyVersion)
      else .ok ps

/-- A report counts when it answers the delivered event on the current observation. -/
def reportCurrent (ps : Row) (observation : String) (report : Json) : Bool :=
  (report.get "eventVersion").isString && report.get "eventVersion" = ps.get "deliveredVersion" &&
    ps.get "deliveredObservationVersion" = .str observation

/-- What adopting a report writes beside the audits. -/
def adoptReport (src : Sources) (report : Json) (ps : Row) : Row :=
  let ps := (ps.set "workerStatus" report).set "waitingReportPending"
    (.bool (report.get "status" = .str "waiting"))
  if src.complete && report.get "status" = .str "ready_for_work" then
    ps.set "progressVersion" (.str (digest lib report))
  else ps

def acceptReport (p : Packet) (src : Sources) (dependencyVersion observation : String)
    (report : Option Json) (ps : Row) : Except String Row :=
  match report with
  | none => .ok ps
  | some report => do
    require ((report.get "packet").asU64 = some p.number ∧ report.get "schemaVersion" = .int 1)
      s!"worker status identity mismatch for {p.number}"
    validateReportUrls report p.number
    require ((report.get "status").asStr.any
        (· ∈ ["waiting","ready_for_work","merged","closed","complete"]))
      s!"unsupported worker status for {p.number}"
    if reportCurrent ps observation report then
      src.prs.foldlM (acceptItem lib src dependencyVersion report) (adoptReport lib src report ps)
    else .ok ps

/-- The inputs of the event version: the observation's and what the row has pending. -/
def eventInputs (inputs : Json) (ps : Row) : Json :=
  ["recoveryVersion","recheckVersion"].foldl (fun inputs key =>
    if present lib (ps.get key) then inputs.set key (ps.get key) else inputs)
    (inputs.set "progressVersion" (ps.get "progressVersion"))

def stampVersions (inputs : Json) (dependencyVersion observation : String) (ps : Row) : Row :=
  (((ps.set "observationVersion" (.str observation)).set "dependencyVersion"
    (.str dependencyVersion)).set "versionInputs" inputs).set "version"
      (.str (digest lib (eventInputs lib inputs ps)))

/-- Whether an item of an audit certifies a pull request under the current dependencies. -/
def auditCurrent (p : Packet) (src : Sources) (dependencyVersion : String) (item : Json) : Bool :=
  src.complete && present lib (item.get "evidence") && present lib (item.get "feedbackVersion") &&
    (p.dependencies = [] || (item.get "dependencyVersion").asStr = some dependencyVersion)

/-- Whether the item names the feedback `url` has now. -/
def auditMatches (src : Sources) (item : Json) (url : String) : Bool :=
  src.prs.any fun pr =>
    pr.get "url" = .str url && (item.get "feedbackVersion").asStr = some (feedbackVersion lib pr)

def acceptAuditItem (p : Packet) (src : Sources) (dependencyVersion : String) (ps : Row)
    (item : Json) : Except String Row :=
  if auditCurrent lib p src dependencyVersion item then
    match (item.get "url").asStr with
    | none => .error "audit is missing URL"
    | some url =>
      if auditMatches lib src item url then
        .ok (audited ps url (item.get "feedbackVersion") dependencyVersion)
      else .ok ps
  else .ok ps

def acceptAudit (p : Packet) (src : Sources) (dependencyVersion : String) (audit : Option Json)
    (ps : Row) : Except String Row :=
  match audit with
  | none => .ok ps
  | some audit => do
    require ((audit.get "packet").asU64 = some p.number) "historical audit identity mismatch"
    (audit.get "prs").items.foldlM (acceptAuditItem lib p src dependencyVersion) ps

/-- Whether the audit of `pr` is missing or not of its current feedback and dependencies. -/
def unaudited (p : Packet) (src : Sources) (dependencyVersion : String) (ps : Row) (pr : Json) :
    Bool :=
  let url := ((pr.get "url").asStr).getD ""
  !src.complete ||
    ((ps.get "auditedFeedback").get url).asStr ≠ some (feedbackVersion lib pr) ||
    (p.dependencies ≠ [] &&
      ((ps.get "auditedDependencies").get url).asStr ≠ some dependencyVersion)

def backlog (p : Packet) (src : Sources) (dependencyVersion : String) (ps : Row) : ℕ :=
  (src.prs.filter fun pr => closed pr && unaudited lib p src dependencyVersion ps pr).length

def judge (p : Packet) (src : Sources) (dependencyVersion : String) (ps : Row) : Row :=
  let n := backlog lib p src dependencyVersion ps
  (ps.set "terminal" (.bool (src.complete && n = 0 &&
    ps.get "waitingReportPending" ≠ .bool true &&
    (ps.get "workerStatus").get "status" ≠ .str "waiting" && !undeliveredProgress lib ps.json &&
    src.prs.all closed))).set "auditBacklog" (nat n)

/-- The items of the adopted report, while it answers the current observation. -/
def reported (n : ℕ) (src : Sources) (ps : Row) : Except String (List Json) :=
  let status := ps.get "workerStatus"
  if src.complete && (status.get "eventVersion").isString &&
      status.get "eventVersion" = ps.get "deliveredVersion" &&
      ps.get "deliveredObservationVersion" = ps.get "observationVersion" then do
    validateReportUrls status n
    .ok (reportItems status)
  else .ok []

def reviseProgress (p : Packet) (src : Sources) (dependencyVersion : String) (ps : Row)
    (items : List Json) (prs : Json) (url : String) : Json :=
  let item := (items.find? fun item => item.get "url" = .str url).getD .null
  let pr := (prs.get url).set "progress" (progress lib (prs.get url) item)
  let pr := pr.set "classification" ((pr.get "progress").get "stage")
  let complete := src.complete &&
    ((ps.get "auditedFeedback").get url).asStr = some (feedbackVersion lib pr) &&
    (p.dependencies = [] || ((ps.get "auditedDependencies").get url).asStr = some dependencyVersion)
  prs.set url (pr.set "progress" ((pr.get "progress").set "auditComplete" (.bool complete)))

/-- The steps on one owner's row, from its observed sources; with the dependency version. -/
def refreshRow (policy : Policy) (inputs : Inputs) (p : Packet) (src : Sources) (ps : Row) :
    Except String (Row × String) := do
  let ps := ps.set "openPRs" (nat (src.prs.filter fun pr => pr.get "state" = .str "OPEN").length)
  let (ps,generation) ← observeEvidence src.complete ps
  let dependencyVersion := dependencyFingerprint lib (producers p) src.evidence generation
  let versions := observationInputs lib policy p src generation
  let observation := digest lib versions
  let ps := keepWaiting (bindProgress lib (bindDelivery ps))
  let ps ← acceptReport lib p src dependencyVersion observation (inputs.reports.lookup p.number) ps
  let ps := stampVersions lib versions dependencyVersion observation ps
  let ps ← acceptAudit lib p src dependencyVersion (inputs.audits.lookup p.number) ps
  .ok (judge lib p src dependencyVersion ps,dependencyVersion)

/-- The owner's records in the order of their addresses, and its producers' evidence. -/
def sources (inputs : Inputs) (p : Packet) (j : Journal) : Sources where
  prs := (p.prs.insertionSort (· ≤ ·)).map j.pr
  evidence := evidence p inputs.dependencies
  complete := evidenceComplete p inputs.dependencies

def refreshPacket (policy : Policy) (inputs : Inputs) (j : Journal) (p : Packet) :
    Except String Journal := do
  let _ ← journalPacket j p.number
  let j ← p.prs.foldlM (observeFeedback lib p.number) (j.entry p.number)
  let ps ← journalPacket j p.number
  let src := sources inputs p j
  let (ps,dependencyVersion) ← refreshRow lib policy inputs p src ps
  let items ← reported p.number src ps
  .ok { j.put p.number ps with
    prs := p.prs.foldl (reviseProgress lib p src dependencyVersion ps items) j.prs }

/-- `refresh`.  It works on a copy: a failure leaves the journal as it was. -/
def refresh (m : Manifest) (j : Journal) (policy : Policy) (inputs : Inputs) :
    Except String Journal := do
  admitManifest m j
  let j ← m.packets.foldlM (refreshPacket lib policy inputs) j
  let coverage ← m.coverage j.prs
  .ok { j with retained := some (.ok m), coverage := some coverage }

/-! ## Follow-ups -/

/-- Saturation of an `i64`. -/
def saturate (n : ℤ) : ℤ := max (-2^63) (min n (2^63-1))

def timestamp (v : Json) : Option ℤ :=
  v.asStr.bind fun text => (lib.rfc3339 text).map fun t => t.fdiv (10^9)

def scheduleRecheck (policy : Policy) (now : ℤ) (ps : Row) : Row × Bool :=
  if ps.get "terminal" = .bool true ∨ present lib (ps.get "pending") ∨ needsWake ps.json then
    (ps,false)
  else
    let report := ps.get "workerStatus"
    if report.get "status" ≠ .str "waiting" ∨
        report.get "eventVersion" ≠ ps.get "deliveredVersion" then (ps,false)
    else
      let checkpoint := Json.str (digest lib report)
      match timestamp lib (report.get "updatedAt") <|> timestamp lib (report.get "at") <|>
          timestamp lib (ps.get "deliveredAt") with
      | none => (ps,false)
      | some entered =>
        let delay := max 600 (min ((report.get "retryAfterSeconds").asI64.getD 900) 1800)
        if ps.get "recheckedReport" = checkpoint ∨ now < saturate (entered + delay) then (ps,false)
        else
          ((ps.set "recheckedReport" checkpoint).set "recheckVersion"
            (.str (digest lib (.arr [.str policy.goalPolicy,ps.get "observationVersion",checkpoint,
              .str "terminal-disposition-followup"]))),true)

def continuationBlocker : Json :=
  object [("resource",.str "worker checkpoint/admission"),("owner",.str "existing owner session"),
    ("releaseCondition",
      .str "new source/review/CI/dependency evidence or a usable worker checkpoint"),
    ("reason",.str "Three bounded continuations ended without a checkpoint; retained unfinished")]

/-- Whether the adopted report is a usable checkpoint of the delivered turn. -/
def checkpointHeld (ps : Row) : Bool :=
  let report := ps.get "workerStatus"
  let finished := (report.get "status").asStr.any (· ∈ ["merged","closed","complete"])
  report.get "eventVersion" = ps.get "deliveredVersion" &&
    ((report.get "status").asStr.any (· ∈ ["waiting","ready_for_work","merged","closed","complete"]) &&
      !(finished && 0 < (ps.get "auditBacklog").asU64.getD 0))

/-- The instant and identity of an idle turn that has lasted long enough to be recovered. -/
def idleTurn (ps : Row) (idle : Json) (now : ℤ) : Option String := do
  let started ← (((ps.get? "deliveredSubmissionAttemptAt").filter (!·.isNull)).getD
    (ps.get "deliveredAt")).asStr
  let started ← lib.rfc3339 started
  let id ← (idle.get "id").asStr
  let ms ← ((idle.get "time").get "created").asI64
  let at_ ← lib.millis ms
  if at_ < started ∨ saturate (saturate (now*1000) - ms) < 300000 then none else some id

/-- Counts one recovery of the idle turn `id`, three at most for one observation. -/
def countRecovery (ps : Row) (idle : Json) (id : String) : Row × Bool :=
  let source := ps.get "observationVersion"
  let recovery := ps.get "idleRecovery"
  let ps :=
    if ¬ recovery.isObject ∨ recovery.get "source" ≠ source then
      ps.set "idleRecovery" (object [("source",source),("attempts",nat 0),("idleIDs",.arr [])])
    else ps
  let recovery := ps.get "idleRecovery"
  if ((recovery.get "idleIDs").asArray).any (·.contains (.str id)) then (ps,false)
  else
    let attempts := (recovery.get "attempts").asU64.getD 0
    if 3 ≤ attempts then (ps.set "continuationBlocker" continuationBlocker,false)
    else
      match recovery.get "idleIDs" with
      | .arr ids =>
        let recovery := (recovery.set "idleIDs" (.arr (ids ++ [.str id]))).set "attempts"
          (nat (attempts+1))
        (((ps.set "idleRecovery" recovery).set "recoveryVersion"
          (.str (digest lib (.arr [source,.str id,.str "missing-idle-checkpoint"])))).set
            "lastIdleOutcome" (idle.get "outcome"),true)
      | ids => (ps.set "idleRecovery" (recovery.set "idleIDs" ids),false)

def recordIdleRecovery (idle : Json) (now : ℤ) (ps : Row) : Row × Bool :=
  if ps.get "terminal" = .bool true ∨ present lib (ps.get "pending") ∨
      ps.get "version" ≠ ps.get "deliveredVersion" then (ps,false)
  else
    match idleTurn lib ps idle now with
    | none => (ps,false)
    | some id => if checkpointHeld ps then (ps,false) else countRecovery lib ps idle id

/-! ## Admission -/

/-- The first 32 characters of a digest. -/
def short (hash : String) : String := String.ofList (hash.toList.take 32)

/-- The requests admitted for this row so far. -/
def admitted (ps : Row) : Except String ℕ :=
  match ps.get? "admissionGeneration" with
  | none => .ok 0
  | some .null => .ok 0
  | some v =>
    match v.asU64 with
    | some n => .ok n
    | none => .error "invalid admission generation"

def admissionGeneration (ps : Row) : Except String ℕ := do
  let generation ← admitted ps
  bump generation "admission generation exhausted"

/-- The inputs of a message identity. -/
def messageInputs (p : Packet) (policy : Policy) (version : Json) (generation : ℕ) : Json :=
  .arr [.str p.sessionId,version,.str policy.goalPolicy,nat generation]

def messageBody (p : Packet) (policy : Policy) (version : Json) (generation : ℕ) (text : String) :
    Json :=
  object [("id",.str ("msg_" ++ short (digest lib (messageInputs p policy version generation)))),
    ("text",.str text),("delivery",.str "steer"),("resume",.bool true),
    ("metadata",object [("coordination",.str "native-campaign-v1"),("packet",nat p.number),
      ("eventVersion",version)])]

/-- The row with the fresh request `body` pending. -/
def enqueue (ps : Row) (policy : Policy) (generation : ℕ) (body : Json) (at_ : String) : Row :=
  (ps.set "admissionGeneration" (nat generation)).set "pending"
    (object [("version",ps.get "version"),("observationVersion",ps.get "observationVersion"),
      ("progressVersion",ps.get "progressVersion"),("goalPolicy",.str policy.goalPolicy),
      ("body",body),("preparedAt",.str at_)])

def prepareRow (ps : Row) (p : Packet) (policy : Policy) (text at_ : String) :
    Except String (Row × Json) :=
  if !(ps.get "pending").isNull then .ok (ps,(ps.get "pending").get "body")
  else do
    require (needsWake ps.json ∧ ¬ blank text)
      "owner has no unadmitted event or continuation text is empty"
    require (nonempty (ps.get "version") ∧ policy.goalPolicy ≠ "" ∧ at_ ≠ "")
      "fresh admission requires durable event, goal and preparation metadata"
    let generation ← admissionGeneration ps
    let body := messageBody lib p policy (ps.get "version") generation text
    .ok (enqueue ps policy generation body at_,body)

/-- `prepare`: its result and the journal it leaves, also when it fails. -/
def prepare (j : Journal) (p : Packet) (policy : Policy) (text at_ : String) :
    Except String Json × Journal :=
  match journalPacket j p.number with
  | .error e => (.error e,j.entry p.number)
  | .ok ps =>
    match prepareRow lib ps p policy text at_ with
    | .error e => (.error e,j.entry p.number)
    | .ok (ps,body) => (.ok body,j.put p.number ps)

/-- The row with its pending request delivered. -/
def deliver (ps : Row) (at_ : String) : Row :=
  let pending := ps.get "pending"
  (((((((ps.set "deliveredVersion" (pending.get "version")).set "deliveredObservationVersion"
    (pending.get "observationVersion")).set "deliveredAt" (.str at_)).set "deliveredPreparedAt"
    (pending.get "preparedAt")).set "deliveredSubmissionAttemptAt"
    (pending.get "submissionAttemptAt")).set "deliveredProgressVersion"
    (pending.get "progressVersion")).set "goalAckVersion" (pending.get "goalPolicy")).set
    "pending" .null

/-- `acknowledge`: its result and the journal it leaves, also when it fails. -/
def acknowledge (j : Journal) (n : ℕ) (id at_ : String) : Except String Unit × Journal :=
  match journalPacket j n with
  | .error e => (.error e,j.entry n)
  | .ok ps =>
    if (((ps.get "pending").get "body").get "id").asStr ≠ some id then
      (.error "acknowledgement does not match the exact pending input",j.entry n)
    else (.ok (),j.put n (deliver ps at_))

/-! ## Completion -/

/-- The owners occupied on each host. -/
abbrev Activity := List (String × List ℕ)

def manifestCurrent (m : Manifest) (j : Journal) : Bool :=
  match j.retained with
  | none => m.packets.all (·.dependencies = [])
  | some (.error _) => false
  | some (.ok old) => (m.validate (some old)).isOk && (old.validate (some m)).isOk

def evidenceKept (p : Packet) (deps : Json) : Bool :=
  match deps with
  | .obj fields => fields.length = (producers p).length &&
      (producers p).all fun id => (fields.lookup (toString id)).any fun hash =>
        hash.asStr.any fun hash => !blank hash
  | _ => false

def feedbackCurrent (ps : Json) (pr : Json) (url : String) : Bool :=
  match ps.get? "feedbackObservations" with
  | none => true
  | some observations =>
    let observation := observations.get url
    (observation.get "version").asStr = some (digest lib (feedbackInputs pr)) &&
      (observation.get "generation").asU64.isSome &&
      (observation.get "generation").asU64 =
        match pr.get? "feedbackGeneration" with
        | none => some 0
        | some v => v.asU64

def finishedPacket (j : Journal) (p : Packet) : Bool :=
  let ps := j.row p.number
  let deps := (ps.get "versionInputs").get "dependencies"
  match (match ps.get? "dependencyGeneration" with
    | none => some 0
    | some v => v.asU64) with
  | none => false
  | some generation =>
    let dependencyVersion := dependencyFingerprint lib (producers p) deps generation
    ps.get "terminal" = .bool true && (p.prs.all fun url => feedbackCurrent lib ps (j.pr url) url) &&
      ((ps.get? "dependencyEvidenceIncomplete").all (· = .bool false)) &&
      (p.dependencies = [] || evidenceKept p deps) &&
      ps.get "waitingReportPending" ≠ .bool true &&
      (ps.get "workerStatus").get "status" ≠ .str "waiting" && !undeliveredProgress lib ps &&
      (ps.get "pending").isNull && (ps.get "pendingCompaction").isNull &&
      p.prs.all fun url =>
        closed (j.pr url) && ((j.pr url).get "lastError").isNull &&
          ((ps.get "auditedFeedback").get url).asStr = some (feedbackVersion lib (j.pr url)) &&
          (p.dependencies = [] || (deps.isObject &&
            (ps.get "dependencyVersion").asStr = some dependencyVersion &&
            ((ps.get "auditedDependencies").get url).asStr = some dependencyVersion))

def finished (m : Manifest) (j : Journal) (active : Activity) (observationOk : Bool) : Bool :=
  observationOk && manifestCurrent m j && (m.validate none).isOk &&
    (m.packets.all fun p => (active.lookup p.ownerHost).isSome) && !active.isEmpty &&
    (active.all fun f => f.2.isEmpty) && m.packets.all (finishedPacket lib j)

end Orchestration
end CanixToolbelt
