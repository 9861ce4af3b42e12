import CanixToolbelt.Ledger
import CanixToolbelt.Receipt

/-! Reviews by the daemon on this machine: one durable enqueue for every intent, and the job
that an inspection takes for it. -/
namespace CanixToolbelt
namespace LocalReview
open Effect Review Fallible

/-! ## What is asked for -/

/-- Consumer-selected comparison scope; only a pull request attests the forge's range. -/
inductive RoborevLocalScope
  | pullRequest
  | committed
  | workingTree
  deriving DecidableEq, Repr

/-- Frozen consumer inputs.  The snapshot is absent where its path is not UTF-8. -/
structure RoborevLocalRequest where
  snapshot : Option String
  gitRef : String
  agent : String
  diff : Option String
  expectedFiles : ℕ
  scope : RoborevLocalScope
  deriving DecidableEq, Repr

def RoborevLocalRequest.frozen (r : RoborevLocalRequest) : Bool :=
  r.snapshot.all (fun path => path.toList.head? = some '/') &&
    r.agent ∈ ["opencode","codex","claude-code"] && r.gitRef ≠ "" &&
    !r.gitRef.toList.any (fun c => c.toNat < 0x20 || (0x7f ≤ c.toNat && c.toNat < 0xa0)) &&
    r.expectedFiles ≠ 0 &&
    decide (r.scope = .workingTree) = r.diff.isSome &&
    (r.scope ≠ .workingTree || r.gitRef = "dirty")

/-- A provider exists for frozen inputs only. -/
structure RoborevLocal where
  request : RoborevLocalRequest
  frozen : request.frozen = true
  deriving DecidableEq

def RoborevLocal.new (request : RoborevLocalRequest) : Except Error RoborevLocal :=
  if h : request.frozen = true then .ok ⟨request,h⟩
  else .error (.other "invalid frozen local roborev selection")

/-- The durable record of an enqueue. -/
structure Submission where
  intent : Intent
  snapshot : String
  gitRef : String
  baseline : List String
  job : Option Json
  dispatching : Bool
  diffDigest : Option String

/-- What a path consists of: whether it starts at the root, and its parts. -/
def components (path : String) : Bool × List (List Char) :=
  let parts := Forge.splitSlash path.toList
  (path.toList.head? = some '/',
    (parts.take 1).filter (· = ['.']) ++ parts.filter fun part => part ≠ [] && part ≠ ['.'])

/-! ## Requests -/

/-- Requests to the daemon, and the look for what a claim would have left behind; an enqueue
is counted by its intent, which is not sent. -/
inductive Runner
  | vacant (key : String)
  | jobs (checkout : String)
  | get (path : String)
  | enqueue (intent : Intent) (body : Json)

def Runner.Rep : Runner → Type
  | .vacant _ => Bool
  | .jobs _ => List Json
  | .get _ => Json
  | .enqueue _ _ => Json

abbrev Req := Ledger.Req Submission ⊕ Runner
abbrev Rep : Req → Type := Sum.elim Ledger.Rep Runner.Rep
abbrev Call := Script Req Rep Unit Error

def vacant (key : String) : Call Bool := Script.ask (.inr (Runner.vacant key) : Req)
def jobs (checkout : String) : Call (List Json) := Script.ask (.inr (Runner.jobs checkout) : Req)
def get (path : String) : Call Json := Script.ask (.inr (Runner.get path) : Req)
def enqueue (intent : Intent) (body : Json) : Call Json :=
  Script.ask (.inr (Runner.enqueue intent body) : Req)

def claim (key : String) : Call Bool := Script.left (Ledger.claim key)
def readSubmission (key : String) (fresh : Bool) : Call (Option Submission) :=
  Script.left (Ledger.readLedger key fresh)
def save (key : String) (saved : Submission) : Call Unit := Script.left (Ledger.save key saved)

def checked {α : Type} (r : Except Error α) : Call α := ExceptT.mk (pure r)

/-! ## Jobs -/

def jobId (job : Json) : Except Error String :=
  match (job.get "id").asU64.filter (0 < ·) with
  | some id => .ok (toString id)
  | none => .error (.other "job ID missing")

def receipt (job : Json) : Except Error String :=
  match (job.get "uuid").asStr.filter (· ≠ "") with
  | none => .error (.other "job UUID missing")
  | some uuid => do
    let id ← jobId job
    .ok ("roborev:job:" ++ id ++ ":" ++ uuid)

/-- What stands before the first two dots, and what behind them. -/
def splitDots : List Char → Option (List Char × List Char)
  | '.' :: '.' :: cs => some ([],cs)
  | c::cs => (splitDots cs).map fun (base,head) => (c::base,head)
  | [] => none

section
variable (platform : Platform)

def verifyComparison (gitRef : String) (candidate : Candidate) (scope : RoborevLocalScope) :
    Except Error Unit := do
  candidate.validate platform
  if scope = .workingTree then
    require (gitRef = "dirty")
      (.other "working-tree review requires the captured dirty comparison")
  else do
    require (scope = .pullRequest → gitRef = Receipt.range candidate)
      (.other "PR review must compare the full observed target SHA to the source SHA")
    match splitDots gitRef.toList with
    | none => .error (.other "review comparison must contain two full commit IDs")
    | some (base,head) =>
      require (revision (String.ofList base) ∧ String.ofList head = candidate.head)
        (.other "review comparison must attest the actual base and intended source SHA")

def key (intent : Intent) : String := platform.hexDigest intent.id.toList

def diffDigest (r : RoborevLocalRequest) : Option String :=
  r.diff.map fun diff => platform.hexDigest diff.toList

end

section
variable (r : RoborevLocalRequest)

def matchesJob (job : Json) : Bool :=
  (job.get "repo_path").asStr = r.snapshot && (job.get "git_ref").asStr = some r.gitRef &&
    (job.get "agent").asStr = some r.agent && job.get "agentic" = .bool false &&
    (job.get "min_severity").asStr.any (· ∈ ["","low"]) &&
    (job.get? "panel_run_uuid").all Json.isNull && (job.get "backup_agent").asStr.all (· = "")

def matchesDiff (job : Json) : Bool := r.diff.all fun diff => (job.get "diff_content").asStr = some diff

def checkout : Except Error String :=
  match r.snapshot with
  | some path => .ok path
  | none => .error (.other "snapshot path is not UTF-8")

/-- The one job of a detailed listing, which is the listed one with the captured diff. -/
def detailed (listed data : Json) : Except Error Json :=
  match (data.get "jobs").asArray with
  | none => .error (.other "working-tree job detail missing")
  | some [job] =>
    if data.get "has_more" ≠ .bool false then
      .error (.other "working-tree job detail missing or ambiguous")
    else if !matchesJob r job || !matchesDiff r job || job.get "id" ≠ listed.get "id" ||
        job.get "uuid" ≠ listed.get "uuid" then
      .error (.other "working-tree job diff or identity mismatch")
    else .ok job
  | some _ => .error (.other "working-tree job detail missing or ambiguous")

def detail (listed : Json) : Call Json :=
  if r.diff.isNone then pure listed
  else do
    let id ← checked (jobId listed)
    let data ← get ("/api/jobs?id=" ++ id)
    checked (detailed r listed data)

/-- A listed job that may be the one a submission enqueued. -/
def adoptable (saved : Submission) (job : Json) : Bool :=
  matchesJob r job && (jobId job).toOption.any (· ∉ saved.baseline)

/-- The job of a submission among those listed. -/
def chosen (saved : Submission) (listed : List Json) : Except Error (Option Json) :=
  match saved.job, listed.filter (adoptable r saved) with
  | some existing, matching => do
    let id ← jobId existing
    match matching.find? fun job => (jobId job).toOption = some id with
    | some job => .ok (some job)
    | none => .error (.other "persisted daemon job disappeared")
  | none, [job] => .ok (some job)
  | none, [] => .ok none
  | none, _ =>
    .error (.other "ambiguous daemon enqueue; multiple jobs match the immutable snapshot")

end

/-! ## The review of a job -/

section
variable (platform : Platform)

def blankText (v : Json) : Bool := v.asStr.all Receipt.blank

def normalizeFinding (reviewId : String) (index : ℕ) (finding : Json) : Except Error Finding :=
  match (finding.get "problem").asStr.filter (!Receipt.blank ·), (finding.get "fix").asStr,
    (finding.get "severity").asStr with
  | none, _, _ => .error (.other "finding problem missing")
  | some _, none, _ => .error (.other "finding fix missing")
  | some _, some _, none => .error (.other "finding severity missing")
  | some problem, some fix, some severity =>
    if severity ∉ ["critical","high","medium","low","info"] then
      .error (.other "unknown finding severity")
    else .ok
      { id := reviewId ++ ":" ++ toString index ++ ":" ++ platform.hexDigest finding.render
        body := problem ++ "\n\nSuggested fix: " ++ fix
        path := (finding.get "location").asStr
        line := none
        severity := some severity
        providerAddressed := false
        correlated := true
        url := "roborev:review:" ++ reviewId }

/-- The findings with their places, the first one that is no finding failing them all. -/
def normalizeFindings (reviewId : String) : ℕ → List Json → Except Error (List Finding)
  | _, [] => .ok []
  | index, finding::findings => do
    let first ← normalizeFinding platform reviewId index finding
    let rest ← normalizeFindings reviewId (index + 1) findings
    .ok (first::rest)

/-- Complete daemon output with exact job correlation. -/
def normalizeRoborevLocal (raw job : Json) (candidate : Candidate) (policy : Policy)
    (expectedFiles : ℕ) (scope : RoborevLocalScope) : Except Error Evaluation := do
  require (raw.get "job_id" = job.get "id" ∧
      Forge.pointer ["job","uuid"] raw = job.get? "uuid" ∧
      Forge.pointer ["job","git_ref"] raw = job.get? "git_ref")
    (.other "review/job correlation mismatch")
  match (job.get "git_ref").asStr with
  | none => .error (.other "persisted comparison missing")
  | some gitRef => do
    verifyComparison platform gitRef candidate scope
    match raw.get? "structured_output" with
    | none => .error (.other "canonical review output missing")
    | some document => do
      require ((document.get "schema_version").asU64 = some 2 ∧
          blankText (document.get "summary") = false ∧
          (document.get "verdict").asStr.any (· ∈ ["pass","fail"]))
        (.other "malformed or legacy review content")
      match (document.get "findings").asArray with
      | none => .error (.other "missing findings array")
      | some findings =>
        match (raw.get "id").asU64.filter (0 < ·) with
        | none => .error (.other "review ID missing")
        | some id => do
          let reviewId := toString id
          let normalized ← normalizeFindings platform reviewId 0 findings
          require (normalized = [] → (document.get "verdict").asStr = some "pass")
            (.other "failed verdict with no explanatory findings")
          let jobId ← jobId job
          let digest ← policy.digest platform
          .ok
            { id := reviewId
              providerJobId := some jobId
              providerReviewId := some reviewId
              provider := "roborev"
              reviewedHead := some candidate.head
              requestedBase := some candidate.base
              reviewedBase := (splitDots gitRef.toList).map fun p => String.ofList p.1
              policyDigest := digest
              completed := true
              completeFindings :=
                (Forge.pointer ["file_coverage","excluded"] raw).bind Json.asU64 = some 0 &&
                (Forge.pointer ["file_coverage","reviewed"] raw).bind Json.asU64 =
                  some expectedFiles
              findings := normalized
              url := "roborev:review:" ++ reviewId }

end

/-! ## The provider -/

section
variable (platform : Platform) (r : RoborevLocalRequest)

/-- A stored submission of another snapshot, range, comparison, intent or diff. -/
def foreign (candidate : Candidate) (policy : Policy) (intent : Intent) (saved : Submission) : Bool :=
  !(r.snapshot.any fun path => components saved.snapshot = components path) ||
    saved.gitRef ≠ r.gitRef || !saved.intent.matches_ platform candidate policy ||
    saved.intent.id ≠ intent.id || saved.diffDigest ≠ diffDigest platform r

/-- What the state of a job means. -/
def outcome (candidate : Candidate) (policy : Policy) (job : Json) : Call (Option Evaluation) :=
  match (job.get "status").asStr with
  | some "queued" | some "running" => pure none
  | some "done" => do
    let id ← checked (jobId job)
    let raw ← get ("/api/review?job_id=" ++ id)
    let review ← checked
      (normalizeRoborevLocal platform raw job candidate policy r.expectedFiles r.scope)
    pure (some review)
  | _ => throw (.other "daemon job failed, interrupted or returned an unknown execution state")

/-- Save the job of a submission, the one it has or the one it takes, and report on it. -/
def reconcile (key : String) (candidate : Candidate) (policy : Policy) (saved : Submission)
    (evidence : Evidence) (listed : Json) : Call Evidence := do
  let job ← detail r listed
  let requestReceipt ← checked (receipt job)
  if saved.job.any fun old => old.get "uuid" ≠ job.get "uuid" then
    throw (.other "job UUID changed")
  else do
    save key { saved with job := some job }
    let review ← outcome platform r candidate policy job
    pure { evidence with requestReceipt := some requestReceipt, review := review }

def inspectSaved (key : String) (candidate : Candidate) (policy : Policy) (intent : Intent)
    (evidence : Evidence) (listed : List Json) (saved : Submission) : Call Evidence := do
  if foreign platform r candidate policy intent saved then
    throw (.other "daemon intent identity mismatch")
  else do
    checked (verifyComparison platform r.gitRef candidate r.scope)
    let job ← checked (chosen r saved listed)
    match job with
    | none => pure evidence
    | some job => reconcile platform r key candidate policy saved evidence job

def inspect (candidate : Candidate) (policy : Policy) (intent : Option Intent) : Call Evidence := do
  let path ← checked (checkout r)
  let listed ← jobs path
  let ids ← checked (listed.mapM jobId)
  let evidence : Evidence := ⟨ids,none,none,none⟩
  match intent with
  | none => pure evidence
  | some intent => do
    -- a visit before any submission leaves no claim behind
    let nothing ← vacant (key platform intent)
    if nothing then pure evidence
    else do
      let fresh ← claim (key platform intent)
      let saved ← readSubmission (key platform intent) fresh
      saved.elim (pure evidence)
        (inspectSaved platform r (key platform intent) candidate policy intent evidence listed)

/-- The body of an enqueue. -/
def enqueueBody : Json := Json.object <|
  [("repo_path",r.snapshot.elim .null .str),("git_ref",.str r.gitRef),("agent",.str r.agent),
    ("agentic",.bool false),("review_type",.str "default"),("panel",.str "none"),
    ("min_severity",.str "low")] ++
  r.diff.elim [] fun diff => [("diff_content",.str diff)]

/-- Enqueue behind a record that says so, and record the job. -/
def enqueueOnce (intent : Intent) (path : String) (baseline : List String) : Call String := do
  let saved : Submission :=
    ⟨intent,path,r.gitRef,baseline,none,true,diffDigest platform r⟩
  save (key platform intent) saved
  let job ← enqueue intent (enqueueBody r)
  if !matchesJob r job || !matchesDiff r job then
    throw (.other "enqueue returned a mismatched job")
  else do
    let result ← checked (receipt job)
    save (key platform intent) { saved with job := some job, dispatching := false }
    pure result

def submit (intent : Intent) : Call String := do
  checked (verifyComparison platform r.gitRef intent.candidate r.scope)
  let fresh ← claim (key platform intent)
  let saved ← readSubmission (key platform intent) fresh
  if saved.isSome then throw (.other "enqueue already attempted; reconcile instead of replaying")
  else do
    let path ← checked (checkout r)
    let listed ← jobs path
    let baseline ← checked (listed.mapM jobId)
    enqueueOnce platform r intent path baseline

end

/-! ## The outside -/

/-- A call of a provider. -/
inductive Task
  | submit (request : RoborevLocalRequest) (intent : Intent)
  | inspect (request : RoborevLocalRequest) (candidate : Candidate) (policy : Policy)
      (intent : Option Intent)

/-- What a call returns. -/
inductive Result
  | submitted (receipt : String)
  | inspected (evidence : Evidence)

def Task.call (platform : Platform) : Task → Call Result
  | .submit r intent => do
    let receipt ← LocalReview.submit platform r intent
    pure (.submitted receipt)
  | .inspect r candidate policy intent => do
    let evidence ← LocalReview.inspect platform r candidate policy intent
    pure (.inspected evidence)

def Task.request : Task → RoborevLocalRequest
  | .submit r _ => r
  | .inspect r _ _ _ => r

def Task.intent : Task → Option Intent
  | .submit _ intent => some intent
  | .inspect _ _ _ intent => intent

/-- What was asked in the call under way, with its replies. -/
abbrev Log := List (Σ q : Runner, Except Error q.Rep)

structure World where
  files : Ledger.Directory Submission
  /-- Every intent whose enqueue was sent. -/
  enqueued : List Intent
  /-- The files as the call under way found them, the call, and its log. -/
  began : Ledger.Directory Submission
  current : Option Task
  log : Log

/-- The daemon may answer at will; its answer to an enqueue says nothing of its effect. -/
def asked (q : Runner) (w : World) (r : Except Error q.Rep) : World :=
  { w with
    enqueued := match q with
      | .enqueue intent _ => intent :: w.enqueued
      | _ => w.enqueued
    log := w.log ++ [⟨q,r⟩] }

/-- A look for a claim finds none only where there is none, and does not fail. -/
def looked (files : Ledger.Directory Submission) : (q : Runner) → Except Error q.Rep → Prop
  | .vacant key, r => ∃ b, r = .ok b ∧
    (b = true → files.ledger key = none ∧ files.anchor key = false)
  | _, _ => True

def answers : (q : Req) → World → Except Error (Rep q) → World → Prop
  | .inl q, w, r, w' => ∃ files, Ledger.answers q w.files r files ∧ w' = { w with files := files }
  | .inr q, w, r, w' => looked w.files q r ∧ w' = asked q w r

/-- Calls one after another on one state directory, by any providers; a crash inside a
request leaves what any answer to it could have left. -/
def system (platform : Platform) :
    System Req (fun q => Except Error (Rep q)) World (Except Error Result × Unit) where
  step := answers
  torn := fun q w w' => ∃ r, answers q w r w'
  start := fun w w' p => ∃ task : Task, task.request.frozen = true ∧
    w' = { w with began := w.files, current := some task, log := [] } ∧
    p = (task.call platform).start ()

end LocalReview
end CanixToolbelt
