import CanixToolbelt.Forge
import CanixToolbelt.Fallible

/-! Complete receipts of a trusted roborev coordinator: what a saved review has to prove,
and the one comment that a receipt is published as. -/
namespace CanixToolbelt
namespace Receipt
open Json Review Forge Fallible

/-- One canonical finding. -/
structure RoborevFinding where
  severity : String
  problem : String
  fix : String
  location : Option String
  sources : List ℕ
  deriving DecidableEq, Repr

structure RoborevDocument where
  schemaVersion : ℕ
  summary : String
  verdict : String
  findings : List RoborevFinding
  sourceLabels : List String
  deriving DecidableEq, Repr

/-- Full comparison and canonical-content attestation. -/
structure RoborevReceipt where
  schemaVersion : ℕ
  requestId : String
  candidate : Candidate
  policyDigest : String
  jobId : Option ℕ
  reviewId : Option ℕ
  reviewedHead : String
  reviewedBase : String
  status : String
  completeFindings : Bool
  document : Option RoborevDocument
  deriving DecidableEq, Repr

/-- Persisted daemon identity. -/
structure RoborevJobIdentity where
  id : ℕ
  uuid : String
  deriving DecidableEq, Repr

structure RoborevDispatch where
  intent : Intent
  checkout : String
  agent : String
  expectedFiles : ℕ
  deriving DecidableEq, Repr

/-- The derived readers of persisted JSON, and RFC 3339 times in seconds. -/
structure Readers where
  document : Json → Option RoborevDocument
  intent : List Char → Option Intent
  timestamp : String → Option ℤ

/-! ## Jobs -/

/-- `is_ascii_hexdigit` apart from the dashes of a UUID. -/
def uuidChar (c : Char × ℕ) : Bool :=
  if c.2 ∈ [8,13,18,23] then c.1 = '-' else hexDigit c.1

def RoborevJobIdentity.validate (identity : RoborevJobIdentity) : Except Error Unit :=
  require (identity.id ≠ 0 ∧ identity.uuid.utf8ByteSize = 36 ∧
      identity.uuid.toList.zipIdx.all uuidChar)
    (.other "persisted roborev job requires its original ID and UUID")

def RoborevJobIdentity.fromJob (job : Json) : Except Error RoborevJobIdentity := do
  let identity : RoborevJobIdentity :=
    ⟨(job.get "id").asU64.getD 0,((job.get "uuid").asStr).getD ""⟩
  identity.validate
  pure identity

/-- The commits of a comparison. -/
def range (c : Candidate) : String := c.base ++ ".." ++ c.head

/-! ## Receipts -/

/-- `str::trim().is_empty()`. -/
def blank (text : String) : Bool := text.toList.all whitespace

def unattested : Error :=
  .other "roborev receipt does not attest the exact request, comparison and policy"

def RoborevReceipt.validateBinding (platform : Platform) (r : RoborevReceipt) (intent : Intent)
    (policy : Policy) : Except Error Unit := do
  r.candidate.validate platform
  require (r.schemaVersion = 1 ∧ r.requestId = intent.id ∧ r.requestId ≠ "" ∧
    sameComparison r.candidate intent.candidate ∧ r.policyDigest = intent.policyDigest) unattested
  let digest ← policy.digest platform
  require (r.policyDigest = digest ∧ r.reviewedHead = intent.candidate.head ∧
    r.reviewedBase = intent.candidate.base ∧ r.jobId ≠ some 0 ∧ r.reviewId ≠ some 0) unattested
  require (r.status ∈ ["queued","running","done","failed","skipped","cancelled"])
    (.other "unsupported roborev execution state")

def RoborevFinding.admitted (labels : List String) (f : RoborevFinding) : Bool :=
  f.severity ∈ ["critical","high","medium","low"] && !blank f.problem && !blank f.fix &&
    f.sources.all fun index => index ≠ 0 && index ≤ labels.length

def RoborevDocument.admitted (d : RoborevDocument) : Bool :=
  d.schemaVersion = 2 && !blank d.summary && d.verdict ∈ ["pass","fail"] &&
    !(d.verdict = "fail" && d.findings = []) && !d.sourceLabels.any blank &&
    d.findings.all (RoborevFinding.admitted d.sourceLabels)

def RoborevReceipt.validate (platform : Platform) (r : RoborevReceipt) (intent : Intent)
    (policy : Policy) : Except Error Unit := do
  r.validateBinding platform intent policy
  require (r.status = "done" ∧ r.completeFindings ∧ r.jobId.isSome ∧ r.reviewId.isSome)
    (.other "roborev execution failed, skipped, pending or has incomplete findings")
  match r.document with
  | none => .error (.other "roborev result lacks its complete canonical document")
  | some document =>
    require document.admitted
      (.other "roborev canonical document is unsupported, invalid or unable to review")

/-! ## What a saved review proves -/

section
variable (platform : Platform) (readers : Readers)

def unproved : Error := .other
  "persisted roborev job does not prove the dispatched complete comparison and selected agent"

/-- A field that is absent, or one of these texts. -/
def absentOr (job : Json) (k : String) (allowed : List String) : Bool :=
  (job.get? k).all fun v => v.asStr.any (· ∈ allowed)

/-- The job beside a saved review is the dispatched one, over the whole comparison. -/
def proveJob (dispatch : RoborevDispatch) (dispatched : RoborevJobIdentity) (saved job : Json) :
    Except Error Unit := do
  let identity ← RoborevJobIdentity.fromJob job
  require (identity = dispatched) unproved
  let id ← number saved ["job_id"]
  require (id = dispatched.id) unproved
  let path ← text job ["repo_path"]
  require (path = dispatch.checkout) unproved
  let ref ← text job ["git_ref"]
  require (ref = range dispatch.intent.candidate) unproved
  let agent ← text job ["agent"]
  require (agent = dispatch.agent) unproved
  let agent ← text saved ["agent"]
  require (agent = dispatch.agent) unproved
  let kind ← text job ["job_type"]
  require (kind = "range") unproved
  let status ← text job ["status"]
  require (status = "done" ∧ job.get? "agentic" = some (.bool false) ∧
    job.get? "prompt_prebuilt" = some (.bool false) ∧
    (job.get? "non_voting").all (· = .bool false) ∧ absentOr job "diff_content" [""] ∧
    absentOr job "min_severity" ["","low"] ∧ absentOr job "review_type" ["","default"]) unproved

def RoborevReceipt.fromSavedReview (dispatch : RoborevDispatch) (policy : Policy)
    (dispatched : RoborevJobIdentity) (saved : Json) : Except Error RoborevReceipt := do
  let intent := dispatch.intent
  dispatched.validate
  require (intent.matches_ platform intent.candidate policy ∧ dispatch.expectedFiles ≠ 0 ∧
      dispatch.checkout ≠ "" ∧ dispatch.agent ≠ "")
    (.other "invalid frozen roborev dispatch identity")
  match saved.get? "job" with
  | none => .error (.other "persisted review lacks its job evidence")
  | some job => do
    proveJob dispatch dispatched saved job
    require ((pointer ["file_coverage","excluded"] saved).bind asU64 = some 0 ∧
        (pointer ["file_coverage","reviewed"] saved).bind asU64 = some dispatch.expectedFiles)
      (.other "persisted roborev review does not prove complete file coverage")
    match saved.get? "structured_output" with
    | none => .error (.other "persisted review lacks canonical structured output")
    | some output =>
      match readers.document output with
      | none => .error (.other "persisted review has invalid canonical output")
      | some document => do
        let id ← number saved ["id"]
        let receipt : RoborevReceipt := ⟨1,intent.id,intent.candidate,intent.policyDigest,
          some dispatched.id,some id,intent.candidate.head,intent.candidate.base,"done",true,
          some document⟩
        receipt.validate platform intent policy
        pure receipt

end

/-! ## The comment of a receipt -/

def resultMarker : String := "<!-- toolbelt-roborev-result:v1 "
def maxReceiptBytes : ℕ := 60000

def optional (o : Option ℕ) : Json := o.elim .null fun n => .int n

/-- The serialized candidate, its fields in the order of their declaration. -/
def candidateJson (c : Candidate) : Json := .obj
  [("url",.str c.url),("sourceRepository",.str c.sourceRepository),
    ("sourceBranch",.str c.sourceBranch),("targetBranch",.str c.targetBranch),("head",.str c.head),
    ("base",.str c.base),("draft",.bool c.draft),("open",.bool c.isOpen)]

def intentJson (i : Intent) : Json := .obj
  [("schemaVersion",.int i.schemaVersion),("id",.str i.id),("candidate",candidateJson i.candidate),
    ("policyDigest",.str i.policyDigest),
    ("baselineReviewIds",.arr (i.baselineReviewIds.map .str))]

def RoborevFinding.json (f : RoborevFinding) : Json := .obj <|
  [("severity",.str f.severity),("problem",.str f.problem),("fix",.str f.fix),
    ("location",f.location.elim .null .str)] ++
  if f.sources = [] then [] else [("sources",.arr (f.sources.map fun n => .int n))]

def RoborevDocument.json (d : RoborevDocument) : Json := .obj <|
  [("schema_version",.int d.schemaVersion),("summary",.str d.summary),("verdict",.str d.verdict),
    ("findings",.arr (d.findings.map RoborevFinding.json))] ++
  if d.sourceLabels = [] then [] else [("source_labels",.arr (d.sourceLabels.map .str))]

def RoborevReceipt.json (r : RoborevReceipt) : Json := .obj
  [("schemaVersion",.int r.schemaVersion),("requestId",.str r.requestId),
    ("candidate",candidateJson r.candidate),("policyDigest",.str r.policyDigest),
    ("jobId",optional r.jobId),("reviewId",optional r.reviewId),
    ("reviewedHead",.str r.reviewedHead),("reviewedBase",.str r.reviewedBase),
    ("status",.str r.status),("completeFindings",.bool r.completeFindings),
    ("document",r.document.elim .null RoborevDocument.json)]

/-- Encode one complete receipt; evidence is never truncated. -/
def RoborevReceipt.comment (platform : Platform) (r : RoborevReceipt) (intent : Intent)
    (policy : Policy) : Except Error String := do
  r.validateBinding platform intent policy
  if r.status = "done" then r.validate platform intent policy
  let body := resultMarker ++ String.ofList r.json.render ++ " -->"
  require (body.utf8ByteSize ≤ maxReceiptBytes)
    (.other "roborev receipt exceeds the supported complete-comment bound")
  pure body

end Receipt
end CanixToolbelt
