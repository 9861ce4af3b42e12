import CanixToolbelt.Effect
import CanixToolbelt.JsonText

/-! The review engine: one tick observes a comparison, adopts or dispatches at most one
review for it, and keeps a journal of every dispatch ahead of its remote effect. -/
namespace CanixToolbelt
namespace Review
open Effect

/-! ## Comparisons and policies -/

/-- The immutable comparison selected for one request. -/
structure Candidate where
  url : String
  sourceRepository : String
  sourceBranch : String
  targetBranch : String
  head : String
  base : String
  draft : Bool
  isOpen : Bool
  deriving DecidableEq, Repr

/-- A required CI context, optionally restricted to its producing App. -/
structure CheckRequirement where
  name : String
  appId : Option ℕ
  deriving DecidableEq, Repr

/-- Consumer policy. -/
structure Policy where
  schemaVersion : ℕ
  provider : String
  transport : String
  reviewerId : ℕ
  requiredChecks : List CheckRequirement
  deriving DecidableEq, Repr

/-- One normalized finding. -/
structure Finding where
  id : String
  body : String
  path : Option String
  line : Option ℕ
  severity : Option String
  providerAddressed : Bool
  correlated : Bool
  url : String
  deriving DecidableEq, Repr

/-- Review evidence associated with a provider run. -/
structure Evaluation where
  id : String
  providerJobId : Option String
  providerReviewId : Option String
  provider : String
  reviewedHead : Option String
  requestedBase : Option String
  reviewedBase : Option String
  policyDigest : String
  completed : Bool
  completeFindings : Bool
  findings : List Finding
  url : String
  deriving DecidableEq, Repr

inductive Verdict
  | ready | findings | pending | blocked | stale
  deriving DecidableEq, Repr

/-- `ambiguous` is the engine's refusal of two retained runs for one comparison. -/
inductive Error
  | ambiguous
  | other (message : String)
  deriving DecidableEq, Repr

def Error.message : Error → String
  | .ambiguous => "ambiguous retained review history; reconcile without dispatch"
  | .other message => message

/-- What the engine takes from elsewhere: hexadecimal SHA-256, and which texts parse as
canonical HTTPS addresses without credentials, query or fragment. -/
structure Platform where
  hexDigest : List Char → String
  canonicalUrl : String → Bool

/-- The white space that `str::trim` removes. -/
def whitespace (c : Char) : Bool :=
  (9 ≤ c.toNat && c.toNat ≤ 13) || c.toNat ∈ [0x20,0x85,0xa0,0x1680,0x2028,0x2029,0x202f,0x205f,0x3000]
    || (0x2000 ≤ c.toNat && c.toNat ≤ 0x200a)

def identity (s : String) : Bool :=
  s ≠ "" && s.utf8ByteSize ≤ 64 &&
    s.toList.all fun c => c.isAlphanum || c ∈ ['-','_','.','/']

def Policy.validate (p : Policy) : Except Error Unit :=
  if p.schemaVersion ≠ 1 ∨ ¬ identity p.provider ∨ ¬ identity p.transport ∨ p.reviewerId = 0 then
    .error (.other "invalid review policy version or provider/transport identity")
  else if p.requiredChecks.any fun c => c.name.toList.all whitespace then
    .error (.other "required check names cannot be empty")
  else .ok ()

/-- Exact dedicated App required by the extra forge gate. -/
def Policy.policyAppId (p : Policy) : Except Error ℕ :=
  match p.requiredChecks.filter (·.name = "review-policy") with
  | [⟨_,some app⟩] =>
    if app = 0 ∨ app = 15368 then
      .error (.other "policy requires one review-policy check bound to the configured dedicated GitHub App")
    else .ok app
  | _ =>
    .error (.other "policy requires one review-policy check bound to the configured dedicated GitHub App")

def CheckRequirement.json (c : CheckRequirement) : Json :=
  .obj [("name",.str c.name),("appId",c.appId.elim .null fun n => .int n)]

/-- The serialized policy, its fields in the order of their declaration. -/
def Policy.json (p : Policy) : Json := .obj
  [("schemaVersion",.int p.schemaVersion),("provider",.str p.provider),
   ("transport",.str p.transport),("reviewerId",.int p.reviewerId),
   ("requiredChecks",.arr (p.requiredChecks.map CheckRequirement.json))]

def hexDigit (c : Char) : Bool :=
  c.isDigit || ('a' ≤ c && c ≤ 'f') || ('A' ≤ c && c ≤ 'F')

def revision (sha : String) : Bool :=
  (sha.utf8ByteSize = 40 || sha.utf8ByteSize = 64) && sha.toList.all hexDigit

section
variable (platform : Platform)

/-- Stable policy identity. -/
def Policy.digest (p : Policy) : Except Error String :=
  p.validate.map fun _ => platform.hexDigest p.json.render

def Candidate.validate (c : Candidate) : Except Error Unit :=
  if ¬ platform.canonicalUrl c.url then
    .error (.other "candidate requires a canonical HTTPS URL without credentials, query or fragment")
  else if ¬ revision c.head ∨ ¬ revision c.base then
    .error (.other "candidate requires full head and base revisions")
  else if c.sourceRepository = "" ∨ c.sourceBranch = "" ∨ c.targetBranch = "" then
    .error (.other "candidate requires source repository and both branches")
  else .ok ()

/-- Evaluate review provenance and findings. -/
def Policy.evaluate (p : Policy) (candidate : Candidate) (review : Evaluation) : Verdict :=
  if p.validate.isOk = false ∨ (candidate.validate platform).isOk = false ∨ ¬ candidate.isOpen ∨
      review.provider ≠ p.provider then .blocked
  else if ¬ review.completed then .pending
  else match review.reviewedHead, review.requestedBase with
  | none, _ => .blocked
  | some _, none => .blocked
  | some head, some base =>
    if head ≠ candidate.head ∨ base ≠ candidate.base ∨
        (p.digest platform).toOption ≠ some review.policyDigest then .stale
    else if ¬ review.completeFindings then .blocked
    else if p.provider = "roborev" ∧ p.transport = "github-receipt-v1" ∧
        review.reviewedBase ≠ some candidate.base then .blocked
    else if review.findings ≠ [] then .findings
    else .ready

end

/-! ## The journal -/

/-- Immutable write-ahead intent, also published as a forge request marker. -/
structure Intent where
  schemaVersion : ℕ
  id : String
  candidate : Candidate
  policyDigest : String
  baselineReviewIds : List String
  deriving DecidableEq, Repr

/-- Whether the current candidate and policy still match this dispatch. -/
def Intent.matches_ (platform : Platform) (i : Intent) (candidate : Candidate) (policy : Policy) :
    Bool :=
  i.schemaVersion = 1 && i.candidate.head = candidate.head && i.candidate.base = candidate.base &&
    i.candidate.url = candidate.url && i.candidate.sourceRepository = candidate.sourceRepository &&
    i.candidate.sourceBranch = candidate.sourceBranch &&
    i.candidate.targetBranch = candidate.targetBranch &&
    (policy.digest platform).toOption = some i.policyDigest

structure Capabilities where
  provider : String
  transport : String
  drafts : Bool
  idempotentSubmission : Bool
  revisionAttestation : Bool
  deriving DecidableEq, Repr

/-- Complete adapter observation. -/
structure Evidence where
  knownReviewIds : List String
  recoveredIntent : Option Intent
  requestReceipt : Option String
  review : Option Evaluation
  deriving DecidableEq, Repr

/-- Durable result returned to agents. -/
structure Outcome where
  schemaVersion : ℕ
  verdict : Verdict
  candidate : Candidate
  requestId : Option String
  review : Option Evaluation
  blockers : List String
  nextAction : String
  nextPollAt : Option ℕ
  observedAt : ℕ
  deriving DecidableEq, Repr

inductive Submission
  | unknown | submitted | deferred
  deriving DecidableEq, Repr

structure Run where
  intent : Intent
  submission : Submission
  requestReceipt : Option String
  outcome : Option Outcome
  deriving DecidableEq, Repr

structure Journal where
  schemaVersion : ℕ
  historyComplete : Bool
  runs : List Run
  deriving DecidableEq, Repr

/-- What a journal file reads as: a journal, the single run of a legacy file, or neither. -/
inductive Stored
  | journal (journal : Journal)
  | run (run : Run)
  | unreadable
  deriving DecidableEq, Repr

def historyAnchor : String := "canix-review-history-v2\n"

/-! ## Requests -/

inductive Req
  | forgeCandidate (url : String)
  | forgeChecks (candidate : Candidate) (policy : Policy)
  | forgePollAt
  | capabilities
  | inspect (candidate : Candidate) (policy : Policy) (intent : Option Intent)
  | submit (intent : Intent)
  | providerPollAt
  | now | nonce | pid
  | createDir
  | openLock (key : String)
  | tryLock (key : String)
  | readAnchor (key : String)
  | readJournal (key : String)
  | writeJournal (key : String) (journal : Journal)
  | writeAnchor (key : String)

def Rep : Req → Type
  | .forgeCandidate _ => Candidate
  | .forgeChecks _ _ => List String
  | .forgePollAt | .providerPollAt => Option ℕ
  | .capabilities => Capabilities
  | .inspect _ _ _ => Evidence
  | .submit _ => String
  | .now | .nonce | .pid => ℕ
  | .openLock _ => Bool
  | .readAnchor _ => String
  | .readJournal _ => Option Stored
  | _ => Unit

abbrev Tick := Script Req Rep Unit Error

def forgeCandidate (url : String) : Tick Candidate := Script.ask (Req.forgeCandidate url)
def forgeChecks (c : Candidate) (p : Policy) : Tick (List String) :=
  Script.ask (Req.forgeChecks c p)
def forgePollAt : Tick (Option ℕ) := Script.ask Req.forgePollAt
def capabilities : Tick Capabilities := Script.ask Req.capabilities
def inspect (c : Candidate) (p : Policy) (i : Option Intent) : Tick Evidence :=
  Script.ask (Req.inspect c p i)
def submit (i : Intent) : Tick String := Script.ask (Req.submit i)
def providerPollAt : Tick (Option ℕ) := Script.ask Req.providerPollAt
def nowSeconds : Tick ℕ := Script.ask Req.now
def nonce : Tick ℕ := Script.ask Req.nonce
def pid : Tick ℕ := Script.ask Req.pid
def createDir : Tick Unit := Script.ask Req.createDir
def openLock (key : String) : Tick Bool := Script.ask (Req.openLock key)
def tryLock (key : String) : Tick Unit := Script.ask (Req.tryLock key)
def readAnchor (key : String) : Tick String := Script.ask (Req.readAnchor key)
def readJournal (key : String) : Tick (Option Stored) := Script.ask (Req.readJournal key)
def writeJournal (key : String) (j : Journal) : Tick Unit := Script.ask (Req.writeJournal key j)
def writeAnchor (key : String) : Tick Unit := Script.ask (Req.writeAnchor key)

/-! ## The engine -/

def checked {α : Type} (r : Except Error α) : Tick α := ExceptT.mk (pure r)

@[simp] theorem checked_ok {α : Type} (a : α) : checked (.ok a) = pure a := rfl

/-- The runs with the first one of this identity replaced, or this one added. -/
def replaceRun (run : Run) : List Run → List Run
  | [] => [run]
  | r::rs => if r.intent.id = run.intent.id then run::rs else r :: replaceRun run rs

/-- Keep a run; a retained identity is never rebound to another intent. -/
def saveRun (key : String) (journal : Journal) (run : Run) : Tick Journal :=
  if (journal.runs.find? (·.intent.id = run.intent.id)).any (·.intent ≠ run.intent) then
    throw (.other "retained request identity was rebound; reconcile without dispatch")
  else do
    let journal := { journal with runs := replaceRun run journal.runs }
    writeJournal key journal
    pure journal

/-- Journal first, sentinel second, both durable before provider effects. -/
def arm (key : String) (journal : Journal) : Tick Journal := do
  writeJournal key journal
  writeAnchor key
  pure journal

def loadJournal (key : String) (fresh : Bool) : Tick Journal := do
  let anchor ← readAnchor key
  let bytes ← readJournal key
  if anchor = historyAnchor then
    match bytes with
    | some (.journal journal) =>
      if journal.schemaVersion ≠ 2 then throw (.other "unsupported review history format")
      else pure journal
    | some _ => throw (.other "malformed review history")
    | none => throw (.other "review history missing or unqualified; restore the original journal and reconcile without dispatch")
  else if anchor = "" then
    match bytes with
    | none =>
      if fresh then arm key ⟨2,true,[]⟩
      else throw (.other "review history missing or unqualified; restore the original journal and reconcile without dispatch")
    | some stored =>
      if fresh then throw (.other "review history missing or unqualified; restore the original journal and reconcile without dispatch")
      else match stored with
      | .journal journal =>
        -- An interrupted migration may have saved it before arming its sentinel.
        if journal.schemaVersion = 2 then arm key { journal with historyComplete := false }
        else throw (.other "malformed review history")
      | .run run => arm key ⟨2,false,[run]⟩
      | .unreadable => throw (.other "malformed review history")
  else throw (.other "review history missing or unqualified; restore the original journal and reconcile without dispatch")

def nextAction : Verdict → String
  | .ready => "Review and required CI are current. Use the guarded merge command when merge is authorized."
  | .findings => "Triage every finding against source; fix and push authorized changes, or record an evidence-backed disposition, then rerun ensure."
  | .pending => "Resume this same ensure request after nextPollAt; do not submit a duplicate review."
  | .blocked => "Resolve the reported evidence or setup blocker, then resume ensure."
  | .stale => "The comparison changed; rerun ensure for the new candidate."

def outcome (candidate : Candidate) (intent : Option Intent) (verdict : Verdict)
    (blockers : List String) (review : Option Evaluation) : Tick Outcome := do
  let t ← nowSeconds
  pure ⟨1,verdict,candidate,intent.map Intent.id,review,blockers,nextAction verdict,none,t⟩

/-- The retained outcome while its poll time lies ahead. -/
def waiting (run : Option Run) : Tick (Option Outcome) :=
  match run.bind Run.outcome with
  | none => pure none
  | some previous =>
    match previous.nextPollAt with
    | none => pure none
    | some t => do
      let now ← nowSeconds
      pure (if now < t then some previous else none)

/-- A failed observation blocks, and is retained with the run there is. -/
def unobserved (key : String) (candidate : Candidate) (journal : Journal) (run : Option Run)
    (e : Error) : Tick Outcome := do
  let result ← outcome candidate (run.map Run.intent) .blocked [e.message] none
  let at_ ← providerPollAt
  let result := { result with nextPollAt := at_ }
  match run with
  | none => pure result
  | some run => do
    let _ ← saveRun key journal { run with outcome := some result }
    pure result

section
variable (platform : Platform)

/-- The run retained for the comparison, or the one an authorized marker proves. -/
def adopt (candidate : Candidate) (policy : Policy) (evidence : Evidence) :
    Option Run → Option Run
  | some run => some run
  | none =>
    match evidence.recoveredIntent with
    | none => none
    | some intent =>
      if intent.matches_ platform candidate policy then
        some ⟨intent,.submitted,evidence.requestReceipt,none⟩
      else none

/-- A new dispatch, not retained yet. -/
def newRun (key : String) (candidate : Candidate) (digest : String) (evidence : Evidence) :
    Tick Run := do
  let n ← nonce
  let p ← pid
  let id := platform.hexDigest (key ++ ":" ++ toString n ++ ":" ++ toString p).toList
  pure ⟨⟨1,id,candidate,digest,evidence.knownReviewIds⟩,.deferred,none,none⟩

/-- What a completed review means, the forge's checks included. -/
def judge (policy : Policy) (candidate : Candidate) (run : Run) (review : Evaluation) :
    Tick Outcome := do
  let verdict := policy.evaluate platform candidate review
  let result ← outcome candidate (some run.intent) verdict [] (some review)
  if verdict = .ready then do
    let checks ← (forgeChecks candidate policy).attempt
    match checks with
    | .ok [] => pure result
    | .ok blockers => pure { result with verdict := .blocked, blockers := blockers }
    | .error e => do
      let at_ ← forgePollAt
      pure { result with
        verdict := .blocked, blockers := result.blockers ++ [e.message], nextPollAt := at_ }
  else pure result

/-- The submission's reply: only a definitive rate limit defers the run again. -/
def submitted (candidate : Candidate) (run : Run) : Tick (Run × Outcome) := do
  let reply ← (submit run.intent).attempt
  match reply with
  | .ok receipt => do
    let result ← outcome candidate (some run.intent) .pending [] none
    pure ({ run with requestReceipt := some receipt, submission := .submitted },result)
  | .error e => do
    let result ← outcome candidate (some run.intent) .blocked
      ["submission outcome unknown: " ++ e.message] none
    let at_ ← providerPollAt
    match at_ with
    | none => pure (run,result)
    | some t =>
      pure ({ run with submission := .deferred },
        { result with blockers := [e.message], nextPollAt := some t })

/-- Submit after saving the run as unknown: a crash never turns an intent into
permission to replay it.  A comparison that moved ends the tick at once. -/
def dispatch (key : String) (policy : Policy) (candidate : Candidate) (journal : Journal)
    (run : Run) : Tick (Outcome ⊕ (Journal × Run × Outcome)) := do
  let before ← forgeCandidate candidate.url
  if run.intent.matches_ platform before policy && before.isOpen then do
    let run := { run with submission := .unknown }
    let journal ← saveRun key journal run
    let (run,result) ← submitted candidate run
    pure (.inr (journal,run,result))
  else do
    let result ← outcome before (some run.intent) .stale ["comparison changed before dispatch"] none
    pure (.inl result)

/-- A receipt proves that the submission reached the forge. -/
def Run.receive (run : Run) : Option String → Run
  | some receipt => { run with requestReceipt := some receipt, submission := .submitted }
  | none => run

/-- What the evidence means for the run, dispatching it where nothing stands against it. -/
def assess (key : String) (policy : Policy) (candidate : Candidate) (allowSubmit : Bool)
    (journal : Journal) (run : Run) (evidence : Evidence) :
    Tick (Outcome ⊕ (Journal × Run × Outcome)) := do
  let missingMarker := run.submission = .submitted ∧ evidence.requestReceipt = none
  let run := run.receive evidence.requestReceipt
  match evidence.review with
  | some review => do
    let result ← judge platform policy candidate run review
    pure (.inr (journal,run,result))
  | none =>
    if missingMarker then do
      let result ← outcome candidate (some run.intent) .blocked ["submitted request marker is missing; restore the original authorized marker from the durable intent and receipt without retriggering the provider"] none
      pure (.inr (journal,run,result))
    else if run.submission = .unknown then do
      let result ← outcome candidate (some run.intent) .blocked ["submission outcome unknown; reconcile the existing marker before another dispatch"] none
      pure (.inr (journal,run,result))
    else if run.submission = .deferred && allowSubmit then
      dispatch platform key policy candidate journal run
    else do
      let result ← outcome candidate (some run.intent) .pending [] none
      pure (.inr (journal,run,result))

/-- A change during collection must not authorize the candidate. -/
def recheck (policy : Policy) (fresh : Candidate) (run : Run) (result : Outcome) :
    Tick Outcome :=
  if run.intent.matches_ platform fresh policy && fresh.isOpen then pure result
  else outcome fresh (some run.intent) .stale
    ["head, base, branch or request state changed during collection"] result.review

def conclude (key : String) (policy : Policy) (candidate : Candidate) (journal : Journal)
    (run : Run) (result : Outcome) : Tick Outcome := do
  let fresh ← forgeCandidate candidate.url
  let result ← recheck platform policy fresh run result
  let advice ← outcome result.candidate (some run.intent) result.verdict [] none
  let result := { result with nextAction := advice.nextAction }
  let _ ← saveRun key journal { run with outcome := some result }
  pure result

def observed (key : String) (policy : Policy) (candidate : Candidate) (allowSubmit : Bool)
    (journal : Journal) (run : Option Run) (evidence : Evidence) : Tick Outcome :=
  let run := adopt platform candidate policy evidence run
  if run.isNone && !allowSubmit then
    outcome candidate none .blocked
      ["no authorized revision-bound review request; run review ensure"] none
  else if run.isNone && !journal.historyComplete then
    outcome candidate none .blocked
      ["legacy review history is incomplete; reconcile prior attempts before authorizing a new comparison"]
      none
  else do
    let digest ← checked (policy.digest platform)
    let run ← run.elim (newRun platform key candidate digest evidence) pure
    let assessed ← assess platform key policy candidate allowSubmit journal run evidence
    match assessed with
    | .inl result => pure result
    | .inr (journal,run,result) => conclude platform key policy candidate journal run result

def unsuited (policy : Policy) (candidate : Candidate) (c : Capabilities) : Bool :=
  c.provider ≠ policy.provider || c.transport ≠ policy.transport || !c.revisionAttestation ||
    (candidate.draft && !c.drafts) || !candidate.isOpen

/-- The tick from its journal on, with the run retained for the comparison. -/
def tick (key : String) (policy : Policy) (candidate : Candidate) (allowSubmit : Bool)
    (journal : Journal) (run : Option Run) : Tick Outcome := do
  let wait ← waiting run
  match wait with
  | some previous => pure previous
  | none => do
    let observation ← (inspect candidate policy (run.map Run.intent)).attempt
    match observation with
    | .error e => unobserved key candidate journal run e
    | .ok evidence => observed platform key policy candidate allowSubmit journal run evidence

/-- Perform one bounded observation or dispatch under a lock for the request. -/
def ensureOnce (policy : Policy) (url : String) (allowSubmit : Bool) : Tick Outcome := do
  checked policy.validate
  let candidate ← forgeCandidate url
  checked (candidate.validate platform)
  let key := platform.hexDigest candidate.url.toList
  createDir
  let fresh ← openLock key
  tryLock key
  let journal ← loadJournal key fresh
  let c ← capabilities
  if unsuited policy candidate c then
    outcome candidate none .blocked
      ["provider capability or open-request contract is not satisfied"] none
  else match journal.runs.filter (·.intent.matches_ platform candidate policy) with
    | [] => tick platform key policy candidate allowSubmit journal none
    | [run] => tick platform key policy candidate allowSubmit journal (some run)
    | _ => throw .ambiguous

end

/-! ## The outside -/

/-- A comparison under a policy: what a dispatch is matched by. -/
structure Comparison where
  url : String
  sourceRepository : String
  sourceBranch : String
  targetBranch : String
  head : String
  base : String
  policyDigest : String
  deriving DecidableEq, Repr

def Candidate.comparison (c : Candidate) (digest : String) : Comparison :=
  ⟨c.url,c.sourceRepository,c.sourceBranch,c.targetBranch,c.head,c.base,digest⟩

def Intent.comparison (i : Intent) : Comparison := i.candidate.comparison i.policyDigest

/-- What the tick under way found when it loaded its journal. -/
structure Entry where
  fresh : Bool
  anchor : String
  stored : Option Stored

/-- The state directory, by the keys of its files, and what the provider has seen. -/
structure Store where
  lock : String → Option String
  journal : String → Option Stored
  entry : Entry
  /-- The submissions, newest first, and which of them the provider definitively rejected. -/
  submits : List (Comparison × Bool)
  /-- The provider's last call was a failed submission. -/
  rejected : Bool

def reject : List (Comparison × Bool) → List (Comparison × Bool)
  | [] => []
  | (c,_)::cs => (c,true)::cs

namespace Store

def found (w : Store) (entry : Entry) : Store := { w with entry := entry }

def locked (w : Store) (key : String) (content : String) : Store :=
  { w with lock := Function.update w.lock key (some content) }

def write (w : Store) (key : String) (j : Journal) : Store :=
  { w with journal := Function.update w.journal key (some (.journal j)) }

def submit (w : Store) (i : Intent) (failed : Bool) : Store :=
  { w with submits := (i.comparison,false) :: w.submits, rejected := failed }

/-- A retry time after a failed submission is its definitive rejection. -/
def polled (w : Store) (retry : Option ℕ) : Store :=
  if w.rejected && retry.isSome then { w with submits := reject w.submits } else w

end Store

/-- An effect that happens when it succeeds and may have happened when it fails. -/
def Effected {α : Type} (w w₁ : Store) (r : Except Error α) (w' : Store) : Prop :=
  w' = w₁ ∨ (w' = w ∧ ∃ e, r = .error e)

/-- Opening the lock makes it where it is absent. -/
def opened (w : Store) (key : String) (fresh : Bool) : Store :=
  if fresh then (w.locked key "").found { w.entry with fresh := true }
  else w.found { w.entry with fresh := false }

/-- The sentinel as an interrupted write may leave it. -/
def anchored (w : Store) (key : String) (n : ℕ) : Store :=
  w.locked key (String.ofList (historyAnchor.toList.take n))

/-- How a request may be answered: files are replaced as a whole, the sentinel's bytes
may be cut short, and the forge and the provider answer as they like. -/
def answers : (q : Req) → Store → Except Error (Rep q) → Store → Prop
  | .capabilities, w, r, w' => w' = w ∧ ∃ c, r = .ok c
  | .now, w, r, w' | .nonce, w, r, w' | .pid, w, r, w' => w' = w ∧ ∃ n : ℕ, r = .ok n
  | .forgePollAt, w, r, w' => w' = w ∧ ∃ t : Option ℕ, r = .ok t
  | .inspect _ _ _, w, _, w' => w' = { w with rejected := false }
  | .submit i, w, r, w' => w' = w.submit i !r.isOk
  | .providerPollAt, w, r, w' => ∃ t, r = .ok t ∧ w' = w.polled t
  | .openLock key, w, r, w' => match r with
    | .ok fresh => fresh = (w.lock key).isNone ∧ w' = opened w key fresh
    | .error _ => w' = w ∨ w' = opened w key (w.lock key).isNone
  | .readAnchor key, w, r, w' => match r with
    | .ok anchor => w.lock key = some anchor ∧ w' = w.found { w.entry with anchor := anchor }
    | .error _ => w' = w
  | .readJournal key, w, r, w' => match r with
    | .ok stored => stored = w.journal key ∧ w' = w.found { w.entry with stored := stored }
    | .error _ => w' = w
  | .writeJournal key j, w, r, w' => Effected w (w.write key j) r w'
  | .writeAnchor key, w, r, w' => match r with
    | .ok _ => w' = w.locked key historyAnchor
    | .error _ => w' = w ∨ ∃ n, w' = anchored w key n
  | _, w, _, w' => w' = w

/-- Others may lose, delete or damage journals at any moment. -/
structure Lost (w w' : Store) : Prop where
  journal : ∀ key, w'.journal key = w.journal key ∨ w'.journal key = none ∨
    w'.journal key = some .unreadable
  rest : w' = { w with journal := w'.journal }

theorem Lost.refl (w : Store) : Lost w w := ⟨fun _ => .inl rfl,rfl⟩

theorem Lost.trans {w₁ w₂ w₃ : Store} (h : Lost w₁ w₂) (h' : Lost w₂ w₃) : Lost w₁ w₃ := by
  refine ⟨fun key => ?_,?_⟩
  · rcases h'.journal key with hk | hk
    · rw [hk]; exact h.journal key
    · exact .inr hk
  · rw [h'.rest,h.rest]

/-- Ticks one after another; a crash inside a request leaves what any answer to it could
have left.  The engine's own refusal comes from nowhere else. -/
def system (platform : Platform) :
    System Req (fun q => Except Error (Rep q)) Store (Except Error Outcome × Unit) where
  step := fun q w r w' => r ≠ .error .ambiguous ∧ answers q w r w'
  rely := Lost
  torn := fun q w w' => ∃ r, answers q w r w'
  rely_refl := Lost.refl
  rely_trans := fun _ _ _ => Lost.trans
  start := fun w w' p => w' = w ∧ ∃ policy url allowSubmit,
    p = (ensureOnce platform policy url allowSubmit).start ()

end Review
end CanixToolbelt
