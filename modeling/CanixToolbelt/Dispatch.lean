import CanixToolbelt.Ledger
import CanixToolbelt.Receipt
import CanixToolbelt.Protocol

/-! Write-ahead dispatch of a roborev job, and the recovery from an ambiguous enqueue. -/
namespace CanixToolbelt
namespace Dispatch
open Effect Review Receipt

/-- The persisted dispatch.  No job means that it is unknown, never that an enqueue may be
retried. -/
structure Ledger where
  schemaVersion : ℕ
  dispatch : RoborevDispatch
  job : Option RoborevJobIdentity
  deriving DecidableEq, Repr

/-! ## Requests -/

inductive Runner
  | verifyCheckout (dispatch : RoborevDispatch)
  | jobs (dispatch : RoborevDispatch)
  | enqueue (dispatch : RoborevDispatch)
  | savedReview (jobId : ℕ)

def Runner.Rep : Runner → Type
  | .verifyCheckout _ => Unit
  | .jobs _ => List Json
  | .enqueue _ => RoborevJobIdentity
  | .savedReview _ => Json

abbrev Req := Ledger.Req Ledger ⊕ Runner
abbrev Rep : Req → Type := Sum.elim Ledger.Rep Runner.Rep
abbrev Call := Script Req Rep Unit Error

def verifyCheckout (dispatch : RoborevDispatch) : Call Unit :=
  Script.ask (.inr (Runner.verifyCheckout dispatch) : Req)
def jobs (dispatch : RoborevDispatch) : Call (List Json) :=
  Script.ask (.inr (Runner.jobs dispatch) : Req)
def enqueue (dispatch : RoborevDispatch) : Call RoborevJobIdentity :=
  Script.ask (.inr (Runner.enqueue dispatch) : Req)
def savedReview (jobId : ℕ) : Call Json := Script.ask (.inr (Runner.savedReview jobId) : Req)

def claim (key : String) : Call Bool := Script.left (Ledger.claim key)
def readLedger (key : String) (fresh : Bool) : Call (Option Ledger) :=
  Script.left (Ledger.readLedger key fresh)
def save (key : String) (ledger : Ledger) : Call Unit := Script.left (Ledger.save key ledger)

def checked {α : Type} (r : Except Error α) : Call α := ExceptT.mk (pure r)

/-! ## The dispatch -/

/-- An absolute path without control characters or dot parts. -/
def cleanCheckout (checkout : String) : Bool :=
  checkout.toList.head? = some '/' && !checkout.toList.any Protocol.control &&
    (Forge.splitSlash checkout.toList).all fun part => part ≠ ['.'] && part ≠ ['.','.']

section
variable (platform : Platform) (readers : Readers)

/-- An authorized dispatch to an approved worker. -/
def admitted (dispatch : RoborevDispatch) (policy : Policy) : Bool :=
  policy.provider = "roborev" && policy.transport = "github-receipt-v1" &&
    dispatch.intent.matches_ platform dispatch.intent.candidate policy &&
    dispatch.intent.candidate.isOpen && dispatch.intent.id ≠ "" && dispatch.expectedFiles ≠ 0 &&
    dispatch.agent ∈ ["opencode","codex","claude-code"] && cleanCheckout dispatch.checkout

def key (dispatch : RoborevDispatch) : String :=
  platform.hexDigest (dispatch.intent.candidate.url ++ ":" ++ dispatch.intent.id).toList

/-- A stored ledger is of this very dispatch.  Serialized dispatches are equal where they are. -/
def sameDispatch (dispatch : RoborevDispatch) : Option Ledger → Except Error Unit
  | none => .ok ()
  | some old =>
    if old.schemaVersion ≠ 2 ∨ old.dispatch ≠ dispatch then
      .error (.other "roborev request identity was reused with different dispatch content")
    else old.job.elim (.ok ()) RoborevJobIdentity.validate

/-- Enqueue after saving that the outcome is unknown. -/
def enqueueOnce (key : String) (dispatch : RoborevDispatch) (before : List Json) :
    Call (Ledger × List Json) :=
  if before ≠ [] then throw (.other "request checkout already has roborev history; no job may be adopted before dispatch")
  else do
    save key ⟨2,dispatch,none⟩
    let identity ← enqueue dispatch
    checked identity.validate
    save key ⟨2,dispatch,some identity⟩
    let after ← jobs dispatch
    pure (⟨2,dispatch,some identity⟩,after)

/-- The only job of the checkout is the dispatched one, over the whole comparison. -/
def matchesDispatch (ledger : Ledger) (dispatch : RoborevDispatch) (job : Json)
    (identity : RoborevJobIdentity) : Bool :=
  (job.get "repo_path").asStr = some dispatch.checkout &&
    (job.get "git_ref").asStr = some (range dispatch.intent.candidate) &&
    (job.get "agent").asStr = some dispatch.agent && (job.get "job_type").asStr = some "range" &&
    job.get "agentic" = .bool false && job.get "prompt_prebuilt" = .bool false &&
    (job.get "min_severity").asStr.any (· ∈ ["","low"]) && ledger.job.all (· = identity)

/-- A terminal failure, which is explicit null evidence. -/
def failure (dispatch : RoborevDispatch) (identity : RoborevJobIdentity) (status : String) :
    RoborevReceipt :=
  ⟨1,dispatch.intent.id,dispatch.intent.candidate,dispatch.intent.policyDigest,some identity.id,none,
    dispatch.intent.candidate.head,dispatch.intent.candidate.base,status,false,none⟩

/-- What the state of the job means. -/
def conclude (dispatch : RoborevDispatch) (policy : Policy) (identity : RoborevJobIdentity)
    (job : Json) : Call (Option RoborevReceipt) :=
  match (job.get "status").asStr with
  | some "queued" | some "running" => pure none
  | some "done" => do
    let saved ← savedReview identity.id
    let receipt ← checked
      (RoborevReceipt.fromSavedReview platform readers dispatch policy identity saved)
    pure (some receipt)
  | some status =>
    if status ∈ ["failed","skipped","cancelled"] then pure (some (failure dispatch identity status))
    else throw (.other "unsupported persisted roborev execution state")
  | none => throw (.other "unsupported persisted roborev execution state")

def collect (key : String) (dispatch : RoborevDispatch) (policy : Policy) (ledger : Ledger) :
    List Json → Call (Option RoborevReceipt)
  | [job] => do
    let identity ← checked (RoborevJobIdentity.fromJob job)
    if !matchesDispatch ledger dispatch job identity then
      throw (.other "persisted job does not match the exclusive frozen roborev dispatch")
    else do
      save key { ledger with job := some identity }
      conclude platform readers dispatch policy identity job
  | _ => throw (.other "roborev dispatch is unknown or ambiguous; reconcile persisted jobs without another enqueue")

/-- Reconcile one authorized request; an ambiguous enqueue is never replayed. -/
def dispatchRoborevOnce (dispatch : RoborevDispatch) (policy : Policy) :
    Call (Option RoborevReceipt) := do
  checked policy.validate
  let _ ← checked policy.policyAppId
  checked (dispatch.intent.candidate.validate platform)
  if !admitted platform dispatch policy then
    throw (.other "invalid authorized roborev dispatch or worker selection")
  else do
    let key := key platform dispatch
    let fresh ← claim key
    let ledger ← readLedger key fresh
    checked (sameDispatch dispatch ledger)
    verifyCheckout dispatch
    let before ← jobs dispatch
    let (ledger,listed) ← ledger.elim (enqueueOnce key dispatch before) fun old => pure (old,before)
    collect platform readers key dispatch policy ledger listed

end

/-! ## The outside -/

/-- What the runner was asked in the call under way, with its replies. -/
abbrev Log := List (Σ q : Runner, Except Error q.Rep)

structure World where
  files : Ledger.Directory Ledger
  /-- Every dispatch that the runner was asked to enqueue. -/
  enqueued : List RoborevDispatch
  /-- The files as the call under way found them, what it is to dispatch, and its log. -/
  began : Ledger.Directory Ledger
  current : Option RoborevDispatch
  log : Log

/-- The runner may answer at will; its answer to an enqueue says nothing of its effect. -/
def asked (q : Runner) (w : World) (r : Except Error q.Rep) : World :=
  { w with
    enqueued := match q with
      | .enqueue dispatch => dispatch :: w.enqueued
      | _ => w.enqueued
    log := w.log ++ [⟨q,r⟩] }

def answers : (q : Req) → World → Except Error (Rep q) → World → Prop
  | .inl q, w, r, w' => ∃ files, Ledger.answers q w.files r files ∧ w' = { w with files := files }
  | .inr q, w, r, w' => w' = asked q w r

/-- Calls one after another on one ledger directory; a crash inside a request leaves what
any answer to it could have left. -/
def system (platform : Platform) (readers : Readers) :
    System Req (fun q => Except Error (Rep q)) World (Except Error (Option RoborevReceipt) × Unit) where
  step := answers
  torn := fun q w w' => ∃ r, answers q w r w'
  start := fun w w' p => ∃ dispatch policy,
    w' = { w with began := w.files, current := some dispatch, log := [] } ∧
    p = (dispatchRoborevOnce platform readers dispatch policy).start ()

end Dispatch
end CanixToolbelt
