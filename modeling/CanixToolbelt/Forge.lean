import Mathlib.Data.List.Sort
import CanixToolbelt.Review

/-! The GitHub side of the review engine: its transport and pagination, the candidate it
reads, the required checks, and the merge that all of them gate. -/
namespace CanixToolbelt
namespace Forge
open Effect Review

/-! ## Addresses -/

/-- A parsed address, by the parts the adapters look at. -/
structure Url where
  scheme : String
  username : String
  hasPassword : Bool
  hasPort : Bool
  host : Option String
  hasQuery : Bool
  hasFragment : Bool
  path : String
  deriving DecidableEq, Repr

/-- What the forge takes from elsewhere: hexadecimal SHA-256, address parsing, the
percent-encoding of a path segment, and which routes make a request. -/
structure Web where
  hexDigest : List Char → String
  url : String → Option Url
  segment : String → String
  uri : String → Bool

/-- The same as the review engine sees it. -/
def Web.platform (web : Web) : Platform where
  hexDigest := web.hexDigest
  canonicalUrl := fun s => (web.url s).any fun u =>
    u.scheme = "https" && u.host.isSome && u.username = "" && !u.hasPassword && !u.hasQuery &&
      !u.hasFragment

structure PullRequest where
  host : String
  repository : String
  number : ℕ
  deriving DecidableEq, Repr

/-- `str::parse::<u64>`: an optional plus sign and decimal digits, below 2^64. -/
def parseU64 (cs : List Char) : Option ℕ :=
  let ds := if cs.head? = some '+' then cs.tail else cs
  if ds ≠ [] ∧ ds.all Char.isDigit ∧ Json.digitValue ds < 2^64 then some (Json.digitValue ds)
  else none

/-- The parts of a text between slashes. -/
def splitSlash (cs : List Char) : List (List Char) := cs.splitOn '/'

def coordinate (part : List Char) : Bool :=
  part ≠ [] && part ≠ ['.'] && part ≠ ['.','.'] &&
    part.all fun c => c.isAlphanum || c ∈ ['-','_','.']

/-- Parse an HTTPS GitHub PR URL without permitting credential or path injection. -/
def PullRequest.parse (web : Web) (input : String) : Except Error PullRequest :=
  match web.url input with
  | none => .error (.other "expected an HTTPS pull-request URL")
  | some u =>
    if u.scheme ≠ "https" ∨ u.username ≠ "" ∨ u.hasPassword ∨ u.hasPort ∨
        u.host ≠ some "github.com" ∨ u.hasQuery then
      .error (.other "unsupported forge; the review adapters require GitHub")
    else match (splitSlash (u.path.toList.reverse.dropWhile (· = '/')).reverse).drop 1 with
    | [owner,name,pull,digits] =>
      if pull = ['p','u','l','l'] ∧ coordinate owner ∧ coordinate name then
        match parseU64 digits with
        | none => .error (.other "invalid pull-request number")
        | some 0 => .error (.other "pull-request number must be positive")
        | some n => .ok ⟨"github.com",String.ofList owner ++ "/" ++ String.ofList name,n⟩
      else .error (.other "expected https://github.com/OWNER/REPO/pull/NUMBER")
    | _ => .error (.other "expected https://github.com/OWNER/REPO/pull/NUMBER")

/-! ## The transport -/

/-- A response; a header's text is absent where it is not visible ASCII, and its body is
an error where it cannot be read within its bound or is not JSON. -/
structure Response where
  status : ℕ
  retryAfter : Option (Option String)
  rateLimitRemaining : Option (Option String)
  rateLimitReset : Option (Option String)
  body : Except String Json

inductive Req
  | expired
  | now
  | http (method route : String) (body : Option Json)
  deriving DecidableEq

def Rep : Req → Type
  | .expired => Bool
  | .now => ℕ
  | .http _ _ _ => Response

/-- The retry time of the last rate-limited request is the memory of the transport. -/
abbrev Hub := Script Req Rep (Option ℕ) Error

def fail {α : Type} (message : String) : Hub α := throw (.other message)

/-- Whether the collection's deadline has passed. -/
def expired : Hub Bool := Script.ask Req.expired
def nowSeconds : Hub ℕ := Script.ask Req.now
def http (method route : String) (body : Option Json) : Hub Response :=
  Script.ask (Req.http method route body)

def checked {α : Type} (r : Except Error α) : Hub α := ExceptT.mk (pure r)

def saturatingAdd (a b : ℕ) : ℕ := min (a + b) (2^64 - 1)

def Response.limited (r : Response) : Bool :=
  r.status = 429 || (r.status = 403 &&
    (r.retryAfter.isSome || r.rateLimitRemaining = some (some "0")))

def headerNumber (h : Option (Option String)) : Option ℕ :=
  h.join.bind fun s => parseU64 s.toList

/-- The retry time the headers ask for, a minute from now without them. -/
def askedTime (r : Response) : Hub ℕ :=
  match headerNumber r.retryAfter, headerNumber r.rateLimitReset with
  | some n, _ => do
    let t ← nowSeconds
    pure (saturatingAdd t n)
  | none, some t => pure t
  | none, none => do
    let t ← nowSeconds
    pure (saturatingAdd t 60)

/-- When a rate-limited request may be repeated. -/
def retryTime (r : Response) : Hub ℕ := do
  let at_ ← askedTime r
  let t ← nowSeconds
  pure (max at_ (saturatingAdd t 1))

section
variable (web : Web)

/-- What a response means: its status and its JSON, if it has any. -/
def received (method : String) (response : Response) : Hub (ℕ × Json) :=
  if response.limited then do
    let at_ ← retryTime response
    set (some at_)
    fail ("GitHub rate-limited this request; next eligible poll is Unix " ++ toString at_)
  else if response.status = 404 then pure (404,.null)
  else if response.status < 200 ∨ 300 ≤ response.status then
    fail ("GitHub " ++ method ++ " request failed with HTTP " ++ toString response.status)
  else if response.status = 204 then pure (204,.null)
  else match response.body with
  | .error message => fail message
  | .ok value => pure (response.status,value)

def request (method route : String) (body : Option Json) : Hub (ℕ × Json) := do
  let late ← expired
  if late then fail "review collection deadline reached; resume the same ensure request"
  else do
    set (none : Option ℕ)
    if ¬ web.uri route then fail "invalid GitHub request"
    else do
      let reply ← (http method route body).attempt
      match reply with
      | .error _ => fail "GitHub transport failed; remote mutation outcome may be unknown"
      | .ok response => received method response

def get (route : String) : Hub Json := do
  let (status,value) ← request web "GET" route none
  if status = 404 then fail "GitHub resource missing or not accessible to this credential"
  else pure value

/-- The page of a route. -/
def pageRoute (route : String) (page : ℕ) : String :=
  route ++ (if '?' ∈ route.toList then "&" else "?") ++ "per_page=100&page=" ++ toString page

/-- Pages from the given one on, at most `n` of them. -/
def pagesFrom (route : String) (field : Option String) : ℕ → ℕ → List Json → Hub (List Json)
  | 0, _, _ => fail "GitHub collection exceeded 100 pages; evidence remains incomplete"
  | n+1, page, all => do
    let value ← get web (pageRoute route page)
    match (match field with
      | none => some value
      | some f => value.get? f).bind Json.asArray with
    | none => fail "GitHub returned an incomplete collection schema"
    | some items =>
      if items.length > 100 then fail "GitHub page exceeded its requested bound"
      else if items.length < 100 then
        if ((value.get? "total_count").bind Json.asU64).any (· ≠ (all ++ items).length) then
          fail "GitHub pagination total changed or collection is incomplete"
        else pure (all ++ items)
      else pagesFrom route field n (page + 1) (all ++ items)

def pages (route : String) (field : Option String) : Hub (List Json) :=
  pagesFrom web route field 100 1 []

/-- `Value::pointer` through objects. -/
def pointer (path : List String) (v : Json) : Option Json :=
  path.foldl (fun v key => v.bind fun v => v.get? key) (some v)

def missing (path : List String) : Error :=
  .other ("GitHub evidence missing required field " ++
    String.join (path.map fun key => "/" ++ key))

def text (v : Json) (path : List String) : Except Error String :=
  match (pointer path v).bind Json.asStr with
  | some s => .ok s
  | none => .error (missing path)

def number (v : Json) (path : List String) : Except Error ℕ :=
  match (pointer path v).bind Json.asU64 with
  | some n => .ok n
  | none => .error (missing path)

/-! ## Candidates -/

/-- The candidate a pull request's JSON describes. -/
def candidateOf (value : Json) : Except Error Candidate := do
  let url ← text value ["html_url"]
  let sourceRepository ← text value ["head","repo","full_name"]
  let sourceBranch ← text value ["head","ref"]
  let targetBranch ← text value ["base","ref"]
  let head ← text value ["head","sha"]
  let base ← text value ["base","sha"]
  let draft ← match value.get? "draft" with
    | some (.bool b) => .ok b
    | _ => .error (.other "missing GitHub draft state")
  let state ← text value ["state"]
  pure ⟨url,sourceRepository,sourceBranch,targetBranch,head,base,draft,state = "open"⟩

def pullRoute (pr : PullRequest) : String :=
  "/repos/" ++ pr.repository ++ "/pulls/" ++ toString pr.number

def candidate (input : String) : Hub Candidate := do
  let pr ← checked (PullRequest.parse web input)
  let value ← get web (pullRoute pr)
  checked (candidateOf value)

def sameComparison (a b : Candidate) : Bool :=
  a.url = b.url && a.head = b.head && a.base = b.base &&
    a.sourceRepository = b.sourceRepository && a.sourceBranch = b.sourceBranch &&
    a.targetBranch = b.targetBranch

def segment (value : String) : String := web.segment value

/-! ## Required checks -/

def protectionRoute (repository : String) (c : Candidate) : String :=
  "/repos/" ++ repository ++ "/branches/" ++ segment web c.targetBranch ++ "/protection"

def checkRunsRoute (repository sha : String) : String :=
  "/repos/" ++ repository ++ "/commits/" ++ sha ++ "/check-runs?filter=latest"

def protectedCheck (check : Json) : Except Error CheckRequirement := do
  let name ← text check ["context"]
  pure ⟨name,(check.get? "app_id").bind Json.asU64⟩

def addContext (required : List CheckRequirement) (context : Json) :
    Except Error (List CheckRequirement) :=
  match context.asStr with
  | none => .error (.other "invalid native required status context")
  | some name =>
    .ok (if required.any (·.name = name) then required else required ++ [⟨name,none⟩])

/-- The requirements with those of native protection added. -/
def nativeChecks (protection : Json) (required : List CheckRequirement) :
    Except Error (List CheckRequirement) := do
  let checks := (pointer ["required_status_checks","checks"] protection).bind Json.asArray
  let contexts := (pointer ["required_status_checks","contexts"] protection).bind Json.asArray
  let added ← (checks.getD []).mapM protectedCheck
  (contexts.getD []).foldlM addContext (required ++ added)

/-- The commit of the test merge, if its parents are exactly the compared head and base. -/
def testMerge (repository : String) (c : Candidate) (pull : Json) : Hub (Option String) :=
  match ((pull.get? "merge_commit_sha").bind Json.asStr).filter (· ≠ c.head) with
  | none => pure none
  | some sha => do
    let merge ← get web ("/repos/" ++ repository ++ "/commits/" ++ sha)
    match (merge.get? "parents").bind Json.asArray with
    | none => fail "missing test-merge parents"
    | some parents =>
      let shas := parents.filterMap fun p => (p.get? "sha").bind Json.asStr
      if c.head ∈ shas ∧ c.base ∈ shas ∧ ∀ sha ∈ shas, sha = c.head ∨ sha = c.base then
        pure (some sha)
      else pure none

/-- `Option<u64>` compares absence below every number. -/
def newer : Option ℕ → Option ℕ → Bool
  | some a, some b => b < a
  | some _, none => true
  | none, _ => false

structure CheckKey where
  name : String
  app : ℕ
  sha : String
  deriving DecidableEq, Repr

structure StatusKey where
  name : String
  sha : String
  deriving DecidableEq, Repr

/-- Keep the check of the larger identity under each key. -/
def keepLatest (key : CheckKey) (check : Json) : List (CheckKey × Json) → List (CheckKey × Json)
  | [] => [(key,check)]
  | (k,old)::ks =>
    if k = key then
      (k,if newer ((check.get? "id").bind Json.asU64) ((old.get? "id").bind Json.asU64) then check
        else old)::ks
    else (k,old)::keepLatest key check ks

def addCheck (shas : List String) (latest : List (CheckKey × Json)) (check : Json) :
    Except Error (List (CheckKey × Json)) := do
  let sha ← text check ["head_sha"]
  if sha ∉ shas then .error (.other "CI check belongs to a different comparison")
  else do
    let name ← text check ["name"]
    let app ← number check ["app","id"]
    pure (keepLatest ⟨name,app,sha⟩ check latest)

def addStatus (sha : String) (legacy : List (StatusKey × Json)) (value : Json) :
    Except Error (List (StatusKey × Json)) := do
  let name ← text value ["context"]
  pure (if legacy.any (·.1 = ⟨name,sha⟩) then legacy else legacy ++ [(⟨name,sha⟩,value)])

/-- The legacy statuses of each qualified revision, the first of each context. -/
def legacyStatuses (repository : String) :
    List String → List (StatusKey × Json) → Hub (List (StatusKey × Json))
  | [], legacy => pure legacy
  | sha::shas, legacy => do
    let values ← pages web ("/repos/" ++ repository ++ "/commits/" ++ sha ++ "/statuses") none
    let legacy ← checked (values.foldlM (addStatus sha) legacy)
    legacyStatuses repository shas legacy

def completedSuccess (v : Json) : Bool :=
  (v.get? "status").bind Json.asStr = some "completed" &&
    (v.get? "conclusion").bind Json.asStr = some "success"

def stateSuccess (v : Json) : Bool := (v.get? "state").bind Json.asStr = some "success"

/-- Whether a requirement restricts itself to another App. -/
def CheckRequirement.admits (r : CheckRequirement) (app : Option ℕ) : Bool :=
  r.appId.all fun expected => app = some expected

section
variable (required : List CheckRequirement) (latest : List (CheckKey × Json))
  (legacy : List (StatusKey × Json))

def satisfied (r : CheckRequirement) : Bool :=
  (latest.any fun (k,v) => k.name = r.name && CheckRequirement.admits r (some k.app) &&
    completedSuccess v) ||
  (r.appId.isNone && legacy.any fun (k,v) => k.name = r.name && stateSuccess v)

/-- With no declared CI, everything present has to qualify. -/
def qualificationFallback : Bool := required.all (·.name = "review-policy")

/-- The review-only policy App cannot supply CI qualification itself. -/
def optionalReview (name : String) : Bool :=
  name = "review-policy" && !required.any (·.name = name)

def inspectPresent (allCi : Bool) (name : String) (app : Option ℕ) : Bool :=
  !optionalReview required name && (allCi || qualificationFallback required ||
    required.any fun r => r.name = name && CheckRequirement.admits r app)

def unsortedBlockers (allCi : Bool) : List String :=
  ((required.filter fun r => !satisfied latest legacy r).map fun r =>
    "required CI context is missing or unsuccessful: " ++ r.name) ++
  ((latest.filter fun (k,v) => inspectPresent required allCi k.name (some k.app) &&
    !completedSuccess v).map fun (k,_) => "CI check has not passed: " ++ k.name) ++
  ((legacy.filter fun (k,v) => inspectPresent required allCi k.name none &&
    !stateSuccess v).map fun (k,_) => "CI status has not passed: " ++ k.name) ++
  (if qualificationFallback required ∧ latest.all (·.1.name = "review-policy") ∧
    legacy.all (·.1.name = "review-policy") then
    ["no CI qualification evidence or declared required contexts"] else [])

/-- Sorted and without repetitions. -/
def ciBlockers (allCi : Bool) : List String :=
  ((unsortedBlockers required latest legacy allCi).insertionSort (· ≤ ·)).eraseReps

end

/-- The check runs of the test merge, if it qualifies. -/
def mergedChecks (repository : String) : Option String → Hub (List Json)
  | none => pure []
  | some sha => pages web (checkRunsRoute repository sha) (some "check_runs")

/-- Everything that keeps a comparison's CI from qualifying. -/
def checksRequired (c : Candidate) (additional : List CheckRequirement) (allCi : Bool) :
    Hub (List String) := do
  let pr ← checked (PullRequest.parse web c.url)
  let (status,protection) ← request web "GET" (protectionRoute web pr.repository c) none
  let required ← checked
    (if status = 404 then .ok additional else nativeChecks protection additional)
  let checks ← pages web (checkRunsRoute pr.repository c.head) (some "check_runs")
  let pull ← get web (pullRoute pr)
  let merge ← testMerge web pr.repository c pull
  let merged ← mergedChecks web pr.repository merge
  let shas := c.head :: merge.toList
  let latest ← checked ((checks ++ merged).foldlM (addCheck shas) [])
  let legacy ← legacyStatuses web pr.repository shas []
  pure (ciBlockers required latest legacy allCi)

/-! ## Providers -/

/-- What a reviewer adapter may ask of the forge. -/
def Reads : Req → Prop
  | .http method _ body => method = "GET" ∧ body = none
  | _ => True

/-- A reviewer adapter over this transport; its inspection only reads. -/
structure Provider where
  inspect : Candidate → Policy → Option Intent → Hub Evidence
  reads : ∀ c p i, (inspect c p i).Uses Reads

structure Adapters where
  greptile : Provider
  roborev : Provider

/-- The selected adapter; no fallback is permitted. -/
def githubProvider (adapters : Adapters) (p : Policy) : Except Error Provider := do
  p.validate
  if p.provider = "greptile" ∧ p.transport = "github-comment" then .ok adapters.greptile
  else if p.provider = "roborev" ∧ p.transport = "github-receipt-v1" then do
    let _ ← p.policyAppId
    .ok adapters.roborev
  else .error (.other
    "unsupported configured review provider/transport; no fallback is permitted")

/-! ## The merge -/

def enforceAdmins (protection : Json) : Bool :=
  pointer ["enforce_admins","enabled"] protection = some (.bool true)

def strict (required : Json) : Bool := required.get? "strict" = some (.bool true)

def boundCheck (app : ℕ) (check : Json) : Bool :=
  (check.get? "context").bind Json.asStr = some "review-policy" &&
    (check.get? "app_id").bind Json.asU64 = some app

/-- The native requirements, if they cover administrators and up-to-date branches. -/
def strictProtection (protection : Json) : Except Error Json :=
  if ¬ enforceAdmins protection then
    .error (.other "merge protection must apply to administrators as well as contributors")
  else match pointer ["required_status_checks"] protection with
  | none => .error (.other "merge requires strict native status-check protection")
  | some required =>
    if ¬ strict required then
      .error (.other "merge requires strict up-to-date branch protection; merge-queue/ruleset support needs its own adapter")
    else .ok required

/-- The review gate has to be a required check of the policy's own App. -/
def policyProtection (p : Policy) (required : Json) : Except Error Unit :=
  match (required.get? "checks").bind Json.asArray with
  | none => .error (.other "protected review-policy check is not configured")
  | some checks => do
    let app ← p.policyAppId
    if checks.any (boundCheck app) then .ok ()
    else .error (.other
      "merge requires review-policy bound to the configured dedicated policy GitHub App")

def protectionGate (policy : Option Policy) (protection : Json) : Except Error Unit := do
  let required ← strictProtection protection
  match policy with
  | none => .ok ()
  | some p => policyProtection p required

def requiredChecks (policy : Option Policy) : List CheckRequirement :=
  policy.elim [] (·.requiredChecks)

def reviewReady (p : Policy) (c : Candidate) (evidence : Evidence) : Bool :=
  evidence.review.any fun review => p.evaluate web.platform c review = .ready

/-- Explicit review-gated callers revalidate live provider evidence. -/
def reviewGate (adapters : Adapters) (policy : Option Policy) (fresh : Candidate) : Hub Unit :=
  match policy with
  | none => pure ()
  | some p => do
    let provider ← checked (githubProvider adapters p)
    let evidence ← provider.inspect fresh p none
    if reviewReady web p fresh evidence then pure ()
    else fail "completed current provider review no longer qualifies; rerun ensure"

/-- Still the same comparison, open and not a draft. -/
def mergeable (c current : Candidate) : Bool :=
  sameComparison c current && current.isOpen && !current.draft

def Candidate.json (c : Candidate) : Json := .obj
  [("base",.str c.base),("draft",.bool c.draft),("head",.str c.head),("open",.bool c.isOpen),
   ("sourceBranch",.str c.sourceBranch),("sourceRepository",.str c.sourceRepository),
   ("targetBranch",.str c.targetBranch),("url",.str c.url)]

def mergeRoute (pr : PullRequest) : String := pullRoute pr ++ "/merge"

def mergeBody (c : Candidate) : Json :=
  .obj [("merge_method",.str "merge"),("sha",.str c.head)]

/-- The merge itself, which names the compared head. -/
def applyMerge (c : Candidate) (pr : PullRequest) : Hub Json := do
  let (_,value) ← request web "PUT" (mergeRoute pr) (some (mergeBody c))
  if value.get? "merged" = some (.bool true) then pure value
  else fail "GitHub did not confirm merge; inspect authoritative PR state"

def validated (c : Candidate) (policy : Option Policy) : Except Error Unit := do
  c.validate web.platform
  match policy with
  | none => .ok ()
  | some p => p.validate

/-- Merge with atomic expected-head protection and strict native branch protection. -/
def mergeWithPolicy (adapters : Adapters) (c : Candidate) (policy : Option Policy)
    (apply_ : Bool) : Hub Json := do
  checked (validated web c policy)
  let current ← candidate web c.url
  if ¬ mergeable c current then
    fail "merge candidate moved, closed or remains draft; refresh the candidate"
  else do
    let pr ← checked (PullRequest.parse web c.url)
    let protection ← get web (protectionRoute web pr.repository c)
    checked (protectionGate policy protection)
    let blockers ← checksRequired web c (requiredChecks policy) policy.isSome
    if blockers ≠ [] then fail ("merge CI gate: " ++ "; ".intercalate blockers)
    else do
      let fresh ← candidate web c.url
      if ¬ sameComparison c fresh then fail "comparison changed immediately before merge"
      else do
        reviewGate web adapters policy fresh
        let finalCandidate ← candidate web c.url
        if ¬ mergeable c finalCandidate then
          fail "comparison changed during final merge validation"
        else if ¬ apply_ then
          pure (.obj [("applied",.bool false),("candidate",Candidate.json c),
            ("reviewRequired",.bool policy.isSome),("verdict",.str "ready")])
        else applyMerge web c pr

end

end Forge
end CanixToolbelt
