import CanixToolbelt.Forge

/-! A merge is sent only after every gate was read open in the same call, whatever the
forge replies. -/
namespace CanixToolbelt
namespace Forge
open Effect Review Script

/-! ## Everything but the merge only reads -/

section
variable {web : Web} {adapters : Adapters}

theorem fail_reads {α : Type} (message : String) : (fail message : Hub α).Uses Reads :=
  uses_throw _

theorem checked_reads {α : Type} (r : Except Error α) : (checked r).Uses Reads := by
  cases r with
  | error e => exact uses_throw e
  | ok a => exact uses_pure a

theorem nowSeconds_reads : nowSeconds.Uses Reads := uses_ask trivial

theorem askedTime_reads (r : Response) : (askedTime r).Uses Reads := by
  unfold askedTime
  split
  · exact uses_bind nowSeconds_reads fun t => uses_pure _
  · exact uses_pure _
  · exact uses_bind nowSeconds_reads fun t => uses_pure _

theorem retryTime_reads (r : Response) : (retryTime r).Uses Reads := by
  apply uses_bind (askedTime_reads r)
  intro at_
  exact uses_bind nowSeconds_reads fun t => uses_pure _

theorem received_reads (method : String) (r : Response) : (received method r).Uses Reads := by
  unfold received
  split
  · apply uses_bind (retryTime_reads r)
    intro at_
    exact uses_bind (uses_set _) fun _ => fail_reads _
  split
  · exact uses_pure _
  split
  · exact fail_reads _
  split
  · exact uses_pure _
  split
  · exact fail_reads _
  · exact uses_pure _

theorem request_reads (route : String) : (request web "GET" route none).Uses Reads := by
  apply uses_bind (uses_ask trivial)
  intro late
  split
  · exact fail_reads _
  apply uses_bind (uses_set _)
  intro _
  split
  · exact fail_reads _
  apply uses_bind (uses_attempt (uses_ask ⟨rfl,rfl⟩))
  intro reply
  cases reply with
  | error e => exact fail_reads _
  | ok response => exact received_reads "GET" response

theorem get_reads (route : String) : (get web route).Uses Reads := by
  apply uses_bind (request_reads route)
  intro (status,value)
  dsimp only
  split
  · exact fail_reads _
  · exact uses_pure _

theorem pagesFrom_reads (route : String) (field : Option String) (n page : ℕ)
    (all : List Json) : (pagesFrom web route field n page all).Uses Reads := by
  induction n generalizing page all with
  | zero => exact fail_reads _
  | succ n ih =>
    apply uses_bind (get_reads _)
    intro value
    split
    · exact fail_reads _
    split
    · exact fail_reads _
    split
    · split
      · exact fail_reads _
      · exact uses_pure _
    · exact ih _ _

theorem pages_reads (route : String) (field : Option String) :
    (pages web route field).Uses Reads := pagesFrom_reads route field 100 1 []

theorem candidate_reads (input : String) : (candidate web input).Uses Reads := by
  apply uses_bind (checked_reads _)
  intro pr
  exact uses_bind (get_reads _) fun value => checked_reads _

theorem testMerge_reads (repository : String) (c : Candidate) (pull : Json) :
    (testMerge web repository c pull).Uses Reads := by
  unfold testMerge
  split
  · exact uses_pure _
  apply uses_bind (get_reads _)
  intro merge
  split
  · exact fail_reads _
  dsimp only
  split
  · exact uses_pure _
  · exact uses_pure _

theorem mergedChecks_reads (repository : String) (merge : Option String) :
    (mergedChecks web repository merge).Uses Reads := by
  cases merge with
  | none => exact uses_pure _
  | some sha => exact pages_reads _ _

theorem legacyStatuses_reads (repository : String) (shas : List String)
    (legacy : List (StatusKey × Json)) :
    (legacyStatuses web repository shas legacy).Uses Reads := by
  induction shas generalizing legacy with
  | nil => exact uses_pure _
  | cons sha shas ih =>
    apply uses_bind (pages_reads _ _)
    intro values
    exact uses_bind (checked_reads _) fun legacy => ih legacy

theorem checksRequired_reads (c : Candidate) (additional : List CheckRequirement)
    (allCi : Bool) : (checksRequired web c additional allCi).Uses Reads := by
  apply uses_bind (checked_reads _)
  intro pr
  apply uses_bind (request_reads _)
  intro (status,protection)
  apply uses_bind (checked_reads _)
  intro required
  apply uses_bind (pages_reads _ _)
  intro checks
  apply uses_bind (get_reads _)
  intro pull
  apply uses_bind (testMerge_reads _ _ _)
  intro merge
  apply uses_bind (mergedChecks_reads _ _)
  intro merged
  apply uses_bind (checked_reads _)
  intro latest
  exact uses_bind (legacyStatuses_reads _ _ _) fun legacy => uses_pure _

end

/-! ## What a call has been told -/

abbrev Log := List (Σ q, Except Error (Rep q))

/-- The forge answers at will, and the log keeps every answer. -/
abbrev wire : World Req (fun q => Except Error (Rep q)) Log := transcript _ _

/-- The whole of `m` ran in one stretch of the log and gave `a`. -/
def Said {α : Type} (log : Log) (m : Hub α) (a : α) : Prop :=
  ∃ before es after s s', log = before ++ es ++ after ∧ (m.start s).Runs es (.ok a,s')

theorem Said.mono {α : Type} {log : Log} {m : Hub α} {a : α} (h : Said log m a) (more : Log) :
    Said (log ++ more) m a := by
  obtain ⟨before,es,after,s,s',rfl,hr⟩ := h
  exact ⟨before,es,after ++ more,s,s',by simp,hr⟩

/-- Nothing is said of a failing end. -/
abbrev Then {α : Type} (post : α → Option ℕ → Log → Prop) :
    Except Error α → Option ℕ → Log → Prop := Ends post fun _ _ _ => True

/-- A reading script extends the log by its own run. -/
theorem wp_reads {α : Type} {G : Log → Req → Prop} {m : Hub α} {s : Option ℕ} {w : Log}
    (h : m.Uses Reads) (hG : ∀ w q, Reads q → G w q) :
    Script.wp wire G m (fun r s' w' => ∃ es, w' = w ++ es ∧ (m.start s).Runs es (r,s')) s w :=
  Effect.wp_guard (wp_transcript (h s) w) fun w q => hG w q

/-! ## The gates -/

section
variable (web : Web) (adapters : Adapters) (c : Candidate) (policy : Option Policy)

/-- The gates that were open in a call which has now the given log. -/
structure Gated (log : Log) : Prop where
  /-- Branch protection was read as strict and enforced for administrators. -/
  strict_ : ∃ pr protection required, PullRequest.parse web c.url = .ok pr ∧
    Said log (get web (protectionRoute web pr.repository c)) protection ∧
    enforceAdmins protection ∧ protection.get? "required_status_checks" = some required ∧
    strict required ∧
    -- and with the review-policy check of the policy's own App, where there is a policy
    ∀ p, policy = some p → ∃ app checks, p.policyAppId = .ok app ∧
      (required.get? "checks").bind Json.asArray = some checks ∧ ∃ check ∈ checks,
        boundCheck app check
  /-- The compared head had no blockers. -/
  checks : Said log (checksRequired web c (requiredChecks policy) policy.isSome) []
  /-- The provider's verdict on this comparison was Ready, where there is a policy. -/
  ready : ∀ p, policy = some p → ∃ provider fresh evidence review,
    githubProvider adapters p = .ok provider ∧ sameComparison c fresh ∧
    Said log (candidate web c.url) fresh ∧ Said log (provider.inspect fresh p none) evidence ∧
    evidence.review = some review ∧ p.evaluate web.platform fresh review = .ready
  /-- The pull request was read last of all, open, not a draft and at this comparison. -/
  final : ∃ before es late s s' finalCandidate, log = before ++ es ++ [⟨.expired,late⟩] ∧
    ((candidate web c.url).start s).Runs es (.ok finalCandidate,s') ∧
    finalCandidate.isOpen ∧ ¬ finalCandidate.draft ∧ finalCandidate.head = c.head ∧
    finalCandidate.base = c.base ∧ sameComparison c finalCandidate

/-- What may be asked: any read, and the merge of the compared head once it is gated. -/
def Allowed (apply_ : Bool) (log : Log) : Req → Prop
  | .http method route body =>
    (method = "GET" ∧ body = none) ∨
      (Gated web adapters c policy log ∧ apply_ ∧ method = "PUT" ∧
        (∃ pr, PullRequest.parse web c.url = .ok pr ∧ route = mergeRoute pr) ∧
        body = some (mergeBody c))
  | _ => True

end

section
variable {web : Web} {adapters : Adapters} {c : Candidate} {policy : Option Policy}
  {apply_ : Bool} {s : Option ℕ} {log : Log}

theorem reads_allowed (log : Log) (q : Req) (h : Reads q) :
    Allowed web adapters c policy apply_ log q := by
  cases q with
  | http method route body => exact .inl h
  | expired => exact trivial
  | now => exact trivial

theorem wp_checked {α β : Type} {G : Log → Req → Prop} {r : Except Error α} {f : α → Hub β}
    {post : β → Option ℕ → Log → Prop}
    (h : ∀ a, r = .ok a → Script.wp wire G (f a) (Then post) s log) :
    Script.wp wire G (checked r >>= f) (Then post) s log := by
  cases r with
  | error e => exact trivial
  | ok a => exact h a rfl

theorem wp_rest {α : Type} {m : Hub α} (h : m.Uses Reads) :
    Script.wp wire (Allowed web adapters c policy apply_) m (Then fun _ _ _ => True) s log := by
  apply Script.wp_mono (wp_reads h reads_allowed)
  rintro (e | a) s' w' _
  · exact trivial
  · exact trivial

theorem wp_gate {α β : Type} {m : Hub α} {f : α → Hub β} {post : β → Option ℕ → Log → Prop}
    (h : m.Uses Reads)
    (hf : ∀ a s' es, (m.start s).Runs es (.ok a,s') →
      Script.wp wire (Allowed web adapters c policy apply_) (f a) (Then post) s' (log ++ es)) :
    Script.wp wire (Allowed web adapters c policy apply_) (m >>= f) (Then post) s log := by
  apply Script.wp_bind.2
  apply Script.wp_mono (wp_reads h reads_allowed)
  rintro (e | a) s' _ ⟨es,rfl,hes⟩
  · exact trivial
  · exact hf a s' es hes

theorem said {α : Type} {m : Hub α} {a : α} {es : Log} {s' : Option ℕ} (log : Log)
    (h : (m.start s).Runs es (.ok a,s')) : Said (log ++ es) m a :=
  ⟨log,es,[],s,s',by simp,h⟩

/-! ## The merge -/

theorem strictProtection_ok {protection required : Json}
    (h : strictProtection protection = .ok required) :
    enforceAdmins protection ∧ protection.get? "required_status_checks" = some required ∧
      strict required := by
  unfold strictProtection at h
  split at h
  · cases h
  · rename_i he
    split at h
    · cases h
    · rename_i required' hr
      split at h
      · cases h
      · rename_i hs
        cases h
        simp at he hs
        exact ⟨he,hr,hs⟩

theorem policyProtection_ok {p : Policy} {required : Json}
    (h : policyProtection p required = .ok ()) :
    ∃ app checks, p.policyAppId = .ok app ∧
      (required.get? "checks").bind Json.asArray = some checks ∧
      ∃ check ∈ checks, boundCheck app check := by
  unfold policyProtection at h
  split at h
  · cases h
  · rename_i checks hc
    cases happ : p.policyAppId with
    | error e => simp [happ,bind,Except.bind] at h
    | ok app =>
      simp only [happ,bind,Except.bind] at h
      split at h
      · rename_i hany
        exact ⟨app,checks,rfl,hc,List.any_eq_true.1 hany⟩
      · cases h

theorem protectionGate_ok {protection : Json} (h : protectionGate policy protection = .ok ()) :
    ∃ required, enforceAdmins protection ∧
      protection.get? "required_status_checks" = some required ∧ strict required ∧
      ∀ p, policy = some p → ∃ app checks, p.policyAppId = .ok app ∧
        (required.get? "checks").bind Json.asArray = some checks ∧
        ∃ check ∈ checks, boundCheck app check := by
  cases hs : strictProtection protection with
  | error e => simp [protectionGate,hs,bind,Except.bind] at h
  | ok required =>
    obtain ⟨ha,hr,hst⟩ := strictProtection_ok hs
    refine ⟨required,ha,hr,hst,?_⟩
    rintro p rfl
    simp only [protectionGate,hs,bind,Except.bind] at h
    exact policyProtection_ok h

theorem sameComparison_revisions {a b : Candidate} (h : sameComparison a b) :
    b.head = a.head ∧ b.base = a.base := by
  simp [sameComparison] at h
  simp [h]

/-- What the review gate leaves when it lets the merge pass. -/
theorem wp_reviewGate {fresh : Candidate} :
    Script.wp wire (Allowed web adapters c policy apply_) (reviewGate web adapters policy fresh)
      (Then fun _ _ log' => ∃ es, log' = log ++ es ∧ ∀ p, policy = some p →
        ∃ provider evidence review, githubProvider adapters p = .ok provider ∧
          Said log' (provider.inspect fresh p none) evidence ∧
          evidence.review = some review ∧ p.evaluate web.platform fresh review = .ready)
      s log := by
  cases policy with
  | none => exact ⟨[],by simp,by simp⟩
  | some p =>
    apply wp_checked
    intro provider hp
    apply wp_gate (provider.reads fresh p none)
    intro evidence s' es hes
    split
    · rename_i hready
      obtain ⟨review,hrev,hev⟩ := (Option.any_eq_true _ _).1 hready
      refine ⟨es,rfl,?_⟩
      rintro _ ⟨⟩
      exact ⟨provider,evidence,review,hp,said _ hes,hrev,of_decide_eq_true hev⟩
    · exact trivial

/-- The merge is sent right after the last gate, and names the compared head. -/
theorem applyMerge_allowed {pr : PullRequest} (hpr : PullRequest.parse web c.url = .ok pr)
    (h : ∀ late, Gated web adapters c policy (log ++ [⟨.expired,late⟩])) :
    Script.wp wire (Allowed web adapters c policy true) (applyMerge web c pr)
      (Then fun _ _ _ => True) s log := by
  have hr : Script.wp wire (Allowed web adapters c policy true)
      (request web "PUT" (mergeRoute pr) (some (mergeBody c))) (Then fun _ _ _ => True) s log := by
    rintro _ rfl
    refine ⟨trivial,?_⟩
    rintro (e | (late : Bool)) _ ⟨⟩
    · exact trivial
    change Script.wp wire _ (if late then _ else _) _ s _
    split
    · exact trivial
    change Script.wp wire _ (if _ then _ else _) _ none _
    split
    · exact trivial
    rintro _ rfl
    refine ⟨.inr ⟨h (.ok late),rfl,rfl,⟨pr,hpr,rfl⟩,rfl⟩,?_⟩
    rintro (e | response) w' hw
    · exact trivial
    · exact wp_rest (received_reads "PUT" response)
  apply wp_then hr
  intro (status,value) s' w _
  dsimp only
  split
  · exact trivial
  · exact trivial

theorem mergeWithPolicy_allowed :
    Script.wp wire (Allowed web adapters c policy apply_)
      (mergeWithPolicy web adapters c policy apply_) (Then fun _ _ _ => True) s [] := by
  apply wp_checked
  intro _ _
  apply wp_gate (candidate_reads _)
  intro current s₁ es₁ _
  split
  · exact trivial
  apply wp_checked
  intro pr hpr
  apply wp_gate (get_reads _)
  intro protection s₂ es₂ hprotection
  apply wp_checked
  intro _ hgate
  obtain ⟨required,hadmins,hrequired,hstrict,hbound⟩ := protectionGate_ok hgate
  apply wp_gate (checksRequired_reads _ _ _)
  intro blockers s₃ es₃ hblockers
  split
  · exact trivial
  rename_i hempty
  apply wp_gate (candidate_reads _)
  intro fresh s₄ es₄ hfresh
  split
  · exact trivial
  rename_i hsame
  apply wp_then wp_reviewGate
  rintro _ s₅ _ ⟨es₅,rfl,hready⟩
  apply wp_gate (candidate_reads _)
  intro finalCandidate s₆ es₆ hfinal
  split
  · exact trivial
  rename_i hmergeable
  split
  · exact trivial
  rename_i happly
  obtain rfl : apply_ = true := by simpa using happly
  have hlast : sameComparison c finalCandidate ∧ finalCandidate.isOpen ∧
      ¬ finalCandidate.draft := by simpa [mergeable,and_assoc] using hmergeable
  obtain ⟨hcomparison,hopen,hdraft⟩ := hlast
  obtain ⟨hhead,hbase⟩ := sameComparison_revisions hcomparison
  obtain rfl : blockers = [] := by simpa using hempty
  apply applyMerge_allowed hpr
  intro late
  constructor
  · have hread := ((((said ([] ++ es₁) hprotection).mono es₃).mono es₄).mono es₅).mono es₆
    exact ⟨pr,protection,required,hpr,hread.mono _,hadmins,hrequired,hstrict,hbound⟩
  · exact ((((said ([] ++ es₁ ++ es₂) hblockers).mono es₄).mono es₅).mono es₆).mono _
  · intro p hp
    obtain ⟨provider,evidence,review,hprovider,hinspect,hreview,hverdict⟩ := hready p hp
    have hread := (((said ([] ++ es₁ ++ es₂ ++ es₃) hfresh).mono es₅).mono es₆).mono [⟨.expired,late⟩]
    exact ⟨provider,fresh,evidence,review,hprovider,by simpa using hsame,hread,
      (hinspect.mono es₆).mono _,hreview,hverdict⟩
  · exact ⟨_,es₆,late,s₅,s₆,finalCandidate,rfl,hfinal,hopen,hdraft,hhead,hbase,hcomparison⟩

/-- Whatever the forge replies, a request that is not a plain read is the merge of the
compared head, and every gate was open in this call when it is sent. -/
theorem merge_gated {log : Log} {p : Prog Req (fun q => Except Error (Rep q))
      (Except Error Json × Option ℕ)}
    (hr : Reach wire ((mergeWithPolicy web adapters c policy apply_).start s) [] p log)
    {method route : String} {body : Option Json}
    (hq : p.pending = some (.http method route body)) (hm : method ≠ "GET") :
    Gated web adapters c policy log ∧ apply_ ∧ method = "PUT" ∧
      (∃ pr, PullRequest.parse web c.url = .ok pr ∧ route = mergeRoute pr) ∧
      body = some (mergeBody c) := by
  have hw := wp_reach (mergeWithPolicy_allowed (s := s)) hr
  rcases wp_pending hw hq with hread | hput
  · exact absurd hread.1 hm
  · exact hput

end

/-! ## A call that reaches the merge -/

def sampleWeb : Web where
  hexDigest := fun _ => "digest"
  url := fun s => if s = "https://github.com/owner/name/pull/7" then
    some ⟨"https","",false,false,some "github.com",false,false,"/owner/name/pull/7"⟩ else none
  segment := fun s => s
  uri := fun _ => true

def openCandidate : Candidate :=
  ⟨"https://github.com/owner/name/pull/7","owner/name","topic","main",
    "0123456789012345678901234567890123456789","abcdefabcdefabcdefabcdefabcdefabcdefabcd",false,true⟩

def gatePolicy : Policy := ⟨1,"greptile","github-comment",5,[⟨"review-policy",some 7⟩]⟩

def cleanReview : Evaluation :=
  ⟨"review",none,none,"greptile",some openCandidate.head,some openCandidate.base,none,"digest",
    true,true,[],openCandidate.url⟩

def cleanProvider : Provider where
  inspect := fun _ _ _ => pure ⟨["review"],none,some "receipt",some cleanReview⟩
  reads := fun _ _ _ => uses_pure _

def checkRun (id app : ℕ) (name : String) : Json := .obj
  [("app",.obj [("id",.int app)]),("conclusion",.str "success"),
   ("head_sha",.str openCandidate.head),("id",.int id),("name",.str name),
   ("status",.str "completed")]

def pullJson : Json := .obj
  [("base",.obj [("ref",.str "main"),("sha",.str openCandidate.base)]),("draft",.bool false),
   ("head",.obj [("ref",.str "topic"),("repo",.obj [("full_name",.str "owner/name")]),
     ("sha",.str openCandidate.head)]),
   ("html_url",.str openCandidate.url),("state",.str "open")]

def protectionJson : Json := .obj
  [("enforce_admins",.obj [("enabled",.bool true)]),
   ("required_status_checks",.obj
     [("checks",.arr [.obj [("app_id",.int 7),("context",.str "review-policy")]]),
      ("strict",.bool true)])]

/-- A forge on which everything qualifies. -/
def served (route : String) : Json :=
  if route = "/repos/owner/name/pulls/7" then pullJson
  else if route = "/repos/owner/name/branches/main/protection" then protectionJson
  else if route = pageRoute (checkRunsRoute "owner/name" openCandidate.head) 1 then
    .obj [("check_runs",.arr [checkRun 1 7 "review-policy",checkRun 2 9 "build"]),
      ("total_count",.int 2)]
  else .arr []

def serve : (q : Req) → Log → Except Error (Rep q) × Log
  | .expired, log => (.ok false,log ++ [⟨.expired,.ok false⟩])
  | .now, log => (.ok (0 : ℕ),log ++ [⟨.now,.ok (0 : ℕ)⟩])
  | .http m route b, log =>
    let reply : Response := ⟨200,none,none,none,.ok (served route)⟩
    (.ok reply,log ++ [⟨.http m route b,.ok reply⟩])

theorem serve_step (q : Req) (log : Log) : wire.step q log (serve q log).1 (serve q log).2 := by
  cases q <;> rfl

/-- The first `n` requests of a merge of the sample. -/
def sampleMerge (n : ℕ) := advance serve n
  ((mergeWithPolicy sampleWeb ⟨cleanProvider,cleanProvider⟩ openCandidate (some gatePolicy)
    true).start none) []

theorem sample_gated : (sampleMerge 17).1.pending =
      some (.http "PUT" "/repos/owner/name/pulls/7/merge" (some (mergeBody openCandidate))) ∧
    Gated sampleWeb ⟨cleanProvider,cleanProvider⟩ openCandidate (some gatePolicy)
      (sampleMerge 17).2 := by
  have hq : (sampleMerge 17).1.pending =
      some (.http "PUT" "/repos/owner/name/pulls/7/merge" (some (mergeBody openCandidate))) := by
    decide +kernel
  exact ⟨hq,(merge_gated (reach_advance serve_step 17 _ _) hq (by decide)).1⟩

end Forge
end CanixToolbelt
