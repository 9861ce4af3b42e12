import CanixToolbelt.ReviewInspect

/-! The Greptile adapter: the request comment, the reviewer's last review of the candidate's
head, and what is left of its findings once writers disposed of some. -/
namespace CanixToolbelt
namespace Greptile
open Effect Json Review Forge Receipt Marker Inspect Script Fallible

/-! ## Reviews -/

def reviewsRoute (pr : PullRequest) : String := pullRoute pr ++ "/reviews"

def reviewCommentsRoute (pr : PullRequest) (id : String) : String :=
  reviewsRoute pr ++ "/" ++ id ++ "/comments"

def reviewId (review : Json) : Except Error String := do
  let id ← number review ["id"]
  pure (toString id)

def severity (body : String) : Option String :=
  ["P0","P1","P2"].find? fun p =>
    contains body ("alt=\"" ++ p ++ "\"") || ("**" ++ p).toList.isPrefixOf body.toList

def asciiLowercase (body : String) : String := body.map Char.toLower

def creditLimitNotice (body : String) : Bool :=
  let body := asciiLowercase body
  contains body "has reached" && contains body "credit limit" &&
    contains body "to continue receiving code reviews"

/-- Whether a review's identity is none of those known before the request. -/
def fresh (intent : Intent) (review : Json) : Bool :=
  ((review.get? "id").bind asU64).any fun id => toString id ∉ intent.baselineReviewIds

/-- A fresh review by the reviewer's bot of the candidate's head. -/
def reviewerReview (candidate : Candidate) (policy : Policy) (intent : Intent) (review : Json) :
    Bool :=
  userId review = some policy.reviewerId && bot review &&
    (review.get? "commit_id").bind asStr = some candidate.head && fresh intent review

section
variable (rfc3339 : String → Option ℤ)

/-- Submitted after the request, and neither pending nor dismissed. -/
def standing (intent : Intent) (requestedAt : Option ℤ) (review : Json) : Bool :=
  ((review.get? "state").bind asStr).any (· ∈ ["COMMENTED","APPROVED","CHANGES_REQUESTED"]) &&
    (((review.get? "submitted_at").bind asStr).bind rfc3339).any (fun submitted =>
      requestedAt.any (· ≤ submitted)) && fresh intent review

/-- The last listed review of the reviewer, unless it no longer stands: there is no falling back
to an older one. -/
def parentReview (candidate : Candidate) (policy : Policy) (intent : Intent)
    (requestedAt : Option ℤ) (reviews : List Json) : Option Json :=
  (reviews.reverse.find? (reviewerReview candidate policy intent)).filter
    (standing rfc3339 intent requestedAt)

end

/-! ## Findings -/

def inlineFinding (policy : Policy) (item : Json) : Except Error Finding := do
  require (userId item = some policy.reviewerId)
    (.other "review contains an unexpected finding author")
  let body ← text item ["body"]
  let id ← number item ["id"]
  let url ← text item ["html_url"]
  let line := (item.get? "line").bind asU64
  pure ⟨toString id,body,(item.get? "path").bind asStr,
    line.or ((item.get? "original_line").bind asU64),severity body,false,true,url⟩

/-- Whether a review has a body or requests changes. -/
def reports (body : String) (parent : Json) : Except Error Bool :=
  if ¬ blank body then pure true
  else do
    let state ← text parent ["state"]
    pure (decide (state = "CHANGES_REQUESTED"))

/-- The finding that a review is by itself. -/
def parentFinding (id body : String) (parent : Json) : Except Error (List Finding) := do
  let reported ← reports body parent
  if reported then do
    let url ← text parent ["html_url"]
    pure [⟨"review-" ++ id,body,none,none,none,false,true,url⟩]
  else pure []

section
variable (rfc3339 : String → Option ℤ)

def maxTime : ℤ := 2^63 - 1

/-- The reviewer's comments after the request count as findings: they attest no revision. -/
def issueFinding (policy : Policy) (requestedAt : Option ℤ) (parent : Json)
    (found : List Finding) (comment : Json) : Except Error (List Finding) :=
  if userId comment ≠ some policy.reviewerId then pure found
  else do
    let observed ← observedAt rfc3339 comment
    if observed < requestedAt.getD maxTime then pure found
    else do
      let body ← text comment ["body"]
      if blank body then pure found
      else do
        let id ← number comment ["id"]
        let parentUrl ← text parent ["html_url"]
        let url ← text comment ["html_url"]
        let correlated := contains body parentUrl ||
          found.any fun f => f.correlated && contains body f.url
        pure (found ++ [⟨"issue-" ++ toString id,body,none,none,severity body,false,correlated,url⟩])

/-! ## Inspection -/

/-- The request comment of the largest identity so far. -/
structure Request where
  commentId : ℕ
  receipt : Option String
  requestedAt : Option ℤ
  intent : Option Intent
  deriving DecidableEq, Repr

section
variable (web : Web) (pr : PullRequest) (candidate : Candidate) (policy : Policy)

def scanRequest (localIntent : Option Intent) (found : Request × Permissions) (comment : Json) :
    Hub (Request × Permissions) := do
  let (intent,permissions) ← requested web pr candidate policy localIntent comment found.2
  match intent with
  | none => pure (found.1,permissions)
  | some intent => do
    let id ← checked (number comment ["id"])
    if found.1.commentId < id then do
      let receipt ← checked (text comment ["html_url"])
      let observed ← checked (observedAt rfc3339 comment)
      pure (⟨id,some receipt,some observed,some intent⟩,permissions)
    else pure (found.1,permissions)

/-- The review as evidence, without the findings that writers disposed of. -/
def parentEvaluation (intent : Intent) (requestedAt : Option ℤ) (comments : List Json)
    (permissions : Permissions) (parent : Json) : Hub Evaluation := do
  let body ← checked (text parent ["body"])
  if creditLimitNotice body then fail "Greptile review unavailable: account credit limit reached; restore provider capacity and request a fresh review"
  else do
    let id ← checked (reviewId parent)
    let raw ← pages web (reviewCommentsRoute pr id) none
    let inline ← checked (raw.mapM (inlineFinding policy))
    let own ← checked (parentFinding id body parent)
    let findings ← checked
      (comments.foldlM (issueFinding rfc3339 policy requestedAt parent) (inline ++ own))
    let (findings,_) ← comments.foldlM (dispose web pr candidate policy id) (findings,permissions)
    let head ← checked (text parent ["commit_id"])
    let url ← checked (text parent ["html_url"])
    pure ⟨id,none,none,policy.provider,some head,some intent.candidate.base,none,
      intent.policyDigest,true,true,findings,url⟩

/-- The evaluation of the parent review, if there is one. -/
def evaluated (requestedAt : Option ℤ) (comments : List Json) (permissions : Permissions) :
    Option (Intent × Json) → Hub (Option Evaluation)
  | none => pure none
  | some (intent,parent) => do
    let review ← parentEvaluation rfc3339 web pr candidate policy intent requestedAt comments
      permissions parent
    pure (some review)

end

def inspect (web : Web) (candidate : Candidate) (policy : Policy) (localIntent : Option Intent) :
    Hub Evidence := do
  if policy.provider ≠ "greptile" ∨ policy.transport ≠ "github-comment" then
    fail "Greptile adapter requires an explicitly selected Greptile policy"
  else do
    let pr ← checked (PullRequest.parse web candidate.url)
    let reviews ← pages web (reviewsRoute pr) none
    let knownReviewIds ← checked (reviews.mapM reviewId)
    let comments ← pages web (issueComments pr) none
    let (request,permissions) ← comments.foldlM
      (scanRequest rfc3339 web pr candidate policy localIntent) (⟨0,none,none,none⟩,[])
    let intent := (localIntent.or request.intent).filter fun _ => request.receipt.isSome
    let parent := intent.bind fun intent =>
      (parentReview rfc3339 candidate policy intent request.requestedAt reviews).map (intent,·)
    let review ← evaluated rfc3339 web pr candidate policy request.requestedAt comments permissions
      parent
    pure ⟨knownReviewIds,request.intent,request.receipt,review⟩

end

/-! Inspection only reads. -/

section
variable {rfc3339 : String → Option ℤ} {web : Web} {pr : PullRequest} {candidate : Candidate}
  {policy : Policy}

theorem scanRequest_reads (localIntent : Option Intent) (found : Request × Permissions)
    (comment : Json) :
    (scanRequest rfc3339 web pr candidate policy localIntent found comment).Uses Reads := by
  apply uses_bind (requested_reads _ _ _ _ _)
  rintro ⟨intent,permissions⟩
  cases intent with
  | none => exact uses_pure _
  | some intent =>
    apply uses_bind (checked_reads _)
    intro id
    split
    · apply uses_bind (checked_reads _)
      intro receipt
      exact uses_bind (checked_reads _) fun observed => uses_pure _
    · exact uses_pure _

theorem parentEvaluation_reads (intent : Intent) (requestedAt : Option ℤ) (comments : List Json)
    (permissions : Permissions) (parent : Json) :
    (parentEvaluation rfc3339 web pr candidate policy intent requestedAt comments permissions
      parent).Uses Reads := by
  apply uses_bind (checked_reads _)
  intro body
  split
  · exact fail_reads _
  apply uses_bind (checked_reads _)
  intro id
  apply uses_bind (pages_reads _ _)
  intro raw
  apply uses_bind (checked_reads _)
  intro inline
  apply uses_bind (checked_reads _)
  intro own
  apply uses_bind (checked_reads _)
  intro findings
  apply uses_bind (uses_foldlM (fun found comment => dispose_reads _ _ _ found comment) _ _)
  rintro ⟨findings,permissions⟩
  apply uses_bind (checked_reads _)
  intro head
  exact uses_bind (checked_reads _) fun url => uses_pure _

theorem inspect_reads (localIntent : Option Intent) :
    (inspect rfc3339 web candidate policy localIntent).Uses Reads := by
  unfold inspect
  split
  · exact fail_reads _
  apply uses_bind (checked_reads _)
  intro pr
  apply uses_bind (pages_reads _ _)
  intro reviews
  apply uses_bind (checked_reads _)
  intro known
  apply uses_bind (pages_reads _ _)
  intro comments
  apply uses_bind (uses_foldlM (fun found comment => scanRequest_reads _ found comment) _ _)
  rintro ⟨request,permissions⟩
  dsimp only
  apply uses_bind
  · unfold evaluated
    split
    · exact uses_pure _
    · exact uses_bind (parentEvaluation_reads _ _ _ _ _) fun review => uses_pure _
  · exact fun review => uses_pure _

end

/-- The adapter that the merge gate asks. -/
def provider (rfc3339 : String → Option ℤ) (web : Web) : Provider where
  inspect := inspect rfc3339 web
  reads := fun _ _ localIntent => inspect_reads localIntent

/-! ## What the request scan finds -/

section
variable {rfc3339 : String → Option ℤ} {web : Web} {pr : PullRequest} {candidate : Candidate}
  {policy : Policy} {localIntent : Option Intent} {log es : Log} {ps qs : Permissions}

/-- What is known once some comments were scanned. -/
structure Scanned (rfc3339 : String → Option ℤ) (web : Web) (pr : PullRequest)
    (candidate : Candidate) (policy : Policy) (localIntent : Option Intent) (done : List Json)
    (found : Request × Permissions) (log : Log) : Prop where
  asked : Asked web pr candidate policy localIntent done found.2 log
  newest : ∀ c ∈ done, ∀ i, Requests web candidate policy localIntent found.2 c i →
    ∃ n, number c ["id"] = .ok n ∧ n ≤ found.1.commentId
  request : found.1 = ⟨0,none,none,none⟩ ∨ ∃ c ∈ done, ∃ i t url,
    Requests web candidate policy localIntent found.2 c i ∧
    number c ["id"] = .ok found.1.commentId ∧ observedAt rfc3339 c = .ok t ∧
    found.1.requestedAt = some t ∧ found.1.intent = some i ∧ found.1.receipt = some url

/-- The request found so far stays when a comment is none, or not a newer one. -/
theorem Scanned.keep {done : List Json} {found : Request} {c : Json} {log' : Log}
    (h : Scanned rfc3339 web pr candidate policy localIntent done (found,ps) log)
    (hext : Extends ps qs) (hasked : Asked web pr candidate policy localIntent (done ++ [c]) qs log')
    (hnewest : ∀ i, Requests web candidate policy localIntent qs c i →
      ∃ n, number c ["id"] = .ok n ∧ n ≤ found.commentId) :
    Scanned rfc3339 web pr candidate policy localIntent (done ++ [c]) (found,qs) log' := by
  refine ⟨hasked,fun a ha i hi => ?_,?_⟩
  · rcases List.mem_append.mp ha with ha | ha
    · exact h.newest a ha i ((h.asked.requests hext ha i).mp hi)
    · rw [List.mem_singleton.mp ha] at hi ⊢
      exact hnewest i hi
  · rcases h.request with hnone | ⟨a,ha,i,t,url,hi,hrest⟩
    · exact .inl hnone
    · exact .inr ⟨a,by simp [ha],i,t,url,(h.asked.requests hext ha i).mpr hi,hrest⟩

theorem scanRequest_ran {done : List Json} {found found' : Request} {c : Json}
    (h : Scanned rfc3339 web pr candidate policy localIntent done (found,ps) log)
    (hran : Ran (scanRequest rfc3339 web pr candidate policy localIntent (found,ps) c) es
      (found',qs)) :
    Scanned rfc3339 web pr candidate policy localIntent (done ++ [c]) (found',qs) (log ++ es) := by
  unfold scanRequest at hran
  obtain ⟨⟨o,rs⟩,es₁,es₂,rfl,hreq,hran⟩ := ran_bind hran
  obtain ⟨hasked,hext,hrequests⟩ := h.asked.next hreq
  cases o with
  | none =>
    obtain ⟨rfl,hret⟩ := ran_pure hran
    cases hret
    rw [List.append_nil]
    refine h.keep hext hasked fun i hi => ?_
    cases (hrequests i).mp hi
  | some intent =>
    obtain ⟨n,hn,hran⟩ := ran_then hran
    split at hran
    · rename_i hlt
      obtain ⟨url,hurl,hran⟩ := ran_then hran
      obtain ⟨t,ht,hran⟩ := ran_then hran
      obtain ⟨rfl,hret⟩ := ran_pure hran
      cases hret
      rw [List.append_nil]
      refine ⟨hasked,fun a ha i hi => ?_,.inr ⟨c,by simp,intent,t,url,(hrequests intent).mpr rfl,hn,
        ht,rfl,rfl,rfl⟩⟩
      rcases List.mem_append.mp ha with ha | ha
      · obtain ⟨m,hm,hle⟩ := h.newest a ha i ((h.asked.requests hext ha i).mp hi)
        exact ⟨m,hm,by simp only at hle hlt ⊢; omega⟩
      · rw [List.mem_singleton.mp ha]
        exact ⟨n,hn,le_refl n⟩
    · rename_i hge
      obtain ⟨rfl,hret⟩ := ran_pure hran
      cases hret
      rw [List.append_nil]
      exact h.keep hext hasked fun i _ => ⟨n,hn,not_lt.mp hge⟩

theorem requests_ran (log : Log) {comments : List Json} {found : Request × Permissions}
    (h : Ran (comments.foldlM (scanRequest rfc3339 web pr candidate policy localIntent)
      (⟨0,none,none,none⟩,[])) es found) :
    Scanned rfc3339 web pr candidate policy localIntent comments found (log ++ es) := by
  have hstart : Scanned rfc3339 web pr candidate policy localIntent [] (⟨0,none,none,none⟩,[]) log :=
    ⟨asked_nil,by simp,.inl rfl⟩
  refine ran_foldlM (P := Scanned rfc3339 web pr candidate policy localIntent) ?_ hstart h
  rintro done c ⟨found,ps⟩ log' ⟨found',qs⟩ es' hdone hran
  exact scanRequest_ran hdone hran

/-! ## Findings and what is left of them -/

theorem inlineFinding_ok {item : Json} {f : Finding} (h : inlineFinding policy item = .ok f) :
    ∃ n, number item ["id"] = .ok n ∧ f.id = toString n ∧ text item ["body"] = .ok f.body := by
  unfold inlineFinding at h
  obtain ⟨-,-,h⟩ := bind_ok h
  obtain ⟨body,hbody,h⟩ := bind_ok h
  obtain ⟨n,hn,h⟩ := bind_ok h
  obtain ⟨url,hurl,h⟩ := bind_ok h
  cases h
  exact ⟨n,hn,rfl,hbody⟩

theorem parentFinding_ok {id body : String} {parent : Json} {own : List Finding}
    (h : parentFinding id body parent = .ok own) :
    blank body ∧ text parent ["state"] ≠ .ok "CHANGES_REQUESTED" ∨
      ∃ f ∈ own, f.id = "review-" ++ id ∧ f.body = body := by
  unfold parentFinding at h
  obtain ⟨reported,hreported,h⟩ := bind_ok h
  cases reported with
  | true =>
    obtain ⟨url,hurl,h⟩ := bind_ok h
    cases h
    exact .inr ⟨_,List.mem_singleton_self _,rfl,rfl⟩
  | false =>
    left
    unfold reports at hreported
    split at hreported
    · cases hreported
    · rename_i hblank
      obtain ⟨state,hstate,hreported⟩ := bind_ok hreported
      have hdecide : decide (state = "CHANGES_REQUESTED") = false := by
        simpa [pure,Except.pure] using hreported
      refine ⟨not_not.mp hblank,?_⟩
      rw [hstate]
      simpa using of_decide_eq_false hdecide

/-- What a comment of the reviewer after the request leaves among the findings. -/
def Reported (rfc3339 : String → Option ℤ) (policy : Policy) (requestedAt : Option ℤ) (comment : Json)
    (found : List Finding) : Prop :=
  userId comment = some policy.reviewerId → ∃ t, observedAt rfc3339 comment = .ok t ∧
    (requestedAt.getD maxTime ≤ t → ∃ body, text comment ["body"] = .ok body ∧
      (blank body ∨ ∃ n, number comment ["id"] = .ok n ∧
        ∃ f ∈ found, f.id = "issue-" ++ toString n ∧ f.body = body))

theorem Reported.mono {requestedAt : Option ℤ} {comment : Json} {found found' : List Finding}
    (h : Reported rfc3339 policy requestedAt comment found) (hsub : found ⊆ found') :
    Reported rfc3339 policy requestedAt comment found' := by
  intro hauthor
  obtain ⟨t,ht,hlate⟩ := h hauthor
  refine ⟨t,ht,fun hle => ?_⟩
  obtain ⟨body,hbody,hblank | ⟨n,hn,f,hf,hrest⟩⟩ := hlate hle
  · exact ⟨body,hbody,.inl hblank⟩
  · exact ⟨body,hbody,.inr ⟨n,hn,f,hsub hf,hrest⟩⟩

theorem issueFinding_ok {requestedAt : Option ℤ} {parent comment : Json} {found found' : List Finding}
    (h : issueFinding rfc3339 policy requestedAt parent found comment = .ok found') :
    found ⊆ found' ∧ Reported rfc3339 policy requestedAt comment found' := by
  unfold issueFinding at h
  split at h
  · rename_i hauthor
    cases h
    exact ⟨List.Subset.refl _,fun ha => absurd ha hauthor⟩
  obtain ⟨t,ht,h⟩ := bind_ok h
  split at h
  · rename_i hearly
    cases h
    exact ⟨List.Subset.refl _,fun _ => ⟨t,ht,fun hle => absurd hearly (not_lt.mpr hle)⟩⟩
  obtain ⟨body,hbody,h⟩ := bind_ok h
  split at h
  · rename_i hblank
    cases h
    exact ⟨List.Subset.refl _,fun _ => ⟨t,ht,fun _ => ⟨body,hbody,.inl hblank⟩⟩⟩
  · obtain ⟨n,hn,h⟩ := bind_ok h
    obtain ⟨parentUrl,hparentUrl,h⟩ := bind_ok h
    obtain ⟨url,hurl,h⟩ := bind_ok h
    cases h
    have hlast := List.mem_append_right found (List.mem_singleton_self
      (⟨"issue-" ++ toString n,body,none,none,severity body,false,contains body parentUrl ||
        found.any fun f => f.correlated && contains body f.url,url⟩ : Finding))
    exact ⟨List.subset_append_left _ _,fun _ => ⟨t,ht,fun _ =>
      ⟨body,hbody,.inr ⟨n,hn,_,hlast,rfl,rfl⟩⟩⟩⟩

theorem issueFindings_ok {requestedAt : Option ℤ} {parent : Json} {comments : List Json}
    {found found' : List Finding}
    (h : comments.foldlM (issueFinding rfc3339 policy requestedAt parent) found = .ok found') :
    found ⊆ found' ∧ ∀ c ∈ comments, Reported rfc3339 policy requestedAt c found' := by
  refine foldlM_establishes (I := fun fs => found ⊆ fs)
    (R := Reported rfc3339 policy requestedAt) (List.Subset.refl _) ?_ ?_ h
  · intro fs gs c _ hfs hstep
    have hok := issueFinding_ok hstep
    exact ⟨List.Subset.trans hfs hok.1,hok.2⟩
  · intro fs gs c _ d _ _ hd hstep
    exact hd.mono (issueFinding_ok hstep).1

/-- Nothing is left of some findings only when each was disposed of. -/
theorem all_disposed {id : String} {comments : List Json} (found : List Finding)
    (h : (found.filter fun f => !settles web candidate policy id ps comments f) = []) {f : Finding}
    (hf : f ∈ found) :
    ∃ c ∈ comments, DisposedOf web candidate policy id ps f.id f.body c := by
  have hsettles := List.filter_eq_nil_iff.mp h f hf
  exact settles_iff.mp (by simpa using hsettles)

/-- What stands behind a review without findings: the request, the reviewer's review of the
head, and a disposition for each finding that the forge still shows. -/
structure Approved (rfc3339 : String → Option ℤ) (web : Web) (candidate : Candidate)
    (policy : Policy) (localIntent : Option Intent) (permissions : Permissions)
    (reviews comments inline : List Json) (review : Evaluation) (request parent : Json)
    (asked : Intent) (requestedAt : ℤ) : Prop where
  /-- A current writer requested this review, -/
  requested : request ∈ comments ∧
    Requests web candidate policy localIntent permissions request asked ∧
    observedAt rfc3339 request = .ok requestedAt
  /-- and no such comment is newer. -/
  newest : ∀ c ∈ comments, ∀ i, Requests web candidate policy localIntent permissions c i →
    ∃ m n, number c ["id"] = .ok m ∧ number request ["id"] = .ok n ∧ m ≤ n
  /-- The reviewer's last listed fresh review of the head was submitted after the request, -/
  parent_last : ∃ before after, reviews = before ++ parent::after ∧
    reviewerReview candidate policy (localIntent.getD asked) parent = true ∧
    ∀ r ∈ after, reviewerReview candidate policy (localIntent.getD asked) r = false
  parent_standing : reviewId parent = .ok review.id ∧
    (∃ state ∈ ["COMMENTED","APPROVED","CHANGES_REQUESTED"], text parent ["state"] = .ok state) ∧
    ∃ s t, text parent ["submitted_at"] = .ok s ∧ rfc3339 s = some t ∧ requestedAt ≤ t
  /-- and finds nothing by itself, or was disposed of. -/
  parent_clean : ∃ body, text parent ["body"] = .ok body ∧
    (blank body ∧ text parent ["state"] ≠ .ok "CHANGES_REQUESTED" ∨ ∃ c ∈ comments,
      DisposedOf web candidate policy review.id permissions ("review-" ++ review.id) body c)
  inline_clean : ∀ item ∈ inline, ∃ n body, number item ["id"] = .ok n ∧
    text item ["body"] = .ok body ∧ ∃ c ∈ comments,
      DisposedOf web candidate policy review.id permissions (toString n) body c
  issue_clean : ∀ i ∈ comments, userId i = some policy.reviewerId →
    ∃ t, observedAt rfc3339 i = .ok t ∧ (requestedAt ≤ t → ∃ body, text i ["body"] = .ok body ∧
      (blank body ∨ ∃ n, number i ["id"] = .ok n ∧ ∃ c ∈ comments,
        DisposedOf web candidate policy review.id permissions ("issue-" ++ toString n) body c))

theorem mapM_member {α β : Type} {f : α → Except Error β} {as : List α} {bs : List β}
    (h : as.mapM f = .ok bs) {a : α} (ha : a ∈ as) : ∃ b ∈ bs, f a = .ok b := by
  induction as generalizing bs with
  | nil => cases ha
  | cons c cs ih =>
    rw [List.mapM_cons] at h
    obtain ⟨b,hb,h⟩ := bind_ok h
    obtain ⟨rest,hrest,h⟩ := bind_ok h
    cases h
    rcases List.mem_cons.mp ha with rfl | ha
    · exact ⟨b,by simp,hb⟩
    · obtain ⟨d,hd,hf⟩ := ih hrest ha
      exact ⟨d,by simp [hd],hf⟩

theorem parentEvaluation_ran {intent : Intent} {requestedAt : Option ℤ} {comments : List Json}
    {parent : Json} {review : Evaluation} (hps : Backed web pr log ps)
    (h : Ran (parentEvaluation rfc3339 web pr candidate policy intent requestedAt comments ps parent)
      es review) :
    ∃ qs inline, Extends ps qs ∧ Backed web pr (log ++ es) qs ∧
      Said (log ++ es) (pages web (reviewCommentsRoute pr review.id) none) inline ∧
      reviewId parent = .ok review.id ∧ (review.findings = [] →
        (∃ body, text parent ["body"] = .ok body ∧
          (blank body ∧ text parent ["state"] ≠ .ok "CHANGES_REQUESTED" ∨ ∃ c ∈ comments,
            DisposedOf web candidate policy review.id qs ("review-" ++ review.id) body c)) ∧
        (∀ item ∈ inline, ∃ n body, number item ["id"] = .ok n ∧ text item ["body"] = .ok body ∧
          ∃ c ∈ comments, DisposedOf web candidate policy review.id qs (toString n) body c) ∧
        ∀ i ∈ comments, userId i = some policy.reviewerId →
          ∃ t, observedAt rfc3339 i = .ok t ∧ (requestedAt.getD maxTime ≤ t → ∃ body,
            text i ["body"] = .ok body ∧ (blank body ∨ ∃ n, number i ["id"] = .ok n ∧
              ∃ c ∈ comments, DisposedOf web candidate policy review.id qs
                ("issue-" ++ toString n) body c))) := by
  unfold parentEvaluation at h
  obtain ⟨body,hbody,h⟩ := ran_then h
  split at h
  · exact (ran_fail h).elim
  obtain ⟨id,hid,h⟩ := ran_then h
  obtain ⟨raw,es₁,es₂,rfl,hraw,h⟩ := ran_bind h
  obtain ⟨inline,hinline,h⟩ := ran_then h
  obtain ⟨own,hown,h⟩ := ran_then h
  obtain ⟨findings,hfindings,h⟩ := ran_then h
  obtain ⟨⟨left,qs⟩,es₃,es₄,rfl,hleft,h⟩ := ran_bind h
  obtain ⟨head,hhead,h⟩ := ran_then h
  obtain ⟨url,hurl,h⟩ := ran_then h
  obtain ⟨rfl,hret⟩ := ran_pure h
  obtain ⟨hext,hback,-,hleft⟩ := disposals_ran (hps.mono es₁) hleft
  obtain ⟨hsub,hreported⟩ := issueFindings_ok hfindings
  cases hret
  rw [List.append_nil]
  refine ⟨qs,raw,hext,by rwa [List.append_assoc] at hback,?_,hid,fun hnone => ?_⟩
  · have hsaid := (said_ran log hraw).mono es₃
    rwa [List.append_assoc] at hsaid
  have hall : ∀ f ∈ findings, ∃ c ∈ comments,
      DisposedOf web candidate policy id qs f.id f.body c := by
    intro f hf
    refine all_disposed findings ?_ hf
    rw [← hleft]
    exact hnone
  refine ⟨⟨body,hbody,?_⟩,?_,?_⟩
  · rcases parentFinding_ok hown with hclean | ⟨f,hf,hname,htext⟩
    · exact .inl hclean
    · have hf' := hall f (hsub (List.mem_append_right _ hf))
      rw [hname,htext] at hf'
      exact .inr hf'
  · intro item hitem
    obtain ⟨f,hf,hitem⟩ := mapM_member hinline hitem
    obtain ⟨n,hn,hname,htext⟩ := inlineFinding_ok hitem
    have hf' := hall f (hsub (List.mem_append_left _ hf))
    rw [hname] at hf'
    exact ⟨n,f.body,hn,htext,hf'⟩
  · intro i hi hauthor
    obtain ⟨t,ht,hlate⟩ := hreported i hi hauthor
    refine ⟨t,ht,fun hle => ?_⟩
    obtain ⟨b,hb,hblank | ⟨n,hn,f,hf,hname,htext⟩⟩ := hlate hle
    · exact ⟨b,hb,.inl hblank⟩
    · have hf' := hall f hf
      rw [hname,htext] at hf'
      exact ⟨b,hb,.inr ⟨n,hn,hf'⟩⟩

theorem text_some {v : Json} {k s : String} (h : (v.get? k).bind asStr = some s) :
    text v [k] = .ok s := by
  have hp : (pointer [k] v).bind asStr = some s := h
  simp [text,hp]

theorem parentReview_some {intent : Intent} {requestedAt : Option ℤ} {reviews : List Json}
    {parent : Json}
    (h : parentReview rfc3339 candidate policy intent requestedAt reviews = some parent) :
    (∃ before after, reviews = before ++ parent::after ∧
      reviewerReview candidate policy intent parent = true ∧
      ∀ r ∈ after, reviewerReview candidate policy intent r = false) ∧
    (∃ state ∈ ["COMMENTED","APPROVED","CHANGES_REQUESTED"], text parent ["state"] = .ok state) ∧
    ∃ s t at_, text parent ["submitted_at"] = .ok s ∧ rfc3339 s = some t ∧
      requestedAt = some at_ ∧ at_ ≤ t := by
  obtain ⟨hfind,hstanding⟩ := Option.filter_eq_some_iff.mp h
  constructor
  · obtain ⟨hparent,as,bs,hsplit,has⟩ := List.find?_eq_some_iff_append.mp hfind
    refine ⟨bs.reverse,as.reverse,?_,hparent,fun r hr => ?_⟩
    · rw [← List.reverse_reverse reviews,hsplit]
      simp
    · simpa using has r (List.mem_reverse.mp hr)
  · simp only [standing,Bool.and_eq_true,Option.any_eq_true,decide_eq_true_eq] at hstanding
    obtain ⟨⟨⟨state,hstate,hmem⟩,t,ht,at_,hat,hle⟩,-⟩ := hstanding
    obtain ⟨s,hs,ht⟩ := Option.bind_eq_some_iff.mp ht
    exact ⟨⟨state,hmem,text_some hstate⟩,s,t,at_,text_some hs,ht,hat,hle⟩

/-- A review without findings is evidence that the request was made, that the reviewer answered
it last on this head, and that a current writer disposed of every finding the forge shows. -/
theorem inspect_approves {s s' : Option ℕ} {e : Evidence} {review : Evaluation}
    (h : ((inspect rfc3339 web candidate policy localIntent).start s).Runs es (.ok e,s'))
    (hreview : e.review = some review) (hnone : review.findings = []) :
    ∃ pr reviews comments inline permissions request parent asked requestedAt,
      PullRequest.parse web candidate.url = .ok pr ∧
      Said es (pages web (reviewsRoute pr) none) reviews ∧
      Said es (pages web (issueComments pr) none) comments ∧
      Said es (pages web (reviewCommentsRoute pr review.id) none) inline ∧
      Backed web pr es permissions ∧ e.recoveredIntent = some asked ∧
      Approved rfc3339 web candidate policy localIntent permissions reviews comments inline review
        request parent asked requestedAt := by
  have hran : Ran (inspect rfc3339 web candidate policy localIntent) es e := ⟨s,s',h⟩
  unfold inspect at hran
  split at hran
  · exact (ran_fail hran).elim
  obtain ⟨pr,hpr,hran⟩ := ran_then hran
  obtain ⟨reviews,es₁,es₂,rfl,hreviews,hran⟩ := ran_bind hran
  obtain ⟨known,hknown,hran⟩ := ran_then hran
  obtain ⟨comments,es₃,es₄,rfl,hcomments,hran⟩ := ran_bind hran
  obtain ⟨⟨found,ps⟩,es₅,es₆,rfl,hscan,hran⟩ := ran_bind hran
  have hscanned := requests_ran (es₁ ++ es₃) hscan
  obtain ⟨o,es₇,es₈,rfl,hparent,hran⟩ := ran_bind hran
  obtain ⟨rfl,hret⟩ := ran_pure hran
  cases hret
  rw [List.append_nil]
  simp only at hreview
  subst hreview
  generalize hsome : (((localIntent.or found.intent).filter fun _ => found.receipt.isSome).bind
    fun intent => (parentReview rfc3339 candidate policy intent found.requestedAt reviews).map
      (intent,·)) = answer at hparent
  cases answer with
  | none =>
    obtain ⟨-,hret⟩ := ran_pure hparent
    cases hret
  | some answer =>
  obtain ⟨intent,parent⟩ := answer
  obtain ⟨review',es₉,es₁₀,rfl,hevaluation,hret⟩ := ran_bind hparent
  obtain ⟨rfl,hsome'⟩ := ran_pure hret
  obtain rfl : review' = review := Option.some.inj hsome'
  obtain ⟨intent',hintent,hpair⟩ := Option.bind_eq_some_iff.mp hsome
  obtain ⟨parent',hparentReview,hpair⟩ := Option.map_eq_some_iff.mp hpair
  cases hpair
  obtain ⟨hchosen,hreceipt⟩ := Option.filter_eq_some_iff.mp hintent
  -- a receipt was found, so the scan found a request
  obtain ⟨request,hrequest,asked,t,url,hrequests,hnumber,htime,hat,hasked,-⟩ :
      ∃ c ∈ comments, ∃ i t url,
        Requests web candidate policy localIntent ps c i ∧ number c ["id"] = .ok found.commentId ∧
        observedAt rfc3339 c = .ok t ∧ found.requestedAt = some t ∧ found.intent = some i ∧
        found.receipt = some url := by
    rcases hscanned.request with hinitial | hrequest
    · simp only at hinitial
      simp [hinitial] at hreceipt
    · exact hrequest
  obtain rfl : intent = localIntent.getD asked := by
    rw [hasked] at hchosen
    cases localIntent with
    | none => simpa using hchosen.symm
    | some i => simpa using hchosen.symm
  obtain ⟨hlast,hstate,submitted,t',at_,hsubmitted,ht',hat',hle⟩ := parentReview_some hparentReview
  obtain rfl : t = at_ := by
    rw [hat] at hat'
    exact Option.some.inj hat'
  obtain ⟨qs,inline,hext,hback,hsaid,hid,hclean⟩ := parentEvaluation_ran hscanned.asked.backed hevaluation
  obtain ⟨hown,hinline,hissue⟩ := hclean hnone
  have hrequestsMono : ∀ c ∈ comments, ∀ i, Requests web candidate policy localIntent qs c i ↔
      Requests web candidate policy localIntent ps c i :=
    fun c hc i => hscanned.asked.requests hext hc i
  have hlog : es₁ ++ es₃ ++ es₅ ++ es₉ = es₁ ++ (es₃ ++ (es₅ ++ (es₉ ++ []))) := by simp
  rw [hlog] at hback hsaid
  refine ⟨pr,reviews,comments,inline,qs,request,parent,asked,t,hpr,?_,?_,hsaid,hback,hasked,?_⟩
  · exact (said_ran [] hreviews).mono _
  · have hread := (said_ran es₁ hcomments).mono (es₅ ++ (es₉ ++ []))
    simpa using hread
  · refine ⟨⟨hrequest,(hrequestsMono _ hrequest _).mpr hrequests,htime⟩,?_,hlast,
      ⟨hid,hstate,submitted,t',hsubmitted,ht',hle⟩,hown,hinline,?_⟩
    · intro c hc i hi
      obtain ⟨n,hn,hle⟩ := hscanned.newest c hc i ((hrequestsMono c hc i).mp hi)
      exact ⟨n,found.commentId,hn,hnumber,hle⟩
    · rw [hat] at hissue
      exact hissue

end
/-! ## A review whose only finding was disposed of -/

def quotedRequest : Json := maintained 1 "2026-01-01T00:00:00Z" (greptileRequest quotedIntent)

def quotedAnswer : Json :=
  maintained 2 "2026-01-03T00:00:00Z" (dispositionComment (quoted "It is closed on line 4."))

def botReview (id : ℕ) (state submitted body : String) : Json := .obj
  [("body",.str body),("commit_id",.str quotedCandidate.head),("html_url",.str quotedReview.url),
    ("id",.int id),("state",.str state),("submitted_at",.str submitted),
    ("user",.obj [("id",.int 165735046),("login",.str "greptile-apps[bot]"),("type",.str "Bot")])]

def quotedParent : Json := botReview 42 "COMMENTED" "2026-01-02T00:00:00Z" "\n"

def quotedItem : Json := .obj
  [("body",.str quotedFinding.body),("html_url",.str quotedFinding.url),("id",.int 77),
    ("line",.int 3),("path",.str "README.md"),
    ("user",.obj [("id",.int 165735046),("login",.str "greptile-apps[bot]"),("type",.str "Bot")])]

def quotedComments : List Json := [quotedRequest,quotedAnswer]

/-- What the texts of the sample say. -/
structure QuotedTexts : Prop where
  request : ∀ s ∈ texts (intentJson quotedIntent), ¬ closes s.toList
  answer : ∀ s ∈ texts (quoted "It is closed on line 4.").json, ¬ closes s.toList
  asked : quotedIntent.matches_ quotedWeb.platform quotedCandidate quotedPolicy = true
  bound : Inspect.bound quotedWeb quotedCandidate quotedPolicy "42"
    (quoted "It is closed on line 4.") = true
  named : [quotedFinding].filter (fun f => !names quotedWeb (quoted "It is closed on line 4.") f) = []
  item : [quotedItem].mapM (inlineFinding quotedPolicy) = .ok [quotedFinding]
  notice : creditLimitNotice "\n" = false
  parent : parentFinding "42" "\n" quotedParent = .ok []
  issues : quotedComments.foldlM (issueFinding quotedTime quotedPolicy (some 1767225600) quotedParent)
    [quotedFinding] = .ok [quotedFinding]
  number : reviewId quotedParent = .ok "42"

theorem quoted_texts : QuotedTexts where
  request := by decide +kernel
  answer := by decide +kernel
  asked := by decide +kernel
  bound := by decide +kernel
  named := by decide +kernel
  item := by decide +kernel
  notice := by decide +kernel
  parent := by decide +kernel
  issues := by decide +kernel
  number := by decide +kernel

-- the notice is found in any letter case
example : creditLimitNotice
    "This account HAS REACHED its credit limit. Upgrade to continue receiving code reviews." = true := by
  decide +kernel

theorem quotedIntent_read :
    marker readIntent (greptileRequest quotedIntent) requestMarker = some quotedIntent :=
  (marker_iff (readIntent_json (by decide)) ((intent_written (by decide)).mono (by omega)) _ _).1.mpr
    quoted_texts.request

theorem quotedDisposition_read : marker readDisposition
    (dispositionComment (quoted "It is closed on line 4.")) dispositionMarker =
      some (quoted "It is closed on line 4.") :=
  (marker_iff (readDisposition_json _) ((disposition_written _).mono (by omega)) _ _).1.mpr
    quoted_texts.answer

def clearedReview : Evaluation := { quotedReview with findings := [] }

theorem quoted_matches (localIntent : Option Intent)
    (hlocal : localIntent.all (·.id = quotedIntent.id) = true) :
    requestIntent quotedWeb quotedCandidate quotedPolicy localIntent (greptileRequest quotedIntent) =
      some quotedIntent := by
  unfold requestIntent
  rw [quotedIntent_read,Option.filter,if_pos]
  rw [quoted_texts.asked,hlocal]
  rfl

theorem quotedAnswer_other : marker readIntent
    (dispositionComment (quoted "It is closed on line 4.")) requestMarker = none :=
  marker_other _ _ _ (marks_differ _ _).2

theorem quotedRequest_other :
    marker readDisposition (greptileRequest quotedIntent) dispositionMarker = none :=
  marker_other _ _ _ (marks_differ _ _).1

def quotedUrl : String := "https://github.com/example/project/pull/12#issuecomment-1"

theorem quoted_scanned (localIntent : Option Intent)
    (hlocal : localIntent.all (·.id = quotedIntent.id) = true) (s : Option ℕ) :
    ((quotedComments.foldlM (scanRequest quotedTime quotedWeb quotedPr quotedCandidate quotedPolicy
      localIntent) (⟨0,none,none,none⟩,[])).start s).Runs
      (replied (permissionRoute quotedPr "maintainer") maintainerPermission)
      (.ok (⟨1,some quotedUrl,some 1767225600,some quotedIntent⟩,[("maintainer",true)]),none) := by
  have hnone : requestIntent quotedWeb quotedCandidate quotedPolicy localIntent
      (dispositionComment (quoted "It is closed on line 4.")) = none := by
    rw [requestIntent,quotedAnswer_other]
    rfl
  have hfirst : ((scanRequest quotedTime quotedWeb quotedPr quotedCandidate quotedPolicy localIntent
      (⟨0,none,none,none⟩,[]) quotedRequest).start s).Runs
      (replied (permissionRoute quotedPr "maintainer") maintainerPermission ++ [])
      (.ok (⟨1,some quotedUrl,some 1767225600,some quotedIntent⟩,[("maintainer",true)]),none) :=
    runs_seq (runs_requested rfl (quoted_matches localIntent hlocal) (quoted_asked 1 _ _ s)) (.ret _)
  have hsecond : ((scanRequest quotedTime quotedWeb quotedPr quotedCandidate quotedPolicy localIntent
      (⟨1,some quotedUrl,some 1767225600,some quotedIntent⟩,[("maintainer",true)])
      quotedAnswer).start none).Runs ([] ++ [])
      (.ok (⟨1,some quotedUrl,some 1767225600,some quotedIntent⟩,[("maintainer",true)]),none) :=
    runs_seq (runs_unrequested rfl hnone) (.ret _)
  have hall := runs_cons hfirst (runs_cons hsecond (runs_nil _ _ none))
  simp only [List.append_nil] at hall
  exact hall

theorem quoted_disposed (s : Option ℕ) :
    ((quotedComments.foldlM (dispose quotedWeb quotedPr quotedCandidate quotedPolicy "42")
      ([quotedFinding],[("maintainer",true)])).start s).Runs [] (.ok ([],[("maintainer",true)]),s) := by
  have hfirst : ((dispose quotedWeb quotedPr quotedCandidate quotedPolicy "42"
      ([quotedFinding],[("maintainer",true)]) quotedRequest).start s).Runs []
      (.ok ([quotedFinding],[("maintainer",true)]),s) := runs_undisposed rfl quotedRequest_other
  have hsecond := runs_dispose quotedAnswer [quotedFinding] rfl
    quotedDisposition_read quoted_texts.bound (quoted_known 2 _ _ s)
  rw [quoted_texts.named] at hsecond
  exact runs_cons hfirst (runs_cons hsecond (runs_nil _ _ s))

theorem quoted_evaluated (localIntent : Option Intent) (s : Option ℕ)
    (hcandidate : (localIntent.getD quotedIntent).candidate.base = quotedCandidate.base)
    (hpolicy : (localIntent.getD quotedIntent).policyDigest = quotedIntent.policyDigest) :
    ((parentEvaluation quotedTime quotedWeb quotedPr quotedCandidate quotedPolicy
      (localIntent.getD quotedIntent) (some 1767225600) quotedComments [("maintainer",true)]
      quotedParent).start s).Runs
      (replied (pageRoute (reviewCommentsRoute quotedPr "42") 1) (.arr [quotedItem]))
      (.ok clearedReview,none) := by
  unfold parentEvaluation
  refine runs_then (a := "\n") rfl ?_
  rw [quoted_texts.notice]
  refine runs_then quoted_texts.number ?_
  have hpages : ((pages quotedWeb (reviewCommentsRoute quotedPr "42") none).start s).Runs
      (replied (pageRoute (reviewCommentsRoute quotedPr "42") 1) (.arr [quotedItem]))
      (.ok [quotedItem],none) := runs_pages rfl (by decide) s
  rw [← List.append_nil (replied _ _),← List.append_nil ([] : Log)]
  refine runs_seq hpages ?_
  refine runs_then quoted_texts.item ?_
  refine runs_then quoted_texts.parent ?_
  refine runs_then quoted_texts.issues ?_
  refine runs_seq (quoted_disposed none) ?_
  rw [hcandidate,hpolicy]
  exact .ret _

/-- All the replies of an inspection that lists these reviews. -/
def quotedLog (reviews : List Json) : Log :=
  replied (pageRoute (reviewsRoute quotedPr) 1) (.arr reviews) ++
    (replied (pageRoute (issueComments quotedPr) 1) (.arr quotedComments) ++
      (replied (permissionRoute quotedPr "maintainer") maintainerPermission ++
        replied (pageRoute (reviewCommentsRoute quotedPr "42") 1) (.arr [quotedItem])))

theorem quoted_runs {reviews : List Json} (known : List String) {localIntent : Option Intent}
    (hlength : reviews.length < 100) (hknown : reviews.mapM reviewId = .ok known)
    (hlocal : localIntent.all (·.id = quotedIntent.id) = true)
    (hcandidate : (localIntent.getD quotedIntent).candidate.base = quotedCandidate.base)
    (hpolicy : (localIntent.getD quotedIntent).policyDigest = quotedIntent.policyDigest)
    (hparent : parentReview quotedTime quotedCandidate quotedPolicy (localIntent.getD quotedIntent)
      (some 1767225600) reviews = some quotedParent) :
    ((inspect quotedTime quotedWeb quotedCandidate quotedPolicy localIntent).start none).Runs
      (quotedLog reviews)
      (.ok ⟨known,some quotedIntent,some quotedUrl,some clearedReview⟩,none) := by
  have hchosen : localIntent.or (some quotedIntent) = some (localIntent.getD quotedIntent) := by
    cases localIntent <;> rfl
  have hanswer : (((localIntent.or (some quotedIntent)).filter fun _ => (some quotedUrl).isSome).bind
      fun intent => (parentReview quotedTime quotedCandidate quotedPolicy intent (some 1767225600)
        reviews).map (intent,·)) = some (localIntent.getD quotedIntent,quotedParent) := by
    rw [hchosen]
    change (parentReview quotedTime quotedCandidate quotedPolicy (localIntent.getD quotedIntent)
      (some 1767225600) reviews).map _ = _
    rw [hparent]
    rfl
  have hevaluated : ((evaluated quotedTime quotedWeb quotedPr quotedCandidate quotedPolicy
      (some 1767225600) quotedComments [("maintainer",true)]
      (some (localIntent.getD quotedIntent,quotedParent))).start none).Runs
      (replied (pageRoute (reviewCommentsRoute quotedPr "42") 1) (.arr [quotedItem]) ++ [])
      (.ok (some clearedReview),none) :=
    runs_seq (quoted_evaluated localIntent none hcandidate hpolicy) (.ret _)
  rw [List.append_nil] at hevaluated
  unfold inspect quotedLog
  rw [if_neg (by decide)]
  refine runs_then quotedPr_parsed ?_
  refine runs_seq (runs_pages rfl hlength none) ?_
  refine runs_then hknown ?_
  refine runs_seq (runs_pages rfl (by decide) none) ?_
  refine runs_seq (quoted_scanned localIntent hlocal none) ?_
  dsimp only
  rw [hanswer,← List.append_nil (replied (pageRoute (reviewCommentsRoute quotedPr "42") 1) _)]
  exact runs_seq hevaluated (.ret _)

/-- A review is cleared by the disposition of its only finding. -/
theorem cleared_approved : ∃ pr reviews comments inline permissions request parent asked requestedAt,
    PullRequest.parse quotedWeb quotedCandidate.url = .ok pr ∧
    Said (quotedLog [quotedParent]) (pages quotedWeb (reviewsRoute pr) none) reviews ∧
    Said (quotedLog [quotedParent]) (pages quotedWeb (issueComments pr) none) comments ∧
    Said (quotedLog [quotedParent])
      (pages quotedWeb (reviewCommentsRoute pr clearedReview.id) none) inline ∧
    Backed quotedWeb pr (quotedLog [quotedParent]) permissions ∧ some quotedIntent = some asked ∧
    Approved quotedTime quotedWeb quotedCandidate quotedPolicy none permissions reviews comments
      inline clearedReview request parent asked requestedAt :=
  inspect_approves (quoted_runs ["42"] (by decide) (by decide +kernel) rfl rfl rfl
    (by decide +kernel)) rfl rfl

def lateReview : Json :=
  botReview 43 "CHANGES_REQUESTED" "2026-01-03T00:00:00Z" "The comment is still open."

/-- The forge lists a later review before the one it answers with, and a request of the same
identity was dispatched with another baseline. -/
theorem late_review_unseen :
    let dispatched : Intent := { quotedIntent with baselineReviewIds := ["40","41"] }
    ((inspect quotedTime quotedWeb quotedCandidate quotedPolicy (some dispatched)).start none).Runs
      (quotedLog [lateReview,quotedParent])
      (.ok ⟨["43","42"],some quotedIntent,some quotedUrl,some clearedReview⟩,none) ∧
    clearedReview.findings = [] ∧ text quotedParent ["body"] = .ok "\n" ∧
    reviewerReview quotedCandidate quotedPolicy dispatched lateReview = true ∧
    (∃ s t s' t', text lateReview ["submitted_at"] = .ok s ∧ quotedTime s = some t ∧
      text quotedParent ["submitted_at"] = .ok s' ∧ quotedTime s' = some t' ∧ t' < t) ∧
    text lateReview ["state"] = .ok "CHANGES_REQUESTED" ∧
    (∀ permissions, ∀ c ∈ quotedComments, ∀ body, ¬ DisposedOf quotedWeb quotedCandidate quotedPolicy
      "43" permissions "review-43" body c) ∧
    ∀ c ∈ quotedComments, ∀ body, text c ["body"] = .ok body →
      marker readIntent body requestMarker ≠ some dispatched := by
  refine ⟨quoted_runs _ (by decide) (by decide +kernel) (by decide +kernel) rfl rfl (by decide +kernel),
    rfl,rfl,by decide +kernel,⟨"2026-01-03T00:00:00Z",1767398400,"2026-01-02T00:00:00Z",1767312000,
      rfl,by decide +kernel,rfl,by decide +kernel,by decide⟩,rfl,?_,?_⟩
  · intro permissions c hc body hd
    obtain ⟨t,d,ht,hread,-,-,-,hreview,-⟩ := hd.recorded
    simp only [quotedComments,List.mem_cons,List.not_mem_nil,or_false] at hc
    rcases hc with rfl | rfl
    · obtain rfl : greptileRequest quotedIntent = t := Except.ok.inj ht
      rw [quotedRequest_other] at hread
      cases hread
    · obtain rfl : dispositionComment (quoted "It is closed on line 4.") = t := Except.ok.inj ht
      rw [quotedDisposition_read] at hread
      obtain rfl := Option.some.inj hread
      exact absurd hreview (by decide)
  · intro c hc body hbody
    simp only [quotedComments,List.mem_cons,List.not_mem_nil,or_false] at hc
    rcases hc with rfl | rfl
    · obtain rfl : greptileRequest quotedIntent = body := Except.ok.inj hbody
      rw [quotedIntent_read]
      decide
    · obtain rfl : dispositionComment (quoted "It is closed on line 4.") = body := Except.ok.inj hbody
      rw [quotedAnswer_other]
      decide

end Greptile
end CanixToolbelt
