import CanixToolbelt.ReviewInspect

/-! The roborev adapter: among the receipts that the trusted coordinator posted for a request,
the newest one decides, and it has to be complete. -/
namespace CanixToolbelt
namespace Roborev
open Effect Json Review Forge Receipt Marker Inspect Script Fallible Delimited

/-! ## Receipts in comments -/

def receiptId (comment : Json) : Except Error String := do
  let id ← number comment ["id"]
  pure ("roborev-comment-" ++ toString id)

/-- A comment of the coordinator that starts as a receipt. -/
def trusted (policy : Policy) (comment : Json) : Bool :=
  userId comment = some policy.reviewerId && bot comment &&
    ((comment.get? "body").bind asStr).any fun body =>
      resultMarker.toList.isPrefixOf body.toList

/-- The receipt of a comment; one that is cut or altered is an error. -/
def receiptOf (body : String) : Except Error RoborevReceipt :=
  if body.utf8ByteSize > maxReceiptBytes then
    .error (.other "oversized roborev receipt; complete findings cannot be established")
  else match (stripPrefix resultMarker.toList body.toList).bind (stripSuffix closing) with
  | none => .error (.other "incomplete roborev receipt marker")
  | some json =>
    match (source json).bind readReceipt with
    | none => .error (.other "malformed or unsupported roborev receipt")
    | some receipt => .ok receipt

def commentId (comment : Json) : Option ℕ := (comment.get? "id").bind asU64

/-- A receipt, the comment it stands in and when that was last edited. -/
structure Selected where
  comment : Json
  receipt : RoborevReceipt
  observed : ℤ
  deriving DecidableEq

/-- Later by time, and by identity at the same time. -/
def Selected.later (a b : Selected) : Bool :=
  b.observed < a.observed ||
    (a.observed = b.observed && newer (commentId a.comment) (commentId b.comment))

section
variable (rfc3339 : String → Option ℤ)

/-- The newer of the receipt selected so far and the one in a comment, if that answers the
request. -/
def selectReceipt (intent : Intent) (requestedAt : ℤ) (selected : Option Selected) (comment : Json) :
    Except Error (Option Selected) := do
  let body ← text comment ["body"]
  let receipt ← receiptOf body
  let observed ← observedAt rfc3339 comment
  if receipt.requestId ≠ intent.id then pure selected
  else do
    let id ← receiptId comment
    if id ∈ intent.baselineReviewIds then pure selected
    else do
      let value ← text comment ["created_at"]
      let created ← timestamp rfc3339 value
      if created < requestedAt then pure selected
      else
        let this : Selected := ⟨comment,receipt,observed⟩
        pure (if selected.all this.later then some this else selected)

/-! ## Inspection -/

section
variable (web : Web) (pr : PullRequest) (candidate : Candidate) (policy : Policy)

def scanRequest (localIntent : Option Intent) (found : Option (Json × Intent) × Permissions)
    (comment : Json) : Hub (Option (Json × Intent) × Permissions) := do
  let (intent,permissions) ← requested web pr candidate policy localIntent comment found.2
  match intent with
  | none => pure (found.1,permissions)
  | some intent =>
    if found.1.all fun old => newer (commentId comment) (commentId old.1) then do
      let _ ← checked (number comment ["id"])
      pure (some (comment,intent),permissions)
    else pure (found.1,permissions)

/-- The findings of a document, each named by its place and content. -/
def findingsOf (id url : String) (document : RoborevDocument) : List Finding :=
  document.findings.zipIdx.map fun (finding,index) =>
    let body := String.ofList finding.json.render
    ⟨id ++ "/" ++ toString (index + 1) ++ "-" ++ web.hexDigest body.toList,body,finding.location,none,
      some finding.severity,false,true,url⟩

/-- The receipt as evidence, without the findings that writers disposed of. -/
def receiptEvaluation (intent : Intent) (comments : List Json) (permissions : Permissions)
    (selected : Selected) : Hub Evaluation := do
  let result := selected.receipt
  checked (result.validate web.platform intent policy)
  let id ← checked (receiptId selected.comment)
  let url ← checked (text selected.comment ["html_url"])
  match result.document with
  | none => fail "missing canonical review document"
  | some document => do
    let (findings,_) ← comments.foldlM (dispose web pr candidate policy id)
      (findingsOf web id url document,permissions)
    pure ⟨id,result.jobId.map toString,result.reviewId.map toString,"roborev",some result.reviewedHead,
      some intent.candidate.base,some result.reviewedBase,result.policyDigest,true,true,findings,url⟩

/-- The evaluation of the newest receipt of the request, if there is one. -/
def evaluated (comments : List Json) (permissions : Permissions) :
    Option (Intent × Json) → Hub (Option Evaluation)
  | none => pure none
  | some (intent,request) => do
    let requestedAt ← checked (observedAt rfc3339 request)
    let selected ← checked
      ((comments.filter (trusted policy)).foldlM (selectReceipt rfc3339 intent requestedAt) none)
    match selected with
    | none => pure none
    | some selected => do
      let review ← receiptEvaluation web pr candidate policy intent comments permissions selected
      pure (some review)

end

def inspect (web : Web) (candidate : Candidate) (policy : Policy) (localIntent : Option Intent) :
    Hub Evidence := do
  if policy.provider ≠ "roborev" ∨ policy.transport ≠ "github-receipt-v1" then
    fail "roborev adapter requires an explicitly selected receipt policy"
  else do
    checked policy.validate
    let _ ← checked policy.policyAppId
    checked (candidate.validate web.platform)
    let pr ← checked (PullRequest.parse web candidate.url)
    let comments ← pages web (issueComments pr) none
    let (request,permissions) ← comments.foldlM
      (scanRequest web pr candidate policy localIntent) (none,[])
    let knownReviewIds ← checked ((comments.filter (trusted policy)).mapM receiptId)
    let requestReceipt ← checked (request.mapM fun r => text r.1 ["html_url"])
    let recovered := request.map Prod.snd
    let asked := (localIntent.or recovered).bind fun intent => request.map fun r => (intent,r.1)
    let review ← evaluated rfc3339 web pr candidate policy comments permissions asked
    pure ⟨knownReviewIds,recovered,requestReceipt,review⟩

end
/-! Inspection only reads. -/

section
variable {rfc3339 : String → Option ℤ} {web : Web} {pr : PullRequest} {candidate : Candidate}
  {policy : Policy}

theorem scanRequest_reads (localIntent : Option Intent)
    (found : Option (Json × Intent) × Permissions) (comment : Json) :
    (scanRequest web pr candidate policy localIntent found comment).Uses Reads := by
  apply uses_bind (requested_reads _ _ _ _ _)
  rintro ⟨intent,permissions⟩
  cases intent with
  | none => exact uses_pure _
  | some intent =>
    dsimp only
    split
    · exact uses_bind (checked_reads _) fun id => uses_pure _
    · exact uses_pure _

theorem receiptEvaluation_reads (intent : Intent) (comments : List Json) (permissions : Permissions)
    (selected : Selected) :
    (receiptEvaluation web pr candidate policy intent comments permissions selected).Uses Reads := by
  apply uses_bind (checked_reads _)
  intro _
  apply uses_bind (checked_reads _)
  intro id
  apply uses_bind (checked_reads _)
  intro url
  split
  · exact fail_reads _
  · apply uses_bind (uses_foldlM (fun found comment => dispose_reads _ _ _ found comment) _ _)
    exact fun left => uses_pure _

theorem evaluated_reads (comments : List Json) (permissions : Permissions)
    (asked : Option (Intent × Json)) :
    (evaluated rfc3339 web pr candidate policy comments permissions asked).Uses Reads := by
  unfold evaluated
  split
  · exact uses_pure _
  · apply uses_bind (checked_reads _)
    intro requestedAt
    apply uses_bind (checked_reads _)
    intro selected
    split
    · exact uses_pure _
    · exact uses_bind (receiptEvaluation_reads _ _ _ _) fun review => uses_pure _

theorem inspect_reads (localIntent : Option Intent) :
    (inspect rfc3339 web candidate policy localIntent).Uses Reads := by
  unfold inspect
  split
  · exact fail_reads _
  apply uses_bind (checked_reads _)
  intro _
  apply uses_bind (checked_reads _)
  intro app
  apply uses_bind (checked_reads _)
  intro _
  apply uses_bind (checked_reads _)
  intro pr
  apply uses_bind (pages_reads _ _)
  intro comments
  apply uses_bind (uses_foldlM (fun found comment => scanRequest_reads _ found comment) _ _)
  rintro ⟨request,permissions⟩
  dsimp only
  apply uses_bind (checked_reads _)
  intro known
  apply uses_bind (checked_reads _)
  intro receipt
  exact uses_bind (evaluated_reads _ _ _) fun review => uses_pure _

end

/-- The adapter that the merge gate asks. -/
def provider (rfc3339 : String → Option ℤ) (web : Web) : Provider where
  inspect := inspect rfc3339 web
  reads := fun _ _ localIntent => inspect_reads localIntent

/-! ## A receipt reads back from its comment -/

/-- The numbers fit the machine words they are kept in. -/
structure Fits (r : RoborevReceipt) : Prop where
  schemaVersion : r.schemaVersion < 2^32
  jobId : ∀ n ∈ r.jobId, n < 2^64
  reviewId : ∀ n ∈ r.reviewId, n < 2^64
  document : ∀ d ∈ r.document, d.schemaVersion < 2^32 ∧ ∀ f ∈ d.findings, ∀ n ∈ f.sources, n < 2^64

theorem asU64_nat {n : ℕ} (h : n < 2^64) : asU64 (.int n) = some n := if_pos (by omega)

/-- Numbers as they stand in a receipt. -/
def numbers (ns : List ℕ) : Json := .arr (ns.map fun n => .int n)

theorem numbers_eq (ns : List ℕ) : numbers ns = .arr (ns.map fun n : ℕ => .int n) := by
  unfold numbers
  congr 1
  induction ns with
  | nil => rfl
  | cons n ns ih => exact congrArg (Json.int n :: ·) ih

theorem numbers_read {ns : List ℕ} (h : ∀ n ∈ ns, n < 2^64) : list asU64 (numbers ns) = some ns := by
  rw [numbers_eq]
  exact list_map fun n hn => asU64_nat (h n hn)

theorem numbers_written {ns : List ℕ} (h : ∀ n ∈ ns, n < 2^64) (d : ℕ) :
    Written (d+1) (numbers ns) := by
  rw [numbers_eq]
  refine .arr fun x hx => ?_
  obtain ⟨n,hn,rfl⟩ := List.mem_map.mp hx
  exact nat_written (h n hn)

theorem finding_read {f : RoborevFinding} (h : ∀ n ∈ f.sources, n < 2^64) :
    readFinding f.json = some f := by
  obtain ⟨severity,problem,fix,location,sources⟩ := f
  have hlocation : nullable asStr (location.elim .null .str) = some location :=
    nullable_some (by simp) (by simp [asStr])
  by_cases hsources : sources = []
  · subst hsources
    change (nullable asStr (location.elim .null .str)).bind (fun location =>
      some (⟨severity,problem,fix,location,[]⟩ : RoborevFinding)) = _
    rw [hlocation]
    rfl
  · have hnumbers := numbers_read h
    unfold RoborevFinding.json
    rw [if_neg hsources]
    change (nullable asStr (location.elim .null .str)).bind (fun location =>
      (list asU64 (numbers sources)).bind fun sources =>
        some (⟨severity,problem,fix,location,sources⟩ : RoborevFinding)) = _
    rw [hlocation,hnumbers]
    rfl

theorem document_read {d : RoborevDocument} (hversion : d.schemaVersion < 2^32)
    (h : ∀ f ∈ d.findings, ∀ n ∈ f.sources, n < 2^64) : readDocument d.json = some d := by
  obtain ⟨version,summary,verdict,findings,labels⟩ := d
  have hnumber : asU32 (.int version) = some version := asU32_nat hversion
  have hfindings : list readFinding (.arr (findings.map RoborevFinding.json)) = some findings :=
    list_map fun f hf => finding_read (h f hf)
  by_cases hlabels : labels = []
  · subst hlabels
    change (asU32 (.int version)).bind (fun version =>
      (list readFinding (.arr (findings.map RoborevFinding.json))).bind fun findings =>
        some (⟨version,summary,verdict,findings,[]⟩ : RoborevDocument)) = _
    rw [hnumber,hfindings]
    rfl
  · have hnames : list asStr (.arr (labels.map .str)) = some labels := list_map fun _ _ => rfl
    unfold RoborevDocument.json
    rw [if_neg hlabels]
    change (asU32 (.int version)).bind (fun version =>
      (list readFinding (.arr (findings.map RoborevFinding.json))).bind fun findings =>
        (list asStr (.arr (labels.map .str))).bind fun labels =>
          some (⟨version,summary,verdict,findings,labels⟩ : RoborevDocument)) = _
    rw [hnumber,hfindings,hnames]
    rfl

theorem optional_read {o : Option ℕ} (h : ∀ n ∈ o, n < 2^64) :
    nullable asU64 (optional o) = some o :=
  nullable_some (by simp) fun n hn => asU64_nat (h n hn)

theorem receipt_read {r : RoborevReceipt} (h : Fits r) : readReceipt r.json = some r := by
  obtain ⟨version,requestId,candidate,policyDigest,jobId,reviewId,head,base,status,complete,
    document⟩ := r
  have hversion : asU32 (.int version) = some version := asU32_nat h.schemaVersion
  have hcandidate : readCandidate (candidateJson candidate) = some candidate :=
    readCandidate_json candidate
  have hjob : nullable asU64 (optional jobId) = some jobId := optional_read h.jobId
  have hreview : nullable asU64 (optional reviewId) = some reviewId := optional_read h.reviewId
  have hdocument : nullable readDocument (document.elim .null RoborevDocument.json) = some document :=
    nullable_some (fun d _ hd => by cases hd) fun d hd =>
      document_read (h.document d hd).1 (h.document d hd).2
  change (asU32 (.int version)).bind (fun version =>
    (readCandidate (candidateJson candidate)).bind fun candidate =>
      (nullable asU64 (optional jobId)).bind fun jobId =>
        (nullable asU64 (optional reviewId)).bind fun reviewId =>
          (nullable readDocument (document.elim .null RoborevDocument.json)).bind fun document =>
            some (⟨version,requestId,candidate,policyDigest,jobId,reviewId,head,base,status,complete,
              document⟩ : RoborevReceipt)) = _
  rw [hversion,hcandidate,hjob,hreview,hdocument]
  rfl

theorem optional_written {d : ℕ} {o : Option ℕ} (h : ∀ n ∈ o, n < 2^64) :
    Written d (optional o) := by
  cases o with
  | none => exact .null
  | some n => exact nat_written (h n rfl)

theorem finding_written {f : RoborevFinding} (h : ∀ n ∈ f.sources, n < 2^64) :
    Written 2 f.json := by
  refine .obj fun x hx => ?_
  have hlocation : Written 1 (f.location.elim .null .str) := by
    cases f.location with
    | none => exact .null
    | some s => exact .str s
  have hsources : Written 1 (numbers f.sources) := numbers_written h 0
  rcases List.mem_append.mp hx with hx | hx
  · simp only [List.mem_cons,List.not_mem_nil,or_false] at hx
    rcases hx with rfl | rfl | rfl | rfl
    · exact .str _
    · exact .str _
    · exact .str _
    · exact hlocation
  · split at hx
    · cases hx
    · rw [List.mem_singleton.mp hx]
      exact hsources

theorem document_written {d : RoborevDocument} (hversion : d.schemaVersion < 2^32)
    (h : ∀ f ∈ d.findings, ∀ n ∈ f.sources, n < 2^64) : Written 4 d.json := by
  refine .obj fun x hx => ?_
  have hfindings : Written 3 (.arr (d.findings.map RoborevFinding.json)) := by
    refine .arr fun y hy => ?_
    obtain ⟨f,hf,rfl⟩ := List.mem_map.mp hy
    exact finding_written (h f hf)
  rcases List.mem_append.mp hx with hx | hx
  · simp only [List.mem_cons,List.not_mem_nil,or_false] at hx
    rcases hx with rfl | rfl | rfl | rfl
    · exact nat_written (by omega)
    · exact .str _
    · exact .str _
    · exact hfindings
  · split at hx
    · cases hx
    · rw [List.mem_singleton.mp hx]
      exact strings_written 2 _

theorem receipt_written {r : RoborevReceipt} (h : Fits r) : Written 5 r.json := by
  refine .obj fun x hx => ?_
  have hdocument : Written 4 (r.document.elim .null RoborevDocument.json) := by
    cases hd : r.document with
    | none => exact .null
    | some d => exact document_written (h.document d hd).1 (h.document d hd).2
  have hversion := h.schemaVersion
  simp only [List.mem_cons,List.not_mem_nil,or_false] at hx
  rcases hx with rfl | rfl | rfl | rfl | rfl | rfl | rfl | rfl | rfl | rfl | rfl
  · exact nat_written (by omega)
  · exact .str _
  · exact (candidate_written _).mono (by omega)
  · exact .str _
  · exact optional_written h.jobId
  · exact optional_written h.reviewId
  · exact .str _
  · exact .str _
  · exact .str _
  · exact .bool _
  · exact hdocument

/-- A published receipt is one comment, within its bound and validated, from which the same
receipt is read. -/
theorem comment_read {platform : Platform} {r : RoborevReceipt} {intent : Intent} {policy : Policy}
    {body : String} (hr : Fits r) (h : r.comment platform intent policy = .ok body) :
    receiptOf body = .ok r ∧ r.validateBinding platform intent policy = .ok () ∧
      (r.status = "done" → r.validate platform intent policy = .ok ()) := by
  unfold RoborevReceipt.comment at h
  obtain ⟨⟨⟩,hbinding,h⟩ := bind_ok h
  have hrest : (r.status = "done" → r.validate platform intent policy = .ok ()) ∧
      (resultMarker ++ String.ofList r.json.render ++ " -->").utf8ByteSize ≤ maxReceiptBytes ∧
      body = resultMarker ++ String.ofList r.json.render ++ " -->" := by
    by_cases hdone : r.status = "done"
    · rw [if_pos hdone] at h
      obtain ⟨⟨⟩,hvalid,h⟩ := bind_ok h
      obtain ⟨u,hsize,h⟩ := bind_ok h
      cases h
      exact ⟨fun _ => hvalid,require_ok hsize,rfl⟩
    · rw [if_neg hdone] at h
      obtain ⟨u,hsize,h⟩ := bind_ok h
      cases h
      exact ⟨fun hd => absurd hd hdone,require_ok hsize,rfl⟩
  obtain ⟨hdone,hsize,rfl⟩ := hrest
  refine ⟨?_,hbinding,hdone⟩
  have htext : (resultMarker ++ String.ofList r.json.render ++ " -->").toList =
      resultMarker.toList ++ (r.json.render ++ closing) := by
    simp [closing]
  unfold receiptOf
  rw [if_neg (not_lt.mpr hsize),htext,stripPrefix_append,Option.bind_some,stripSuffix_append]
  dsimp only
  rw [source_render ((receipt_written hr).mono (by omega)),Option.bind_some,receipt_read hr]

/-! ## The newest receipt of a request -/

theorem Selected.later_of_later {a b c : Selected} (hb : b.later a = true) (hc : c.later a = false) :
    c.later b = false := by
  unfold Selected.later at hb hc ⊢
  cases ha : commentId a.comment <;> cases hb' : commentId b.comment <;>
    cases hc' : commentId c.comment <;> simp [ha,hb',hc',newer] at hb hc ⊢ <;> omega

theorem Selected.later_self (a : Selected) : a.later a = false := by
  unfold Selected.later
  cases ha : commentId a.comment <;> simp [newer]

section
variable {rfc3339 : String → Option ℤ} {web : Web} {pr : PullRequest} {candidate : Candidate}
  {policy : Policy} {intent : Intent} {localIntent : Option Intent} {requestedAt : ℤ}
  {log es : Log} {ps qs : Permissions}

/-- A comment answers a request with its receipt: for the same identity, not known before, and
created after the request. -/
structure Answers (rfc3339 : String → Option ℤ) (intent : Intent) (requestedAt : ℤ) (a : Selected) :
    Prop where
  receipt : ∃ body, text a.comment ["body"] = .ok body ∧ receiptOf body = .ok a.receipt
  observed : observedAt rfc3339 a.comment = .ok a.observed
  request : a.receipt.requestId = intent.id
  fresh : ∃ id, receiptId a.comment = .ok id ∧ id ∉ intent.baselineReviewIds
  created : ∃ s t, text a.comment ["created_at"] = .ok s ∧ rfc3339 s = some t ∧ requestedAt ≤ t

theorem Answers.unique {a b : Selected} (ha : Answers rfc3339 intent requestedAt a)
    (hb : Answers rfc3339 intent requestedAt b) (h : a.comment = b.comment) : a = b := by
  obtain ⟨comment,receipt,observed⟩ := a
  obtain ⟨comment',receipt',observed'⟩ := b
  obtain rfl : comment = comment' := h
  obtain ⟨body,hbody,hreceipt⟩ := ha.receipt
  obtain ⟨body',hbody',hreceipt'⟩ := hb.receipt
  have htime := ha.observed.symm.trans hb.observed
  simp only at hbody hbody' hreceipt hreceipt' htime
  obtain rfl : body = body' := Except.ok.inj (hbody.symm.trans hbody')
  obtain rfl : receipt = receipt' := Except.ok.inj (hreceipt.symm.trans hreceipt')
  obtain rfl : observed = observed' := Except.ok.inj htime
  rfl

/-- The receipt in a comment is neither cut nor altered. -/
def WellFormed (comment : Json) : Prop :=
  ∃ body receipt, text comment ["body"] = .ok body ∧ receiptOf body = .ok receipt

theorem timestamp_ok {s : String} {t : ℤ} (h : timestamp rfc3339 s = .ok t) : rfc3339 s = some t := by
  unfold timestamp at h
  cases hs : rfc3339 s with
  | none =>
    rw [hs] at h
    cases h
  | some u =>
    rw [hs] at h
    exact congrArg some (Except.ok.inj h)

/-- One comment is passed over, or answers and is compared with the one selected. -/
theorem selectReceipt_ok {selected selected' : Option Selected} {c : Json}
    (h : selectReceipt rfc3339 intent requestedAt selected c = .ok selected') :
    WellFormed c ∧
      ((selected' = selected ∧ ∀ b, b.comment = c → Answers rfc3339 intent requestedAt b →
        ∃ a, selected = some a ∧ b.later a = false) ∨
      ∃ b, b.comment = c ∧ Answers rfc3339 intent requestedAt b ∧ selected' = some b ∧
        ∀ a, selected = some a → b.later a = true) := by
  unfold selectReceipt at h
  obtain ⟨body,hbody,h⟩ := bind_ok h
  obtain ⟨receipt,hreceipt,h⟩ := bind_ok h
  obtain ⟨observed,hobserved,h⟩ := bind_ok h
  refine ⟨⟨body,receipt,hbody,hreceipt⟩,?_⟩
  -- whatever answers from this comment is this receipt
  have hthis : ∀ b : Selected, b.comment = c → Answers rfc3339 intent requestedAt b →
      b = ⟨c,receipt,observed⟩ := by
    rintro ⟨comment,receipt',observed'⟩ hc hb
    obtain rfl : comment = c := hc
    obtain ⟨body',hbody',hreceipt'⟩ := hb.receipt
    have htime := hb.observed
    simp only at hbody' hreceipt' htime
    obtain rfl : body = body' := Except.ok.inj (hbody.symm.trans hbody')
    obtain rfl : receipt = receipt' := Except.ok.inj (hreceipt.symm.trans hreceipt')
    obtain rfl : observed = observed' := Except.ok.inj (hobserved.symm.trans htime)
    rfl
  split at h
  · rename_i hother
    cases h
    left
    refine ⟨rfl,fun b hb hanswers => absurd ?_ hother⟩
    have hrequest := hanswers.request
    rwa [hthis b hb hanswers] at hrequest
  rename_i hrequest
  obtain ⟨id,hid,h⟩ := bind_ok h
  split at h
  · rename_i hknown
    cases h
    left
    refine ⟨rfl,fun b hb hanswers => ?_⟩
    obtain ⟨id',hid',hfresh⟩ := hanswers.fresh
    rw [hb,hid] at hid'
    cases hid'
    exact absurd hknown hfresh
  rename_i hfresh
  obtain ⟨value,hvalue,h⟩ := bind_ok h
  obtain ⟨created,hcreated,h⟩ := bind_ok h
  split at h
  · rename_i hearly
    cases h
    left
    refine ⟨rfl,fun b hb hanswers => ?_⟩
    obtain ⟨s,t,hs,ht,hle⟩ := hanswers.created
    rw [hb,hvalue] at hs
    cases hs
    rw [timestamp_ok hcreated] at ht
    cases ht
    exact absurd hearly (not_lt.mpr hle)
  rename_i hlate
  have hanswers : Answers rfc3339 intent requestedAt ⟨c,receipt,observed⟩ :=
    ⟨⟨body,hbody,hreceipt⟩,hobserved,not_not.mp hrequest,⟨id,hid,hfresh⟩,
      ⟨value,created,hvalue,timestamp_ok hcreated,not_lt.mp hlate⟩⟩
  cases h
  by_cases hall : selected.all (Selected.later ⟨c,receipt,observed⟩) = true
  · right
    refine ⟨_,rfl,hanswers,if_pos hall,fun a ha => ?_⟩
    rw [ha] at hall
    exact hall
  · left
    refine ⟨if_neg hall,fun b hb hb' => ?_⟩
    rw [hthis b hb hb']
    cases selected with
    | none => exact absurd rfl hall
    | some a => exact ⟨a,rfl,Bool.eq_false_iff.mpr hall⟩

/-- The newest of the receipts that answer a request. -/
structure Newest (rfc3339 : String → Option ℤ) (policy : Policy) (intent : Intent) (requestedAt : ℤ)
    (comments : List Json) (a : Selected) : Prop where
  mem : a.comment ∈ comments
  trusted_ : trusted policy a.comment = true
  answers : Answers rfc3339 intent requestedAt a
  newest : ∀ b : Selected, b.comment ∈ comments → trusted policy b.comment = true →
    Answers rfc3339 intent requestedAt b → b.later a = false

/-- What a scan of receipts selects. -/
theorem selectReceipts_ok {comments : List Json} {selected : Option Selected}
    (h : (comments.filter (trusted policy)).foldlM (selectReceipt rfc3339 intent requestedAt) none =
      .ok selected) :
    (∀ c ∈ comments, trusted policy c = true → WellFormed c) ∧
      (∀ a, selected = some a → Newest rfc3339 policy intent requestedAt comments a) ∧
      (selected = none → ∀ b : Selected, b.comment ∈ comments → trusted policy b.comment = true →
        ¬ Answers rfc3339 intent requestedAt b) := by
  have hall := foldlM_establishes (I := fun selected => ∀ a, selected = some a → a.comment ∈ comments.filter (trusted policy) ∧
      Answers rfc3339 intent requestedAt a)
    (R := fun c selected => WellFormed c ∧ ∀ b : Selected, b.comment = c →
      Answers rfc3339 intent requestedAt b → ∃ a, selected = some a ∧ b.later a = false)
    (by simp) ?_ ?_ h
  · obtain ⟨hselected,hothers⟩ := hall
    refine ⟨fun c hc htrusted => (hothers c (List.mem_filter.mpr ⟨hc,htrusted⟩)).1,fun a ha => ?_,?_⟩
    · obtain ⟨hmem,hanswers⟩ := hselected a ha
      obtain ⟨hmem,htrusted⟩ := List.mem_filter.mp hmem
      refine ⟨hmem,htrusted,hanswers,fun b hb hbt hba => ?_⟩
      obtain ⟨a',ha',hlater⟩ := (hothers b.comment (List.mem_filter.mpr ⟨hb,hbt⟩)).2 b rfl hba
      rw [ha] at ha'
      obtain rfl := Option.some.inj ha'
      exact hlater
    · intro hnone b hb hbt hba
      obtain ⟨a,ha,-⟩ := (hothers b.comment (List.mem_filter.mpr ⟨hb,hbt⟩)).2 b rfl hba
      rw [hnone] at ha
      cases ha
  · intro s t c hc hs hstep
    obtain ⟨hformed,⟨rfl,hold⟩ | ⟨b,hb,hanswers,rfl,hlater⟩⟩ := selectReceipt_ok hstep
    · exact ⟨hs,hformed,hold⟩
    · refine ⟨fun a ha => ?_,hformed,fun b' hb' hanswers' => ?_⟩
      · obtain rfl := Option.some.inj ha
        rw [hb]
        exact ⟨hc,hanswers⟩
      · rw [hanswers'.unique hanswers (hb'.trans hb.symm)]
        exact ⟨b,rfl,b.later_self⟩
  · intro s t c hc d hd hs hR hstep
    refine ⟨hR.1,fun b hb hanswers => ?_⟩
    obtain ⟨a,ha,hlater⟩ := hR.2 b hb hanswers
    obtain ⟨-,⟨rfl,-⟩ | ⟨e,he,hanswers',rfl,hnew⟩⟩ := selectReceipt_ok hstep
    · exact ⟨a,ha,hlater⟩
    · exact ⟨e,rfl,Selected.later_of_later (hnew a ha) hlater⟩

/-! ## Inspections -/

/-- What is known once some comments were scanned for requests. -/
structure Scanned (web : Web) (pr : PullRequest) (candidate : Candidate) (policy : Policy)
    (localIntent : Option Intent) (done : List Json)
    (found : Option (Json × Intent) × Permissions) (log : Log) : Prop where
  asked : Asked web pr candidate policy localIntent done found.2 log
  newest : ∀ c ∈ done, ∀ i, Requests web candidate policy localIntent found.2 c i →
    ∃ r, found.1 = some r ∧ newer (commentId c) (commentId r.1) = false
  request : ∀ r, found.1 = some r → r.1 ∈ done ∧
    Requests web candidate policy localIntent found.2 r.1 r.2 ∧ ∃ n, number r.1 ["id"] = .ok n

theorem newer_of_newer {x y z : Option ℕ} (hy : newer y x = true) (hz : newer z x = false) :
    newer z y = false := by
  cases x <;> cases y <;> cases z <;> simp [newer] at hy hz ⊢ <;> omega

theorem newer_self (x : Option ℕ) : newer x x = false := by
  cases x <;> simp [newer]

theorem Scanned.keep {done : List Json} {found : Option (Json × Intent)} {c : Json} {log' : Log}
    (h : Scanned web pr candidate policy localIntent done (found,ps) log) (hext : Extends ps qs)
    (hasked : Asked web pr candidate policy localIntent (done ++ [c]) qs log')
    (hnewest : ∀ i, Requests web candidate policy localIntent qs c i →
      ∃ r, found = some r ∧ newer (commentId c) (commentId r.1) = false) :
    Scanned web pr candidate policy localIntent (done ++ [c]) (found,qs) log' := by
  refine ⟨hasked,fun a ha i hi => ?_,fun r hr => ?_⟩
  · rcases List.mem_append.mp ha with ha | ha
    · exact h.newest a ha i ((h.asked.requests hext ha i).mp hi)
    · rw [List.mem_singleton.mp ha] at hi ⊢
      exact hnewest i hi
  · obtain ⟨hmem,hi,hn⟩ := h.request r hr
    exact ⟨List.mem_append_left _ hmem,(h.asked.requests hext hmem _).mpr hi,hn⟩

theorem scanRequest_ran {done : List Json} {found found' : Option (Json × Intent)} {c : Json}
    (h : Scanned web pr candidate policy localIntent done (found,ps) log)
    (hran : Ran (scanRequest web pr candidate policy localIntent (found,ps) c) es (found',qs)) :
    Scanned web pr candidate policy localIntent (done ++ [c]) (found',qs) (log ++ es) := by
  unfold scanRequest at hran
  obtain ⟨⟨o,rs⟩,es₁,es₂,rfl,hreq,hran⟩ := ran_bind hran
  obtain ⟨hasked,hext,hrequests⟩ := h.asked.next hreq
  cases o with
  | none =>
    obtain ⟨rfl,hret⟩ := ran_pure hran
    cases hret
    rw [List.append_nil]
    refine h.keep hext hasked fun i hi => ?_
    cases (hrequests i).mp hi
  | some intent =>
    dsimp only at hran
    split at hran
    · rename_i hnewer
      obtain ⟨n,hn,hran⟩ := ran_then hran
      obtain ⟨rfl,hret⟩ := ran_pure hran
      cases hret
      rw [List.append_nil]
      refine ⟨hasked,fun a ha i hi => ⟨(c,intent),rfl,?_⟩,fun r hr => ?_⟩
      · rcases List.mem_append.mp ha with ha | ha
        · obtain ⟨r,hr,hle⟩ := h.newest a ha i ((h.asked.requests hext ha i).mp hi)
          simp only at hr
          rw [hr] at hnewer
          exact newer_of_newer hnewer hle
        · rw [List.mem_singleton.mp ha]
          exact newer_self _
      · obtain rfl := Option.some.inj hr
        exact ⟨by simp,(hrequests intent).mpr rfl,n,hn⟩
    · rename_i hold
      obtain ⟨rfl,hret⟩ := ran_pure hran
      cases hret
      rw [List.append_nil]
      refine h.keep hext hasked fun i _ => ?_
      cases found with
      | none => exact absurd rfl hold
      | some r => exact ⟨r,rfl,Bool.eq_false_iff.mpr hold⟩

theorem requests_ran (log : Log) {comments : List Json}
    {found : Option (Json × Intent) × Permissions}
    (h : Ran (comments.foldlM (scanRequest web pr candidate policy localIntent) (none,[])) es found) :
    Scanned web pr candidate policy localIntent comments found (log ++ es) := by
  have hstart : Scanned web pr candidate policy localIntent [] (none,[]) log :=
    ⟨asked_nil,by simp,fun r hr => by cases hr⟩
  refine ran_foldlM (P := Scanned web pr candidate policy localIntent) ?_ hstart h
  rintro done c ⟨found,ps⟩ log' ⟨found',qs⟩ es' hdone hran
  exact scanRequest_ran hdone hran

/-- The request of the largest identity. -/
structure NewestRequest (web : Web) (candidate : Candidate) (policy : Policy)
    (localIntent : Option Intent) (permissions : Permissions) (comments : List Json) (request : Json)
    (intent : Intent) : Prop where
  mem : request ∈ comments
  requests : Requests web candidate policy localIntent permissions request intent
  numbered : ∃ n, number request ["id"] = .ok n
  newest : ∀ c ∈ comments, ∀ i, Requests web candidate policy localIntent permissions c i →
    newer (commentId c) (commentId request) = false

/-- A receipt as evidence, without the findings that these comments dispose of. -/
def receiptReview (web : Web) (candidate : Candidate) (policy : Policy) (intent : Intent)
    (permissions : Permissions) (comments : List Json) (receipt : RoborevReceipt) (id url : String)
    (document : RoborevDocument) : Evaluation :=
  ⟨id,receipt.jobId.map toString,receipt.reviewId.map toString,"roborev",some receipt.reviewedHead,
    some intent.candidate.base,some receipt.reviewedBase,receipt.policyDigest,true,true,
    (findingsOf web id url document).filter fun f =>
      !settles web candidate policy id permissions comments f,url⟩

/-- The selected receipt is complete, and is reported. -/
structure Reports (web : Web) (candidate : Candidate) (policy : Policy) (intent : Intent)
    (permissions : Permissions) (comments : List Json) (a : Selected) (review : Evaluation) : Prop where
  complete : a.receipt.validate web.platform intent policy = .ok ()
  settled : ∀ c ∈ comments, ∀ d, disposed web candidate policy review.id c = some d →
    Settled permissions c
  review : ∃ id url document, receiptId a.comment = .ok id ∧ text a.comment ["html_url"] = .ok url ∧
    a.receipt.document = some document ∧
    review = receiptReview web candidate policy intent permissions comments a.receipt id url document

theorem receiptEvaluation_ran {comments : List Json} {a : Selected} {review : Evaluation}
    (hps : Backed web pr log ps)
    (h : Ran (receiptEvaluation web pr candidate policy intent comments ps a) es review) :
    ∃ qs, Extends ps qs ∧ Backed web pr (log ++ es) qs ∧
      Reports web candidate policy intent qs comments a review := by
  unfold receiptEvaluation at h
  obtain ⟨⟨⟩,hvalid,h⟩ := ran_then h
  obtain ⟨id,hid,h⟩ := ran_then h
  obtain ⟨url,hurl,h⟩ := ran_then h
  cases hdocument : a.receipt.document with
  | none =>
    rw [hdocument] at h
    exact (ran_fail h).elim
  | some document =>
    rw [hdocument] at h
    obtain ⟨⟨left,qs⟩,es₁,es₂,rfl,hleft,h⟩ := ran_bind h
    obtain ⟨rfl,hret⟩ := ran_pure h
    rw [List.append_nil]
    obtain ⟨hext,hback,hsettled,rfl⟩ := disposals_ran hps hleft
    obtain rfl := hret
    exact ⟨qs,hext,hback,hvalid,hsettled,id,url,document,hid,hurl,hdocument,rfl⟩

/-- What an inspection that returned has established. -/
structure Inspected (rfc3339 : String → Option ℤ) (web : Web) (candidate : Candidate)
    (policy : Policy) (localIntent : Option Intent) (log : Log) (e : Evidence) (pr : PullRequest)
    (comments : List Json) (permissions : Permissions) : Prop where
  parsed : PullRequest.parse web candidate.url = .ok pr
  said : Said log (pages web (issueComments pr) none) comments
  asked : Asked web pr candidate policy localIntent comments permissions log
  /-- Nothing was requested; or every trusted receipt is well formed, and the newest one that
  answers the newest request, if there is one, is the review. -/
  verdict : (e.review = none ∧ ∀ c ∈ comments, ∀ i,
      ¬ Requests web candidate policy localIntent permissions c i) ∨
    ∃ request intent requestedAt,
      NewestRequest web candidate policy localIntent permissions comments request intent ∧
      observedAt rfc3339 request = .ok requestedAt ∧
      (∀ c ∈ comments, trusted policy c = true → WellFormed c) ∧
      ((e.review = none ∧ ∀ b : Selected, b.comment ∈ comments → trusted policy b.comment = true →
          ¬ Answers rfc3339 (localIntent.getD intent) requestedAt b) ∨
        ∃ a review, e.review = some review ∧
          Newest rfc3339 policy (localIntent.getD intent) requestedAt comments a ∧
          Reports web candidate policy (localIntent.getD intent) permissions comments a review)

theorem inspect_ran {e : Evidence} (h : Ran (inspect rfc3339 web candidate policy localIntent) es e) :
    ∃ pr comments permissions,
      Inspected rfc3339 web candidate policy localIntent es e pr comments permissions := by
  unfold inspect at h
  split at h
  · exact (ran_fail h).elim
  obtain ⟨-,-,h⟩ := ran_then h
  obtain ⟨app,-,h⟩ := ran_then h
  obtain ⟨-,-,h⟩ := ran_then h
  obtain ⟨pr,hpr,h⟩ := ran_then h
  obtain ⟨comments,es₁,es₂,rfl,hcomments,h⟩ := ran_bind h
  obtain ⟨⟨found,ps⟩,es₃,es₄,rfl,hscan,h⟩ := ran_bind h
  have hscanned := requests_ran es₁ hscan
  obtain ⟨known,hknown,h⟩ := ran_then h
  obtain ⟨receipt,hreceipt,h⟩ := ran_then h
  obtain ⟨review,es₅,es₆,rfl,hreview,h⟩ := ran_bind h
  obtain ⟨rfl,hret⟩ := ran_pure h
  obtain rfl := hret
  have hsaid : Said (es₁ ++ (es₃ ++ (es₅ ++ []))) (pages web (issueComments pr) none) comments :=
    (said_ran [] hcomments).mono _
  have hlog : es₁ ++ es₃ ++ es₅ = es₁ ++ (es₃ ++ (es₅ ++ [])) := by simp
  cases found with
  | none =>
    have hnothing : ((localIntent.or ((none : Option (Json × Intent)).map Prod.snd)).bind fun intent =>
        (none : Option (Json × Intent)).map fun r => (intent,r.1)) = none := by simp
    rw [hnothing] at hreview
    obtain ⟨rfl,rfl⟩ := ran_pure hreview
    refine ⟨pr,comments,ps,hpr,hsaid,?_,.inl ⟨rfl,fun c hc i hi => ?_⟩⟩
    · have hasked := hscanned.asked
      exact ⟨by simpa using hasked.backed,hasked.settled⟩
    · obtain ⟨r,hr,-⟩ := hscanned.newest c hc i hi
      cases hr
  | some found =>
    obtain ⟨request,intent⟩ := found
    have hchosen : ((localIntent.or ((some (request,intent)).map Prod.snd)).bind fun intent' =>
        (some (request,intent)).map fun r => (intent',r.1)) =
          some (localIntent.getD intent,request) := by
      cases localIntent <;> rfl
    rw [hchosen] at hreview
    obtain ⟨requestedAt,hat,hreview⟩ := ran_then hreview
    obtain ⟨selected,hselected,hreview⟩ := ran_then hreview
    obtain ⟨hformed,hnewest,hnone⟩ := selectReceipts_ok hselected
    obtain ⟨hmem,hrequests,hnumber⟩ := hscanned.request (request,intent) rfl
    have holder : ∀ c ∈ comments, ∀ i, Requests web candidate policy localIntent ps c i →
        newer (commentId c) (commentId request) = false := by
      intro c hc i hi
      obtain ⟨r,hr,hle⟩ := hscanned.newest c hc i hi
      obtain rfl := Option.some.inj hr
      exact hle
    cases selected with
    | none =>
      obtain ⟨rfl,rfl⟩ := ran_pure hreview
      refine ⟨pr,comments,ps,hpr,hsaid,?_,.inr ⟨request,intent,requestedAt,
        ⟨hmem,hrequests,hnumber,holder⟩,hat,hformed,.inl ⟨rfl,hnone rfl⟩⟩⟩
      have hasked := hscanned.asked
      exact ⟨by simpa using hasked.backed,hasked.settled⟩
    | some a =>
      obtain ⟨review',es₇,es₈,rfl,hevaluation,hsome⟩ := ran_bind hreview
      obtain ⟨rfl,rfl⟩ := ran_pure hsome
      obtain ⟨qs,hext,hback,hreports⟩ := receiptEvaluation_ran hscanned.asked.backed hevaluation
      have hmono : ∀ c ∈ comments, ∀ i, Requests web candidate policy localIntent qs c i ↔
          Requests web candidate policy localIntent ps c i :=
        fun c hc i => hscanned.asked.requests hext hc i
      refine ⟨pr,comments,qs,hpr,hsaid,⟨?_,fun c hc body i hbody hi => ?_⟩,.inr ⟨request,intent,
        requestedAt,⟨hmem,(hmono _ hmem _).mpr hrequests,hnumber,fun c hc i hi => ?_⟩,hat,hformed,
        .inr ⟨a,review',rfl,hnewest a rfl,hreports⟩⟩⟩
      · simpa using hback
      · exact (hscanned.asked.settled c hc body i hbody hi).mono hext
      · exact holder c hc i ((hmono c hc i).mp hi)

/-! ## The order of the comments -/

theorem commentId_number {c : Json} {n : ℕ} (h : number c ["id"] = .ok n) : commentId c = some n := by
  have hp : pointer ["id"] c = c.get? "id" := rfl
  unfold number at h
  rw [hp] at h
  unfold commentId
  cases hid : (c.get? "id").bind asU64 with
  | none =>
    rw [hid] at h
    cases h
  | some m =>
    rw [hid] at h
    exact congrArg some (Except.ok.inj h)

/-- No two of these comments have the same identity. -/
def Distinct (comments : List Json) : Prop :=
  ∀ c ∈ comments, ∀ d ∈ comments, ∀ n, number c ["id"] = .ok n → number d ["id"] = .ok n → c = d

theorem receiptId_number {c : Json} {id : String} (h : receiptId c = .ok id) :
    ∃ n, number c ["id"] = .ok n := by
  obtain ⟨n,hn,-⟩ := bind_ok h
  exact ⟨n,hn⟩

/-- Comments that neither of two identities makes the newer one are the same. -/
theorem Distinct.eq {comments : List Json} (h : Distinct comments) {c d : Json} (hc : c ∈ comments)
    (hd : d ∈ comments) (hcn : ∃ n, number c ["id"] = .ok n) (hdn : ∃ n, number d ["id"] = .ok n)
    (hcd : newer (commentId c) (commentId d) = false)
    (hdc : newer (commentId d) (commentId c) = false) : c = d := by
  obtain ⟨n,hn⟩ := hcn
  obtain ⟨m,hm⟩ := hdn
  rw [commentId_number hn,commentId_number hm] at hcd hdc
  simp only [newer,decide_eq_false_iff_not] at hcd hdc
  obtain rfl : n = m := by omega
  exact h c hc d hd n hn hm

theorem NewestRequest.unique {comments comments' : List Json} {c d : Json} {i j : Intent}
    (h : NewestRequest web candidate policy localIntent ps comments c i)
    (h' : NewestRequest web candidate policy localIntent qs comments' d j)
    (hperm : comments.Perm comments') (hdistinct : Distinct comments)
    (hsame : ∀ c ∈ comments, ∀ i, Requests web candidate policy localIntent ps c i ↔
      Requests web candidate policy localIntent qs c i) : c = d ∧ i = j := by
  have hd := hperm.mem_iff.mpr h'.mem
  have hcd := h'.newest c (hperm.mem_iff.mp h.mem) i ((hsame c h.mem i).mp h.requests)
  have hdc := h.newest d hd j ((hsame d hd j).mpr h'.requests)
  obtain rfl := hdistinct.eq h.mem hd h.numbered h'.numbered hcd hdc
  obtain ⟨-,body,hbody,hi⟩ := h.requests
  obtain ⟨-,body',hbody',hj⟩ := h'.requests
  obtain rfl := Except.ok.inj (hbody.symm.trans hbody')
  exact ⟨rfl,Option.some.inj (hi.symm.trans hj)⟩

theorem Newest.unique {comments comments' : List Json} {a b : Selected}
    (h : Newest rfc3339 policy intent requestedAt comments a)
    (h' : Newest rfc3339 policy intent requestedAt comments' b) (hperm : comments.Perm comments')
    (hdistinct : Distinct comments) : a = b := by
  have hb := hperm.mem_iff.mpr h'.mem
  have hba := h.newest b hb h'.trusted_ h'.answers
  have hab := h'.newest a (hperm.mem_iff.mp h.mem) h.trusted_ h.answers
  unfold Selected.later at hab hba
  simp only [Bool.or_eq_false_iff,decide_eq_false_iff_not,not_lt,Bool.and_eq_false_iff] at hab hba
  have htime : a.observed = b.observed := le_antisymm hab.1 hba.1
  obtain ⟨id,hid,-⟩ := h.answers.fresh
  obtain ⟨id',hid',-⟩ := h'.answers.fresh
  refine h.answers.unique h'.answers ?_
  exact hdistinct.eq h.mem hb (receiptId_number hid) (receiptId_number hid')
    (hab.2.resolve_left fun hne => hne htime) (hba.2.resolve_left fun hne => hne htime.symm)

theorem Reports.unique {comments comments' : List Json} {a : Selected} {review review' : Evaluation}
    {log' : Log} (h : Reports web candidate policy intent ps comments a review)
    (h' : Reports web candidate policy intent qs comments' a review')
    (hperm : comments.Perm comments') (hps : Backed web pr log ps) (hqs : Backed web pr log' qs)
    (hagree : ∀ login a b, Answered web pr log login a → Answered web pr log' login b → a = b) :
    review = review' := by
  obtain ⟨id,url,document,hid,hurl,hdocument,hreview⟩ := h.review
  obtain ⟨id',url',document',hid',hurl',hdocument',hreview'⟩ := h'.review
  obtain rfl := Except.ok.inj (hid.symm.trans hid')
  obtain rfl := Except.ok.inj (hurl.symm.trans hurl')
  obtain rfl := Option.some.inj (hdocument.symm.trans hdocument')
  have hsettles : ∀ f, settles web candidate policy id ps comments f =
      settles web candidate policy id qs comments' f := by
    intro f
    have hsettled := h.settled
    have hsettled' := h'.settled
    rw [hreview] at hsettled
    rw [hreview'] at hsettled'
    refine settles_agree hperm (fun c hc d hd => ?_) f
    exact granted_agree hps hqs hagree (hsettled c hc d hd)
      (hsettled' c (hperm.mem_iff.mp hc) d hd)
  rw [hreview,hreview']
  simp only [receiptReview,hsettles]

/-- The order in which the comments are listed does not matter. -/
theorem Inspected.unique {log' : Log} {e e' : Evidence} {comments comments' : List Json}
    (h : Inspected rfc3339 web candidate policy localIntent log e pr comments ps)
    (h' : Inspected rfc3339 web candidate policy localIntent log' e' pr comments' qs)
    (hperm : comments.Perm comments') (hdistinct : Distinct comments)
    (hagree : ∀ login a b, Answered web pr log login a → Answered web pr log' login b → a = b) :
    e.review = e'.review := by
  have hsame : ∀ c ∈ comments, ∀ i, Requests web candidate policy localIntent ps c i ↔
      Requests web candidate policy localIntent qs c i := by
    intro c hc i
    unfold Requests
    constructor
    · rintro ⟨hgranted,body,hbody,hi⟩
      have heq := granted_agree h.asked.backed h'.asked.backed hagree
        (h.asked.settled c hc body i hbody hi)
        (h'.asked.settled c (hperm.mem_iff.mp hc) body i hbody hi)
      exact ⟨heq ▸ hgranted,body,hbody,hi⟩
    · rintro ⟨hgranted,body,hbody,hi⟩
      have heq := granted_agree h.asked.backed h'.asked.backed hagree
        (h.asked.settled c hc body i hbody hi)
        (h'.asked.settled c (hperm.mem_iff.mp hc) body i hbody hi)
      exact ⟨heq ▸ hgranted,body,hbody,hi⟩
  rcases h.verdict with ⟨hnone,hnothing⟩ | ⟨request,i,at_,hrequest,hat,-,hverdict⟩
  · rcases h'.verdict with ⟨hnone',-⟩ | ⟨request',i',at',hrequest',-⟩
    · rw [hnone,hnone']
    · have hmem := hperm.mem_iff.mpr hrequest'.mem
      exact absurd ((hsame _ hmem _).mpr hrequest'.requests) (hnothing _ hmem _)
  · rcases h'.verdict with ⟨-,hnothing'⟩ | ⟨request',i',at',hrequest',hat',-,hverdict'⟩
    · have hmem := hperm.mem_iff.mp hrequest.mem
      exact absurd ((hsame _ hrequest.mem _).mp hrequest.requests) (hnothing' _ hmem _)
    obtain ⟨rfl,rfl⟩ := hrequest.unique hrequest' hperm hdistinct hsame
    obtain rfl := Except.ok.inj (hat.symm.trans hat')
    rcases hverdict with ⟨hnone,hno⟩ | ⟨a,review,hsome,hnewest,hreports⟩
    · rcases hverdict' with ⟨hnone',-⟩ | ⟨a',review',-,hnewest',-⟩
      · rw [hnone,hnone']
      · exact absurd hnewest'.answers
          (hno a' (hperm.mem_iff.mpr hnewest'.mem) hnewest'.trusted_)
    · rcases hverdict' with ⟨-,hno'⟩ | ⟨a',review',hsome',hnewest',hreports'⟩
      · exact absurd hnewest.answers (hno' a (hperm.mem_iff.mp hnewest.mem) hnewest.trusted_)
      · obtain rfl := hnewest.unique hnewest' hperm hdistinct
        rw [hsome,hsome',hreports.unique hreports' hperm h.asked.backed h'.asked.backed hagree]

end

/-- The newest trusted receipt of a request decides: an inspection that returns has found every
trusted receipt well formed, its review is that receipt without the findings that writers disposed
of, in whatever order the comments are listed; and a published receipt reads back from its comment. -/
theorem newest_receipt_decides (rfc3339 : String → Option ℤ) (web : Web) :
    (∀ candidate policy localIntent s s' es e t t' es' e',
      ((inspect rfc3339 web candidate policy localIntent).start s).Runs es (.ok e,s') →
      ((inspect rfc3339 web candidate policy localIntent).start t).Runs es' (.ok e',t') →
      ∃ pr comments permissions comments' permissions',
        Inspected rfc3339 web candidate policy localIntent es e pr comments permissions ∧
        Inspected rfc3339 web candidate policy localIntent es' e' pr comments' permissions' ∧
        (comments.Perm comments' → Distinct comments →
          (∀ login a b, Answered web pr es login a → Answered web pr es' login b → a = b) →
          e.review = e'.review)) ∧
    ∀ platform r intent policy body, Fits r → r.comment platform intent policy = .ok body →
      receiptOf body = .ok r ∧ r.validateBinding platform intent policy = .ok () ∧
        (r.status = "done" → r.validate platform intent policy = .ok ()) := by
  refine ⟨fun candidate policy localIntent s s' es e t t' es' e' h h' => ?_,
    fun platform r intent policy body hr h => comment_read hr h⟩
  obtain ⟨pr,comments,permissions,hinspected⟩ := inspect_ran ⟨s,s',h⟩
  obtain ⟨pr',comments',permissions',hinspected'⟩ := inspect_ran ⟨t,t',h'⟩
  obtain rfl := Except.ok.inj (hinspected.parsed.symm.trans hinspected'.parsed)
  exact ⟨pr,comments,permissions,comments',permissions',hinspected,hinspected',
    fun hperm hdistinct hagree => hinspected.unique hinspected' hperm hdistinct hagree⟩

/-! ## Receipts that disagree -/

def receiptPolicy : Policy := ⟨1,"roborev","github-receipt-v1",99,[⟨"review-policy",some 4242⟩]⟩

def receiptDigest : String := "b89028b6ffa4e6dbfb0ce439bb130441beab84a8aea77ec322b5d05780919d79"

/-- SHA-256 of the policy, and of the finding. -/
def receiptWeb : Web := { quotedWeb with
  hexDigest := fun text => if text = receiptPolicy.json.render then receiptDigest
    else "cf8fafa40c7ef82b53f0ce27920b680b55ce1ab72e1b4a09bdc5ea8bfdce0dc5" }

def receiptIntent : Intent := ⟨1,"request-1",quotedCandidate,receiptDigest,[]⟩

def deadLink : RoborevFinding := ⟨"low","The link is dead.","Remove it.",some "README.md",[]⟩

def foundDocument : RoborevDocument := ⟨2,"One finding.","fail",[deadLink],[]⟩
def cleanDocument : RoborevDocument := ⟨2,"Nothing found.","pass",[],[]⟩

def receiptWith (document : RoborevDocument) : RoborevReceipt :=
  ⟨1,"request-1",quotedCandidate,receiptDigest,some 3,some 4,quotedCandidate.head,
    quotedCandidate.base,"done",true,some document⟩

def receiptBody (document : RoborevDocument) : String :=
  resultMarker ++ String.ofList (receiptWith document).json.render ++ " -->"

def receiptRequest : Json := maintained 1 "2026-01-01T00:00:00Z" (roborevRequest receiptIntent)

def receiptUrl : String := "https://github.com/example/project/pull/12#issuecomment-5"

def receiptComment (document : RoborevDocument) : Json := .obj
  [("body",.str (receiptBody document)),("created_at",.str "2026-01-02T00:00:00Z"),
    ("html_url",.str receiptUrl),("id",.int 5),
    ("user",.obj [("id",.int 99),("login",.str "roborev[bot]"),("type",.str "Bot")])]

/-- The disposition of the finding. -/
def linkDisposition : Disposition :=
  ⟨quotedCandidate.head,quotedCandidate.base,receiptDigest,"roborev-comment-5",
    "roborev-comment-5/1-cf8fafa40c7ef82b53f0ce27920b680b55ce1ab72e1b4a09bdc5ea8bfdce0dc5",
    "cf8fafa40c7ef82b53f0ce27920b680b55ce1ab72e1b4a09bdc5ea8bfdce0dc5","The link works.","README.md"⟩

def linkComment : Json := maintained 6 "2026-01-03T00:00:00Z" (dispositionComment linkDisposition)

theorem size_ofList (cs : List Char) : (String.ofList cs).utf8ByteSize ≤ 4 * cs.length := by
  induction cs with
  | nil => simp
  | cons c cs ih =>
    have hc := Char.utf8Size_le_four c
    rw [String.ofList_cons,String.utf8ByteSize_append,String.utf8ByteSize_singleton,List.length_cons]
    omega

theorem receiptBody_comment {document : RoborevDocument}
    (hlength : (receiptWith document).json.render.length ≤ 10000)
    (hvalid : (receiptWith document).validate receiptWeb.platform receiptIntent receiptPolicy = .ok ()) :
    (receiptWith document).comment receiptWeb.platform receiptIntent receiptPolicy =
      .ok (receiptBody document) := by
  have hbinding : (receiptWith document).validateBinding receiptWeb.platform receiptIntent
      receiptPolicy = .ok () := by
    obtain ⟨⟨⟩,hbinding,-⟩ := bind_ok hvalid
    exact hbinding
  have hsize : (receiptBody document).utf8ByteSize ≤ maxReceiptBytes := by
    have hmarker : resultMarker.utf8ByteSize ≤ 40 := by decide
    have hclosing : " -->".utf8ByteSize ≤ 40 := by decide
    have hrender := size_ofList (receiptWith document).json.render
    unfold receiptBody maxReceiptBytes
    rw [String.utf8ByteSize_append,String.utf8ByteSize_append]
    omega
  unfold RoborevReceipt.comment
  have hdone : (receiptWith document).status = "done" := rfl
  simp only [hbinding,hvalid,hdone,require,if_true,bind,Except.bind]
  unfold receiptBody at hsize ⊢
  rw [if_pos hsize]
  rfl

/-- What the texts of the sample say. -/
structure ReceiptTexts : Prop where
  found : (receiptWith foundDocument).validate receiptWeb.platform receiptIntent receiptPolicy = .ok ()
  clean : (receiptWith cleanDocument).validate receiptWeb.platform receiptIntent receiptPolicy = .ok ()
  foundLength : (receiptWith foundDocument).json.render.length ≤ 10000
  cleanLength : (receiptWith cleanDocument).json.render.length ≤ 10000
  number : "roborev-comment-" ++ toString 5 = "roborev-comment-5"
  request : ∀ s ∈ texts (intentJson receiptIntent), ¬ closes s.toList
  link : ∀ s ∈ texts linkDisposition.json, ¬ closes s.toList
  asked : receiptIntent.matches_ receiptWeb.platform quotedCandidate receiptPolicy = true
  bound : Inspect.bound receiptWeb quotedCandidate receiptPolicy "roborev-comment-5"
    linkDisposition = true
  named : (findingsOf receiptWeb "roborev-comment-5" receiptUrl foundDocument).filter
    (fun f => !names receiptWeb linkDisposition f) = []
  requested : timestamp quotedTime "2026-01-01T00:00:00Z" = .ok 1767225600
  submitted : timestamp quotedTime "2026-01-02T00:00:00Z" = .ok 1767312000

theorem receipt_texts : ReceiptTexts where
  found := by decide +kernel
  clean := by decide +kernel
  foundLength := by decide +kernel
  cleanLength := by decide +kernel
  number := by decide +kernel
  request := by decide +kernel
  link := by decide +kernel
  asked := by decide +kernel
  bound := by decide +kernel
  named := by decide +kernel
  requested := by decide +kernel
  submitted := by decide +kernel

-- a passing document has no findings
example : findingsOf receiptWeb "roborev-comment-5" receiptUrl cleanDocument = [] := by decide +kernel

theorem found_valid : (receiptWith foundDocument).validate receiptWeb.platform receiptIntent
    receiptPolicy = .ok () := receipt_texts.found

theorem clean_valid : (receiptWith cleanDocument).validate receiptWeb.platform receiptIntent
    receiptPolicy = .ok () := receipt_texts.clean

theorem found_comment : (receiptWith foundDocument).comment receiptWeb.platform receiptIntent
    receiptPolicy = .ok (receiptBody foundDocument) :=
  receiptBody_comment receipt_texts.foundLength found_valid

theorem found_fits : Fits (receiptWith foundDocument) := by
  refine ⟨by decide,?_,?_,?_⟩
  · rintro n ⟨⟩
    decide
  · rintro n ⟨⟩
    decide
  · rintro d ⟨⟩
    exact ⟨by decide,by decide⟩

theorem clean_fits : Fits (receiptWith cleanDocument) := by
  refine ⟨by decide,?_,?_,?_⟩
  · rintro n ⟨⟩
    decide
  · rintro n ⟨⟩
    decide
  · rintro d ⟨⟩
    exact ⟨by decide,by decide⟩

theorem found_read : receiptOf (receiptBody foundDocument) = .ok (receiptWith foundDocument) :=
  (comment_read found_fits found_comment).1

theorem clean_read : receiptOf (receiptBody cleanDocument) = .ok (receiptWith cleanDocument) :=
  (comment_read clean_fits (receiptBody_comment receipt_texts.cleanLength clean_valid)).1

theorem receiptComment_id (document : RoborevDocument) :
    receiptId (receiptComment document) = .ok "roborev-comment-5" := by
  have hid : number (receiptComment document) ["id"] = .ok 5 := rfl
  unfold receiptId
  rw [hid]
  exact congrArg Except.ok receipt_texts.number

/-! No comment is taken for another kind of comment. -/

theorem receiptBody_other {α : Type} (read : Json → Option α) (document : RoborevDocument)
    {other : String} (hlength : 24 ≤ other.toList.length)
    (hne : other.toList.take 24 ≠ resultMarker.toList.take 24) :
    marker read (receiptBody document) other = none := by
  have hbody : receiptBody document = comment resultMarker (receiptWith document).json "" := by
    simp [receiptBody,comment]
  rw [hbody]
  exact marker_other read _ _ (starts_differ hlength (by decide) hne _ _)

theorem receiptRequest_read :
    marker readIntent (roborevRequest receiptIntent) requestMarker = some receiptIntent :=
  (marker_iff (readIntent_json (by decide)) ((intent_written (by decide)).mono (by omega)) _ _).1.mpr
    receipt_texts.request

theorem linkDisposition_read :
    marker readDisposition (dispositionComment linkDisposition) dispositionMarker =
      some linkDisposition :=
  (marker_iff (readDisposition_json _) ((disposition_written _).mono (by omega)) _ _).1.mpr
    receipt_texts.link

theorem receiptRequest_asked : requestIntent receiptWeb quotedCandidate receiptPolicy none
    (roborevRequest receiptIntent) = some receiptIntent := by
  unfold requestIntent
  rw [receiptRequest_read,Option.filter,if_pos]
  rw [receipt_texts.asked]
  rfl

/-! ## Runs over the sample -/

/-- A comment that requests nothing. -/
def Unasked (c : Json) : Prop := ∃ body, text c ["body"] = .ok body ∧
  requestIntent receiptWeb quotedCandidate receiptPolicy none body = none

theorem receipt_unasked (document : RoborevDocument) : Unasked (receiptComment document) := by
  refine ⟨receiptBody document,rfl,?_⟩
  rw [requestIntent,receiptBody_other readIntent document (by decide) (by decide)]
  rfl

theorem link_unasked : Unasked linkComment := by
  refine ⟨dispositionComment linkDisposition,rfl,?_⟩
  have hother : marker readIntent (dispositionComment linkDisposition) requestMarker = none :=
    marker_other _ _ _ (marks_differ _ _).2
  rw [requestIntent,hother]
  rfl

theorem unasked_run {c : Json} (h : Unasked c) (found : Option (Json × Intent) × Permissions)
    (s : Option ℕ) :
    ((scanRequest receiptWeb quotedPr quotedCandidate receiptPolicy none found c).start s).Runs []
      (.ok found,s) := by
  obtain ⟨body,hbody,hnone⟩ := h
  exact runs_seq (runs_unrequested hbody hnone) (.ret _)

theorem unasked_runs {comments : List Json} (h : ∀ c ∈ comments, Unasked c)
    (found : Option (Json × Intent) × Permissions) (s : Option ℕ) :
    ((comments.foldlM (scanRequest receiptWeb quotedPr quotedCandidate receiptPolicy none)
      found).start s).Runs [] (.ok found,s) := by
  induction comments with
  | nil => exact runs_nil _ _ s
  | cons c cs ih =>
    exact runs_cons (unasked_run (h c (by simp)) found s) (ih fun d hd => h d (by simp [hd]))

theorem asked_runs {before after : List Json} (hbefore : ∀ c ∈ before, Unasked c)
    (hafter : ∀ c ∈ after, Unasked c) (s : Option ℕ) :
    (((before ++ receiptRequest::after).foldlM (scanRequest receiptWeb quotedPr quotedCandidate
      receiptPolicy none) (none,[])).start s).Runs
      (replied (permissionRoute quotedPr "maintainer") maintainerPermission)
      (.ok (some (receiptRequest,receiptIntent),[("maintainer",true)]),none) := by
  induction before with
  | nil =>
    have hwriter : ((authorized receiptWeb quotedPr receiptRequest []).start s).Runs
        (replied (permissionRoute quotedPr "maintainer") maintainerPermission)
        (.ok (true,[("maintainer",true)]),none) :=
      runs_asked "maintainer" rfl rfl (by decide) rfl maintainerPermission
    have hc : ((scanRequest receiptWeb quotedPr quotedCandidate receiptPolicy none (none,[])
        receiptRequest).start s).Runs
        (replied (permissionRoute quotedPr "maintainer") maintainerPermission ++ [])
        (.ok (some (receiptRequest,receiptIntent),[("maintainer",true)]),none) :=
      runs_seq (runs_requested rfl receiptRequest_asked hwriter) (.ret _)
    have hall := runs_cons hc (unasked_runs hafter _ none)
    rw [List.append_nil,List.append_nil] at hall
    exact hall
  | cons c cs ih =>
    exact runs_cons (unasked_run (hbefore c (by simp)) (none,[]) s)
      (ih fun d hd => hbefore d (by simp [hd]))

/-- A comment that disposes of nothing. -/
def Undisposed (c : Json) : Prop :=
  ∃ body, text c ["body"] = .ok body ∧ marker readDisposition body dispositionMarker = none

theorem receipt_undisposed (document : RoborevDocument) : Undisposed (receiptComment document) :=
  ⟨receiptBody document,rfl,receiptBody_other readDisposition document (by decide) (by decide)⟩

theorem request_undisposed : Undisposed receiptRequest :=
  ⟨_,rfl,marker_other _ _ _ (marks_differ _ _).1⟩

theorem undisposed_runs {comments : List Json} (h : ∀ c ∈ comments, Undisposed c)
    (found : List Finding × Permissions) (s : Option ℕ) :
    ((comments.foldlM (dispose receiptWeb quotedPr quotedCandidate receiptPolicy "roborev-comment-5")
      found).start s).Runs [] (.ok found,s) := by
  induction comments with
  | nil => exact runs_nil _ _ s
  | cons c cs ih =>
    obtain ⟨body,hbody,hnone⟩ := h c (by simp)
    exact runs_cons (runs_undisposed hbody hnone) (ih fun d hd => h d (by simp [hd]))

/-- The evidence of a run that left these findings. -/
def receiptEvidence (known : List String) (findings : List Finding) : Evidence :=
  ⟨known,some receiptIntent,some "https://github.com/example/project/pull/12#issuecomment-1",
    some ⟨"roborev-comment-5",some "3",some "4","roborev",some quotedCandidate.head,
      some quotedCandidate.base,some quotedCandidate.base,receiptDigest,true,true,findings,receiptUrl⟩⟩

/-- All the replies of an inspection of these comments. -/
def receiptLog (comments : List Json) : Log :=
  replied (pageRoute (issueComments quotedPr) 1) (.arr comments) ++
    replied (permissionRoute quotedPr "maintainer") maintainerPermission

theorem receipt_runs (before after : List Json) (hbefore : ∀ c ∈ before, Unasked c)
    (hafter : ∀ c ∈ after, Unasked c) (hlength : (before ++ receiptRequest::after).length < 100)
    {known : List String} {document : RoborevDocument} {left : List Finding}
    (hknown : ((before ++ receiptRequest::after).filter (trusted receiptPolicy)).mapM receiptId =
      .ok known)
    (hselect : ((before ++ receiptRequest::after).filter (trusted receiptPolicy)).foldlM
      (selectReceipt quotedTime receiptIntent 1767225600) none =
        .ok (some ⟨receiptComment document,receiptWith document,1767312000⟩))
    (hvalid : (receiptWith document).validate receiptWeb.platform receiptIntent receiptPolicy = .ok ())
    (hleft : (((before ++ receiptRequest::after).foldlM (dispose receiptWeb quotedPr quotedCandidate
      receiptPolicy "roborev-comment-5") (findingsOf receiptWeb "roborev-comment-5" receiptUrl document,
        [("maintainer",true)])).start none).Runs [] (.ok (left,[("maintainer",true)]),none)) :
    ((inspect quotedTime receiptWeb quotedCandidate receiptPolicy none).start none).Runs
      (receiptLog (before ++ receiptRequest::after)) (.ok (receiptEvidence known left),none) := by
  have hevaluation : ((receiptEvaluation receiptWeb quotedPr quotedCandidate receiptPolicy receiptIntent
      (before ++ receiptRequest::after) [("maintainer",true)]
      ⟨receiptComment document,receiptWith document,1767312000⟩).start none).Runs ([] ++ [])
      (.ok ⟨"roborev-comment-5",some "3",some "4","roborev",some quotedCandidate.head,
        some quotedCandidate.base,some quotedCandidate.base,receiptDigest,true,true,left,receiptUrl⟩,
        none) := by
    unfold receiptEvaluation
    refine runs_then hvalid ?_
    refine runs_then (receiptComment_id document) ?_
    refine runs_then (a := receiptUrl) rfl ?_
    exact runs_seq hleft (.ret _)
  have hevaluated : ((evaluated quotedTime receiptWeb quotedPr quotedCandidate receiptPolicy
      (before ++ receiptRequest::after) [("maintainer",true)]
      (some (receiptIntent,receiptRequest))).start none).Runs (([] ++ []) ++ [])
      (.ok (receiptEvidence known left).review,none) := by
    unfold evaluated
    refine runs_then receipt_texts.requested ?_
    refine runs_then hselect ?_
    exact runs_seq hevaluation (.ret _)
  unfold inspect receiptLog
  rw [if_neg (by decide)]
  refine runs_then (a := ()) (by decide) ?_
  refine runs_then (a := 4242) (by decide) ?_
  refine runs_then (a := ()) (by decide +kernel) ?_
  refine runs_then (a := quotedPr) quotedPr_parsed ?_
  refine runs_seq (runs_pages rfl hlength none) ?_
  rw [← List.append_nil (replied (permissionRoute quotedPr "maintainer") maintainerPermission)]
  refine runs_seq (asked_runs hbefore hafter none) ?_
  refine runs_then hknown ?_
  refine runs_then (a := some "https://github.com/example/project/pull/12#issuecomment-1") rfl ?_
  exact runs_seq hevaluated (.ret _)

theorem request_untrusted : trusted receiptPolicy receiptRequest = false := by
  have huser : userId receiptRequest = some 7 := rfl
  simp [trusted,huser,receiptPolicy]

theorem link_untrusted : trusted receiptPolicy linkComment = false := by
  have huser : userId linkComment = some 7 := rfl
  simp [trusted,huser,receiptPolicy]

theorem receipt_trusted (document : RoborevDocument) :
    trusted receiptPolicy (receiptComment document) = true := by
  have huser : userId (receiptComment document) = some 99 := rfl
  have hbot : bot (receiptComment document) = true := rfl
  have hbody : ((receiptComment document).get? "body").bind asStr = some (receiptBody document) := rfl
  have hstart : resultMarker.toList <+: (receiptBody document).toList := by
    simp [receiptBody,List.append_assoc]
  rw [trusted,huser,hbot,hbody]
  simpa [receiptPolicy] using hstart

theorem receipt_selected {document : RoborevDocument}
    (hread : receiptOf (receiptBody document) = .ok (receiptWith document))
    (selected : Option Selected) :
    selectReceipt quotedTime receiptIntent 1767225600 selected (receiptComment document) =
      .ok (if selected.all (Selected.later ⟨receiptComment document,receiptWith document,1767312000⟩)
        then some ⟨receiptComment document,receiptWith document,1767312000⟩ else selected) := by
  have htime := receipt_texts.submitted
  have hbody : text (receiptComment document) ["body"] = .ok (receiptBody document) := rfl
  have hcreated : text (receiptComment document) ["created_at"] = .ok "2026-01-02T00:00:00Z" := rfl
  have hobserved : observedAt quotedTime (receiptComment document) = .ok 1767312000 := htime
  have hsame : (receiptWith document).requestId = receiptIntent.id := rfl
  have hbaseline : receiptIntent.baselineReviewIds = [] := rfl
  simp only [selectReceipt,hbody,hread,hobserved,hsame,receiptComment_id,hbaseline,hcreated,htime,
    bind,Except.bind,pure,Except.pure,ne_eq,not_true_eq_false,if_false,List.not_mem_nil]
  rw [if_neg (by decide)]

theorem receipt_once {document : RoborevDocument} (h : receiptOf (receiptBody document) =
    .ok (receiptWith document)) : selectReceipt quotedTime receiptIntent 1767225600 none
      (receiptComment document) =
        .ok (some ⟨receiptComment document,receiptWith document,1767312000⟩) :=
  receipt_selected h none

/-- Of two receipts with one identity and time the first stays. -/
theorem receipt_twice {document document' : RoborevDocument}
    (h : receiptOf (receiptBody document') = .ok (receiptWith document')) :
    selectReceipt quotedTime receiptIntent 1767225600
      (some ⟨receiptComment document,receiptWith document,1767312000⟩) (receiptComment document') =
        .ok (some ⟨receiptComment document,receiptWith document,1767312000⟩) := by
  have hlater : Selected.later ⟨receiptComment document',receiptWith document',1767312000⟩
      ⟨receiptComment document,receiptWith document,1767312000⟩ = false := by
    have hid : commentId (receiptComment document') = some 5 ∧
        commentId (receiptComment document) = some 5 := ⟨rfl,rfl⟩
    simp [Selected.later,hid.1,hid.2,newer]
  rw [receipt_selected h,Option.all_some,hlater]
  rfl

def linkFindings : List Finding :=
  findingsOf receiptWeb "roborev-comment-5" receiptUrl foundDocument

/-- The coordinator's receipt, before and after the request. -/
theorem found_after : ((inspect quotedTime receiptWeb quotedCandidate receiptPolicy none).start none).Runs
    (receiptLog [receiptRequest,receiptComment foundDocument])
    (.ok (receiptEvidence ["roborev-comment-5"] linkFindings),none) := by
  have hfilter : [receiptRequest,receiptComment foundDocument].filter (trusted receiptPolicy) =
      [receiptComment foundDocument] := by
    simp [request_untrusted,receipt_trusted]
  refine receipt_runs [] [receiptComment foundDocument] (by simp) ?_ (by decide) ?_ ?_ found_valid
    (undisposed_runs ?_ _ none)
  · simpa using receipt_unasked foundDocument
  · rw [List.nil_append,hfilter]
    simp [receiptComment_id]
  · rw [List.nil_append,hfilter,List.foldlM_cons,receipt_once found_read]
    rfl
  · simpa using ⟨request_undisposed,receipt_undisposed foundDocument⟩

theorem found_before : ((inspect quotedTime receiptWeb quotedCandidate receiptPolicy none).start none).Runs
    (receiptLog [receiptComment foundDocument,receiptRequest])
    (.ok (receiptEvidence ["roborev-comment-5"] linkFindings),none) := by
  have hfilter : ([receiptComment foundDocument] ++ [receiptRequest]).filter (trusted receiptPolicy) =
      [receiptComment foundDocument] := by
    simp [request_untrusted,receipt_trusted]
  refine receipt_runs [receiptComment foundDocument] [] ?_ (by simp) (by decide) ?_ ?_ found_valid
    (undisposed_runs ?_ _ none)
  · simpa using receipt_unasked foundDocument
  · rw [hfilter]
    simp [receiptComment_id]
  · rw [hfilter,List.foldlM_cons,receipt_once found_read]
    rfl
  · simpa using ⟨receipt_undisposed foundDocument,request_undisposed⟩

/-- A writer disposed of the finding. -/
theorem found_disposed :
    ((inspect quotedTime receiptWeb quotedCandidate receiptPolicy none).start none).Runs
      (receiptLog [receiptRequest,receiptComment foundDocument,linkComment])
      (.ok (receiptEvidence ["roborev-comment-5"] []),none) := by
  have hfilter : [receiptRequest,receiptComment foundDocument,linkComment].filter
      (trusted receiptPolicy) = [receiptComment foundDocument] := by
    simp [request_untrusted,receipt_trusted,link_untrusted]
  have hknown : ((authorized receiptWeb quotedPr linkComment [("maintainer",true)]).start none).Runs []
      (.ok (true,[("maintainer",true)]),none) := runs_known "maintainer" rfl rfl
  have hlink := runs_dispose linkComment linkFindings rfl linkDisposition_read
    receipt_texts.bound hknown
  rw [show linkFindings.filter (fun f => !names receiptWeb linkDisposition f) = [] from
    receipt_texts.named] at hlink
  refine receipt_runs [] [receiptComment foundDocument,linkComment] (by simp) ?_ (by decide) ?_ ?_
    found_valid ?_
  · simpa using ⟨receipt_unasked foundDocument,link_unasked⟩
  · rw [List.nil_append,hfilter]
    simp [receiptComment_id]
  · rw [List.nil_append,hfilter,List.foldlM_cons,receipt_once found_read]
    rfl
  · obtain ⟨body,hbody,hnone⟩ := request_undisposed
    obtain ⟨body',hbody',hnone'⟩ := receipt_undisposed foundDocument
    exact runs_cons (runs_undisposed hbody hnone) (runs_cons (runs_undisposed hbody' hnone')
      (runs_cons hlink (runs_nil _ _ none)))

/-- Two comments of one identity and time, and the findings of the first. -/
theorem twice_runs {document document' : RoborevDocument}
    (hread : receiptOf (receiptBody document) = .ok (receiptWith document))
    (hread' : receiptOf (receiptBody document') = .ok (receiptWith document'))
    (hvalid : (receiptWith document).validate receiptWeb.platform receiptIntent receiptPolicy = .ok ()) :
    ((inspect quotedTime receiptWeb quotedCandidate receiptPolicy none).start none).Runs
      (receiptLog [receiptRequest,receiptComment document,receiptComment document'])
      (.ok (receiptEvidence ["roborev-comment-5","roborev-comment-5"]
        (findingsOf receiptWeb "roborev-comment-5" receiptUrl document)),none) := by
  have hfilter : [receiptRequest,receiptComment document,receiptComment document'].filter
      (trusted receiptPolicy) = [receiptComment document,receiptComment document'] := by
    simp [request_untrusted,receipt_trusted]
  refine receipt_runs [] [receiptComment document,receiptComment document'] (by simp) ?_ (by simp) ?_ ?_
    hvalid (undisposed_runs ?_ _ none)
  · simpa using ⟨receipt_unasked document,receipt_unasked document'⟩
  · rw [List.nil_append,hfilter]
    simp only [List.mapM_cons,List.mapM_nil,receiptComment_id]
    rfl
  · have hsecond : [receiptComment document'].foldlM
        (selectReceipt quotedTime receiptIntent 1767225600)
        (some ⟨receiptComment document,receiptWith document,1767312000⟩) =
          .ok (some ⟨receiptComment document,receiptWith document,1767312000⟩) := by
      rw [List.foldlM_cons,receipt_twice hread']
      rfl
    have hbind : ∀ (x : Option Selected) (f : Option Selected → Except Error (Option Selected)),
        (Except.ok x >>= f) = f x := fun _ _ => rfl
    rw [List.nil_append,hfilter,List.foldlM_cons,receipt_once hread,hbind,hsecond]
  · simpa using ⟨request_undisposed,receipt_undisposed document,receipt_undisposed document'⟩

/-- Dispositions change the review of one receipt, and the order of two receipts with one identity
decides between them. -/
theorem receipt_not_alone :
    (∃ e e', ((inspect quotedTime receiptWeb quotedCandidate receiptPolicy none).start none).Runs
        (receiptLog [receiptRequest,receiptComment foundDocument]) (.ok e,none) ∧
      ((inspect quotedTime receiptWeb quotedCandidate receiptPolicy none).start none).Runs
        (receiptLog [receiptRequest,receiptComment foundDocument,linkComment]) (.ok e',none) ∧
      [receiptRequest,receiptComment foundDocument].filter (trusted receiptPolicy) =
        [receiptRequest,receiptComment foundDocument,linkComment].filter (trusted receiptPolicy) ∧
      e.review ≠ e'.review) ∧
    ∃ e e', ((inspect quotedTime receiptWeb quotedCandidate receiptPolicy none).start none).Runs
        (receiptLog [receiptRequest,receiptComment foundDocument,receiptComment cleanDocument])
          (.ok e,none) ∧
      ((inspect quotedTime receiptWeb quotedCandidate receiptPolicy none).start none).Runs
        (receiptLog [receiptRequest,receiptComment cleanDocument,receiptComment foundDocument])
          (.ok e',none) ∧
      e.review ≠ e'.review := by
  have hfound : linkFindings ≠ [] := by simp [linkFindings,findingsOf,foundDocument]
  have hclean : findingsOf receiptWeb "roborev-comment-5" receiptUrl cleanDocument = [] := rfl
  have hreview : ∀ known known' left, linkFindings ≠ left →
      (receiptEvidence known linkFindings).review ≠ (receiptEvidence known' left).review := by
    intro known known' left hne heq
    have hfindings := congrArg (Option.map Evaluation.findings) heq
    exact hne (Option.some.inj hfindings)
  refine ⟨⟨_,_,found_after,found_disposed,?_,hreview _ _ _ hfound⟩,
    ⟨_,_,twice_runs found_read clean_read found_valid,twice_runs clean_read found_read clean_valid,?_⟩⟩
  · simp [request_untrusted,receipt_trusted,link_untrusted]
  · rw [hclean]
    exact hreview _ _ _ hfound

/-- The request and its receipt in either order, and the comment of the receipt. -/
theorem receipt_reordered :
    (∃ pr comments permissions comments' permissions',
      Inspected quotedTime receiptWeb quotedCandidate receiptPolicy none
        (receiptLog [receiptRequest,receiptComment foundDocument])
        (receiptEvidence ["roborev-comment-5"] linkFindings) pr comments permissions ∧
      Inspected quotedTime receiptWeb quotedCandidate receiptPolicy none
        (receiptLog [receiptComment foundDocument,receiptRequest])
        (receiptEvidence ["roborev-comment-5"] linkFindings) pr comments' permissions' ∧
      (comments.Perm comments' → Distinct comments → (∀ login a b,
        Answered receiptWeb pr (receiptLog [receiptRequest,receiptComment foundDocument]) login a →
        Answered receiptWeb pr (receiptLog [receiptComment foundDocument,receiptRequest]) login b →
        a = b) → (receiptEvidence ["roborev-comment-5"] linkFindings).review =
          (receiptEvidence ["roborev-comment-5"] linkFindings).review)) ∧
    receiptOf (receiptBody foundDocument) = .ok (receiptWith foundDocument) ∧
      (receiptWith foundDocument).validateBinding receiptWeb.platform receiptIntent receiptPolicy =
        .ok () ∧
      ((receiptWith foundDocument).status = "done" →
        (receiptWith foundDocument).validate receiptWeb.platform receiptIntent receiptPolicy = .ok ()) :=
  ⟨(newest_receipt_decides quotedTime receiptWeb).1 quotedCandidate receiptPolicy none none none _ _ none none _ _ found_after
    found_before,
    (newest_receipt_decides quotedTime receiptWeb).2 receiptWeb.platform (receiptWith foundDocument) receiptIntent receiptPolicy
      (receiptBody foundDocument) found_fits found_comment⟩

end Roborev
end CanixToolbelt
