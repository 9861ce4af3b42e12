import CanixToolbelt.ForgeMerge
import CanixToolbelt.Marker
import CanixToolbelt.Transcript

/-! What both reviewer adapters read from a pull request's comments: who may write, which
comments request a review, and which findings a writer has disposed of. -/
namespace CanixToolbelt
namespace Inspect
open Effect Json Review Forge Receipt Marker Script Fallible

/-! ## Fields of comments -/

def userId (v : Json) : Option ℕ := (pointer ["user","id"] v).bind asU64

def bot (v : Json) : Bool := (pointer ["user","type"] v).bind asStr = some "Bot"

def contains (text part : String) : Bool := decide (part.toList <:+: text.toList)

section
variable (rfc3339 : String → Option ℤ)

/-- Seconds of an RFC 3339 time. -/
def timestamp (value : String) : Except Error ℤ :=
  match rfc3339 value with
  | some t => .ok t
  | none => .error (.other "invalid forge evidence timestamp")

/-- When a comment was last edited, its creation where it never was. -/
def observedAt (comment : Json) : Except Error ℤ := do
  let created ← text comment ["created_at"]
  timestamp rfc3339 (((comment.get? "updated_at").bind asStr).getD created)

end

/-! ## Writers -/

/-- What the forge has said of each login. -/
abbrev Permissions := List (String × Bool)

def loginChar (c : Char) : Bool := c.isAlphanum || c ∈ ['-','[',']']

def permissionRoute (pr : PullRequest) (login : String) : String :=
  "/repos/" ++ pr.repository ++ "/collaborators/" ++ login ++ "/permission"

def permits (result : Json) : Bool :=
  ((result.get? "permission").bind asStr).any (· ∈ ["admin","write","maintain"])

section
variable (web : Web) (pr : PullRequest)

/-- Whether the author of a comment may write to the repository now. -/
def authorized (comment : Json) (permissions : Permissions) : Hub (Bool × Permissions) := do
  let login ← checked (text comment ["user","login"])
  match permissions.lookup login with
  | some allowed => pure (allowed,permissions)
  | none =>
    if ¬ login.toList.all loginChar then pure (false,permissions)
    else do
      let (status,result) ← request web "GET" (permissionRoute pr login) none
      let allowed := status ≠ 404 && permits result
      pure (allowed,(login,allowed)::permissions)

/-! ## Requests and dispositions -/

/-- The intent in a comment that requests this review. -/
def requestIntent (candidate : Candidate) (policy : Policy) (localIntent : Option Intent)
    (body : String) : Option Intent :=
  (marker readIntent body requestMarker).filter fun intent =>
    intent.matches_ web.platform candidate policy && localIntent.all (·.id = intent.id)

/-- The intent in a comment that requests this review, where a writer wrote it. -/
def requested (candidate : Candidate) (policy : Policy) (localIntent : Option Intent)
    (comment : Json) (permissions : Permissions) : Hub (Option Intent × Permissions) := do
  let body ← checked (text comment ["body"])
  match requestIntent web candidate policy localIntent body with
  | none => pure (none,permissions)
  | some intent => do
    let (allowed,permissions) ← authorized web pr comment permissions
    pure (if allowed then some intent else none,permissions)

/-- A disposition, with reasons, of a finding of this review. -/
def bound (candidate : Candidate) (policy : Policy) (reviewId : String) (d : Disposition) : Bool :=
  d.head = candidate.head && d.base = candidate.base && d.reviewId = reviewId &&
    (policy.digest web.platform).toOption = some d.policyDigest && !blank d.reason &&
    !blank d.evidence

/-- A disposition of exactly this finding. -/
def names (d : Disposition) (f : Finding) : Bool :=
  f.id = d.findingId && web.platform.hexDigest f.body.toList = d.bodyDigest

/-- The findings that a comment leaves, where a writer may have disposed of them. -/
def dispose (candidate : Candidate) (policy : Policy) (reviewId : String)
    (found : List Finding × Permissions) (comment : Json) : Hub (List Finding × Permissions) := do
  let body ← checked (text comment ["body"])
  match marker readDisposition body dispositionMarker with
  | none => pure found
  | some d =>
    if d.head = candidate.head ∧ d.base = candidate.base ∧ d.reviewId = reviewId then do
      let digest ← checked (policy.digest web.platform)
      if d.policyDigest = digest ∧ ¬ blank d.reason ∧ ¬ blank d.evidence then do
        let (allowed,permissions) ← authorized web pr comment found.2
        pure (if allowed then found.1.filter fun f => !names web d f else found.1,permissions)
      else pure found
    else pure found

/-! Inspection only reads. -/

variable {web pr}

theorem authorized_reads (comment : Json) (permissions : Permissions) :
    (authorized web pr comment permissions).Uses Reads := by
  apply uses_bind (checked_reads _)
  intro login
  split
  · exact uses_pure _
  split
  · exact uses_pure _
  · exact uses_bind (request_reads _) fun reply => uses_pure _

theorem requested_reads (candidate : Candidate) (policy : Policy) (localIntent : Option Intent)
    (comment : Json) (permissions : Permissions) :
    (requested web pr candidate policy localIntent comment permissions).Uses Reads := by
  apply uses_bind (checked_reads _)
  intro body
  split
  · exact uses_pure _
  · exact uses_bind (authorized_reads _ _) fun told => uses_pure _

theorem dispose_reads (candidate : Candidate) (policy : Policy) (reviewId : String)
    (found : List Finding × Permissions) (comment : Json) :
    (dispose web pr candidate policy reviewId found comment).Uses Reads := by
  apply uses_bind (checked_reads _)
  intro body
  split
  · exact uses_pure _
  split
  · apply uses_bind (checked_reads _)
    intro digest
    split
    · exact uses_bind (authorized_reads _ _) fun told => uses_pure _
    · exact uses_pure _
  · exact uses_pure _

end

/-! ## What a run was told about writers -/

section
variable (web : Web) (pr : PullRequest)

/-- The forge said in this log whether the login may write. -/
def Answered (log : Log) (login : String) (allowed : Bool) : Prop :=
  ∃ status result, Said log (request web "GET" (permissionRoute pr login) none) (status,result) ∧
    allowed = (status ≠ 404 && permits result)

/-- Everything remembered was said. -/
def Backed (log : Log) (permissions : Permissions) : Prop :=
  ∀ login allowed, permissions.lookup login = some allowed →
    login.toList.all loginChar = true ∧ Answered web pr log login allowed

end

def granted (permissions : Permissions) (comment : Json) : Bool :=
  match text comment ["user","login"] with
  | .ok login => login.toList.all loginChar && (permissions.lookup login).getD false
  | .error _ => false

/-- Whether the author may write is known. -/
def Settled (permissions : Permissions) (comment : Json) : Prop :=
  ∃ login, text comment ["user","login"] = .ok login ∧
    (login.toList.all loginChar = true → (permissions.lookup login).isSome)

/-- Nothing remembered is lost or changed. -/
def Extends (before after : Permissions) : Prop :=
  ∀ login allowed, before.lookup login = some allowed → after.lookup login = some allowed

theorem Extends.refl (ps : Permissions) : Extends ps ps := fun _ _ h => h

theorem Extends.trans {ps qs rs : Permissions} (h : Extends ps qs) (h' : Extends qs rs) :
    Extends ps rs := fun login allowed hl => h' login allowed (h login allowed hl)

theorem Settled.mono {ps qs : Permissions} {c : Json} (h : Settled ps c) (hq : Extends ps qs) :
    Settled qs c := by
  obtain ⟨login,hlogin,hsome⟩ := h
  refine ⟨login,hlogin,fun hchars => ?_⟩
  obtain ⟨allowed,hallowed⟩ := Option.isSome_iff_exists.mp (hsome hchars)
  rw [hq login allowed hallowed]
  rfl

theorem granted_mono {ps qs : Permissions} {c : Json} (h : Settled ps c) (hq : Extends ps qs) :
    granted qs c = granted ps c := by
  obtain ⟨login,hlogin,hsome⟩ := h
  simp only [granted,hlogin]
  cases hchars : login.toList.all loginChar with
  | false => rfl
  | true =>
    obtain ⟨allowed,hallowed⟩ := Option.isSome_iff_exists.mp (hsome hchars)
    rw [hallowed,hq login allowed hallowed]

section
variable {web : Web} {pr : PullRequest} {log es : Log} {ps qs : Permissions} {c : Json}

theorem Answered.mono {login : String} {allowed : Bool} (h : Answered web pr log login allowed)
    (more : Log) : Answered web pr (log ++ more) login allowed := by
  obtain ⟨status,result,hsaid,hallowed⟩ := h
  exact ⟨status,result,hsaid.mono more,hallowed⟩

theorem Backed.mono (h : Backed web pr log ps) (more : Log) : Backed web pr (log ++ more) ps :=
  fun login allowed hl => ⟨(h login allowed hl).1,(h login allowed hl).2.mono more⟩

/-- What a run returned was said in it. -/
theorem said_ran {α : Type} {m : Hub α} {a : α} (log : Log) (h : Ran m es a) :
    Said (log ++ es) m a := by
  obtain ⟨s,s',h⟩ := h
  exact said log h

theorem ran_checked {α : Type} {r : Except Error α} {a : α} (h : Ran (Forge.checked r) es a) :
    es = [] ∧ r = .ok a := by
  cases r with
  | error e => exact (ran_throw h).elim
  | ok b =>
    obtain ⟨rfl,rfl⟩ := ran_pure h
    exact ⟨rfl,rfl⟩

theorem ran_fail {α : Type} {message : String} {a : α} (h : Ran (fail message) es a) : False :=
  ran_throw h

/-- A pure check in front of a run. -/
theorem ran_then {α β : Type} {r : Except Error α} {f : α → Hub β} {b : β}
    (h : Ran (Forge.checked r >>= f) es b) : ∃ a, r = .ok a ∧ Ran (f a) es b := by
  obtain ⟨a,es₁,es₂,rfl,h₁,h₂⟩ := ran_bind h
  obtain ⟨rfl,hr⟩ := ran_checked h₁
  exact ⟨a,hr,h₂⟩

theorem authorized_ran {allowed : Bool} (hps : Backed web pr log ps)
    (h : Ran (authorized web pr c ps) es (allowed,qs)) :
    Extends ps qs ∧ Backed web pr (log ++ es) qs ∧ Settled qs c ∧ granted qs c = allowed := by
  unfold authorized at h
  obtain ⟨login,hlogin,h⟩ := ran_then h
  cases hknown : ps.lookup login with
  | some known =>
    rw [hknown] at h
    obtain ⟨rfl,hret⟩ := ran_pure h
    cases hret
    refine ⟨.refl ps,hps.mono _,⟨login,hlogin,fun _ => by rw [hknown]; rfl⟩,?_⟩
    simp only [granted,hlogin,hknown,(hps login _ hknown).1]
    rfl
  | none =>
    rw [hknown] at h
    dsimp only at h
    split at h
    · rename_i hchars
      obtain ⟨rfl,hret⟩ := ran_pure h
      cases hret
      refine ⟨.refl ps,hps.mono _,⟨login,hlogin,fun ha => absurd ha hchars⟩,?_⟩
      simp only [granted,hlogin]
      rw [Bool.eq_false_iff.mpr hchars]
      rfl
    · rename_i hchars
      obtain ⟨⟨status,result⟩,es₁,es₂,rfl,hsaid,h⟩ := ran_bind h
      obtain ⟨rfl,hret⟩ := ran_pure h
      cases hret
      rw [List.append_nil]
      have hall : login.toList.all loginChar = true := not_not.mp hchars
      have hself : List.lookup login ((login,(status ≠ 404 && permits result))::ps) =
          some (status ≠ 404 && permits result) := by simp [List.lookup]
      have hother : ∀ l, l ≠ login →
          List.lookup l ((login,(status ≠ 404 && permits result))::ps) = ps.lookup l := by
        intro l hl
        simp [List.lookup,beq_false_of_ne hl]
      refine ⟨?_,?_,⟨login,hlogin,fun _ => by rw [hself]; rfl⟩,?_⟩
      · intro l known hl
        have hne : l ≠ login := by
          rintro rfl
          rw [hknown] at hl
          cases hl
        rw [hother l hne,hl]
      · intro l known hl
        by_cases hll : l = login
        · subst hll
          rw [hself] at hl
          cases hl
          exact ⟨hall,status,result,said_ran log hsaid,rfl⟩
        · rw [hother l hll] at hl
          exact (hps.mono _) l known hl
      · simp only [granted,hlogin,hself,hall]
        rfl

theorem requested_ran {candidate : Candidate} {policy : Policy} {localIntent o : Option Intent}
    (hps : Backed web pr log ps)
    (h : Ran (requested web pr candidate policy localIntent c ps) es (o,qs)) :
    ∃ body, text c ["body"] = .ok body ∧ Extends ps qs ∧ Backed web pr (log ++ es) qs ∧
      (∀ i, requestIntent web candidate policy localIntent body = some i → Settled qs c) ∧
      o = (requestIntent web candidate policy localIntent body).filter fun _ => granted qs c := by
  unfold requested at h
  obtain ⟨body,hbody,h⟩ := ran_then h
  refine ⟨body,hbody,?_⟩
  cases hi : requestIntent web candidate policy localIntent body with
  | none =>
    rw [hi] at h
    obtain ⟨rfl,hret⟩ := ran_pure h
    cases hret
    exact ⟨.refl ps,hps.mono _,by simp,rfl⟩
  | some i =>
    rw [hi] at h
    obtain ⟨⟨allowed,rs⟩,es₁,es₂,rfl,ha,h⟩ := ran_bind h
    obtain ⟨rfl,hret⟩ := ran_pure h
    cases hret
    rw [List.append_nil]
    obtain ⟨hext,hback,hsettled,hgranted⟩ := authorized_ran hps ha
    refine ⟨hext,hback,fun _ _ => hsettled,?_⟩
    rw [hgranted]
    cases allowed <;> rfl

/-- A comment in which a current writer requests this review. -/
def Requests (web : Web) (candidate : Candidate) (policy : Policy) (localIntent : Option Intent)
    (permissions : Permissions) (comment : Json) (intent : Intent) : Prop :=
  granted permissions comment = true ∧ ∃ body, text comment ["body"] = .ok body ∧
    requestIntent web candidate policy localIntent body = some intent

/-- The author of each request among these comments was asked about. -/
structure Asked (web : Web) (pr : PullRequest) (candidate : Candidate) (policy : Policy)
    (localIntent : Option Intent) (done : List Json) (permissions : Permissions) (log : Log) :
    Prop where
  backed : Backed web pr log permissions
  settled : ∀ c ∈ done, ∀ body i, text c ["body"] = .ok body →
    requestIntent web candidate policy localIntent body = some i → Settled permissions c

section
variable {candidate : Candidate} {policy : Policy} {localIntent : Option Intent} {done : List Json}

/-- More is known of writers: the requests among the comments asked about stay the same. -/
theorem Asked.requests (h : Asked web pr candidate policy localIntent done ps log)
    (hext : Extends ps qs) {a : Json} (ha : a ∈ done) (i : Intent) :
    Requests web candidate policy localIntent qs a i ↔
      Requests web candidate policy localIntent ps a i := by
  constructor
  · rintro ⟨hgranted,body,hbody,hi⟩
    exact ⟨by rwa [granted_mono (h.settled a ha body i hbody hi) hext] at hgranted,body,hbody,hi⟩
  · rintro ⟨hgranted,body,hbody,hi⟩
    exact ⟨by rwa [granted_mono (h.settled a ha body i hbody hi) hext],body,hbody,hi⟩

theorem asked_nil : Asked web pr candidate policy localIntent [] [] log :=
  ⟨fun login allowed hl => by simp at hl,by simp⟩

theorem Asked.next {o : Option Intent} (h : Asked web pr candidate policy localIntent done ps log)
    (hran : Ran (requested web pr candidate policy localIntent c ps) es (o,qs)) :
    Asked web pr candidate policy localIntent (done ++ [c]) qs (log ++ es) ∧ Extends ps qs ∧
      ∀ i, Requests web candidate policy localIntent qs c i ↔ o = some i := by
  obtain ⟨body,hbody,hext,hback,hsettled,ho⟩ := requested_ran h.backed hran
  refine ⟨⟨hback,fun a ha b i hb hi => ?_⟩,hext,fun i => ?_⟩
  · rcases List.mem_append.mp ha with ha | ha
    · exact (h.settled a ha b i hb hi).mono hext
    · rw [List.mem_singleton.mp ha,hbody] at hb
      cases hb
      rw [List.mem_singleton.mp ha]
      exact hsettled i hi
  · rw [ho,Option.filter_eq_some_iff]
    constructor
    · rintro ⟨hgranted,b,hb,hi⟩
      rw [hbody] at hb
      cases hb
      exact ⟨hi,hgranted⟩
    · rintro ⟨hi,hgranted⟩
      exact ⟨hgranted,body,hbody,hi⟩

end

/-- The disposition in a comment, if it is one for this review. -/
def disposed (web : Web) (candidate : Candidate) (policy : Policy) (reviewId : String)
    (comment : Json) : Option Disposition :=
  ((text comment ["body"]).toOption.bind (marker readDisposition · dispositionMarker)).filter
    (bound web candidate policy reviewId)

/-- Whether one of these comments disposes of a finding. -/
def settles (web : Web) (candidate : Candidate) (policy : Policy) (reviewId : String)
    (permissions : Permissions) (comments : List Json) (f : Finding) : Bool :=
  comments.any fun c => (disposed web candidate policy reviewId c).any (names web · f) &&
    granted permissions c

theorem dispose_ran {candidate : Candidate} {policy : Policy} {reviewId : String}
    {found left : List Finding} (hps : Backed web pr log ps)
    (h : Ran (dispose web pr candidate policy reviewId (found,ps) c) es (left,qs)) :
    (∃ body, text c ["body"] = .ok body) ∧ Extends ps qs ∧ Backed web pr (log ++ es) qs ∧
      (∀ d, disposed web candidate policy reviewId c = some d → Settled qs c) ∧
      left = found.filter fun f => !settles web candidate policy reviewId qs [c] f := by
  unfold dispose at h
  obtain ⟨body,hbody,h⟩ := ran_then h
  refine ⟨⟨body,hbody⟩,?_⟩
  have hnone : disposed web candidate policy reviewId c = none → es = [] → (found,ps) = (left,qs) →
      Extends ps qs ∧ Backed web pr (log ++ es) qs ∧
        (∀ d, disposed web candidate policy reviewId c = some d → Settled qs c) ∧
        left = found.filter fun f => !settles web candidate policy reviewId qs [c] f := by
    intro hd hes hret
    cases hret
    subst hes
    refine ⟨.refl _,hps.mono _,by simp [hd],?_⟩
    simp [settles,hd]
  have hunfold : disposed web candidate policy reviewId c =
      (marker readDisposition body dispositionMarker).filter
        (bound web candidate policy reviewId) := by rw [disposed,hbody]; rfl
  cases hm : marker readDisposition body dispositionMarker with
  | none =>
    rw [hm] at h
    obtain ⟨rfl,hret⟩ := ran_pure h
    exact hnone (by rw [hunfold,hm]; rfl) rfl hret
  | some d =>
    rw [hm] at h hunfold
    dsimp only at h
    split at h
    · rename_i hcompared
      obtain ⟨digest,hdigest,h⟩ := ran_then h
      split at h
      · rename_i hrest
        have hbound : bound web candidate policy reviewId d = true := by
          simp [bound,hcompared,hdigest,hrest,Except.toOption]
        rw [Option.filter,if_pos hbound] at hunfold
        obtain ⟨⟨allowed,rs⟩,es₁,es₂,rfl,ha,h⟩ := ran_bind h
        obtain ⟨rfl,hret⟩ := ran_pure h
        cases hret
        rw [List.append_nil]
        obtain ⟨hext,hback,hsettled,hgranted⟩ := authorized_ran hps ha
        refine ⟨hext,hback,fun _ _ => hsettled,?_⟩
        cases allowed with
        | false => simp [settles,hgranted]
        | true => simp [settles,hgranted,hunfold]
      · rename_i hrest
        obtain ⟨rfl,hret⟩ := ran_pure h
        refine hnone ?_ rfl hret
        rw [hunfold,Option.filter,if_neg]
        intro hbound
        simp [bound,hdigest,Except.toOption] at hbound
        exact hrest ⟨hbound.1.1.2.symm,by simp [hbound.1.2],by simp [hbound.2]⟩
    · rename_i hcompared
      obtain ⟨rfl,hret⟩ := ran_pure h
      refine hnone ?_ rfl hret
      rw [hunfold,Option.filter,if_neg]
      intro hbound
      simp [bound] at hbound
      exact hcompared ⟨hbound.1.1.1.1.1,hbound.1.1.1.1.2,hbound.1.1.1.2⟩

theorem settles_mono {candidate : Candidate} {policy : Policy} {reviewId : String}
    {comments : List Json} (hext : Extends ps qs)
    (h : ∀ c ∈ comments, ∀ d, disposed web candidate policy reviewId c = some d → Settled ps c)
    (f : Finding) : settles web candidate policy reviewId qs comments f =
      settles web candidate policy reviewId ps comments f := by
  unfold settles
  induction comments with
  | nil => rfl
  | cons c cs ih =>
    rw [List.any_cons,List.any_cons,ih fun c hc => h c (by simp [hc])]
    congr 1
    cases hd : disposed web candidate policy reviewId c with
    | none => rfl
    | some d => rw [granted_mono (h c (by simp) d hd) hext]

/-- Two runs that were told the same of a login grant it the same. -/
theorem granted_agree {log' : Log} (hps : Backed web pr log ps) (hqs : Backed web pr log' qs)
    (hagree : ∀ login a b, Answered web pr log login a → Answered web pr log' login b → a = b)
    (hp : Settled ps c) (hq : Settled qs c) : granted ps c = granted qs c := by
  obtain ⟨login,hlogin,hp⟩ := hp
  obtain ⟨login',hlogin',hq⟩ := hq
  rw [hlogin] at hlogin'
  cases hlogin'
  simp only [granted,hlogin]
  cases hchars : login.toList.all loginChar with
  | false => rfl
  | true =>
    obtain ⟨a,ha⟩ := Option.isSome_iff_exists.mp (hp hchars)
    obtain ⟨b,hb⟩ := Option.isSome_iff_exists.mp (hq hchars)
    rw [ha,hb,hagree login a b (hps login a ha).2 (hqs login b hb).2]

theorem settles_agree {candidate : Candidate} {policy : Policy} {reviewId : String}
    {comments comments' : List Json} (hperm : comments.Perm comments')
    (hagree : ∀ c ∈ comments, ∀ d, disposed web candidate policy reviewId c = some d →
      granted ps c = granted qs c) (f : Finding) :
    settles web candidate policy reviewId ps comments f =
      settles web candidate policy reviewId qs comments' f := by
  unfold settles
  rw [← hperm.any_eq,Bool.eq_iff_iff]
  simp only [List.any_eq_true]
  refine exists_congr fun c => and_congr_right fun hc => ?_
  cases hd : disposed web candidate policy reviewId c with
  | none => simp
  | some d => rw [hagree c hc d hd]

/-- A current writer disposed, with reasons, of exactly this finding of exactly this review. -/
structure DisposedOf (web : Web) (candidate : Candidate) (policy : Policy) (reviewId : String)
    (permissions : Permissions) (findingId body : String) (comment : Json) : Prop where
  writer : granted permissions comment = true
  recorded : ∃ t d, text comment ["body"] = .ok t ∧
    marker readDisposition t dispositionMarker = some d ∧ d.head = candidate.head ∧
    d.base = candidate.base ∧ policy.digest web.platform = .ok d.policyDigest ∧
    d.reviewId = reviewId ∧ d.findingId = findingId ∧
    d.bodyDigest = web.hexDigest body.toList ∧ ¬ blank d.reason ∧ ¬ blank d.evidence

theorem toOption_eq_some {ε α : Type} {x : Except ε α} {a : α} :
    x.toOption = some a ↔ x = .ok a := by
  cases x <;> simp [Except.toOption]

theorem bound_iff {candidate : Candidate} {policy : Policy} {reviewId : String} {d : Disposition} :
    bound web candidate policy reviewId d = true ↔ d.head = candidate.head ∧
      d.base = candidate.base ∧ d.reviewId = reviewId ∧
      policy.digest web.platform = .ok d.policyDigest ∧ ¬ blank d.reason ∧ ¬ blank d.evidence := by
  simp only [bound,Bool.and_eq_true,decide_eq_true_eq,Bool.not_eq_true',toOption_eq_some,
    Bool.not_eq_true,and_assoc]

theorem settles_iff {candidate : Candidate} {policy : Policy} {reviewId : String}
    {comments : List Json} {f : Finding} :
    settles web candidate policy reviewId ps comments f = true ↔
      ∃ c ∈ comments, DisposedOf web candidate policy reviewId ps f.id f.body c := by
  have hone : ∀ c, ((disposed web candidate policy reviewId c).any (names web · f) &&
      granted ps c) = true ↔ DisposedOf web candidate policy reviewId ps f.id f.body c := by
    intro c
    simp only [Bool.and_eq_true,Option.any_eq_true,disposed,Option.filter_eq_some_iff,
      Option.bind_eq_some_iff,toOption_eq_some,names,decide_eq_true_eq]
    constructor
    · rintro ⟨⟨d,⟨⟨t,ht,hd⟩,hbound⟩,hid,hbody⟩,hgranted⟩
      obtain ⟨hhead,hbase,hreview,hdigest,hreason,hevidence⟩ := bound_iff.mp hbound
      exact ⟨hgranted,t,d,ht,hd,hhead,hbase,hdigest,hreview,hid.symm,hbody.symm,hreason,hevidence⟩
    · rintro ⟨hgranted,t,d,ht,hd,hhead,hbase,hdigest,hreview,hid,hbody,hreason,hevidence⟩
      have hbound := bound_iff.mpr ⟨hhead,hbase,hreview,hdigest,hreason,hevidence⟩
      exact ⟨⟨d,⟨⟨t,ht,hd⟩,hbound⟩,hid.symm,hbody.symm⟩,hgranted⟩
  simp only [settles,List.any_eq_true,hone]

/-- What is left of the findings once every comment was asked about. -/
theorem disposals_ran {candidate : Candidate} {policy : Policy} {reviewId : String}
    {comments : List Json} {found left : List Finding} (hps : Backed web pr log ps)
    (h : Ran (comments.foldlM (dispose web pr candidate policy reviewId) (found,ps)) es (left,qs)) :
    Extends ps qs ∧ Backed web pr (log ++ es) qs ∧
      (∀ c ∈ comments, ∀ d, disposed web candidate policy reviewId c = some d → Settled qs c) ∧
      left = found.filter fun f => !settles web candidate policy reviewId qs comments f := by
  let P : List Json → List Finding × Permissions → Log → Prop := fun comments state log =>
    Extends ps state.2 ∧ Backed web pr log state.2 ∧
      (∀ c ∈ comments, ∀ d, disposed web candidate policy reviewId c = some d → Settled state.2 c) ∧
      state.1 = found.filter fun f => !settles web candidate policy reviewId state.2 comments f
  have hstart : P [] (found,ps) log := ⟨.refl ps,hps,by simp,by simp [settles]⟩
  refine ran_foldlM (P := P) ?_ hstart h
  rintro done c ⟨found₁,ps₁⟩ before ⟨found₂,ps₂⟩ es' ⟨hext₁,hback₁,hsettled₁,hfound₁⟩ hran
  obtain rfl : found₁ = found.filter fun f =>
    !settles web candidate policy reviewId ps₁ done f := hfound₁
  obtain ⟨-,hext,hback,hsettled,hleft⟩ := dispose_ran hback₁ hran
  refine ⟨hext₁.trans hext,hback,?_,?_⟩
  · intro a ha d hd
    rcases List.mem_append.mp ha with ha | ha
    · exact (hsettled₁ a ha d hd).mono hext
    · rw [List.mem_singleton.mp ha] at hd ⊢
      exact hsettled d hd
  · rw [hleft,List.filter_filter]
    refine List.filter_congr fun f _ => ?_
    have hdone := settles_mono hext hsettled₁ f
    have hsplit : settles web candidate policy reviewId ps₂ (done ++ [c]) f =
        (settles web candidate policy reviewId ps₂ done f ||
          settles web candidate policy reviewId ps₂ [c] f) := by
      simp [settles]
    rw [hsplit,hdone,Bool.not_or,Bool.and_comm]

end
/-! ## Runs against given replies -/

/-- A request that was answered with this value. -/
def replied (route : String) (v : Json) : Log :=
  let response : Response := ⟨200,none,none,none,.ok v⟩
  [⟨Req.expired,.ok false⟩,⟨Req.http "GET" route none,.ok response⟩]

theorem runs_request {web : Web} {route : String} (huri : web.uri route = true) (v : Json)
    (s : Option ℕ) : ((request web "GET" route none).start s).Runs
      (replied route v) (.ok (200,v),none) := by
  refine .call ?_
  change (Script.start (if ¬ web.uri route then fail "invalid GitHub request" else _) none).Runs _ _
  rw [if_neg (by simp [huri])]
  exact .call (.ret _)

theorem runs_pages {web : Web} {route : String} {items : List Json}
    (huri : web.uri (pageRoute route 1) = true) (hlength : items.length < 100) (s : Option ℕ) :
    ((pages web route none).start s).Runs
      (replied (pageRoute route 1) (.arr items)) (.ok items,none) := by
  have hget : ((get web (pageRoute route 1)).start s).Runs
      (replied (pageRoute route 1) (.arr items) ++ [])
      (.ok (.arr items),none) := Prog.Runs.seq (runs_request huri (.arr items) s) (.ret _)
  rw [← List.append_nil (replied (pageRoute route 1) (.arr items))]
  rw [List.append_nil] at hget
  refine Prog.Runs.seq hget ?_
  change (Script.start (if items.length > 100 then _ else if items.length < 100 then
    pure items else _) none).Runs _ _
  rw [if_neg (by omega),if_pos hlength]
  exact .ret _
section
variable {web : Web} {pr : PullRequest} {ps : Permissions} {c : Json} {s : Option ℕ}

theorem runs_then {α β : Type} {r : Except Error α} {a : α} {f : α → Hub β} {es : Log}
    {x : Except Error β × Option ℕ} (hr : r = .ok a) (h : ((f a).start s).Runs es x) :
    ((Forge.checked r >>= f).start s).Runs es x := by
  rw [hr]
  exact h

theorem runs_seq {α β : Type} {m : Hub α} {a : α} {f : α → Hub β} {es₁ es₂ : Log} {s₁ : Option ℕ}
    {x : Except Error β × Option ℕ} (hm : (m.start s).Runs es₁ (.ok a,s₁))
    (h : ((f a).start s₁).Runs es₂ x) : ((m >>= f).start s).Runs (es₁ ++ es₂) x :=
  Prog.Runs.seq hm h

theorem runs_cons {α τ : Type} {f : τ → α → Hub τ} {a : α} {as : List α} {t u : τ} {es₁ es₂ : Log}
    {s₁ : Option ℕ} {x : Except Error τ × Option ℕ} (h : ((f t a).start s).Runs es₁ (.ok u,s₁))
    (hs : ((as.foldlM f u).start s₁).Runs es₂ x) :
    (((a::as).foldlM f t).start s).Runs (es₁ ++ es₂) x := runs_seq h hs

theorem runs_nil {α τ : Type} (f : τ → α → Hub τ) (t : τ) (s : Option ℕ) :
    ((([] : List α).foldlM f t).start s).Runs [] (.ok t,s) := .ret _

theorem runs_asked (login : String) (hlogin : text c ["user","login"] = .ok login)
    (hnew : ps.lookup login = none) (hchars : login.toList.all loginChar = true)
    (huri : web.uri (permissionRoute pr login) = true) (result : Json) :
    ((authorized web pr c ps).start s).Runs (replied (permissionRoute pr login) result)
      (.ok (permits result,(login,permits result)::ps),none) := by
  unfold authorized
  refine runs_then hlogin ?_
  rw [hnew]
  change (Script.start (if ¬ login.toList.all loginChar = true then _ else _) s).Runs _ _
  rw [if_neg (not_not.mpr hchars)]
  have h := runs_seq (f := fun reply : ℕ × Json => (pure ((decide (reply.1 ≠ 404) && permits reply.2),
    (login,decide (reply.1 ≠ 404) && permits reply.2)::ps) : Hub (Bool × Permissions)))
    (runs_request huri result s) (.ret _)
  rw [List.append_nil] at h
  exact h

theorem runs_known (login : String) {allowed : Bool} (hlogin : text c ["user","login"] = .ok login)
    (hknown : ps.lookup login = some allowed) :
    ((authorized web pr c ps).start s).Runs [] (.ok (allowed,ps),s) := by
  unfold authorized
  refine runs_then hlogin ?_
  rw [hknown]
  exact .ret _

variable {candidate : Candidate} {policy : Policy} {localIntent : Option Intent} {body : String}

theorem runs_requested {i : Intent} {qs : Permissions} {es : Log} {s' : Option ℕ}
    (hbody : text c ["body"] = .ok body)
    (hi : requestIntent web candidate policy localIntent body = some i)
    (hwriter : ((authorized web pr c ps).start s).Runs es (.ok (true,qs),s')) :
    ((requested web pr candidate policy localIntent c ps).start s).Runs es (.ok (some i,qs),s') := by
  unfold requested
  refine runs_then hbody ?_
  rw [hi]
  have h := runs_seq (f := fun told : Bool × Permissions =>
    (pure (if told.1 then some i else none,told.2) : Hub (Option Intent × Permissions)))
    hwriter (.ret _)
  rw [List.append_nil] at h
  exact h

theorem runs_unrequested (hbody : text c ["body"] = .ok body)
    (hi : requestIntent web candidate policy localIntent body = none) :
    ((requested web pr candidate policy localIntent c ps).start s).Runs [] (.ok (none,ps),s) := by
  unfold requested
  refine runs_then hbody ?_
  rw [hi]
  exact .ret _

variable {reviewId : String} {found : List Finding}

theorem runs_dispose (c : Json) (found : List Finding) {d : Disposition} {qs : Permissions}
    {es : Log} {s' : Option ℕ}
    (hbody : text c ["body"] = .ok body)
    (hd : marker readDisposition body dispositionMarker = some d)
    (hbound : bound web candidate policy reviewId d = true)
    (hwriter : ((authorized web pr c ps).start s).Runs es (.ok (true,qs),s')) :
    ((dispose web pr candidate policy reviewId (found,ps) c).start s).Runs es
      (.ok (found.filter fun f => !names web d f,qs),s') := by
  obtain ⟨hhead,hbase,hreview,hdigest,hreason,hevidence⟩ := bound_iff.mp hbound
  unfold dispose
  refine runs_then hbody ?_
  rw [hd]
  change (Script.start (if d.head = candidate.head ∧ d.base = candidate.base ∧
    d.reviewId = reviewId then _ else _) s).Runs _ _
  rw [if_pos ⟨hhead,hbase,hreview⟩]
  refine runs_then hdigest ?_
  rw [if_pos ⟨rfl,hreason,hevidence⟩]
  have h := runs_seq (f := fun told : Bool × Permissions =>
    (pure (if told.1 then found.filter fun f => !names web d f else found,told.2) :
      Hub (List Finding × Permissions))) hwriter (.ret _)
  rw [List.append_nil] at h
  exact h

theorem runs_undisposed (hbody : text c ["body"] = .ok body)
    (hd : marker readDisposition body dispositionMarker = none) :
    ((dispose web pr candidate policy reviewId (found,ps) c).start s).Runs [] (.ok (found,ps),s) := by
  unfold dispose
  refine runs_then hbody ?_
  rw [hd]
  exact .ret _

end
/-! ## A sample -/

def quotedWeb : Web where
  hexDigest := quotedPlatform.hexDigest
  url := fun s => if s = quotedCandidate.url then
    some ⟨"https","",false,false,some "github.com",false,false,"/example/project/pull/12"⟩ else none
  segment := fun s => s
  uri := fun _ => true

def quotedPr : PullRequest := ⟨"github.com","example/project",12⟩

/-- Midnight of the first days of 2026. -/
def quotedTime (s : String) : Option ℤ :=
  [("2026-01-01T00:00:00Z",1767225600),("2026-01-02T00:00:00Z",1767312000),
    ("2026-01-03T00:00:00Z",1767398400)].lookup s

/-- A comment by a maintainer of the repository. -/
def maintained (id : ℕ) (created body : String) : Json := .obj
  [("body",.str body),("created_at",.str created),
    ("html_url",.str "https://github.com/example/project/pull/12#issuecomment-1"),("id",.int id),
    ("user",.obj [("id",.int 7),("login",.str "maintainer"),("type",.str "User")])]

def maintainerPermission : Json := .obj [("permission",.str "write")]

theorem quotedPr_parsed : PullRequest.parse quotedWeb quotedCandidate.url = .ok quotedPr := by
  decide +kernel

theorem quoted_asked (id : ℕ) (created body : String) (s : Option ℕ) :
    ((authorized quotedWeb quotedPr (maintained id created body) []).start s).Runs
      (replied (permissionRoute quotedPr "maintainer") maintainerPermission)
      (.ok (true,[("maintainer",true)]),none) :=
  runs_asked "maintainer" rfl rfl (by decide) rfl maintainerPermission

theorem quoted_known (id : ℕ) (created body : String) (s : Option ℕ) :
    ((authorized quotedWeb quotedPr (maintained id created body) [("maintainer",true)]).start s).Runs
      [] (.ok (true,[("maintainer",true)]),s) :=
  runs_known "maintainer" rfl rfl

end Inspect
end CanixToolbelt
