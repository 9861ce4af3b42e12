import CanixToolbelt.OrchestrationBound

/-! A refresh of unchanged sources, right after another, changes nothing. -/
namespace CanixToolbelt
namespace Orchestration

open Fallible Json Canonical

variable {lib : Library} {policy : Policy} {inputs : Inputs} {p : Packet} {src : Sources}

/-! ## Fields that an assignment leaves alone -/

namespace Row
variable {r r' : Row} {k l : String} {x y : Json} {keys : List String}

theorem ext_json (h : r.json = r'.json) : r = r' := by
  cases r
  cases r'
  exact congrArg Row.mk (Json.obj.inj h)

theorem set_twice (r : Row) (k : String) (x y : Json) : (r.set k x).set k y = r.set k y :=
  ext_json (Json.set_twice r.json k x y)

theorem set_self (r : Row) (k : String) (x : Json) : (r.set k x).set k x = r.set k x :=
  r.set_twice k x x

theorem set_still (y : Json) (hne : k ≠ l) (h : r.set k x = r) : (r.set l y).set k x = r.set l y :=
  ext_json (Json.set_still (v := r.json) (x := x) y hne (congrArg Row.json h))

/-- What an assignment leaves alone, it leaves alone after writes to other keys. -/
theorem Writes.still (h : Row.Writes keys r r') (hk : k ∉ keys) (hx : r.set k x = r) :
    r'.set k x = r' :=
  ext_json (Json.Writes.still h hk (congrArg Row.json hx))

end Row

/-! ## The audits of a report -/

/-- The certificate of the report's item for `pr`, if it has one, is on record. -/
def Recorded (lib : Library) (src : Sources) (report : Json) (ps : Row) (pr : Json) : Prop :=
  ∀ item, ((reportItems report).find? fun item => item.get "url" = pr.get "url") = some item →
    ∃ url, pr.get "url" = .str url ∧ (certifies lib src pr item = true →
      (ps.get "auditedCheckpoints").get url = .str (digest lib (.arr [report.get "eventVersion",item])))

variable {d : String} {report : Json}

theorem Recorded.again {ps : Row} {pr : Json} (h : Recorded lib src report ps pr) :
    acceptItem lib src d report ps pr = .ok ps := by
  unfold acceptItem
  cases hfind : (reportItems report).find? fun item => item.get "url" = pr.get "url" with
  | none => rfl
  | some item =>
    obtain ⟨url,hurl,hcheckpoint⟩ := h item hfind
    simp only [hurl,asStr]
    refine if_neg fun hwrite => ?_
    simp only [Bool.and_eq_true,decide_eq_true_eq] at hwrite
    exact hwrite.2 (hcheckpoint hwrite.1)

/-- What accepting an item does: nothing, or the record of its certificate. -/
theorem acceptItem_cases {ps ps' : Row} {pr : Json} (h : acceptItem lib src d report ps pr = .ok ps') :
    (ps' = ps ∧ Recorded lib src report ps pr) ∨
    ∃ item url, ((reportItems report).find? fun item => item.get "url" = pr.get "url") = some item ∧
      pr.get "url" = .str url ∧
      ps' = audited (ps.set "auditedCheckpoints" ((ps.get "auditedCheckpoints").set url
        (.str (digest lib (.arr [report.get "eventVersion",item]))))) url
          (.str (feedbackVersion lib pr)) d := by
  unfold acceptItem at h
  cases hfind : (reportItems report).find? fun item => item.get "url" = pr.get "url" with
  | none =>
    rw [hfind] at h
    refine .inl ⟨(Except.ok.inj h).symm,fun item hitem => ?_⟩
    rw [hfind] at hitem
    cases hitem
  | some item =>
    rw [hfind] at h
    cases hurl : (pr.get "url").asStr with
    | none =>
      rw [hurl] at h
      cases h
    | some url =>
      rw [hurl] at h
      dsimp only at h
      split at h
      · exact .inr ⟨item,url,rfl,asStr_eq.mp hurl,(Except.ok.inj h).symm⟩
      · rename_i hskip
        refine .inl ⟨(Except.ok.inj h).symm,fun item' hitem => ⟨url,asStr_eq.mp hurl,fun hcert => ?_⟩⟩
        rw [hfind] at hitem
        obtain rfl := Option.some.inj hitem
        by_contra hne
        exact hskip (by simp [hcert,hne])

theorem audited_checkpoints (ps : Row) (url : String) (v : Json) (d : String) :
    (audited ps url v d).get "auditedCheckpoints" = ps.get "auditedCheckpoints" :=
  (@audited_writes auditKeys ps url v d (List.Subset.refl _)).get (by decide)

theorem acceptItem_records {ps ps' : Row} {pr : Json}
    (hmaps : (ps.get "auditedCheckpoints").Assignable)
    (h : acceptItem lib src d report ps pr = .ok ps') :
    (ps'.get "auditedCheckpoints").Assignable ∧ Recorded lib src report ps' pr := by
  rcases acceptItem_cases h with ⟨rfl,hrecorded⟩ | ⟨item,url,hfind,hurl,rfl⟩
  · exact ⟨hmaps,hrecorded⟩
  · simp only [audited_checkpoints,Row.get_set,if_true]
    refine ⟨.inr (isObject_set hmaps _ _),fun item' hitem => ⟨url,hurl,fun _ => ?_⟩⟩
    rw [hfind] at hitem
    obtain rfl := Option.some.inj hitem
    simp only [audited_checkpoints,Row.get_set,if_true]
    rw [Json.get_set hmaps,if_pos rfl]

/-- Accepting the item of one record leaves those of others on record. -/
theorem Recorded.kept {ps ps' : Row} {a b : Json} (hmaps : (ps.get "auditedCheckpoints").Assignable)
    (hab : b.get "url" = a.get "url" → b = a) (h : Recorded lib src report ps b)
    (ht : acceptItem lib src d report ps a = .ok ps') : Recorded lib src report ps' b := by
  by_cases hsame : b.get "url" = a.get "url"
  · rw [hab hsame]
    exact (acceptItem_records hmaps ht).2
  · rcases acceptItem_cases ht with ⟨rfl,-⟩ | ⟨item,url,hfind,hurl,rfl⟩
    · exact h
    · intro item' hitem
      obtain ⟨url',hurl',hcheckpoint⟩ := h item' hitem
      refine ⟨url',hurl',fun hcert => ?_⟩
      have hne : url' ≠ url := by
        rintro rfl
        exact hsame (hurl'.trans hurl.symm)
      simp only [audited_checkpoints,Row.get_set,if_true]
      rw [get_set_ne _ _ hne]
      exact hcheckpoint hcert

/-- What adopting a report assigns, and would assign again. -/
structure Adopted (lib : Library) (src : Sources) (report : Json) (ps : Row) : Prop where
  status : ps.set "workerStatus" report = ps
  waiting : ps.set "waitingReportPending" (.bool (report.get "status" = .str "waiting")) = ps
  progress : (src.complete && report.get "status" = .str "ready_for_work") = true →
    ps.set "progressVersion" (.str (digest lib report)) = ps

theorem adoptReport_adopted (report : Json) (ps : Row) :
    Adopted lib src report (adoptReport lib src report ps) := by
  have hstatus : ((ps.set "workerStatus" report).set "waitingReportPending"
      (.bool (report.get "status" = .str "waiting"))).set "workerStatus" report = _ :=
    Row.set_still _ (by decide) (Row.set_self ps _ _)
  have hwaiting := Row.set_self (ps.set "workerStatus" report) "waitingReportPending"
    (.bool (report.get "status" = .str "waiting"))
  unfold adoptReport
  dsimp only
  split
  · exact ⟨Row.set_still _ (by decide) hstatus,Row.set_still _ (by decide) hwaiting,
      fun _ => Row.set_self _ _ _⟩
  · rename_i hready
    exact ⟨hstatus,hwaiting,fun h => absurd h hready⟩

theorem Adopted.again {ps : Row} (h : Adopted lib src report ps) :
    adoptReport lib src report ps = ps := by
  unfold adoptReport
  simp only [h.status,h.waiting]
  split
  · rename_i hready
    exact h.progress hready
  · rfl

theorem Adopted.writes {keys : List String} {ps q : Row} (h : Adopted lib src report ps)
    (hw : Row.Writes keys ps q)
    (hkeys : ∀ k ∈ ["workerStatus","waitingReportPending","progressVersion"], k ∉ keys) :
    Adopted lib src report q where
  status := hw.still (hkeys _ (by simp)) h.status
  waiting := hw.still (hkeys _ (by simp)) h.waiting
  progress := fun hready => hw.still (hkeys _ (by simp)) (h.progress hready)

/-- Records with one address are one record. -/
def Sources.Apart (src : Sources) : Prop :=
  ∀ a ∈ src.prs, ∀ b ∈ src.prs, b.get "url" = a.get "url" → b = a

/-- What a refresh has made of a report it was given: it does not count, or it is adopted and
every item is on record. -/
def Taken (lib : Library) (src : Sources) (o : String) (report : Json) (ps : Row) : Prop :=
  reportCurrent ps o report = true →
    Adopted lib src report ps ∧ ∀ pr ∈ src.prs, Recorded lib src report ps pr

theorem acceptReport_taken {o : String} {given : Option Json} {ps ps' : Row} (hsrc : src.Apart)
    (hmaps : (ps.get "auditedCheckpoints").Assignable)
    (h : acceptReport lib p src d o given ps = .ok ps') :
    ∀ report, given = some report → Taken lib src o report ps' := by
  rintro report rfl hcurrent
  have hwrites := acceptReport_writes h
  obtain ⟨-,-,h⟩ := bind_ok h
  obtain ⟨-,-,h⟩ := bind_ok h
  obtain ⟨-,-,h⟩ := bind_ok h
  have hsame : reportCurrent ps o report = reportCurrent ps' o report := by
    unfold reportCurrent
    rw [hwrites.get (by decide),hwrites.get (by decide)]
  rw [hsame,hcurrent,if_pos rfl] at h
  have hadopt : (adoptReport lib src report ps).get "auditedCheckpoints" = ps.get "auditedCheckpoints" := by
    unfold adoptReport
    dsimp only
    split <;> simp
  have hitems : Row.Writes itemKeys (adoptReport lib src report ps) ps' :=
    foldlM_keeps (P := Row.Writes itemKeys (adoptReport lib src report ps)) (Row.Writes.refl _ _)
      (fun _ _ _ _ hs ht => hs.trans (acceptItem_writes ht)) h
  refine ⟨(adoptReport_adopted report ps).writes hitems (by decide),?_⟩
  refine (foldlM_establishes (I := fun ps => (ps.get "auditedCheckpoints").Assignable)
    (R := fun pr ps => Recorded lib src report ps pr) (by rwa [hadopt]) ?_ ?_ h).2
  · exact fun s t pr _ hs ht => acceptItem_records hs ht
  · exact fun s t a ha b hb hs hR ht => hR.kept hs (hsrc a ha b hb) ht

/-- A taken report is taken again without a change. -/
theorem Taken.again {o : String} {ps q : Row}
    (hok : acceptReport lib p src d o (some report) ps = .ok q) {r : Row} (h : Taken lib src o report r) :
    acceptReport lib p src d o (some report) r = .ok r := by
  obtain ⟨⟨⟩,hidentity,hok⟩ := bind_ok hok
  obtain ⟨⟨⟩,hurls,hok⟩ := bind_ok hok
  obtain ⟨⟨⟩,hstatus,-⟩ := bind_ok hok
  unfold acceptReport
  simp only [hidentity,hurls,hstatus,bind,Except.bind]
  split
  · rename_i hcurrent
    obtain ⟨hadopted,hrecorded⟩ := h hcurrent
    rw [hadopted.again]
    exact foldlM_fixed fun pr hpr => (hrecorded pr hpr).again
  · rfl

theorem Taken.writes {o : String} {keys : List String} {ps q : Row} (h : Taken lib src o report ps)
    (hw : Row.Writes keys ps q) (hkeys : ∀ k ∈ ["workerStatus","waitingReportPending",
      "progressVersion","auditedCheckpoints","deliveredVersion","deliveredObservationVersion"],
        k ∉ keys) : Taken lib src o report q := by
  intro hcurrent
  have hsame : reportCurrent q o report = reportCurrent ps o report := by
    unfold reportCurrent
    rw [hw.get (hkeys _ (by simp)),hw.get (hkeys _ (by simp))]
  obtain ⟨hadopted,hrecorded⟩ := h (hsame ▸ hcurrent)
  have hthree : ∀ k ∈ ["workerStatus","waitingReportPending","progressVersion"], k ∉ keys :=
    fun k hk => hkeys k (List.mem_append_left ["auditedCheckpoints","deliveredVersion",
      "deliveredObservationVersion"] hk)
  refine ⟨hadopted.writes hw hthree,fun pr hpr item hitem => ?_⟩
  obtain ⟨url,hurl,hcheckpoint⟩ := hrecorded pr hpr item hitem
  refine ⟨url,hurl,fun hcert => ?_⟩
  rw [hw.get (hkeys _ (by simp))]
  exact hcheckpoint hcert

/-! ## The items of an audit -/

/-- The audit of `url` is noted as it would be noted again. -/
structure Noted (ps : Row) (url : String) (v : Json) (d : String) : Prop where
  feedback : ps.set "auditedFeedback" ((ps.get "auditedFeedback").set url v) = ps
  dependencies : ps.set "auditedDependencies"
    ((objectOr (ps.get "auditedDependencies")).set url (.str d)) = ps

theorem Noted.again {ps : Row} {url : String} {v : Json} (h : Noted ps url v d) :
    audited ps url v d = ps := by
  unfold audited
  rw [h.feedback,h.dependencies]

theorem objectOr_of_isObject {v : Json} (h : v.isObject = true) : objectOr v = v := if_pos h

theorem objectOr_isObject (v : Json) : (objectOr v).isObject = true := by
  unfold objectOr
  split
  · assumption
  · rfl

theorem audited_noted (ps : Row) (url : String) (v : Json) (d : String) :
    Noted (audited ps url v d) url v d := by
  have hobject : ((objectOr (ps.get "auditedDependencies")).set url (.str d)).isObject = true :=
    isObject_set (.inr (objectOr_isObject _)) _ _
  constructor
  · simp only [audited,Row.get_set]
    simp only [String.reduceEq,if_false,if_true,Json.set_twice]
    exact Row.set_still _ (by decide) (Row.set_self _ _ _)
  · simp only [audited,Row.get_set,if_true]
    rw [objectOr_of_isObject hobject,Json.set_twice]
    exact Row.set_self _ _ _

theorem Noted.writes {keys : List String} {ps q : Row} {url : String} {v : Json}
    (h : Noted ps url v d) (hw : Row.Writes keys ps q) (hkeys : ∀ k ∈ auditKeys, k ∉ keys) :
    Noted q url v d := by
  have hF := hkeys "auditedFeedback" (by decide)
  have hD := hkeys "auditedDependencies" (by decide)
  constructor
  · rw [hw.get hF]
    exact hw.still hF h.feedback
  · rw [hw.get hD]
    exact hw.still hD h.dependencies

/-- Noting the audit of another address leaves this one noted. -/
theorem Noted.kept {ps : Row} {url url' : String} {v : Json} (v' : Json) (h : Noted ps url v d)
    (hne : url ≠ url') : Noted (audited ps url' v' d) url v d := by
  have hF : (ps.get "auditedFeedback").set url v = ps.get "auditedFeedback" := by
    have hread := congrArg (Row.get · "auditedFeedback") h.feedback
    simpa using hread
  have hD : (objectOr (ps.get "auditedDependencies")).set url (.str d) =
      ps.get "auditedDependencies" := by
    have hread := congrArg (Row.get · "auditedDependencies") h.dependencies
    simpa using hread
  have hobject : (ps.get "auditedDependencies").isObject = true := by
    rw [← hD]
    exact isObject_set (.inr (objectOr_isObject _)) _ _
  have hD' := Json.set_still (.str d) hne (by rwa [objectOr_of_isObject hobject] at hD)
  constructor
  · simp only [audited,Row.get_set]
    simp only [String.reduceEq,if_false,if_true,Json.set_still v' hne hF]
    exact Row.set_still _ (by decide) (Row.set_self _ _ _)
  · simp only [audited,Row.get_set,if_true]
    simp only [String.reduceEq,if_false,objectOr_of_isObject hobject]
    rw [objectOr_of_isObject (isObject_set (.inr hobject) _ _),hD']
    exact Row.set_self _ _ _

/-- An item of an audit that counts is noted. -/
def Counted (lib : Library) (p : Packet) (src : Sources) (d : String) (ps : Row) (item : Json) :
    Prop :=
  auditCurrent lib p src d item = true → ∃ url, item.get "url" = .str url ∧
    (auditMatches lib src item url = true → Noted ps url (item.get "feedbackVersion") d)

theorem Counted.again {ps : Row} {item : Json} (h : Counted lib p src d ps item) :
    acceptAuditItem lib p src d ps item = .ok ps := by
  unfold acceptAuditItem
  split
  · rename_i hcurrent
    obtain ⟨url,hurl,hnoted⟩ := h hcurrent
    simp only [hurl,asStr]
    split
    · rename_i hmatches
      rw [(hnoted hmatches).again]
    · rfl
  · rfl

theorem acceptAuditItem_cases {ps ps' : Row} {item : Json}
    (h : acceptAuditItem lib p src d ps item = .ok ps') :
    (ps' = ps ∧ ∀ ps, Counted lib p src d ps item) ∨
    ∃ url, item.get "url" = .str url ∧ auditMatches lib src item url = true ∧
      ps' = audited ps url (item.get "feedbackVersion") d := by
  unfold acceptAuditItem at h
  split at h
  · cases hurl : (item.get "url").asStr with
    | none =>
      rw [hurl] at h
      cases h
    | some url =>
      rw [hurl] at h
      dsimp only at h
      split at h
      · rename_i hmatches
        exact .inr ⟨url,asStr_eq.mp hurl,hmatches,(Except.ok.inj h).symm⟩
      · rename_i hmatches
        exact .inl ⟨(Except.ok.inj h).symm,fun ps _ => ⟨url,asStr_eq.mp hurl,fun hm =>
          absurd hm hmatches⟩⟩
  · rename_i hcurrent
    exact .inl ⟨(Except.ok.inj h).symm,fun ps hc => absurd hc hcurrent⟩

theorem acceptAuditItem_counted {ps ps' : Row} {item : Json}
    (h : acceptAuditItem lib p src d ps item = .ok ps') : Counted lib p src d ps' item := by
  rcases acceptAuditItem_cases h with ⟨-,hcounted⟩ | ⟨url,hurl,-,rfl⟩
  · exact hcounted _
  · exact fun _ => ⟨url,hurl,fun _ => audited_noted ..⟩

variable {feedback : String → String} {urls : List String}

/-- An item that matches names the feedback version of its record. -/
theorem Sources.Named.matches_ (hsrc : src.Named lib feedback urls) {item : Json} {url : String}
    (h : auditMatches lib src item url = true) :
    item.get "feedbackVersion" = .str (feedback url) := by
  unfold auditMatches at h
  obtain ⟨pr,hpr,h⟩ := List.any_eq_true.mp h
  simp only [Bool.and_eq_true,decide_eq_true_eq] at h
  obtain ⟨u,-,hu,hversion⟩ := hsrc pr hpr
  obtain rfl : url = u := Json.str.inj (h.1.symm.trans hu)
  rw [← hversion]
  exact asStr_eq.mp h.2

theorem Counted.kept (hsrc : src.Named lib feedback urls) {ps ps' : Row} {a b : Json}
    (h : Counted lib p src d ps b) (ht : acceptAuditItem lib p src d ps a = .ok ps') :
    Counted lib p src d ps' b := by
  rcases acceptAuditItem_cases ht with ⟨rfl,-⟩ | ⟨url,hurl,hmatches,rfl⟩
  · exact h
  · intro hcurrent
    obtain ⟨url',hurl',hnoted⟩ := h hcurrent
    refine ⟨url',hurl',fun hmatches' => ?_⟩
    by_cases hne : url' = url
    · subst hne
      rw [hsrc.matches_ hmatches',hsrc.matches_ hmatches]
      exact audited_noted ..
    · exact (hnoted hmatches').kept _ hne

theorem acceptAudit_counted (hsrc : src.Named lib feedback urls) {given : Option Json} {ps ps' : Row}
    (h : acceptAudit lib p src d given ps = .ok ps') : ∀ audit, given = some audit →
      (audit.get "packet").asU64 = some p.number ∧
        ∀ item ∈ (audit.get "prs").items, Counted lib p src d ps' item := by
  rintro audit rfl
  obtain ⟨⟨⟩,hidentity,h⟩ := bind_ok h
  refine ⟨require_ok hidentity,?_⟩
  exact (foldlM_establishes (I := fun _ => True) (R := fun item ps => Counted lib p src d ps item)
    trivial (fun _ _ _ _ _ ht => ⟨trivial,acceptAuditItem_counted ht⟩)
    (fun _ _ _ _ _ _ _ hR ht => hR.kept hsrc ht) h).2

theorem Counted.writes {keys : List String} {ps q : Row} {item : Json}
    (h : Counted lib p src d ps item) (hw : Row.Writes keys ps q) (hkeys : ∀ k ∈ auditKeys, k ∉ keys) :
    Counted lib p src d q item := by
  intro hcurrent
  obtain ⟨url,hurl,hnoted⟩ := h hcurrent
  exact ⟨url,hurl,fun hmatches => (hnoted hmatches).writes hw hkeys⟩

/-! ## A row refreshed twice -/

/-- What incomplete or complete evidence assigns, it would assign again. -/
theorem observeEvidence_still {complete : Bool} {ps ps' : Row} {g : ℕ}
    (h : observeEvidence complete ps = .ok (ps',g)) :
    (complete = true → ps'.set "dependencyEvidenceIncomplete" (.bool false) = ps') ∧
      (complete = false → ps'.set "dependencyEvidenceIncomplete" (.bool true) = ps' ∧
        ps'.set "auditedDependencies" (.obj []) = ps') := by
  unfold observeEvidence at h
  split at h
  · rename_i hc
    obtain ⟨rfl,-⟩ := Prod.mk.inj (Except.ok.inj h)
    exact ⟨fun _ => Row.set_self _ _ _,fun hf => by simp [hc] at hf⟩
  · rename_i hc
    split at h
    · obtain ⟨g',-,h⟩ := bind_ok h
      obtain ⟨rfl,-⟩ := Prod.mk.inj (Except.ok.inj h)
      exact ⟨fun ht => absurd ht hc,
        fun _ => ⟨Row.set_self _ _ _,Row.set_still _ (by decide) (Row.set_self _ _ _)⟩⟩
    · obtain ⟨rfl,-⟩ := Prod.mk.inj (Except.ok.inj h)
      exact ⟨fun ht => absurd ht hc,
        fun _ => ⟨Row.set_self _ _ _,Row.set_still _ (by decide) (Row.set_self _ _ _)⟩⟩

theorem observeEvidence_again {complete : Bool} {ps : Row}
    (hyes : complete = true → ps.set "dependencyEvidenceIncomplete" (.bool false) = ps)
    (hno : complete = false → ps.set "dependencyEvidenceIncomplete" (.bool true) = ps ∧
      ps.set "auditedDependencies" (.obj []) = ps) :
    observeEvidence complete ps = .ok (ps,generationOf ps.json) := by
  unfold observeEvidence
  cases hc : complete with
  | true => rw [if_pos rfl,hyes hc]
  | false =>
    obtain ⟨hflag,hmap⟩ := hno hc
    have hread : ps.get "dependencyEvidenceIncomplete" = .bool true := by
      have h := congrArg (Row.get · "dependencyEvidenceIncomplete") hflag
      simpa using h.symm
    simp only [hread,ne_eq,not_true_eq_false,if_false,hmap,hflag]
    simp

theorem certifies_incomplete (h : src.complete = false) (pr item : Json) :
    certifies lib src pr item = false := by
  simp [certifies,h]

theorem acceptItem_incomplete (hc : src.complete = false) {ps ps' : Row} {pr : Json}
    (h : acceptItem lib src d report ps pr = .ok ps') : ps' = ps := by
  unfold acceptItem at h
  split at h
  · exact (Except.ok.inj h).symm
  · split at h
    · cases h
    · simp only [certifies_incomplete hc,Bool.false_and,Bool.false_eq_true,if_false] at h
      exact (Except.ok.inj h).symm

/-- Without complete evidence no audit of a report counts. -/
theorem acceptReport_incomplete {o : String} (hc : src.complete = false) {given : Option Json}
    {ps ps' : Row} (h : acceptReport lib p src d o given ps = .ok ps') :
    Row.Writes ["workerStatus","waitingReportPending","progressVersion"] ps ps' := by
  unfold acceptReport at h
  split at h
  · obtain rfl := Except.ok.inj h
    exact Row.Writes.refl _ _
  · rename_i report
    obtain ⟨-,-,h⟩ := bind_ok h
    obtain ⟨-,-,h⟩ := bind_ok h
    obtain ⟨-,-,h⟩ := bind_ok h
    split at h
    · have hsame : ps' = adoptReport lib src report ps :=
        foldlM_keeps (P := (· = adoptReport lib src report ps)) rfl
          (fun _ _ _ _ hs ht => (acceptItem_incomplete hc ht).trans hs) h
      rw [hsame]
      unfold adoptReport
      simp only [hc,Bool.false_and,Bool.false_eq_true,if_false]
      exact ((Row.Writes.refl _ _).set _ (by simp)).set _ (by simp)
    · obtain rfl := Except.ok.inj h
      exact Row.Writes.refl _ _

theorem acceptAudit_incomplete (hc : src.complete = false) {given : Option Json} {ps ps' : Row}
    (h : acceptAudit lib p src d given ps = .ok ps') : ps' = ps := by
  unfold acceptAudit at h
  split at h
  · exact (Except.ok.inj h).symm
  · obtain ⟨-,-,h⟩ := bind_ok h
    refine foldlM_keeps (P := (· = ps)) rfl (fun s t item _ hs ht => ?_) h
    unfold acceptAuditItem at ht
    simp only [auditCurrent,hc,Bool.false_and,Bool.false_eq_true,if_false] at ht
    exact (Except.ok.inj ht).symm.trans hs

theorem waiting_of_still {ps : Row} (h : ps.set "workerStatus" report = ps) :
    ps.get "workerStatus" = report := by
  have hread := congrArg (Row.get · "workerStatus") h
  simpa using hread.symm

/-- A row whose report waits is marked as waiting. -/
def Waiting (ps : Row) : Prop := (ps.get "workerStatus").get "status" = .str "waiting" →
  ps.set "waitingReportPending" (.bool true) = ps

theorem keepWaiting_waiting (ps : Row) : Waiting (keepWaiting ps) := by
  intro h
  unfold keepWaiting at h ⊢
  split
  · exact Row.set_self _ _ _
  · rename_i hno
    rw [if_neg hno] at h
    exact absurd h hno

theorem Waiting.again {ps : Row} (h : Waiting ps) : keepWaiting ps = ps := by
  unfold keepWaiting
  split
  · rename_i hwaiting
    exact h hwaiting
  · rfl

theorem acceptReport_waiting {o : String} {given : Option Json} {ps ps' : Row}
    (hps : Waiting ps) (h : acceptReport lib p src d o given ps = .ok ps') : Waiting ps' := by
  unfold acceptReport at h
  split at h
  · obtain rfl := Except.ok.inj h
    exact hps
  · rename_i report
    obtain ⟨-,-,h⟩ := bind_ok h
    obtain ⟨-,-,h⟩ := bind_ok h
    obtain ⟨-,-,h⟩ := bind_ok h
    split at h
    · have hitems : Row.Writes itemKeys (adoptReport lib src report ps) ps' :=
        foldlM_keeps (P := Row.Writes itemKeys (adoptReport lib src report ps)) (Row.Writes.refl _ _)
          (fun _ _ _ _ hs ht => hs.trans (acceptItem_writes ht)) h
      have hadopted := (@adoptReport_adopted lib src report ps).writes hitems (by decide)
      intro hwaiting
      rw [waiting_of_still hadopted.status] at hwaiting
      have hmark := hadopted.waiting
      rwa [decide_eq_true hwaiting] at hmark
    · obtain rfl := Except.ok.inj h
      exact hps

theorem Waiting.writes {keys : List String} {ps q : Row} (h : Waiting ps) (hw : Row.Writes keys ps q)
    (hkeys : ∀ k ∈ ["workerStatus","waitingReportPending"], k ∉ keys) : Waiting q := by
  intro hwaiting
  rw [hw.get (hkeys _ (by simp))] at hwaiting
  exact hw.still (hkeys _ (by simp)) (h hwaiting)

/-- The verdict does not look at the verdict before. -/
theorem judge_congr {ps q : Row} (h : Row.Keeps ["terminal","auditBacklog"] ps q) :
    judge lib p src d q = (q.set "terminal" ((judge lib p src d ps).get "terminal")).set
      "auditBacklog" ((judge lib p src d ps).get "auditBacklog") := by
  have hF : q.get "auditedFeedback" = ps.get "auditedFeedback" := h.get (by decide)
  have hD : q.get "auditedDependencies" = ps.get "auditedDependencies" := h.get (by decide)
  have hW : q.get "waitingReportPending" = ps.get "waitingReportPending" := h.get (by decide)
  have hS : q.get "workerStatus" = ps.get "workerStatus" := h.get (by decide)
  have hP : q.get "progressVersion" = ps.get "progressVersion" := h.get (by decide)
  have hL : q.get "deliveredProgressVersion" = ps.get "deliveredProgressVersion" := h.get (by decide)
  have hbacklog : backlog lib p src d q = backlog lib p src d ps := by
    unfold backlog unaudited
    rw [hF,hD]
  have hprogress : undeliveredProgress lib q.json = undeliveredProgress lib ps.json := by
    unfold undeliveredProgress
    rw [Row.json_get,Row.json_get,Row.json_get,Row.json_get,hP,hL]
  simp only [judge,Row.get_set,hbacklog,hprogress,hW,hS]
  simp

theorem judge_again (ps : Row) :
    judge lib p src d (judge lib p src d ps) = judge lib p src d ps := by
  rw [judge_congr (judge_writes d ps).keeps]
  have hterminal : (judge lib p src d ps).set "terminal" ((judge lib p src d ps).get "terminal") =
      judge lib p src d ps := by
    simp only [judge,Row.get_set]
    simp only [String.reduceEq,if_false,if_true]
    exact Row.set_still _ (by decide) (Row.set_self _ _ _)
  rw [hterminal]
  simp only [judge,Row.get_set,if_true]
  exact Row.set_self _ _ _

/-- The versions that a refresh stamps, it would stamp again. -/
theorem stampVersions_still (v : Json) (d o : String) (ps : Row) :
    let q := stampVersions lib v d o ps
    q.set "observationVersion" (.str o) = q ∧ q.set "dependencyVersion" (.str d) = q ∧
      q.set "versionInputs" v = q ∧ q.set "version" (.str (digest lib (eventInputs lib v ps))) = q := by
  refine ⟨?_,?_,?_,Row.set_self _ _ _⟩
  · exact Row.set_still _ (by decide) (Row.set_still _ (by decide) (Row.set_still _ (by decide)
      (Row.set_self _ _ _)))
  · exact Row.set_still _ (by decide) (Row.set_still _ (by decide) (Row.set_self _ _ _))
  · exact Row.set_still _ (by decide) (Row.set_self _ _ _)

namespace RowSteps
variable {ps ps' : Row} (s : RowSteps lib policy inputs p src ps ps' d)

include s in
theorem open_still : ps'.set "openPRs"
    (nat (src.prs.filter fun pr => pr.get "state" = .str "OPEN").length) = ps' := by
  have h := (observeEvidence_writes s.evidence).still (by decide) (Row.set_self ps "openPRs" _)
  have h := s.writes_delivered.still (by decide) h
  have h := s.writes_reported.still (by decide) h
  have h := s.writes_stamped.still (by decide) h
  have h := s.writes_audited.still (by decide) h
  exact s.writes_judged.still (by decide) h

theorem evidence_again : observeEvidence src.complete ps' = .ok (ps',s.generation) := by
  obtain ⟨hyes,hno⟩ := observeEvidence_still s.evidence
  rw [← s.counts.1]
  refine observeEvidence_again (fun hc => ?_) fun hc => ?_
  · have h := s.writes_delivered.still (by decide) (hyes hc)
    have h := s.writes_reported.still (by decide) h
    have h := s.writes_stamped.still (by decide) h
    have h := s.writes_audited.still (by decide) h
    exact s.writes_judged.still (by decide) h
  · obtain ⟨hflag,hmap⟩ := hno hc
    have hreported := acceptReport_incomplete hc s.report
    have haudited := acceptAudit_incomplete hc s.audit
    have hjudged := s.writes_judged
    rw [haudited] at hjudged
    constructor
    · have h := s.writes_delivered.still (by decide) hflag
      have h := hreported.still (by decide) h
      have h := s.writes_stamped.still (by decide) h
      exact hjudged.still (by decide) h
    · have h := s.writes_delivered.still (by decide) hmap
      have h := hreported.still (by decide) h
      have h := s.writes_stamped.still (by decide) h
      exact hjudged.still (by decide) h

/-- What a refresh writes after it has looked at its report. -/
def stampedKeys : List String :=
  ["observationVersion","dependencyVersion","versionInputs","version"] ++
    (auditKeys ++ ["terminal","auditBacklog"])

theorem writes_after_reported : Row.Writes stampedKeys s.reported ps' :=
  (s.writes_stamped.mono (by decide)).trans
    ((s.writes_audited.mono (by decide)).trans (s.writes_judged.mono (by decide)))

include s in
theorem waiting_again : keepWaiting ps' = ps' := by
  have hwaiting : Waiting s.delivered := by
    rw [s.delivery]
    exact keepWaiting_waiting _
  exact ((acceptReport_waiting hwaiting s.report).writes s.writes_after_reported (by decide)).again

theorem report_again (hsrc : src.Apart) (hmaps : (ps.get "auditedCheckpoints").Assignable) :
    acceptReport lib p src d (observationVersion lib policy p src s.generation)
      (inputs.reports.lookup p.number) ps' = .ok ps' := by
  have hsame : s.delivered.get "auditedCheckpoints" = ps.get "auditedCheckpoints" :=
    (s.writes_delivered.get (by decide)).trans (s.writes_observed.get (by decide))
  have htaken := acceptReport_taken hsrc (by rwa [hsame]) s.report
  cases hgiven : inputs.reports.lookup p.number with
  | none => rfl
  | some report =>
    have hreport := s.report
    rw [hgiven] at hreport
    exact ((htaken report hgiven).writes s.writes_after_reported (by decide)).again hreport

theorem stamp_again : stampVersions lib (observationInputs lib policy p src s.generation) d
    (observationVersion lib policy p src s.generation) ps' = ps' := by
  obtain ⟨ho,hd,hv,hversion⟩ := @stampVersions_still lib
    (observationInputs lib policy p src s.generation) d
    (observationVersion lib policy p src s.generation) s.reported
  rw [← s.stamp] at ho hd hv hversion
  have hafter : ∀ {k : String} {x : Json}, k ∉ auditKeys → k ∉ ["terminal","auditBacklog"] →
      s.stamped.set k x = s.stamped → ps'.set k x = ps' := fun h₁ h₂ hx =>
    s.writes_judged.still h₂ (s.writes_audited.still h₁ hx)
  have hversion := hafter (by decide) (by decide) hversion
  have hread : ps'.get "version" = .str (digest lib
      (eventInputs lib (observationInputs lib policy p src s.generation) s.reported)) := by
    have h := congrArg (Row.get · "version") hversion
    simpa using h.symm
  rw [← hread,s.stamped_version] at hversion
  unfold stampVersions
  rw [hafter (by decide) (by decide) ho,hafter (by decide) (by decide) hd,
    hafter (by decide) (by decide) hv,hversion]

include s in
theorem audit_again {feedback : String → String} {urls : List String}
    (hsrc : src.Named lib feedback urls) :
    acceptAudit lib p src d (inputs.audits.lookup p.number) ps' = .ok ps' := by
  have hcounted := acceptAudit_counted hsrc s.audit
  cases hgiven : inputs.audits.lookup p.number with
  | none => rfl
  | some audit =>
    obtain ⟨hidentity,hitems⟩ := hcounted audit hgiven
    unfold acceptAudit
    simp only [require,if_pos hidentity,bind,Except.bind]
    exact foldlM_fixed fun item hitem => ((hitems item hitem).writes s.writes_judged (by decide)).again

include s in
theorem judged_again : judge lib p src d ps' = ps' := by
  have h := @judge_again lib p src d s.audited
  rwa [← s.judged] at h

end RowSteps

/-- A refreshed row that binds nothing more refreshes to itself. -/
theorem refreshRow_again {feedback : String → String} {urls : List String} {ps ps' : Row}
    (hsrc : src.Named lib feedback urls) (hapart : src.Apart)
    (hmaps : (ps.get "auditedCheckpoints").Assignable) (hdelivery : bindDelivery ps' = ps')
    (hprogress : bindProgress lib ps' = ps')
    (h : refreshRow lib policy inputs p src ps = .ok (ps',d)) :
    refreshRow lib policy inputs p src ps' = .ok (ps',d) := by
  obtain ⟨s⟩ := refreshRow_steps h
  have hreport := s.report_again hapart hmaps
  have hstamp := s.stamp_again
  have hversion := s.version
  unfold observationVersion at hreport hstamp
  simp only [refreshRow,s.open_still,s.evidence_again,bind,Except.bind,hdelivery,hprogress,
    s.waiting_again,← hversion,hreport,hstamp,s.audit_again hsrc,s.judged_again]

/-! ## Records that a refresh has revised -/

/-- Sources with the same evidence and records alike. -/
structure Sources.Like (src src' : Sources) : Prop where
  evidence : src'.evidence = src.evidence
  complete : src'.complete = src.complete
  prs : ∃ (us : List String) (f g : String → Json), src.prs = us.map f ∧ src'.prs = us.map g ∧
    ∀ u ∈ us, Alike (g u) (f u)

theorem certifies_alike {src' : Sources} (hc : src'.complete = src.complete) {a b : Json}
    (h : Alike a b) (item : Json) : certifies lib src' a item = certifies lib src b item := by
  unfold certifies
  rw [hc,h.get (k := "state") (by decide) (by decide),h.get (k := "head") (by decide) (by decide)]

theorem acceptItem_alike {src' : Sources} (hc : src'.complete = src.complete) {a b : Json}
    (h : Alike a b) (ps : Row) :
    acceptItem lib src' d report ps a = acceptItem lib src d report ps b := by
  unfold acceptItem
  simp only [h.get (k := "url") (by decide) (by decide),certifies_alike hc h,h.feedbackVersion]

theorem unaudited_alike {src' : Sources} (hc : src'.complete = src.complete) {a b : Json}
    (h : Alike a b) (ps : Row) : unaudited lib p src' d ps a = unaudited lib p src d ps b := by
  unfold unaudited
  rw [hc,h.get (k := "url") (by decide) (by decide),h.feedbackVersion]

theorem refreshRow_alike {src' : Sources} (h : src.Like src') (ps : Row) :
    refreshRow lib policy inputs p src' ps = refreshRow lib policy inputs p src ps := by
  obtain ⟨us,f,g,hf,hg,halike⟩ := h.prs
  have hopen : (src'.prs.filter fun pr => pr.get "state" = .str "OPEN").length =
      (src.prs.filter fun pr => pr.get "state" = .str "OPEN").length := by
    rw [hf,hg,List.filter_map,List.filter_map,List.length_map,List.length_map]
    refine congrArg List.length (List.filter_congr fun u hu => ?_)
    simp only [Function.comp,(halike u hu).get (k := "state") (by decide) (by decide)]
  have hversions : ∀ n, observationInputs lib policy p src' n = observationInputs lib policy p src n := by
    refine fun n => observationInputs_congr policy p n ?_ h.evidence
    rw [hf,hg,List.map_map,List.map_map]
    exact List.map_congr_left fun u hu => (halike u hu).eventVersion
  have hreport : ∀ d o given ps, acceptReport lib p src' d o given ps =
      acceptReport lib p src d o given ps := by
    intro d o given ps
    have hfold : ∀ report ps, src'.prs.foldlM (acceptItem lib src' d report) ps =
        src.prs.foldlM (acceptItem lib src d report) ps := by
      intro report ps
      rw [hf,hg,List.foldlM_map,List.foldlM_map]
      exact foldlM_congr (fun u hu ps => acceptItem_alike h.complete (halike u hu) ps) ps
    unfold acceptReport adoptReport
    simp only [hfold,h.complete]
  have hmatches : ∀ item url, auditMatches lib src' item url = auditMatches lib src item url := by
    intro item url
    unfold auditMatches
    rw [hf,hg,List.any_map,List.any_map]
    refine Bool.eq_iff_iff.mpr ?_
    simp only [List.any_eq_true,Function.comp]
    refine exists_congr fun u => and_congr_right fun hu => ?_
    rw [(halike u hu).get (k := "url") (by decide) (by decide),(halike u hu).feedbackVersion]
  have haudit : ∀ d given ps, acceptAudit lib p src' d given ps = acceptAudit lib p src d given ps := by
    intro d given ps
    unfold acceptAudit acceptAuditItem auditCurrent
    simp only [hmatches,h.complete]
  have hjudge : ∀ d ps, judge lib p src' d ps = judge lib p src d ps := by
    intro d ps
    have hbacklog : backlog lib p src' d ps = backlog lib p src d ps := by
      unfold backlog
      rw [hf,hg,List.filter_map,List.filter_map,List.length_map,List.length_map]
      refine congrArg List.length (List.filter_congr fun u hu => ?_)
      simp only [Function.comp,(halike u hu).closed,unaudited_alike h.complete (halike u hu)]
    have hclosed : src'.prs.all closed = src.prs.all closed := by
      rw [hf,hg,List.all_map,List.all_map]
      refine Bool.eq_iff_iff.mpr ?_
      simp only [List.all_eq_true,Function.comp]
      exact forall₂_congr fun u hu => by rw [(halike u hu).closed]
    unfold judge
    simp only [hbacklog,hclosed,h.complete]
  unfold refreshRow
  simp only [hopen,hversions,hreport,haudit,hjudge,h.complete,h.evidence]

end Orchestration
end CanixToolbelt
