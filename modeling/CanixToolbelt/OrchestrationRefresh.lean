import CanixToolbelt.Orchestration

/-! What a refresh does to one owner: the keys it writes, the generations it counts, and
what it takes for its audits and its verdict. -/
namespace CanixToolbelt
namespace Orchestration

open Fallible Json Canonical

/-! ## Rows -/

/-- Every key outside `keys` reads as before. -/
def Row.Keeps (keys : List String) (r r' : Row) : Prop := ∀ k ∉ keys, r'.get? k = r.get? k

namespace Row

variable {keys : List String} {r r' s : Row}

theorem Keeps.refl (keys : List String) (r : Row) : Keeps keys r r := fun _ _ => rfl

theorem Keeps.trans (h : Keeps keys r r') (h' : Keeps keys r' s) : Keeps keys r s :=
  fun k hk => (h' k hk).trans (h k hk)

theorem Keeps.mono {more : List String} (h : Keeps keys r r') (hsub : keys ⊆ more) :
    Keeps more r r' :=
  fun k hk => h k fun hmem => hk (hsub hmem)

theorem Keeps.set {k : String} (h : Keeps keys r r') (v : Json) (hk : k ∈ keys) :
    Keeps keys r (r'.set k v) := by
  intro k' hk'
  have hne : k' ≠ k := fun heq => hk' (heq ▸ hk)
  simp [get?_set,hne,h k' hk']

theorem Keeps.get (h : Keeps keys r r') {k : String} (hk : k ∉ keys) : r'.get k = r.get k :=
  congrArg (Option.getD · Json.null) (h k hk)

/-- Only these keys are assigned to. -/
def Writes (keys : List String) (r r' : Row) : Prop := Json.Writes keys r.json r'.json

theorem Writes.refl (keys : List String) (r : Row) : Writes keys r r := Json.Writes.refl

theorem Writes.trans (h : Writes keys r r') (h' : Writes keys r' s) : Writes keys r s :=
  Json.Writes.trans h h'

theorem Writes.mono {more : List String} (h : Writes keys r r') (hsub : keys ⊆ more) :
    Writes more r r' := Json.Writes.mono h hsub

theorem Writes.set {k : String} (h : Writes keys r r') (v : Json) (hk : k ∈ keys) :
    Writes keys r (r'.set k v) := Json.Writes.set k v h hk

theorem Writes.keeps (h : Writes keys r r') : Keeps keys r r' := fun _ hk => Json.Writes.get? h hk

theorem Writes.get (h : Writes keys r r') {k : String} (hk : k ∉ keys) : r'.get k = r.get k :=
  h.keeps.get hk

end Row

variable {lib : Library} {policy : Policy} {inputs : Inputs} {p : Packet} {src : Sources}

/-- The keys that a refresh of observed sources writes. -/
def refreshKeys : List String :=
  ["openPRs","dependencyGeneration","auditedDependencies","dependencyEvidenceIncomplete",
    "deliveredObservationVersion","deliveredProgressVersion","waitingReportPending","workerStatus",
    "progressVersion","auditedFeedback","auditedCheckpoints","observationVersion",
    "dependencyVersion","versionInputs","version","terminal","auditBacklog"]

def evidenceKeys : List String :=
  ["dependencyGeneration","auditedDependencies","dependencyEvidenceIncomplete"]

def reportKeys : List String :=
  ["workerStatus","waitingReportPending","progressVersion","auditedCheckpoints","auditedFeedback",
    "auditedDependencies"]

def itemKeys : List String := ["auditedCheckpoints","auditedFeedback","auditedDependencies"]

def auditKeys : List String := ["auditedFeedback","auditedDependencies"]

theorem observeEvidence_writes {complete : Bool} {ps ps' : Row} {g : ℕ}
    (h : observeEvidence complete ps = .ok (ps',g)) : Row.Writes evidenceKeys ps ps' := by
  unfold observeEvidence at h
  split at h
  · obtain ⟨rfl,-⟩ := Prod.mk.inj (Except.ok.inj h)
    exact (Row.Writes.refl _ _).set _ (by decide)
  · split at h
    · obtain ⟨g',-,h⟩ := bind_ok h
      obtain ⟨rfl,-⟩ := Prod.mk.inj (Except.ok.inj h)
      exact (((Row.Writes.refl _ _).set _ (by decide)).set _ (by decide)).set _ (by decide)
    · obtain ⟨rfl,-⟩ := Prod.mk.inj (Except.ok.inj h)
      exact ((Row.Writes.refl _ _).set _ (by decide)).set _ (by decide)

theorem bindDelivery_writes (ps : Row) :
    Row.Writes ["deliveredObservationVersion"] ps (bindDelivery ps) := by
  unfold bindDelivery
  split
  · exact (Row.Writes.refl _ _).set _ (by simp)
  · exact Row.Writes.refl _ _

theorem bindProgress_writes (ps : Row) :
    Row.Writes ["deliveredProgressVersion"] ps (bindProgress lib ps) := by
  unfold bindProgress
  split
  · exact (Row.Writes.refl _ _).set _ (by simp)
  · exact Row.Writes.refl _ _

theorem keepWaiting_writes (ps : Row) : Row.Writes ["waitingReportPending"] ps (keepWaiting ps) := by
  unfold keepWaiting
  split
  · exact (Row.Writes.refl _ _).set _ (by simp)
  · exact Row.Writes.refl _ _

theorem audited_writes {keys : List String} (ps : Row) (url : String) (v : Json) (d : String)
    (h : auditKeys ⊆ keys) : Row.Writes keys ps (audited ps url v d) :=
  ((Row.Writes.refl _ _).set _ (h (by decide))).set _ (h (by decide))

theorem acceptItem_writes {d : String} {report pr : Json} {ps ps' : Row}
    (h : acceptItem lib src d report ps pr = .ok ps') : Row.Writes itemKeys ps ps' := by
  unfold acceptItem at h
  split at h
  · obtain rfl := Except.ok.inj h
    exact Row.Writes.refl _ _
  · split at h
    · cases h
    · dsimp only at h
      split at h
      · obtain rfl := Except.ok.inj h
        exact ((Row.Writes.refl _ _).set _ (by decide)).trans (audited_writes _ _ _ _ (by decide))
      · obtain rfl := Except.ok.inj h
        exact Row.Writes.refl _ _

theorem adoptReport_writes (report : Json) (ps : Row) :
    Row.Writes reportKeys ps (adoptReport lib src report ps) := by
  have h := ((Row.Writes.refl reportKeys ps).set (k := "workerStatus") report (by decide)).set
    (k := "waitingReportPending") (.bool (report.get "status" = .str "waiting")) (by decide)
  unfold adoptReport
  dsimp only
  split
  · exact h.set _ (by decide)
  · exact h

theorem acceptReport_writes {d o : String} {report : Option Json} {ps ps' : Row}
    (h : acceptReport lib p src d o report ps = .ok ps') : Row.Writes reportKeys ps ps' := by
  unfold acceptReport at h
  split at h
  · obtain rfl := Except.ok.inj h
    exact Row.Writes.refl _ _
  · obtain ⟨-,-,h⟩ := bind_ok h
    obtain ⟨-,-,h⟩ := bind_ok h
    obtain ⟨-,-,h⟩ := bind_ok h
    split at h
    · exact foldlM_keeps (P := Row.Writes reportKeys ps) (adoptReport_writes _ ps)
        (fun _ _ _ _ hs ht => hs.trans ((acceptItem_writes ht).mono (by decide))) h
    · obtain rfl := Except.ok.inj h
      exact Row.Writes.refl _ _

theorem stampVersions_writes (v : Json) (d o : String) (ps : Row) :
    Row.Writes ["observationVersion","dependencyVersion","versionInputs","version"] ps
      (stampVersions lib v d o ps) :=
  ((((Row.Writes.refl _ _).set _ (by simp)).set _ (by simp)).set _ (by simp)).set _ (by simp)

theorem acceptAuditItem_writes {d : String} {item : Json} {ps ps' : Row}
    (h : acceptAuditItem lib p src d ps item = .ok ps') : Row.Writes auditKeys ps ps' := by
  unfold acceptAuditItem at h
  split at h
  · split at h
    · cases h
    · split at h
      · obtain rfl := Except.ok.inj h
        exact audited_writes _ _ _ _ (List.Subset.refl _)
      · obtain rfl := Except.ok.inj h
        exact Row.Writes.refl _ _
  · obtain rfl := Except.ok.inj h
    exact Row.Writes.refl _ _

theorem acceptAudit_writes {d : String} {audit : Option Json} {ps ps' : Row}
    (h : acceptAudit lib p src d audit ps = .ok ps') : Row.Writes auditKeys ps ps' := by
  unfold acceptAudit at h
  split at h
  · obtain rfl := Except.ok.inj h
    exact Row.Writes.refl _ _
  · obtain ⟨-,-,h⟩ := bind_ok h
    exact foldlM_keeps (P := Row.Writes auditKeys ps) (Row.Writes.refl _ _)
      (fun _ _ _ _ hs ht => hs.trans (acceptAuditItem_writes ht)) h

theorem judge_writes (d : String) (ps : Row) :
    Row.Writes ["terminal","auditBacklog"] ps (judge lib p src d ps) :=
  ((Row.Writes.refl _ _).set _ (by simp)).set _ (by simp)

/-- The observation version that one refresh computes. -/
def observationVersion (lib : Library) (policy : Policy) (p : Packet) (src : Sources)
    (generation : ℕ) : String :=
  digest lib (observationInputs lib policy p src generation)

/-- The rows between the steps of a refreshed owner. -/
structure RowSteps (lib : Library) (policy : Policy) (inputs : Inputs) (p : Packet) (src : Sources)
    (ps ps' : Row) (d : String) where
  observed : Row
  generation : ℕ
  delivered : Row
  reported : Row
  stamped : Row
  audited : Row
  evidence : observeEvidence src.complete (ps.set "openPRs"
    (nat (src.prs.filter fun pr => pr.get "state" = .str "OPEN").length)) = .ok (observed,generation)
  version : d = dependencyFingerprint lib (producers p) src.evidence generation
  delivery : delivered = keepWaiting (bindProgress lib (bindDelivery observed))
  report : acceptReport lib p src d (observationVersion lib policy p src generation)
    (inputs.reports.lookup p.number) delivered = .ok reported
  stamp : stamped = stampVersions lib (observationInputs lib policy p src generation) d
    (observationVersion lib policy p src generation) reported
  audit : acceptAudit lib p src d (inputs.audits.lookup p.number) stamped = .ok audited
  judged : ps' = judge lib p src d audited

theorem refreshRow_steps {ps ps' : Row} {d : String}
    (h : refreshRow lib policy inputs p src ps = .ok (ps',d)) :
    Nonempty (RowSteps lib policy inputs p src ps ps' d) := by
  obtain ⟨⟨observed,g⟩,hobserved,h⟩ := bind_ok h
  obtain ⟨reported,hreported,h⟩ := bind_ok h
  obtain ⟨audited,haudited,h⟩ := bind_ok h
  obtain ⟨rfl,rfl⟩ := Prod.mk.inj (Except.ok.inj h)
  exact ⟨⟨observed,g,_,reported,_,audited,hobserved,rfl,rfl,hreported,rfl,haudited,rfl⟩⟩

namespace RowSteps

variable {ps ps' : Row} {d : String} (s : RowSteps lib policy inputs p src ps ps' d)

theorem writes_observed : Row.Writes ("openPRs" :: evidenceKeys) ps s.observed :=
  ((Row.Writes.refl _ ps).set _ (by decide)).trans ((observeEvidence_writes s.evidence).mono (by decide))

theorem writes_delivered :
    Row.Writes ["deliveredObservationVersion","deliveredProgressVersion","waitingReportPending"]
      s.observed s.delivered := by
  rw [s.delivery]
  exact (((bindDelivery_writes _).mono (by simp)).trans ((bindProgress_writes _).mono (by simp))).trans
    ((keepWaiting_writes _).mono (by simp))

theorem writes_reported : Row.Writes reportKeys s.delivered s.reported := acceptReport_writes s.report

theorem writes_stamped :
    Row.Writes ["observationVersion","dependencyVersion","versionInputs","version"] s.reported
      s.stamped := by
  rw [s.stamp]
  exact stampVersions_writes _ _ _ _

theorem writes_audited : Row.Writes auditKeys s.stamped s.audited := acceptAudit_writes s.audit

theorem writes_judged : Row.Writes ["terminal","auditBacklog"] s.audited ps' := by
  have h := @judge_writes lib p src d s.audited
  rwa [← s.judged] at h

include s in
theorem writes : Row.Writes refreshKeys ps ps' := by
  have h₁ := (s.writes_observed.mono (by decide) : Row.Writes refreshKeys ps s.observed)
  have h₂ := h₁.trans (s.writes_delivered.mono (by decide))
  have h₃ := h₂.trans (s.writes_reported.mono (by decide))
  have h₄ := h₃.trans (s.writes_stamped.mono (by decide))
  have h₅ := h₄.trans (s.writes_audited.mono (by decide))
  exact h₅.trans (s.writes_judged.mono (by decide))

end RowSteps

/-! ## What one refresh of a row establishes -/

@[simp] theorem Row.json_get (r : Row) (k : String) : r.json.get k = r.get k := rfl

theorem asStr_eq {v : Json} {s : String} : v.asStr = some s ↔ v = .str s := by
  cases v <;> simp [asStr]

theorem asU64_nat {n : ℕ} (h : n < 2^64) : (nat n).asU64 = some n := if_pos h

theorem bump_ok {n m : ℕ} {e : String} (h : bump n e = .ok m) : m = n + 1 ∧ m < 2^64 := by
  unfold bump at h
  split at h
  · obtain rfl := Except.ok.inj h
    exact ⟨rfl,‹_›⟩
  · cases h

/-- The flag of an owner whose producers' evidence was last seen incomplete. -/
def incomplete (ps : Json) : Prop := ps.get "dependencyEvidenceIncomplete" = .bool true

/-- How one refresh counts the generations of a row. -/
structure Counts (complete : Bool) (ps ps' : Json) : Prop where
  kept : complete = true → generationOf ps' = generationOf ps ∧ ¬ incomplete ps'
  flagged : complete = false → incomplete ps'
  again : complete = false → incomplete ps → generationOf ps' = generationOf ps
  bumped : complete = false → ¬ incomplete ps → generationOf ps' = generationOf ps + 1

theorem observeEvidence_counts {complete : Bool} {ps ps' : Row} {g : ℕ}
    (h : observeEvidence complete ps = .ok (ps',g)) :
    generationOf ps'.json = g ∧ Counts complete ps.json ps'.json := by
  unfold observeEvidence at h
  split at h
  · rename_i hc
    obtain ⟨rfl,rfl⟩ := Prod.mk.inj (Except.ok.inj h)
    refine ⟨by simp [generationOf],?_,?_,?_,?_⟩ <;> simp [hc,generationOf,incomplete]
  · rename_i hc
    split at h
    · rename_i hflag
      obtain ⟨g',hbump,h⟩ := bind_ok h
      obtain ⟨rfl,rfl⟩ := Prod.mk.inj (Except.ok.inj h)
      obtain ⟨hg,hlt⟩ := bump_ok hbump
      have hgen : generationOf (((ps.set "dependencyGeneration" (nat g')).set "auditedDependencies"
          (.obj [])).set "dependencyEvidenceIncomplete" (.bool true)).json = g' := by
        simp [generationOf,asU64_nat hlt]
      refine ⟨hgen,by simp [hc],by simp [incomplete],fun _ hi => absurd hi hflag,fun _ _ => ?_⟩
      rw [hgen,hg]
    · rename_i hflag
      obtain ⟨rfl,rfl⟩ := Prod.mk.inj (Except.ok.inj h)
      refine ⟨by simp [generationOf],by simp [hc],by simp [incomplete],by simp [generationOf],?_⟩
      intro _ hi
      exact absurd hi hflag

theorem observeEvidence_audits {complete : Bool} {ps ps' : Row} {g : ℕ}
    (h : observeEvidence complete ps = .ok (ps',g)) :
    (complete = true → ps'.get "auditedDependencies" = ps.get "auditedDependencies") ∧
      (complete = false → ps'.get "auditedDependencies" = .obj []) := by
  unfold observeEvidence at h
  split at h
  · obtain ⟨rfl,-⟩ := Prod.mk.inj (Except.ok.inj h)
    simp_all
  · split at h
    · obtain ⟨g',-,h⟩ := bind_ok h
      obtain ⟨rfl,-⟩ := Prod.mk.inj (Except.ok.inj h)
      simp_all
    · obtain ⟨rfl,-⟩ := Prod.mk.inj (Except.ok.inj h)
      simp_all

/-- Complete evidence clears the flag; the stored generation stays a number. -/
theorem observeEvidence_fields {complete : Bool} {ps ps' : Row} {g : ℕ}
    (h : observeEvidence complete ps = .ok (ps',g))
    (hps : ∀ v, ps.get? "dependencyGeneration" = some v → v.asU64.isSome = true) :
    (complete = true → ps'.get? "dependencyEvidenceIncomplete" = some (.bool false)) ∧
      ∀ v, ps'.get? "dependencyGeneration" = some v → v.asU64.isSome = true := by
  unfold observeEvidence at h
  split at h
  · obtain ⟨rfl,-⟩ := Prod.mk.inj (Except.ok.inj h)
    refine ⟨fun _ => by simp [Row.get?_set],fun v hv => hps v ?_⟩
    simpa [Row.get?_set] using hv
  · rename_i hc
    split at h
    · obtain ⟨g',hbump,h⟩ := bind_ok h
      obtain ⟨rfl,-⟩ := Prod.mk.inj (Except.ok.inj h)
      refine ⟨fun hc' => absurd hc' hc,fun v hv => ?_⟩
      obtain rfl : nat g' = v := by simpa [Row.get?_set] using hv
      simp [asU64_nat (bump_ok hbump).2]
    · obtain ⟨rfl,-⟩ := Prod.mk.inj (Except.ok.inj h)
      refine ⟨fun hc' => absurd hc' hc,fun v hv => hps v ?_⟩
      simpa [Row.get?_set] using hv

/-- A report that answers the delivered event on the observation the row was delivered. -/
structure ReportAccepted (inputs : Inputs) (p : Packet) (row report : Json) : Prop where
  given : inputs.reports.lookup p.number = some report
  event : (report.get "eventVersion").isString = true ∧
    report.get "eventVersion" = row.get "deliveredVersion"
  observation : row.get "deliveredObservationVersion" = row.get "observationVersion"
  text : (row.get "observationVersion").isString = true

/-- What a refresh takes for an audit of the feedback `feedback` of `url`: an item of the
owner's audit that names that feedback and the dependency version of the row, or an item
of an accepted report. -/
inductive Accepts (inputs : Inputs) (p : Packet) (row : Json) (url feedback : String) : Prop
  | audit {audit item : Json} (given : inputs.audits.lookup p.number = some audit)
      (listed : item ∈ (audit.get "prs").items) (named : item.get "url" = .str url)
      (seen : item.get "feedbackVersion" = .str feedback)
      (bound : p.dependencies ≠ [] → item.get "dependencyVersion" = row.get "dependencyVersion")
  | report {report item : Json} (accepted : ReportAccepted inputs p row report)
      (listed : item ∈ reportItems report) (named : item.get "url" = .str url)

/-- Audits of the urls of `P` may be recorded between two rows, no other is. -/
def Marked (feedback : String → String) (d : String) (P : String → Prop) (r r' : Row) : Prop :=
  ∀ u, ((r'.get "auditedFeedback").get u = (r.get "auditedFeedback").get u ∧
      (r'.get "auditedDependencies").get u = (r.get "auditedDependencies").get u) ∨
    (P u ∧ (r'.get "auditedFeedback").get u = .str (feedback u) ∧
      (r'.get "auditedDependencies").get u = .str d)

section Marking
variable {feedback : String → String} {d : String} {P Q : String → Prop} {r r' s : Row}

theorem Marked.same (hF : r'.get "auditedFeedback" = r.get "auditedFeedback")
    (hD : r'.get "auditedDependencies" = r.get "auditedDependencies") : Marked feedback d P r r' :=
  fun u => .inl ⟨by rw [hF],by rw [hD]⟩

theorem Marked.trans (h : Marked feedback d P r r') (h' : Marked feedback d P r' s) :
    Marked feedback d P r s := by
  intro u
  rcases h' u with ⟨hF',hD'⟩ | hnew
  · rw [hF',hD']
    exact h u
  · exact .inr hnew

theorem Marked.mono (h : Marked feedback d P r r') (hPQ : ∀ u, P u → Q u) :
    Marked feedback d Q r r' :=
  fun u => (h u).imp id fun hu => ⟨hPQ u hu.1,hu.2⟩

theorem objectOr_get (v : Json) (k : String) : (objectOr v).get k = v.get k := by
  unfold objectOr
  split
  · rfl
  · rename_i h
    rw [get_eq_null_of_not_isObject (v := v) (by simpa using h)]
    rfl

theorem objectOr_assignable (v : Json) : (objectOr v).Assignable := by
  unfold objectOr
  split
  · exact assignable_of_isObject ‹_›
  · exact assignable_obj []

theorem audited_marks (h : (r.get "auditedFeedback").Assignable) {url : String} (hP : P url) :
    Marked feedback d P r (audited r url (.str (feedback url)) d) := by
  intro u
  by_cases hu : u = url
  · subst hu
    exact .inr ⟨hP,by simp [audited,Json.get_set h],
      by simp [audited,Json.get_set (objectOr_assignable _)]⟩
  · exact .inl ⟨by simp [audited,Json.get_set h,hu],
      by simp [audited,Json.get_set (objectOr_assignable _),hu,objectOr_get]⟩

theorem audited_assignable (h : (r.get "auditedFeedback").Assignable) (url : String) (v : Json) :
    ((audited r url v d).get "auditedFeedback").Assignable := by
  simpa [audited] using assignable_of_isObject (isObject_set h url v)

end Marking

/-- The records a refresh looks at carry their addresses, and `feedback` is theirs. -/
def Sources.Named (lib : Library) (feedback : String → String) (urls : List String)
    (src : Sources) : Prop :=
  ∀ pr ∈ src.prs, ∃ u ∈ urls, pr.get "url" = .str u ∧ feedbackVersion lib pr = feedback u

section Acceptance
variable {feedback : String → String} {urls : List String} {d : String}

theorem acceptItem_marks (hsrc : src.Named lib feedback urls) {report pr : Json} {ps ps' : Row}
    (hpr : pr ∈ src.prs) (hps : (ps.get "auditedFeedback").Assignable)
    (h : acceptItem lib src d report ps pr = .ok ps') :
    (ps'.get "auditedFeedback").Assignable ∧
      Marked feedback d (fun u => src.complete = true ∧ u ∈ urls ∧
        ∃ item ∈ reportItems report, item.get "url" = .str u) ps ps' := by
  obtain ⟨u,hmem,hu,hf⟩ := hsrc pr hpr
  unfold acceptItem at h
  split at h
  · obtain rfl := Except.ok.inj h
    exact ⟨hps,Marked.same rfl rfl⟩
  · rename_i item hitem
    rw [hu] at h
    dsimp only [asStr] at h
    split at h
    · rename_i hcert
      obtain rfl := Except.ok.inj h
      have hcomplete : src.complete = true := by
        simp only [certifies,Bool.and_eq_true] at hcert
        exact hcert.1.1.1.1.1.1
      have hnamed : item.get "url" = .str u := by
        rw [← hu]
        simpa using List.find?_some hitem
      have hset : ((ps.set "auditedCheckpoints" ((ps.get "auditedCheckpoints").set u (.str
          (digest lib (.arr [report.get "eventVersion",item]))))).get "auditedFeedback").Assignable := by
        simpa using hps
      rw [hf]
      refine ⟨audited_assignable hset u _,(Marked.same ?_ ?_).trans (audited_marks hset ?_)⟩
      · simp
      · simp
      · exact ⟨hcomplete,hmem,item,List.mem_of_find?_eq_some hitem,hnamed⟩
    · obtain rfl := Except.ok.inj h
      exact ⟨hps,Marked.same rfl rfl⟩

theorem acceptReport_marks (hsrc : src.Named lib feedback urls) {o : String} {report : Option Json}
    {ps ps' : Row} (hps : (ps.get "auditedFeedback").Assignable)
    (h : acceptReport lib p src d o report ps = .ok ps') :
    (ps'.get "auditedFeedback").Assignable ∧
      Marked feedback d (fun u => src.complete = true ∧ u ∈ urls ∧ ∃ r, report = some r ∧
        reportCurrent ps o r = true ∧ ∃ item ∈ reportItems r, item.get "url" = .str u) ps ps' := by
  unfold acceptReport at h
  split at h
  · obtain rfl := Except.ok.inj h
    exact ⟨hps,Marked.same rfl rfl⟩
  · rename_i r
    obtain ⟨-,-,h⟩ := bind_ok h
    obtain ⟨-,-,h⟩ := bind_ok h
    obtain ⟨-,-,h⟩ := bind_ok h
    split at h
    · rename_i hcurrent
      have hF : (adoptReport lib src r ps).get "auditedFeedback" = ps.get "auditedFeedback" := by
        unfold adoptReport
        dsimp only
        split <;> simp
      have hD : (adoptReport lib src r ps).get "auditedDependencies" = ps.get "auditedDependencies" := by
        unfold adoptReport
        dsimp only
        split <;> simp
      apply foldlM_keeps (P := fun q => (q.get "auditedFeedback").Assignable ∧ Marked feedback d _ ps q)
        ⟨hF ▸ hps,Marked.same hF hD⟩ _ h
      intro s t pr hpr hs ht
      obtain ⟨hassign,hmarks⟩ := acceptItem_marks hsrc hpr hs.1 ht
      exact ⟨hassign,hs.2.trans (hmarks.mono fun u hu => ⟨hu.1,hu.2.1,r,rfl,hcurrent,hu.2.2⟩)⟩
    · obtain rfl := Except.ok.inj h
      exact ⟨hps,Marked.same rfl rfl⟩

theorem acceptAudit_marks (hsrc : src.Named lib feedback urls) {audit : Option Json} {ps ps' : Row}
    (hps : (ps.get "auditedFeedback").Assignable)
    (h : acceptAudit lib p src d audit ps = .ok ps') :
    (ps'.get "auditedFeedback").Assignable ∧
      Marked feedback d (fun u => src.complete = true ∧ u ∈ urls ∧ ∃ a, audit = some a ∧
        ∃ item ∈ (a.get "prs").items, item.get "url" = .str u ∧
          item.get "feedbackVersion" = .str (feedback u) ∧
          (p.dependencies ≠ [] → item.get "dependencyVersion" = .str d)) ps ps' := by
  unfold acceptAudit at h
  split at h
  · obtain rfl := Except.ok.inj h
    exact ⟨hps,Marked.same rfl rfl⟩
  · rename_i a
    obtain ⟨-,-,h⟩ := bind_ok h
    apply foldlM_keeps (P := fun q => (q.get "auditedFeedback").Assignable ∧ Marked feedback d _ ps q)
      ⟨hps,Marked.same rfl rfl⟩ _ h
    intro s t item hitem hs ht
    unfold acceptAuditItem at ht
    split at ht
    · rename_i hcurrent
      split at ht
      · cases ht
      · rename_i url hurl
        split at ht
        · rename_i hmatch
          obtain rfl := Except.ok.inj ht
          simp only [auditCurrent,Bool.and_eq_true,Bool.or_eq_true,decide_eq_true_eq,asStr_eq] at hcurrent
          obtain ⟨pr,hpr,hmatch⟩ := List.any_eq_true.mp hmatch
          simp only [Bool.and_eq_true,decide_eq_true_eq,asStr_eq] at hmatch
          obtain ⟨u,hmem,hu,hf⟩ := hsrc pr hpr
          have huu : u = url := by simpa [hmatch.1] using hu.symm
          subst huu
          rw [hf] at hmatch
          rw [hmatch.2]
          refine ⟨audited_assignable hs.1 u _,hs.2.trans (audited_marks hs.1 ?_)⟩
          exact ⟨hcurrent.1.1.1,hmem,a,rfl,item,hitem,asStr_eq.mp hurl,hmatch.2,
            fun hdeps => hcurrent.2.resolve_left hdeps⟩
        · obtain rfl := Except.ok.inj ht
          exact hs
    · obtain rfl := Except.ok.inj ht
      exact hs

end Acceptance

/-! ## The refreshed row -/

theorem bindDelivery_bound {ps : Row} (h : ps.get "deliveredObservationVersion" ≠ .null) :
    (bindDelivery ps).get "deliveredObservationVersion" = ps.get "deliveredObservationVersion" := by
  unfold bindDelivery
  split
  · rename_i hnull
    simp only [Bool.and_eq_true] at hnull
    cases hd : ps.get "deliveredObservationVersion" <;> simp_all [isNull]
  · rfl

/-- The delivered event is the row's own, and its observation is retained. -/
def rebinds (r : Json) : Bool :=
  (r.get "deliveredVersion").isString && r.get "deliveredVersion" = r.get "version" &&
    (r.get "observationVersion").isString

theorem rebinds_congr {r r' : Json} (h : ∀ k ∈ ["deliveredVersion","version","observationVersion"],
    r'.get k = r.get k) : rebinds r' = rebinds r := by
  rw [Bool.eq_iff_iff]
  simp only [rebinds,Bool.and_eq_true,decide_eq_true_eq]
  rw [h "deliveredVersion" (by simp),h "version" (by simp),h "observationVersion" (by simp)]

theorem bindDelivery_unbound {ps : Row} (h : ps.get "deliveredObservationVersion" = .null) :
    (bindDelivery ps).get "deliveredObservationVersion" =
      if rebinds ps.json then ps.get "observationVersion" else .null := by
  have hguard : ((ps.get "deliveredObservationVersion").isNull && (ps.get "deliveredVersion").isString &&
      ps.get "deliveredVersion" = ps.get "version" && (ps.get "observationVersion").isString) =
        rebinds ps.json := by
    rw [h]
    rfl
  unfold bindDelivery
  rw [hguard]
  split
  · simp
  · exact h

theorem judge_terminal {d : String} {ps : Row}
    (h : (judge lib p src d ps).get "terminal" = .bool true) :
    src.complete = true ∧ ∀ pr ∈ src.prs, closed pr = true ∧ ∀ url, pr.get "url" = .str url →
      (ps.get "auditedFeedback").get url = .str (feedbackVersion lib pr) ∧
        (p.dependencies ≠ [] → (ps.get "auditedDependencies").get url = .str d) := by
  have hterminal : src.complete = true ∧ backlog lib p src d ps = 0 ∧ src.prs.all closed = true := by
    simp only [judge,Row.get_set,String.reduceEq,if_false,if_true,Json.bool.injEq,
      Bool.and_eq_true,decide_eq_true_eq] at h
    exact ⟨h.1.1.1.1.1,h.1.1.1.1.2,h.2⟩
  obtain ⟨hcomplete,hbacklog,hclosed⟩ := hterminal
  refine ⟨hcomplete,fun pr hpr => ?_⟩
  have hpc : closed pr = true := List.all_eq_true.mp hclosed pr hpr
  refine ⟨hpc,fun url hurl => ?_⟩
  have hnone := List.length_eq_zero_iff.mp hbacklog
  have haudited : unaudited lib p src d ps pr = false := by
    by_contra hne
    have hmem : pr ∈ src.prs.filter fun pr => closed pr && unaudited lib p src d ps pr :=
      List.mem_filter.mpr ⟨hpr,by simp [hpc,hne]⟩
    rw [hnone] at hmem
    cases hmem
  simp only [unaudited,hurl,asStr,Option.getD_some,hcomplete,Bool.not_true,Bool.false_or,
    Bool.or_eq_false_iff,Bool.and_eq_false_iff,decide_eq_false_iff_not,not_not] at haudited
  refine ⟨asStr_eq.mp haudited.1,fun hdeps => ?_⟩
  exact asStr_eq.mp (haudited.2.resolve_left hdeps)

/-- What the operations on a journal write in a row is of this shape. -/
structure Tidy (n : ℕ) (r : Json) : Prop where
  observation : (r.get "observationVersion").isNull = true ∨
    (r.get "observationVersion").isString = true
  progress : (r.get "progressVersion").isNull = true ∨ (r.get "progressVersion").isString = true
  status : validateReportUrls (r.get "workerStatus") n = .ok ()

/-- Adopting a report writes its digest and the report itself, or nothing. -/
theorem acceptReport_fields {d o : String} {report : Option Json} {ps ps' : Row}
    (h : acceptReport lib p src d o report ps = .ok ps') {k : String}
    (hk : k ∈ ["progressVersion","workerStatus"]) :
    ps'.get k = ps.get k ∨ ∃ r, report = some r ∧
      ps'.get k = if k = "workerStatus" then r else .str (digest lib r) := by
  unfold acceptReport at h
  split at h
  · obtain rfl := Except.ok.inj h
    exact .inl rfl
  · rename_i r
    obtain ⟨-,-,h⟩ := bind_ok h
    obtain ⟨-,-,h⟩ := bind_ok h
    obtain ⟨-,-,h⟩ := bind_ok h
    split at h
    · have hkeeps := foldlM_keeps (P := Row.Keeps itemKeys (adoptReport lib src r ps))
        (Row.Keeps.refl _ _) (fun _ _ _ _ hs ht => hs.trans (acceptItem_writes ht).keeps) h
      have hother : ∀ l ∈ ["progressVersion","workerStatus"], l ∉ itemKeys := by decide
      rw [hkeeps.get (hother k hk)]
      simp only [List.mem_cons,List.not_mem_nil,or_false] at hk
      unfold adoptReport
      rcases hk with rfl | rfl
      · dsimp only
        split
        · exact .inr ⟨r,rfl,by simp⟩
        · exact .inl (by simp)
      · right
        refine ⟨r,rfl,?_⟩
        dsimp only
        split <;> simp
    · obtain rfl := Except.ok.inj h
      exact .inl rfl

/-- The progress of an accepted report is its digest. -/
theorem acceptReport_progress {d o : String} {report : Option Json} {ps ps' : Row}
    (hps : (ps.get "progressVersion").isNull = true ∨ (ps.get "progressVersion").isString = true)
    (h : acceptReport lib p src d o report ps = .ok ps') :
    (ps'.get "progressVersion").isNull = true ∨ (ps'.get "progressVersion").isString = true := by
  rcases acceptReport_fields h (k := "progressVersion") (by decide) with hsame | ⟨r,-,hr⟩
  · rwa [hsame]
  · right
    rw [hr]
    rfl

/-- An accepted report was checked. -/
theorem acceptReport_status {d o : String} {report : Option Json} {ps ps' : Row}
    (hps : validateReportUrls (ps.get "workerStatus") p.number = .ok ())
    (h : acceptReport lib p src d o report ps = .ok ps') :
    validateReportUrls (ps'.get "workerStatus") p.number = .ok () := by
  unfold acceptReport at h
  split at h
  · obtain rfl := Except.ok.inj h
    exact hps
  · rename_i report
    obtain ⟨-,-,h⟩ := bind_ok h
    obtain ⟨⟨⟩,hurls,h⟩ := bind_ok h
    obtain ⟨-,-,h⟩ := bind_ok h
    split at h
    · have hkeeps := foldlM_keeps (P := Row.Keeps itemKeys (adoptReport lib src report ps))
        (Row.Keeps.refl _ _) (fun _ _ _ _ hs ht => hs.trans (acceptItem_writes ht).keeps) h
      rw [hkeeps.get (by decide)]
      unfold adoptReport
      dsimp only
      split <;> simpa using hurls
    · obtain rfl := Except.ok.inj h
      exact hps

/-- The event version of a row, as a refresh computes it from what the row holds. -/
def stamp (lib : Library) (r : Json) : Json :=
  .str (digest lib (eventInputs lib (r.get "versionInputs") ⟨r.asObject.getD []⟩))

/-- What else a terminal verdict has found. -/
structure Settled (lib : Library) (r : Json) : Prop where
  answered : r.get "waitingReportPending" ≠ .bool true
  status : (r.get "workerStatus").get "status" ≠ .str "waiting"
  progress : undeliveredProgress lib r = false

namespace RowSteps

variable {ps ps' : Row} {d : String} (s : RowSteps lib policy inputs p src ps ps' d)

theorem after_observed : Row.Keeps (["deliveredObservationVersion","deliveredProgressVersion",
    "waitingReportPending"] ++ reportKeys ++ ["observationVersion","dependencyVersion",
    "versionInputs","version"] ++ ["terminal","auditBacklog"]) s.observed ps' :=
  ((((s.writes_delivered.keeps.mono (by decide)).trans (s.writes_reported.keeps.mono (by decide))).trans
    (s.writes_stamped.keeps.mono (by decide))).trans (s.writes_audited.keeps.mono (by decide))).trans
      (s.writes_judged.keeps.mono (by decide))

theorem after_stamped : Row.Keeps (auditKeys ++ ["terminal","auditBacklog"]) s.stamped ps' :=
  (s.writes_audited.keeps.mono (by decide)).trans (s.writes_judged.keeps.mono (by decide))

theorem counts : generationOf ps'.json = s.generation ∧ Counts src.complete ps.json ps'.json := by
  obtain ⟨hg,hcounts⟩ := observeEvidence_counts s.evidence
  have hgen : ps'.get "dependencyGeneration" = s.observed.get "dependencyGeneration" :=
    s.after_observed.get (by decide)
  have hflag : ps'.get "dependencyEvidenceIncomplete" = s.observed.get "dependencyEvidenceIncomplete" :=
    s.after_observed.get (by decide)
  have hgen' : generationOf ps'.json = generationOf s.observed.json := by simp [generationOf,hgen]
  have hflag' : incomplete ps'.json ↔ incomplete s.observed.json := by simp [incomplete,hflag]
  refine ⟨by rw [hgen',hg],?_,?_,?_,?_⟩
  · intro hc
    have h := hcounts.kept hc
    rw [hgen',hflag']
    simpa [generationOf] using h
  · intro hc
    exact hflag'.mpr (hcounts.flagged hc)
  · intro hc hi
    rw [hgen',hcounts.again hc (by simpa [incomplete] using hi)]
    simp [generationOf]
  · intro hc hi
    rw [hgen',hcounts.bumped hc (by simpa [incomplete] using hi)]
    simp [generationOf]

include s in
theorem dependencyVersion : ps'.get "dependencyVersion" = .str d := by
  rw [s.after_stamped.get (by decide),s.stamp]
  simp [stampVersions]

theorem observation :
    ps'.get "observationVersion" = .str (observationVersion lib policy p src s.generation) := by
  rw [s.after_stamped.get (by decide),s.stamp]
  simp [stampVersions]

theorem delivered_observation : ps'.get "deliveredObservationVersion" =
    (bindDelivery s.observed).get "deliveredObservationVersion" := by
  rw [s.after_stamped.get (by decide),s.writes_stamped.keeps.get (by decide),
    s.writes_reported.keeps.get (by decide),s.delivery,(keepWaiting_writes _).get (by decide),
    (bindProgress_writes _).get (by decide)]

include s in
theorem bound (h : ps.get "deliveredObservationVersion" ≠ .null) :
    ps'.get "deliveredObservationVersion" = ps.get "deliveredObservationVersion" := by
  have hobserved : s.observed.get "deliveredObservationVersion" = _ := s.writes_observed.keeps.get (by decide)
  rw [s.delivered_observation,bindDelivery_bound (by rwa [hobserved]),hobserved]

include s in
theorem unbound (h : ps.get "deliveredObservationVersion" = .null) :
    ps'.get "deliveredObservationVersion" =
      if rebinds ps.json then ps.get "observationVersion" else .null := by
  have hread : ∀ k, k ∉ "openPRs" :: evidenceKeys → s.observed.get k = ps.get k :=
    fun k hk => s.writes_observed.keeps.get hk
  have hsame : rebinds s.observed.json = rebinds ps.json := by
    apply rebinds_congr
    intro k hk
    refine hread k ?_
    rintro hmem
    simp only [List.mem_cons,List.not_mem_nil,or_false] at hk
    rcases hk with rfl | rfl | rfl <;> revert hmem <;> decide
  rw [s.delivered_observation,bindDelivery_unbound (by rw [hread _ (by decide),h]),hsame,
    hread "observationVersion" (by decide)]

include s in
/-- Without a delivered observation no report is adopted. -/
theorem unanswered (h : ps'.get "deliveredObservationVersion" = .null) :
    ps'.get "workerStatus" = ps.get "workerStatus" := by
  have hdelivered : s.delivered.get "deliveredObservationVersion" = .null := by
    rw [← h,s.after_stamped.get (by decide),s.writes_stamped.keeps.get (by decide),
      s.writes_reported.keeps.get (by decide)]
  have hreported : s.reported = s.delivered := by
    have hreport := s.report
    unfold acceptReport at hreport
    split at hreport
    · exact (Except.ok.inj hreport).symm
    · obtain ⟨-,-,hreport⟩ := bind_ok hreport
      obtain ⟨-,-,hreport⟩ := bind_ok hreport
      obtain ⟨-,-,hreport⟩ := bind_ok hreport
      rw [if_neg (by simp [reportCurrent,hdelivered])] at hreport
      exact (Except.ok.inj hreport).symm
  rw [s.after_stamped.get (by decide),s.writes_stamped.keeps.get (by decide),hreported,
    s.writes_delivered.keeps.get (by decide),s.writes_observed.keeps.get (by decide)]

theorem delivered_get {k : String} (h₁ : k ∉ ["deliveredObservationVersion",
    "deliveredProgressVersion","waitingReportPending"]) (h₂ : k ∉ "openPRs" :: evidenceKeys) :
    s.delivered.get k = ps.get k :=
  (s.writes_delivered.keeps.get h₁).trans (s.writes_observed.keeps.get h₂)

theorem reported_get {k : String} (h₁ : k ∉ auditKeys ++ ["terminal","auditBacklog"])
    (h₂ : k ∉ ["observationVersion","dependencyVersion","versionInputs","version"]) :
    ps'.get k = s.reported.get k :=
  (s.after_stamped.get h₁).trans (s.writes_stamped.keeps.get h₂)

include s in
theorem status (h : validateReportUrls (ps.get "workerStatus") p.number = .ok ()) :
    validateReportUrls (ps'.get "workerStatus") p.number = .ok () := by
  rw [s.reported_get (by decide) (by decide)]
  refine acceptReport_status ?_ s.report
  rwa [s.delivered_get (by decide) (by decide)]

include s in
theorem tidy (h : Tidy p.number ps.json) : Tidy p.number ps'.json := by
  refine ⟨.inr ?_,?_,s.status h.status⟩
  · rw [Row.json_get,s.observation]
    rfl
  · rw [Row.json_get,s.reported_get (by decide) (by decide)]
    refine acceptReport_progress ?_ s.report
    rw [s.delivered_get (by decide) (by decide)]
    exact h.progress

theorem reportCurrent_accepted {report : Json} (hgiven : inputs.reports.lookup p.number = some report)
    (h : reportCurrent s.delivered (observationVersion lib policy p src s.generation) report = true) :
    ReportAccepted inputs p ps'.json report := by
  simp only [reportCurrent,Bool.and_eq_true,decide_eq_true_eq] at h
  have hversion : ps'.get "deliveredVersion" = s.delivered.get "deliveredVersion" := by
    rw [s.after_stamped.get (by decide),s.writes_stamped.keeps.get (by decide),
      s.writes_reported.keeps.get (by decide)]
  have hbound : ps'.get "deliveredObservationVersion" =
      s.delivered.get "deliveredObservationVersion" := by
    rw [s.after_stamped.get (by decide),s.writes_stamped.keeps.get (by decide),
      s.writes_reported.keeps.get (by decide)]
  refine ⟨hgiven,⟨h.1.1,?_⟩,?_,?_⟩
  · rw [Row.json_get,hversion]
    exact h.1.2
  · rw [Row.json_get,Row.json_get,hbound,s.observation]
    exact h.2
  · rw [Row.json_get,s.observation]
    rfl

include s in
/-- An audit that stands after a refresh stood before it, or was accepted by it. -/
theorem audits {feedback : String → String} {urls : List String}
    (hsrc : src.Named lib feedback urls) (hps : (ps.get "auditedFeedback").Assignable) (u : String) :
    ((ps'.get "auditedFeedback").get u = (ps.get "auditedFeedback").get u ∧
      (src.complete = true → (ps'.get "auditedDependencies").get u =
        (ps.get "auditedDependencies").get u) ∧
      (src.complete = false → (ps'.get "auditedDependencies").get u = .null)) ∨
    (src.complete = true ∧ u ∈ urls ∧ Accepts inputs p ps'.json u (feedback u) ∧
      (ps'.get "auditedFeedback").get u = .str (feedback u) ∧
      (ps'.get "auditedDependencies").get u = .str d) := by
  have hF : s.delivered.get "auditedFeedback" = ps.get "auditedFeedback" := by
    rw [s.writes_delivered.keeps.get (by decide),s.writes_observed.keeps.get (by decide)]
  have hD : s.delivered.get "auditedDependencies" = s.observed.get "auditedDependencies" :=
    s.writes_delivered.keeps.get (by decide)
  have hobserved := observeEvidence_audits s.evidence
  simp only [Row.get_set,String.reduceEq,if_false] at hobserved
  obtain ⟨hassign,hreport⟩ := acceptReport_marks hsrc (by rwa [hF]) s.report
  have hstampF : s.stamped.get "auditedFeedback" = s.reported.get "auditedFeedback" :=
    s.writes_stamped.keeps.get (by decide)
  have hstampD : s.stamped.get "auditedDependencies" = s.reported.get "auditedDependencies" :=
    s.writes_stamped.keeps.get (by decide)
  obtain ⟨-,haudit⟩ := acceptAudit_marks hsrc (by rwa [hstampF]) s.audit
  have hlastF : ps'.get "auditedFeedback" = s.audited.get "auditedFeedback" :=
    s.writes_judged.keeps.get (by decide)
  have hlastD : ps'.get "auditedDependencies" = s.audited.get "auditedDependencies" :=
    s.writes_judged.keeps.get (by decide)
  rw [hlastF,hlastD]
  rcases haudit u with ⟨hauditF,hauditD⟩ | ⟨⟨hc,hu,a,ha,item,hitem,hnamed,hseen,hbound⟩,hauditF,hauditD⟩
  · rw [hauditF,hauditD,hstampF,hstampD]
    rcases hreport u with ⟨hreportF,hreportD⟩ | ⟨⟨hc,hu,r,hr,hcurrent,item,hitem,hnamed⟩,hreportF,hreportD⟩
    · rw [hreportF,hreportD,hF,hD]
      refine .inl ⟨rfl,fun hc => by rw [hobserved.1 hc],fun hc => ?_⟩
      rw [hobserved.2 hc]
      rfl
    · exact .inr ⟨hc,hu,.report (s.reportCurrent_accepted hr hcurrent) hitem hnamed,hreportF,hreportD⟩
  · refine .inr ⟨hc,hu,.audit ha hitem hnamed hseen fun hdeps => ?_,hauditF,hauditD⟩
    rw [hbound hdeps,Row.json_get,s.dependencyVersion]

include s in
theorem verdict (h : ps'.get "terminal" = .bool true) :
    src.complete = true ∧ ∀ pr ∈ src.prs, closed pr = true ∧ ∀ url, pr.get "url" = .str url →
      (ps'.get "auditedFeedback").get url = .str (feedbackVersion lib pr) ∧
        (p.dependencies ≠ [] → (ps'.get "auditedDependencies").get url = .str d) := by
  have hlastF : ps'.get "auditedFeedback" = s.audited.get "auditedFeedback" :=
    s.writes_judged.keeps.get (by decide)
  have hlastD : ps'.get "auditedDependencies" = s.audited.get "auditedDependencies" :=
    s.writes_judged.keeps.get (by decide)
  rw [hlastF,hlastD]
  apply judge_terminal
  rw [← h,← congrArg (Row.get · "terminal") s.judged]

include s in
theorem settled (h : ps'.get "terminal" = .bool true) : Settled lib ps'.json := by
  have hjudged := s.judged
  rw [hjudged] at h
  simp only [judge,Row.get_set,String.reduceEq,if_false,if_true,Json.bool.injEq,
    Bool.and_eq_true,decide_eq_true_eq,Bool.not_eq_true'] at h
  have hread : ∀ k, k ≠ "terminal" → k ≠ "auditBacklog" → ps'.get k = s.audited.get k := by
    intro k h₁ h₂
    exact s.writes_judged.keeps.get (by simp [h₁,h₂])
  refine ⟨?_,?_,?_⟩
  · rw [Row.json_get,hread _ (by decide) (by decide)]
    exact h.1.1.1.2
  · rw [Row.json_get,hread _ (by decide) (by decide)]
    exact h.1.1.2
  · have hprogress := h.1.2
    have hversion := hread "progressVersion" (by decide) (by decide)
    have hdelivered := hread "deliveredProgressVersion" (by decide) (by decide)
    simp only [undeliveredProgress,Row.json_get,hversion,hdelivered] at hprogress ⊢
    exact hprogress

theorem versionInputs :
    ps'.get "versionInputs" = observationInputs lib policy p src s.generation := by
  rw [s.after_stamped.get (by decide),s.stamp]
  simp [stampVersions]

/-- The event version is computed from the row as the refresh leaves it. -/
theorem stamped_version : ps'.get "version" =
    .str (digest lib (eventInputs lib (observationInputs lib policy p src s.generation) ps')) := by
  have hprogress : ps'.get "progressVersion" = s.reported.get "progressVersion" :=
    s.reported_get (by decide) (by decide)
  have hrecovery : ps'.get "recoveryVersion" = s.reported.get "recoveryVersion" :=
    s.reported_get (by decide) (by decide)
  have hrecheck : ps'.get "recheckVersion" = s.reported.get "recheckVersion" :=
    s.reported_get (by decide) (by decide)
  have hsame : eventInputs lib (observationInputs lib policy p src s.generation) ps' =
      eventInputs lib (observationInputs lib policy p src s.generation) s.reported := by
    simp only [eventInputs,List.foldl,hprogress,hrecovery,hrecheck]
  rw [hsame,s.after_stamped.get (by decide),s.stamp]
  simp [stampVersions]

include s in
/-- What a refresh takes from the report that it was given. -/
theorem reported_fields (k : String) (hk : k ∈ ["progressVersion","workerStatus"]) :
    ps'.get k = ps.get k ∨ ∃ report, inputs.reports.lookup p.number = some report ∧
      ps'.get k = if k = "workerStatus" then report else .str (digest lib report) := by
  have hapart : ∀ l ∈ ["progressVersion","workerStatus"],
      (l ∉ ["deliveredObservationVersion","deliveredProgressVersion","waitingReportPending"] ∧
        l ∉ "openPRs" :: evidenceKeys) ∧ l ∉ auditKeys ++ ["terminal","auditBacklog"] ∧
        l ∉ ["observationVersion","dependencyVersion","versionInputs","version"] := by decide
  obtain ⟨⟨hdelivered,hobserved⟩,hstamped,hversions⟩ := hapart k hk
  rw [s.reported_get hstamped hversions,← s.delivered_get hdelivered hobserved]
  exact acceptReport_fields s.report hk

include s in
theorem inputs_dependencies : (ps'.get "versionInputs").get "dependencies" = src.evidence := by
  rw [s.versionInputs]
  unfold observationInputs
  dsimp only
  split <;> split <;> rfl

include s in
theorem fields (hps : ∀ v, ps.get? "dependencyGeneration" = some v → v.asU64.isSome = true) :
    (src.complete = true → ps'.get? "dependencyEvidenceIncomplete" = some (.bool false)) ∧
      ∀ v, ps'.get? "dependencyGeneration" = some v → v.asU64.isSome = true := by
  have hobserved := observeEvidence_fields s.evidence (by simpa [Row.get?_set] using hps)
  rw [s.after_observed _ (by decide),s.after_observed _ (by decide)]
  exact hobserved

end RowSteps

end Orchestration
end CanixToolbelt
