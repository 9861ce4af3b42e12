import CanixToolbelt.OrchestrationSteady

/-! Feedback observed twice, progress derived twice, and the checks of a refreshed row. -/
namespace CanixToolbelt
namespace Orchestration

open Fallible Json Canonical

variable {lib : Library} {policy : Policy} {inputs : Inputs} {p : Packet} {src : Sources}

/-! ## Feedback observed twice -/

/-- What one observation of feedback records. -/
def observation (lib : Library) (pr : Json) : Json :=
  .obj [("generation",nat (prGeneration pr)),("version",.str (digest lib (feedbackInputs pr)))]

/-- The row once the feedback of `url` is recorded in it. -/
def recorded (lib : Library) (url : String) (ps : Row) (pr : Json) : Row :=
  ps.set "feedbackObservations"
    ((objectOr (ps.get "feedbackObservations")).set url (observation lib pr))

/-- The record and the row are as an observation of this feedback leaves them. -/
structure Observed (lib : Library) (url : String) (ps : Row) (pr : Json) : Prop where
  object : pr.isObject = true
  address : pr.get "url" = .str url
  bounded : prGeneration pr < 2^64
  restored : restoreGeneration pr (prGeneration pr) = pr
  noted : recorded lib url ps pr = ps

theorem restoreGeneration_twice (pr : Json) (g : ℕ) :
    restoreGeneration (restoreGeneration pr g) g = restoreGeneration pr g := by
  unfold restoreGeneration
  split
  · exact Json.set_twice _ _ _ _
  · refine remove_absent ?_
    rw [get?_remove,if_pos rfl]

theorem recorded_get (url : String) (ps : Row) (pr : Json) :
    (recorded lib url ps pr).get "feedbackObservations" =
      (objectOr (ps.get "feedbackObservations")).set url (observation lib pr) := by
  simp [recorded]

theorem recorded_isObject (url : String) (ps : Row) (pr : Json) :
    ((recorded lib url ps pr).get "feedbackObservations").isObject = true := by
  rw [recorded_get]
  exact isObject_set (.inr (objectOr_isObject _)) _ _

theorem recorded_twice (url : String) (ps : Row) (pr : Json) :
    recorded lib url (recorded lib url ps pr) pr = recorded lib url ps pr := by
  change (recorded lib url ps pr).set "feedbackObservations"
    ((objectOr ((recorded lib url ps pr).get "feedbackObservations")).set url (observation lib pr)) = _
  rw [objectOr_of_isObject (recorded_isObject url ps pr),recorded_get,Json.set_twice]
  exact Row.set_self _ _ _

/-- Recording the feedback of another address leaves this one recorded. -/
theorem Observed.recorded {ps : Row} {url url' : String} {pr pr' : Json} (h : Observed lib url ps pr)
    (hne : url ≠ url') : Observed lib url (recorded lib url' ps pr') pr where
  object := h.object
  address := h.address
  bounded := h.bounded
  restored := h.restored
  noted := by
    have hread : (objectOr (ps.get "feedbackObservations")).set url (observation lib pr) =
        ps.get "feedbackObservations" := by
      rw [← @recorded_get lib url ps pr,h.noted]
    have hobject : (ps.get "feedbackObservations").isObject = true := by
      have hrow := @recorded_isObject lib url ps pr
      rwa [h.noted] at hrow
    rw [objectOr_of_isObject hobject] at hread
    change (Orchestration.recorded lib url' ps pr').set "feedbackObservations"
      ((objectOr ((Orchestration.recorded lib url' ps pr').get "feedbackObservations")).set url
        (observation lib pr)) = _
    rw [objectOr_of_isObject (recorded_isObject _ _ _),recorded_get,objectOr_of_isObject hobject,
      Json.set_still _ hne hread]
    have hself := Row.set_self ps "feedbackObservations"
      ((ps.get "feedbackObservations").set url' (observation lib pr'))
    unfold Orchestration.recorded
    rwa [objectOr_of_isObject hobject]

/-- Writes to other keys of the row, and to derived fields of the record, leave it observed. -/
theorem Observed.writes {ps ps' : Row} {url : String} {pr pr' : Json} {keys : List String}
    (h : Observed lib url ps pr) (hps : Row.Writes keys ps ps') (hkeys : "feedbackObservations" ∉ keys)
    (hpr : Json.Writes ["progress","classification"] pr pr') : Observed lib url ps' pr' where
  object := hpr.isObject h.object
  address := by
    rw [← h.address]
    exact congrArg (Option.getD · Json.null) (hpr.get? (by decide))
  bounded := by
    unfold prGeneration Json.get
    rw [hpr.get? (by decide)]
    exact h.bounded
  restored := by
    have hgen : prGeneration pr' = prGeneration pr := by
      unfold prGeneration Json.get
      rw [hpr.get? (by decide)]
    have hrestored := h.restored
    unfold restoreGeneration at hrestored ⊢
    rw [hgen]
    split
    · rename_i hpos
      rw [if_pos hpos] at hrestored
      exact hpr.still (by decide) hrestored
    · rename_i hzero
      rw [if_neg hzero] at hrestored
      refine remove_absent ?_
      rw [hpr.get? (by decide),← hrestored,get?_remove,if_pos rfl]
  noted := by
    have hgen : prGeneration pr' = prGeneration pr := by
      unfold prGeneration Json.get
      rw [hpr.get? (by decide)]
    have halike : Alike pr' pr := fun k h₁ h₂ => hpr.get? (by simp [h₁,h₂])
    have hnoted := h.noted
    unfold Orchestration.recorded observation at hnoted ⊢
    rw [hgen,halike.feedbackInputs,hps.get hkeys]
    exact hps.still hkeys hnoted

theorem entry_of_slot {j : Journal} {n : ℕ} (h : (j.slot n).isSome = true) : j.entry n = j := by
  unfold Journal.entry
  rw [if_neg]
  simp only [Bool.and_eq_true,not_and,Option.isNone_iff_eq_none]
  intro _ hnone
  unfold Journal.slot at h
  rw [hnone] at h
  cases h

/-- One observation, in terms of the row it finds and the record it leaves. -/
theorem observeFeedback_writes {n : ℕ} {j j' : Journal} {url : String} (hj : j.Objects)
    (hslot : (j.slot n).isSome = true) (h : observeFeedback lib n j url = .ok j') :
    ∃ ps pr, j.row n = ps.json ∧ Observed lib url (recorded lib url ps pr) pr ∧
      j' = Journal.put { j with prs := j.prs.set url pr } n (recorded lib url ps pr) := by
  obtain ⟨pr,hpr,h⟩ := bind_ok h
  obtain ⟨g,hg,h⟩ := bind_ok h
  obtain ⟨ps,hps,h⟩ := bind_ok h
  obtain ⟨hobject,hurl⟩ := identified_ok hpr
  obtain ⟨-,hrow,-⟩ := journalPacket_ok hps
  obtain rfl := Except.ok.inj h
  rw [entry_of_slot (j := { j with prs := j.prs.set url (restoreGeneration pr g) }) hslot] at hrow
  have hlt := feedbackGeneration_lt hg
  have hgen : prGeneration (restoreGeneration pr g) = g :=
    prGeneration_of_field hlt (by rw [restoreGeneration_get? hobject,if_pos rfl])
  have hobservation : observation lib (restoreGeneration pr g) =
      .obj [("generation",nat g),("version",.str (digest lib (feedbackInputs pr)))] := by
    rw [observation,hgen,restoreGeneration_inputs hobject]
  refine ⟨ps,restoreGeneration pr g,hrow,⟨?_,?_,?_,?_,recorded_twice _ _ _⟩,?_⟩
  · unfold restoreGeneration
    split
    · exact isObject_set (.inr hobject) _ _
    · cases pr <;> simp_all [Json.isObject,Json.remove]
  · rw [restoreGeneration_get hobject g (by decide)]
    exact hurl
  · rwa [hgen]
  · rw [hgen]
    exact restoreGeneration_twice _ _
  · unfold recorded
    rw [hobservation]

/-- A row with feedback recorded is observed again without a change. -/
theorem Observed.again {j : Journal} {n : ℕ} {url : String} {ps : Row} (hj : j.Objects)
    (hps : journalPacket j n = .ok ps) (hrow : j.row n = ps.json)
    (hput : j.packets.set (toString n) ps.json = j.packets)
    (hrecord : j.prs.set url (j.pr url) = j.prs) (h : Observed lib url ps (j.pr url)) :
    observeFeedback lib n j url = .ok j := by
  have hget : j.prs.get? url = some (j.pr url) := get?_of_still hj.2 hrecord
  have hidentified : identified j.prs url = .ok (j.pr url) := by
    unfold identified addressed
    simp only [hget,Option.getD_some,h.object,not_true_eq_false,if_false,
      Run.get?_of_get h.address,Option.isNone_some,Bool.false_eq_true]
    exact if_neg (not_not.mpr h.address)
  have hgeneration : feedbackGeneration (j.row n) url (digest lib (feedbackInputs (j.pr url))) =
      .ok (prGeneration (j.pr url)) := by
    refine Run.feedbackGeneration_same h.bounded ?_
    rw [hrow,Row.json_get,← h.noted,recorded_get,Json.get_set (.inr (objectOr_isObject _)),if_pos rfl]
    rfl
  have hnoted := h.noted
  unfold Orchestration.recorded observation at hnoted
  unfold observeFeedback
  simp only [hidentified,hgeneration,bind,Except.bind,h.restored,hrecord,hps,hnoted]
  unfold Journal.put
  rw [hput]

/-- The feedback of `u` is on record in the journal. -/
def Journal.Observed (lib : Library) (n : ℕ) (j : Journal) (u : String) : Prop :=
  ∃ ps, j.row n = ps.json ∧ Orchestration.Observed lib u ps (j.pr u)

theorem observeFeedback_step {n : ℕ} {j j' : Journal} {url : String}
    (hj : j.Objects ∧ (j.slot n).isSome = true) (h : observeFeedback lib n j url = .ok j') :
    (j'.Objects ∧ (j'.slot n).isSome = true) ∧ j'.Observed lib n url ∧
      ∀ u ≠ url, j.Observed lib n u → j'.Observed lib n u := by
  obtain ⟨ps,pr,hrow,hobserved,rfl⟩ := observeFeedback_writes hj.1 hj.2 h
  have hprs : (j.prs.set url pr).isObject = true := isObject_set (.inr hj.1.2) _ _
  have hobjects : Journal.Objects { j with prs := j.prs.set url pr } := ⟨hj.1.1,hprs⟩
  have hrow' : ∀ r, (Journal.put { j with prs := j.prs.set url pr } n r).row n = r.json := fun r => by
    rw [Journal.row_put hobjects,if_pos rfl]
  refine ⟨⟨Journal.objects_put hobjects n _,?_⟩,⟨_,hrow' _,?_⟩,fun u hu hother => ?_⟩
  · rw [Journal.slot_put hobjects,if_pos rfl]
    rfl
  · rw [Journal.pr,Journal.prs_put,Json.get_set (.inr hj.1.2),if_pos rfl]
    exact hobserved
  · obtain ⟨ps',hrow'',hother⟩ := hother
    obtain rfl := Row.ext_json (hrow.symm.trans hrow'')
    refine ⟨_,hrow' _,?_⟩
    rw [Journal.pr,Journal.prs_put,get_set_ne _ _ hu]
    exact hother.recorded hu

/-- After the feedback of an owner is observed, all of it is on record. -/
theorem observeFeedback_observed {n : ℕ} {urls : List String} {j j' : Journal} (hj : j.Objects)
    (hslot : (j.slot n).isSome = true) (h : urls.foldlM (observeFeedback lib n) j = .ok j') :
    (j'.Objects ∧ (j'.slot n).isSome = true) ∧ ∀ u ∈ urls, j'.Observed lib n u := by
  refine foldlM_establishes (I := fun j => j.Objects ∧ (j.slot n).isSome = true)
    (R := fun u j => j.Observed lib n u) ⟨hj,hslot⟩ ?_ ?_ h
  · intro s t url _ hs ht
    have hstep := observeFeedback_step hs ht
    exact ⟨hstep.1,hstep.2.1⟩
  · intro s t url _ u _ hs hu ht
    have hstep := observeFeedback_step hs ht
    by_cases hne : u = url
    · rw [hne]
      exact hstep.2.1
    · exact hstep.2.2 u hne hu

/-! ## Progress derived twice -/

/-- The record with its derived fields, as a refresh leaves it. -/
def revised (lib : Library) (p : Packet) (src : Sources) (d : String) (ps : Row) (items : List Json)
    (url : String) (pr : Json) : Json :=
  let item := (items.find? fun item => item.get "url" = .str url).getD .null
  let pr := pr.set "progress" (progress lib pr item)
  let pr := pr.set "classification" ((pr.get "progress").get "stage")
  let complete := src.complete &&
    ((ps.get "auditedFeedback").get url).asStr = some (feedbackVersion lib pr) &&
    (p.dependencies = [] || ((ps.get "auditedDependencies").get url).asStr = some d)
  pr.set "progress" ((pr.get "progress").set "auditComplete" (.bool complete))

section Revised
variable {d : String} {ps : Row} {items : List Json} {url : String}

theorem reviseProgress_eq (prs : Json) (url : String) :
    reviseProgress lib p src d ps items prs url =
      prs.set url (revised lib p src d ps items url (prs.get url)) := rfl

theorem revised_writes (pr : Json) :
    Json.Writes ["progress","classification"] pr (revised lib p src d ps items url pr) :=
  ((Json.Writes.refl.set _ _ (by simp)).set _ _ (by simp)).set _ _ (by simp)

theorem progress_alike {a b : Json} (h : Alike a b) (item : Json) :
    progress lib a item = progress lib b item := by
  have hread : ∀ k ∈ ["state","head","base","draft","unresolvedCodex","checks"], a.get k = b.get k := by
    intro k hk
    refine h.get ?_ ?_
    · rintro rfl
      simp at hk
    · rintro rfl
      simp at hk
  unfold progress stage checkpointed
  rw [h.closed,hread "state" (by simp),hread "head" (by simp),hread "base" (by simp),
    hread "draft" (by simp),hread "unresolvedCodex" (by simp),hread "checks" (by simp)]

/-- The derived fields depend on the others only. -/
theorem revised_eq {pr r : Json} (hr : r.isObject = true) (h : Alike r pr) :
    revised lib p src d ps items url r =
      let stage := progress lib pr ((items.find? fun item => item.get "url" = .str url).getD .null)
      ((r.set "progress" stage).set "classification" (stage.get "stage")).set "progress"
        (stage.set "auditComplete" (.bool (src.complete &&
          ((ps.get "auditedFeedback").get url).asStr = some (feedbackVersion lib pr) &&
          (p.dependencies = [] || ((ps.get "auditedDependencies").get url).asStr = some d)))) := by
  have hstage : ∀ x : Json, (r.set "progress" x).get "progress" = x := fun x => by
    rw [Json.get_set (.inr hr),if_pos rfl]
  have hstage' : ∀ x y : Json, ((r.set "progress" x).set "classification" y).get "progress" = x :=
    fun x y => by rw [get_set_ne _ _ (by decide),hstage]
  have hversion : ∀ x y : Json, feedbackVersion lib ((r.set "progress" x).set "classification" y) =
      feedbackVersion lib pr := fun x y => by
    refine Alike.feedbackVersion fun k h₁ h₂ => ?_
    rw [get?_set_ne _ _ h₂,get?_set_ne _ _ h₁,h k h₁ h₂]
  unfold revised
  simp only [hstage,hstage',hversion,progress_alike h]

theorem revised_twice {pr : Json} (hpr : pr.isObject = true) :
    revised lib p src d ps items url (revised lib p src d ps items url pr) =
      revised lib p src d ps items url pr := by
  have halike : Alike (revised lib p src d ps items url pr) pr := fun k h₁ h₂ =>
    (revised_writes pr).get? (by simp [h₁,h₂])
  rw [revised_eq ((revised_writes pr).isObject hpr) halike]
  rw [revised_eq hpr (fun _ _ _ => rfl)]
  dsimp only
  generalize progress lib pr _ = stage
  generalize Json.bool _ = complete
  -- the classification stands already, so only the progress is assigned to, and as before
  have hclass : (((pr.set "progress" stage).set "classification" (stage.get "stage")).set "progress"
      (stage.set "auditComplete" complete)).set "classification" (stage.get "stage") = _ :=
    Json.set_still _ (by decide) (Json.set_twice _ _ _ _)
  rw [Json.set_still _ (by decide) hclass,Json.set_twice,Json.set_twice]

theorem reviseProgress_twice {prs : Json} (hprs : prs.isObject = true)
    (hpr : (prs.get url).isObject = true) :
    reviseProgress lib p src d ps items (reviseProgress lib p src d ps items prs url) url =
      reviseProgress lib p src d ps items prs url := by
  rw [reviseProgress_eq (reviseProgress lib p src d ps items prs url)]
  rw [reviseProgress_eq,Json.get_set (.inr hprs),if_pos rfl,revised_twice hpr,Json.set_twice]

/-- Revising other records leaves a revised one revised. -/
theorem reviseProgress_other {prs : Json} {url' : String} (hne : url ≠ url')
    (h : reviseProgress lib p src d ps items prs url = prs) :
    reviseProgress lib p src d ps items (reviseProgress lib p src d ps items prs url') url =
      reviseProgress lib p src d ps items prs url' := by
  rw [reviseProgress_eq] at h
  rw [reviseProgress_eq (reviseProgress lib p src d ps items prs url')]
  rw [reviseProgress_eq prs url',get_set_ne _ _ hne]
  exact Json.set_still _ hne h

/-- After the records of an owner are revised, each is. -/
theorem foldl_reviseProgress {urls : List String} {prs : Json} (hprs : prs.isObject = true)
    (hpr : ∀ u ∈ urls, (prs.get u).isObject = true) : ∀ u ∈ urls,
      reviseProgress lib p src d ps items (urls.foldl (reviseProgress lib p src d ps items) prs) u =
        urls.foldl (reviseProgress lib p src d ps items) prs := by
  have hstill : ∀ (urls : List String) {prs : Json} {u : String}, prs.isObject = true →
      (prs.get u).isObject = true → reviseProgress lib p src d ps items prs u = prs →
      reviseProgress lib p src d ps items (urls.foldl (reviseProgress lib p src d ps items) prs) u =
        urls.foldl (reviseProgress lib p src d ps items) prs := by
    intro urls
    induction urls with
    | nil => exact fun _ _ h => h
    | cons a urls ih =>
      intro prs u hprs hpr h
      have hprs' : (reviseProgress lib p src d ps items prs a).isObject = true :=
        isObject_set (.inr hprs) _ _
      refine ih hprs' ?_ ?_
      · rw [reviseProgress_eq,Json.get_set (.inr hprs)]
        split
        · rename_i hu
          subst hu
          exact (revised_writes _).isObject hpr
        · exact hpr
      · by_cases hne : u = a
        · subst hne
          exact reviseProgress_twice hprs hpr
        · exact reviseProgress_other hne h
  induction urls generalizing prs with
  | nil => exact fun u hu => nomatch hu
  | cons a urls ih =>
    have hprs' : (reviseProgress lib p src d ps items prs a).isObject = true :=
      isObject_set (.inr hprs) _ _
    have hpr' : ∀ u, (prs.get u).isObject = true →
        ((reviseProgress lib p src d ps items prs a).get u).isObject = true := by
      intro u hu
      rw [reviseProgress_eq,Json.get_set (.inr hprs)]
      split
      · rename_i heq
        subst heq
        exact (revised_writes _).isObject hu
      · exact hu
    intro u hu
    rcases List.mem_cons.mp hu with rfl | hu
    · exact hstill urls hprs' (hpr' u (hpr u (by simp))) (reviseProgress_twice hprs (hpr u (by simp)))
    · exact ih hprs' (fun u hu => hpr' u (hpr u (by simp [hu]))) u hu

theorem foldl_reviseProgress_writes (urls : List String) (prs : Json) :
    Json.Writes urls prs (urls.foldl (reviseProgress lib p src d ps items) prs) := by
  have hall : ∀ (us : List String) {w : Json}, us ⊆ urls → Json.Writes urls prs w →
      Json.Writes urls prs (us.foldl (reviseProgress lib p src d ps items) w) := by
    intro us
    induction us with
    | nil => exact fun _ h => h
    | cons u us ih =>
      intro w hsub h
      exact ih (fun v hv => hsub (by simp [hv])) (h.set u _ (hsub (by simp)))
  exact hall urls (List.Subset.refl _) .refl

theorem foldl_revised {urls : List String} {prs : Json} (hprs : prs.isObject = true) (u : String) :
    Json.Writes ["progress","classification"] (prs.get u)
      ((urls.foldl (reviseProgress lib p src d ps items) prs).get u) := by
  induction urls generalizing prs with
  | nil => exact .refl
  | cons a urls ih =>
    have hprs' : (reviseProgress lib p src d ps items prs a).isObject = true :=
      isObject_set (.inr hprs) _ _
    refine Json.Writes.trans ?_ (ih hprs')
    rw [reviseProgress_eq,Json.get_set (.inr hprs)]
    split
    · rename_i hu
      rw [hu]
      exact revised_writes _
    · exact .refl

end Revised

/-! ## The checks of a refreshed row -/

theorem checkRow_iff {n : ℕ} {r : Row} : checkRow n r.json = .ok r ↔ validGeneration r = true ∧
    (∀ key ∈ ["auditedFeedback","auditedCheckpoints","auditedDependencies","feedbackObservations"],
      (r.get key).Assignable) ∧
    ((r.get "feedbackObservations").asObject.getD []).all (fun f => validObservation f.2) = true ∧
    ((r.get "pending").isNull || validPending (r.get "pending")) = true := by
  have hassignable : ∀ v : Json, v.Assignable ↔ (v.isNull || v.isObject) = true := by
    intro v
    cases v <;> simp [Assignable,isNull,isObject]
  have hmaps : (["auditedFeedback","auditedCheckpoints","auditedDependencies",
      "feedbackObservations"].find? fun key => !((r.get key).isNull || (r.get key).isObject)) = none ↔
      ∀ key ∈ ["auditedFeedback","auditedCheckpoints","auditedDependencies","feedbackObservations"],
        (r.get key).Assignable := by
    rw [List.find?_eq_none]
    refine forall₂_congr fun key _ => ?_
    rw [hassignable]
    cases (r.get key).isNull <;> cases (r.get key).isObject <;> simp
  unfold checkRow Row.json
  dsimp only
  constructor
  · intro h
    obtain ⟨⟨⟩,hgeneration,h⟩ := bind_ok h
    split at h
    · cases h
    · rename_i hfind
      obtain ⟨⟨⟩,hobservations,h⟩ := bind_ok h
      obtain ⟨⟨⟩,hpending,h⟩ := bind_ok h
      exact ⟨require_ok hgeneration,hmaps.mp hfind,require_ok hobservations,require_ok hpending⟩
  · rintro ⟨hgeneration,hfind,hobservations,hpending⟩
    have hfind := hmaps.mpr hfind
    simp only [require,hgeneration,if_true,bind,Except.bind]
    rw [hfind]
    simp only [hobservations,hpending,if_true]

/-- The maps of audits are `null` or objects. -/
def Maps (ps : Row) : Prop := ∀ key ∈ itemKeys, (ps.get key).Assignable

theorem Maps.writes {keys : List String} {ps q : Row} (h : Maps ps) (hw : Row.Writes keys ps q)
    (hkeys : ∀ key ∈ itemKeys, key ∉ keys) : Maps q := by
  intro key hkey
  rw [hw.get (hkeys key hkey)]
  exact h key hkey

theorem Maps.set {ps : Row} (h : Maps ps) (k : String) {v : Json} (hv : v.Assignable) :
    Maps (ps.set k v) := by
  intro key hkey
  rw [Row.get_set]
  split
  · exact hv
  · exact h key hkey

theorem Maps.audited {ps : Row} (h : Maps ps) (url : String) (v : Json) (d : String) :
    Maps (audited ps url v d) :=
  (h.set _ (.inr (isObject_set (h _ (by decide)) _ _))).set _
    (.inr (isObject_set (objectOr_assignable _) _ _))

theorem acceptItem_maps {d : String} {report pr : Json} {ps ps' : Row} (hps : Maps ps)
    (h : acceptItem lib src d report ps pr = .ok ps') : Maps ps' := by
  rcases acceptItem_cases h with ⟨rfl,-⟩ | ⟨item,url,-,-,rfl⟩
  · exact hps
  · exact (hps.set _ (.inr (isObject_set (hps _ (by decide)) _ _))).audited _ _ _

theorem acceptReport_maps {d o : String} {given : Option Json} {ps ps' : Row} (hps : Maps ps)
    (h : acceptReport lib p src d o given ps = .ok ps') : Maps ps' := by
  unfold acceptReport at h
  split at h
  · obtain rfl := Except.ok.inj h
    exact hps
  · rename_i report
    obtain ⟨-,-,h⟩ := bind_ok h
    obtain ⟨-,-,h⟩ := bind_ok h
    obtain ⟨-,-,h⟩ := bind_ok h
    split at h
    · have hadopt : Row.Writes ["workerStatus","waitingReportPending","progressVersion"] ps
          (adoptReport lib src report ps) := by
        unfold adoptReport
        dsimp only
        have htwo := ((Row.Writes.refl ["workerStatus","waitingReportPending","progressVersion"]
          ps).set (k := "workerStatus") report (by decide)).set (k := "waitingReportPending")
            (.bool (report.get "status" = .str "waiting")) (by decide)
        split
        · exact htwo.set _ (by decide)
        · exact htwo
      exact foldlM_keeps (P := Maps) (hps.writes hadopt (by decide))
        (fun _ _ _ _ hs ht => acceptItem_maps hs ht) h
    · obtain rfl := Except.ok.inj h
      exact hps

theorem acceptAudit_maps {d : String} {given : Option Json} {ps ps' : Row} (hps : Maps ps)
    (h : acceptAudit lib p src d given ps = .ok ps') : Maps ps' := by
  unfold acceptAudit at h
  split at h
  · obtain rfl := Except.ok.inj h
    exact hps
  · obtain ⟨-,-,h⟩ := bind_ok h
    refine foldlM_keeps (P := Maps) hps (fun s t item _ hs ht => ?_) h
    rcases acceptAuditItem_cases ht with ⟨rfl,-⟩ | ⟨url,-,-,rfl⟩
    · exact hs
    · exact hs.audited _ _ _

theorem RowSteps.maps {ps ps' : Row} {d : String} (s : RowSteps lib policy inputs p src ps ps' d)
    (h : Maps ps) : Maps ps' := by
  have hobserved : Maps s.observed := by
    intro key hkey
    obtain ⟨hyes,hno⟩ := observeEvidence_audits s.evidence
    by_cases hD : key = "auditedDependencies"
    · subst hD
      cases hc : src.complete with
      | true =>
        rw [hyes hc,Row.get_set,if_neg (by decide)]
        exact h _ hkey
      | false =>
        rw [hno hc]
        exact assignable_obj []
    · rw [s.writes_observed.get]
      · exact h key hkey
      · simp only [itemKeys,List.mem_cons,List.not_mem_nil,or_false] at hkey
        rcases hkey with rfl | rfl | rfl
        · decide
        · decide
        · exact absurd rfl hD
  have hdelivered := hobserved.writes s.writes_delivered (by decide)
  have hreported := acceptReport_maps hdelivered s.report
  have hstamped := hreported.writes s.writes_stamped (by decide)
  have haudited := acceptAudit_maps hstamped s.audit
  exact haudited.writes s.writes_judged (by decide)

theorem validGeneration_iff {r : Row} : validGeneration r = true ↔
    (∀ v, r.get? "dependencyGeneration" = some v → v.asU64.isSome = true) ∧
    (∀ v, r.get? "dependencyEvidenceIncomplete" = some v → v.isBoolean = true) ∧
    (incomplete r.json → generationOf r.json ≠ 0) := by
  unfold validGeneration incomplete generationOf
  simp only [Bool.and_eq_true,Option.all_eq_true,Bool.not_eq_true',Bool.and_eq_false_imp,
    decide_eq_true_eq,decide_eq_false_iff_not,and_assoc]
  rfl

/-- The flag of incomplete evidence stands as the evidence has it. -/
theorem RowSteps.flag {ps ps' : Row} {d : String} (s : RowSteps lib policy inputs p src ps ps' d) :
    ps'.get? "dependencyEvidenceIncomplete" = some (.bool (!src.complete)) := by
  have hstill : s.observed.set "dependencyEvidenceIncomplete" (.bool (!src.complete)) = s.observed := by
    obtain ⟨hyes,hno⟩ := observeEvidence_still s.evidence
    cases hc : src.complete with
    | true => exact hyes hc
    | false => exact (hno hc).1
  rw [s.after_observed _ (by decide),← hstill,Row.get?_set,if_pos rfl]

theorem RowSteps.generation_valid {ps ps' : Row} {d : String}
    (s : RowSteps lib policy inputs p src ps ps' d) (h : validGeneration ps = true) :
    validGeneration ps' = true := by
  obtain ⟨hnumber,-,hstarted⟩ := validGeneration_iff.mp h
  refine validGeneration_iff.mpr ⟨(s.fields hnumber).2,fun v hv => ?_,fun hflag => ?_⟩
  · rw [s.flag] at hv
    obtain rfl := Option.some.inj hv
    rfl
  · have hcounts := s.counts.2
    cases hc : src.complete with
    | true => exact absurd hflag (hcounts.kept hc).2
    | false =>
      by_cases hi : incomplete ps.json
      · rw [hcounts.again hc hi]
        exact hstarted hi
      · rw [hcounts.bumped hc hi]
        exact Nat.succ_ne_zero _

/-- A refreshed row passes the checks that the row passed before. -/
theorem RowSteps.checked {ps ps' : Row} {d : String} {n : ℕ}
    (s : RowSteps lib policy inputs p src ps ps' d) (h : checkRow n ps.json = .ok ps) :
    checkRow n ps'.json = .ok ps' := by
  obtain ⟨hgeneration,hmaps,hobservations,hpending⟩ := checkRow_iff.mp h
  have hkept : ∀ k ∈ ["feedbackObservations","pending"], ps'.get k = ps.get k := by
    intro k hk
    refine s.writes.get ?_
    simp only [List.mem_cons,List.not_mem_nil,or_false] at hk
    rcases hk with rfl | rfl <;> decide
  have hitems : ∀ key ∈ itemKeys, key ∈ ["auditedFeedback","auditedCheckpoints",
      "auditedDependencies","feedbackObservations"] := by decide
  have hmaps' := s.maps fun key hkey => hmaps key (hitems key hkey)
  refine checkRow_iff.mpr ⟨?_,fun key hkey => ?_,?_,?_⟩
  · exact s.generation_valid hgeneration
  · simp only [List.mem_cons,List.not_mem_nil,or_false] at hkey
    rcases hkey with rfl | rfl | rfl | rfl
    · exact hmaps' _ (by decide)
    · exact hmaps' _ (by decide)
    · exact hmaps' _ (by decide)
    · rw [hkept _ (by simp)]
      exact hmaps _ (by simp)
  · rw [hkept _ (by simp)]
    exact hobservations
  · rw [hkept _ (by simp)]
    exact hpending

end Orchestration
end CanixToolbelt
