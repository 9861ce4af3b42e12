import CanixToolbelt.OrchestrationLegacy

/-! The follow-ups, prepare and acknowledge cannot make a refresh fail, as long as they stay
with the owners that the journal holds. -/
namespace CanixToolbelt
namespace Orchestration

open Fallible Json Canonical

variable {lib : Library} {policy : Policy} {inputs : Inputs}

/-! ## Rows that differ in their follow-up fields -/

section Rows
variable {p : Packet} {src : Sources} {d o : String} {feedback : String → String} {urls : List String}

theorem acceptItem_total (hsrc : src.Named lib feedback urls) {report pr : Json} (hpr : pr ∈ src.prs)
    (ps : Row) : ∃ ps', acceptItem lib src d report ps pr = .ok ps' := by
  obtain ⟨u,-,hu,-⟩ := hsrc pr hpr
  unfold acceptItem
  split
  · exact ⟨ps,rfl⟩
  · simp only [hu,asStr]
    split
    · exact ⟨_,rfl⟩
    · exact ⟨ps,rfl⟩

/-- Whether a report is refused does not depend on the row. -/
theorem acceptReport_total (hsrc : src.Named lib feedback urls) {report : Option Json} {ps ps' : Row}
    (h : acceptReport lib p src d o report ps = .ok ps') (q : Row) :
    ∃ q', acceptReport lib p src d o report q = .ok q' := by
  unfold acceptReport at h ⊢
  split at h
  · exact ⟨q,rfl⟩
  · obtain ⟨⟨⟩,hidentity,h⟩ := bind_ok h
    obtain ⟨⟨⟩,hurls,h⟩ := bind_ok h
    obtain ⟨⟨⟩,hstatus,-⟩ := bind_ok h
    simp only [hidentity,hurls,hstatus,bind,Except.bind]
    split
    · exact foldlM_total (fun pr hpr s => acceptItem_total hsrc hpr s) _
    · exact ⟨q,rfl⟩

theorem acceptAudit_total {audit : Option Json} {ps ps' : Row}
    (h : acceptAudit lib p src d audit ps = .ok ps') (q : Row) :
    ∃ q', acceptAudit lib p src d audit q = .ok q' := by
  unfold acceptAudit at h ⊢
  split at h
  · exact ⟨q,rfl⟩
  · obtain ⟨⟨⟩,hidentity,h⟩ := bind_ok h
    simp only [hidentity,bind,Except.bind]
    have hstep : ∀ (item : Json) (items : List Json) (s s' t : Row), True →
        acceptAuditItem lib p src d s item = .ok t →
        ∃ t', acceptAuditItem lib p src d s' item = .ok t' ∧ True := by
      intro item items s s' t _ hitem
      unfold acceptAuditItem at hitem ⊢
      by_cases hcurrent : auditCurrent lib p src d item = true
      · rw [if_pos hcurrent] at hitem ⊢
        cases hurl : (item.get "url").asStr with
        | none => simp [hurl] at hitem
        | some url =>
          by_cases hmatch : auditMatches lib src item url = true
          · exact ⟨_,if_pos hmatch,trivial⟩
          · exact ⟨_,if_neg hmatch,trivial⟩
      · exact ⟨_,if_neg hcurrent,trivial⟩
    obtain ⟨q',hq',-⟩ := foldlM_simulates (R := fun _ _ _ => True) hstep trivial h
    exact ⟨q',hq'⟩

theorem observeEvidence_same {complete : Bool} {ps ps' q : Row} {g : ℕ}
    (hkeeps : Row.Keeps followUpKeys ps q) (h : observeEvidence complete ps = .ok (ps',g)) :
    ∃ q', observeEvidence complete q = .ok (q',g) := by
  have hgen : generationOf q.json = generationOf ps.json := by
    unfold generationOf
    rw [Row.json_get,Row.json_get,hkeeps.get (by decide)]
  unfold observeEvidence at h ⊢
  rw [hkeeps.get (by decide),hgen]
  split at h
  · rename_i hc
    obtain ⟨-,rfl⟩ := Prod.mk.inj (Except.ok.inj h)
    simp [hc]
  · rename_i hc
    split at h
    · rename_i hflag
      obtain ⟨g',hbump,h⟩ := bind_ok h
      obtain ⟨-,rfl⟩ := Prod.mk.inj (Except.ok.inj h)
      simp [hc,hflag,hbump,bind,Except.bind]
    · rename_i hflag
      obtain ⟨-,rfl⟩ := Prod.mk.inj (Except.ok.inj h)
      simp [hc,hflag]

/-- A row is refreshed whenever one that differs in its follow-up fields is. -/
theorem refreshRow_total (hsrc : src.Named lib feedback urls) {ps ps' q : Row}
    (hkeeps : Row.Keeps followUpKeys ps q) (h : refreshRow lib policy inputs p src ps = .ok (ps',d)) :
    ∃ q', refreshRow lib policy inputs p src q = .ok (q',d) := by
  obtain ⟨s⟩ := refreshRow_steps h
  have hopen : Row.Keeps followUpKeys (ps.set "openPRs"
      (nat (src.prs.filter fun pr => pr.get "state" = .str "OPEN").length)) (q.set "openPRs"
        (nat (src.prs.filter fun pr => pr.get "state" = .str "OPEN").length)) := by
    intro k hk
    rw [Row.get?_set,Row.get?_set,hkeeps k hk]
  obtain ⟨observed,hobserved⟩ := observeEvidence_same hopen s.evidence
  have hversion := s.version
  obtain ⟨reported,hreported⟩ := acceptReport_total hsrc s.report
    (keepWaiting (bindProgress lib (bindDelivery observed)))
  obtain ⟨audited,haudited⟩ := acceptAudit_total s.audit (stampVersions lib
    (observationInputs lib policy p src s.generation) d
    (observationVersion lib policy p src s.generation) reported)
  refine ⟨judge lib p src d audited,?_⟩
  unfold observationVersion at hreported haudited
  simp only [refreshRow,hobserved,bind,Except.bind,← hversion,hreported,haudited]

end Rows

/-! ## Journals that differ in follow-up fields -/

/-- A request that a row may hold. -/
def PendingValid (r : Json) : Prop :=
  (r.get "pending").isNull = true ∨ validPending (r.get "pending") = true

/-- The owner `n` in two journals that differ in its follow-up fields; the second is one
that a refresh can read. -/
structure Similar (n : ℕ) (j j' : Journal) : Prop where
  objects : j'.Objects
  held : j'.slot n = none ∨ (j'.row n).isObject = true
  keeps : ∀ k ∉ followUpKeys, (j'.row n).get? k = (j.row n).get? k
  pending : PendingValid (j'.row n)
  status : validateReportUrls ((j'.row n).get "workerStatus") n = .ok ()

theorem checkRow_similar {n : ℕ} {v v' : Json} {ps : Row} (h : checkRow n v = .ok ps)
    (hobject : v'.isObject = true) (hkeeps : ∀ k ∉ followUpKeys, v'.get? k = v.get? k)
    (hpending : PendingValid v') : ∃ ps' : Row, checkRow n v' = .ok ps' ∧ v' = ps'.json := by
  obtain ⟨fs',rfl⟩ : ∃ fs', v' = .obj fs' := by cases v' <;> simp_all [isObject]
  refine ⟨⟨fs'⟩,?_,rfl⟩
  unfold checkRow at h ⊢
  split at h
  · rename_i fs
    have hget? : ∀ k ∉ followUpKeys, Row.get? ⟨fs'⟩ k = Row.get? ⟨fs⟩ k := hkeeps
    have hget : ∀ k ∉ followUpKeys, Row.get ⟨fs'⟩ k = Row.get ⟨fs⟩ k :=
      fun k hk => congrArg (Option.getD · Json.null) (hkeeps k hk)
    obtain ⟨⟨⟩,hgeneration,h⟩ := bind_ok h
    split at h
    · cases h
    · rename_i hfind
      obtain ⟨⟨⟩,hobservations,h⟩ := bind_ok h
      have hcheckKeys : ∀ key ∈ ["auditedFeedback","auditedCheckpoints","auditedDependencies",
          "feedbackObservations"], key ∉ followUpKeys := by decide
      have hmaps : ["auditedFeedback","auditedCheckpoints","auditedDependencies",
          "feedbackObservations"].find? (fun key => !((Row.get ⟨fs'⟩ key).isNull ||
            (Row.get ⟨fs'⟩ key).isObject)) = none := by
        refine List.find?_eq_none.mpr fun key hkey => ?_
        rw [hget key (hcheckKeys key hkey)]
        exact List.find?_eq_none.mp hfind key hkey
      have hvalid : validGeneration ⟨fs'⟩ = validGeneration ⟨fs⟩ := by
        simp only [validGeneration,hget? "dependencyGeneration" (by decide),
          hget? "dependencyEvidenceIncomplete" (by decide),hget "dependencyGeneration" (by decide),
          hget "dependencyEvidenceIncomplete" (by decide)]
      simp only [hvalid,hgeneration,hmaps,hget "feedbackObservations" (by decide),hobservations,
        bind,Except.bind]
      have hrequire : (require ((Row.get ⟨fs'⟩ "pending").isNull || validPending (Row.get ⟨fs'⟩ "pending"))
          s!"invalid pending request for {n}" : Except String Unit) = .ok () :=
        if_pos (by rw [Bool.or_eq_true]; exact hpending)
      simp only [hrequire]
  · cases h

theorem Similar.journalPacket {n : ℕ} {j j' : Journal} {ps : Row} (h : Similar n j j')
    (hps : journalPacket j n = .ok ps) :
    ∃ ps', journalPacket j' n = .ok ps' ∧ (j'.entry n).row n = ps'.json ∧
      Row.Keeps followUpKeys ps ps' := by
  obtain ⟨hobjects,hrow,-⟩ := journalPacket_ok hps
  have hobject : ((j'.entry n).row n).isObject = true := by
    rcases h.held with hnone | hobject
    · have hentry : (j'.entry n).row n = .obj [] := by
        unfold Journal.entry
        unfold Journal.slot at hnone
        rw [if_pos (by rw [h.objects.1,h.objects.2,hnone]; rfl)]
        simp [Journal.row,Json.get_set (assignable_of_isObject h.objects.1)]
      rw [hentry]
      rfl
    · have hsome : j'.slot n ≠ none := by
        intro hnone
        rw [show j'.row n = (j'.slot n).getD .null from rfl,hnone] at hobject
        cases hobject
      unfold Journal.slot at hsome
      unfold Journal.entry
      rwa [if_neg (by simpa using fun _ _ => hsome)]
  have hkeeps : ∀ k ∉ followUpKeys, ((j'.entry n).row n).get? k = ((j.entry n).row n).get? k := by
    intro k hk
    rw [Journal.entry_get?,Journal.entry_get?,h.keeps k hk]
  have hpending : PendingValid ((j'.entry n).row n) := by
    unfold PendingValid
    rw [Journal.entry_get]
    exact h.pending
  have hcheck : checkRow n ((j.entry n).row n) = .ok ps := by
    unfold Orchestration.journalPacket at hps
    rwa [if_neg (by simp [hobjects.1,hobjects.2])] at hps
  obtain ⟨ps',hps',hrow'⟩ := checkRow_similar hcheck hobject hkeeps hpending
  refine ⟨ps',?_,hrow',fun k hk => ?_⟩
  · unfold Orchestration.journalPacket
    rwa [if_neg (by simp [h.objects.1,h.objects.2])]
  · have hread := hkeeps k hk
    rw [hrow,hrow'] at hread
    exact hread

/-- Two journals before a refresh of an owner with the records `urls`. -/
structure Ready (n : ℕ) (urls : List String) (j j' : Journal) : Prop where
  similar : Similar n j j'
  records : ∀ u ∈ urls, j'.prs.get? u = j.prs.get? u

theorem identified_congr {prs prs' : Json} {url : String} (h : prs'.get? url = prs.get? url) :
    identified prs' url = identified prs url := by
  unfold identified
  rw [h]

/-- A row that is stored with equal new values stays similar. -/
theorem Similar.put {n : ℕ} {j j' : Journal} {ps ps' : Row} (h : Similar n j j') (hj : j.Objects)
    (hrow : ∀ k ∉ followUpKeys, ps'.json.get? k = ps.json.get? k) (hpending : PendingValid ps'.json)
    (hstatus : validateReportUrls (ps'.get "workerStatus") n = .ok ()) :
    Similar n (j.put n ps) (j'.put n ps') := by
  refine ⟨Journal.objects_put h.objects n ps',.inr ?_,fun k hk => ?_,?_,?_⟩
  · rw [Journal.row_put h.objects,if_pos rfl]
    rfl
  · rw [Journal.row_put h.objects,Journal.row_put hj,if_pos rfl,if_pos rfl]
    exact hrow k hk
  · rw [Journal.row_put h.objects,if_pos rfl]
    exact hpending
  · rw [Journal.row_put h.objects,if_pos rfl]
    exact hstatus

theorem observeFeedback_similar {n : ℕ} {url : String} {urls : List String} {j j' k : Journal}
    (h : Ready n urls j j') (hj : j.Objects) (hurl : url ∈ urls)
    (hk : observeFeedback lib n j url = .ok k) :
    ∃ k', observeFeedback lib n j' url = .ok k' ∧ k.Objects ∧ Ready n urls k k' := by
  obtain ⟨pr,hpr,hk⟩ := bind_ok hk
  obtain ⟨g,hg,hk⟩ := bind_ok hk
  obtain ⟨ps,hps,hk⟩ := bind_ok hk
  obtain rfl := Except.ok.inj hk
  have hget : ∀ k ∉ followUpKeys, (j'.row n).get k = (j.row n).get k :=
    fun k hk => congrArg (Option.getD · Json.null) (h.similar.keeps k hk)
  have hpr' : identified j'.prs url = .ok pr := by
    rw [identified_congr (h.records url hurl),hpr]
  have hg' : feedbackGeneration (j'.row n) url (digest lib (feedbackInputs pr)) = .ok g := by
    rw [← hg]
    exact feedbackGeneration_congr _ (by rw [hget _ (by decide)]) (hget _ (by decide))
  obtain ⟨hobjects,hread,-⟩ := journalPacket_ok hps
  -- the record is stored before the row is read again
  have hmid : Similar n { j with prs := j.prs.set url (restoreGeneration pr g) }
      { j' with prs := j'.prs.set url (restoreGeneration pr g) } := by
    refine ⟨⟨h.similar.objects.1,isObject_set (assignable_of_isObject h.similar.objects.2) _ _⟩,
      h.similar.held,h.similar.keeps,h.similar.pending,h.similar.status⟩
  obtain ⟨ps',hps',hrow',hkeeps⟩ := hmid.journalPacket hps
  obtain ⟨hobjects',-,hvalid'⟩ := journalPacket_ok hps'
  have hk' : observeFeedback lib n j' url = .ok (Journal.put
      ({ j' with prs := j'.prs.set url (restoreGeneration pr g) } : Journal) n
      (ps'.set "feedbackObservations" ((objectOr (ps'.get "feedbackObservations")).set url
        (.obj [("generation",nat g),("version",.str (digest lib (feedbackInputs pr)))])))) := by
    simp only [observeFeedback,hpr',hg',hps',bind,Except.bind]
  refine ⟨_,hk',Journal.objects_put hobjects _ _,?_⟩
  constructor
  · apply hmid.put hobjects
    · intro k hk
      have hsame : ps'.get "feedbackObservations" = ps.get "feedbackObservations" :=
        hkeeps.get (by decide)
      rw [hsame]
      exact (Row.get?_set _ _ _ _).trans ((congrArg _ (hkeeps k hk)).trans (Row.get?_set _ _ _ _).symm)
    · have hpending : PendingValid ps'.json := hvalid'.pending
      unfold PendingValid at hpending ⊢
      simpa using hpending
    · have hstatus := hmid.status
      rw [← Journal.entry_get _ n,hrow',Row.json_get] at hstatus
      simpa using hstatus
  · intro u hu
    rw [Journal.prs_put,Journal.prs_put,Json.get?_set (assignable_of_isObject h.similar.objects.2),
      Json.get?_set (assignable_of_isObject hj.2),h.records u hu]

theorem Similar.entry {n : ℕ} {j j' : Journal} (h : Similar n j j') :
    Similar n (j.entry n) (j'.entry n) := by
  refine ⟨Journal.objects_entry h.objects n,?_,fun k hk => ?_,?_,?_⟩
  · by_cases hnone : j'.slot n = none
    · right
      unfold Journal.slot at hnone
      unfold Journal.entry
      rw [if_pos (by rw [h.objects.1,h.objects.2,hnone]; rfl)]
      simp [Journal.row,Json.get_set (assignable_of_isObject h.objects.1),isObject]
    · unfold Journal.entry
      unfold Journal.slot at hnone
      rw [if_neg (by simpa using fun _ _ => hnone)]
      exact h.held
  · rw [Journal.entry_get?,Journal.entry_get?,h.keeps k hk]
  · unfold PendingValid
    rw [Journal.entry_get]
    exact h.pending
  · rw [Journal.entry_get]
    exact h.status

/-- An owner is refreshed whenever it is in a journal that differs in follow-up fields. -/
theorem refreshPacket_similar {p : Packet} {j j' k : Journal} (hnodup : p.prs.Nodup)
    (h : Ready p.number p.prs j j') (hk : refreshPacket lib policy inputs j p = .ok k) :
    ∃ k', refreshPacket lib policy inputs j' p = .ok k' := by
  obtain ⟨ps₀,hps₀,hk⟩ := bind_ok hk
  obtain ⟨i,hi,hk⟩ := bind_ok hk
  obtain ⟨ps,hps,hk⟩ := bind_ok hk
  obtain ⟨⟨r,d⟩,hr,hk⟩ := bind_ok hk
  obtain ⟨hobjects,-,-⟩ := journalPacket_ok hps₀
  obtain ⟨ps₀',hps₀',-,-⟩ := h.similar.journalPacket hps₀
  have hstart : (j.entry p.number).Objects ∧
      Ready p.number p.prs (j.entry p.number) (j'.entry p.number) := by
    refine ⟨Journal.objects_entry hobjects _,h.similar.entry,?_⟩
    intro u hu
    rw [Journal.prs_entry,Journal.prs_entry,h.records u hu]
  obtain ⟨i',hi',-,-,hready⟩ := foldlM_simulates (R := fun rest s s' => (∀ u ∈ rest, u ∈ p.prs) ∧
      s.Objects ∧ Ready p.number p.prs s s') (fun url rest s s' t hs ht => by
        obtain ⟨t',ht',hobjects',hready'⟩ :=
          observeFeedback_similar hs.2.2 hs.2.1 (hs.1 url (by simp)) ht
        exact ⟨t',ht',fun u hu => hs.1 u (by simp [hu]),hobjects',hready'⟩)
    ⟨fun _ hu => hu,hstart⟩ hi
  obtain ⟨ps',hps',hrow',hkeeps⟩ := hready.similar.journalPacket hps
  have hpass := observeFeedback_fold hstart.1 hnodup hi
  have hsrc : sources inputs p i' = sources inputs p i := by
    unfold sources
    congr 1
    refine List.map_congr_left fun u hu => ?_
    have hmem : u ∈ p.prs := (List.mem_insertionSort _).mp hu
    exact congrArg (Option.getD · Json.null) (hready.records u hmem)
  obtain ⟨r',hr'⟩ := refreshRow_total (sources_named inputs hpass.seen) hkeeps hr
  have hstatus : validateReportUrls (r'.get "workerStatus") p.number = .ok () := by
    obtain ⟨s⟩ := refreshRow_steps hr'
    apply s.status
    have hstatus := hready.similar.status
    rwa [← Journal.entry_get _ p.number,hrow',Row.json_get] at hstatus
  obtain ⟨items,hitems⟩ : ∃ items, reported p.number (sources inputs p i) r' = .ok items := by
    unfold reported
    dsimp only
    split
    · simp [hstatus,bind,Except.bind]
    · exact ⟨[],rfl⟩
  have hk' : refreshPacket lib policy inputs j' p = .ok ({ i'.put p.number r' with
      prs := (p.prs.foldl (reviseProgress lib p (sources inputs p i) d r' items) i'.prs) } : Journal) := by
    simp only [refreshPacket,hps₀',hi',hps',hsrc,hr',hitems,bind,Except.bind]
  exact ⟨_,hk'⟩

theorem Ready.congr {n : ℕ} {urls : List String} {s s' t t' : Journal} (h : Ready n urls s s')
    (hobjects : t'.Objects) (hslot : t.slot n = s.slot n) (hslot' : t'.slot n = s'.slot n)
    (hrecords : ∀ u ∈ urls, t.prs.get? u = s.prs.get? u)
    (hrecords' : ∀ u ∈ urls, t'.prs.get? u = s'.prs.get? u) : Ready n urls t t' := by
  have hrow := Journal.row_of_slot hslot
  have hrow' := Journal.row_of_slot hslot'
  refine ⟨⟨hobjects,?_,fun k hk => ?_,?_,?_⟩,fun u hu => ?_⟩
  · rw [hslot',hrow']
    exact h.similar.held
  · rw [hrow,hrow',h.similar.keeps k hk]
  · rw [hrow']
    exact h.similar.pending
  · rw [hrow']
    exact h.similar.status
  · rw [hrecords u hu,hrecords' u hu,h.records u hu]

theorem refreshPackets_similar {ps : List Packet} (hnumbers : (ps.map (·.number)).Nodup)
    (hurls : (ps.flatMap (·.prs)).Nodup) {j j' k : Journal}
    (h : ∀ p ∈ ps, Ready p.number p.prs j j')
    (hk : ps.foldlM (refreshPacket lib policy inputs) j = .ok k) :
    ∃ k', ps.foldlM (refreshPacket lib policy inputs) j' = .ok k' := by
  obtain ⟨k',hk',-⟩ := foldlM_simulates (R := fun (rest : List Packet) s s' =>
      (rest.map (·.number)).Nodup ∧ (rest.flatMap (·.prs)).Nodup ∧
        ∀ p ∈ rest, Ready p.number p.prs s s') (fun p rest s s' t hs ht => by
    obtain ⟨hnumbers,hurls,hready⟩ := hs
    rw [List.flatMap_cons,List.nodup_append'] at hurls
    rw [List.map_cons,List.nodup_cons] at hnumbers
    obtain ⟨t',ht'⟩ := refreshPacket_similar hurls.1 (hready p (by simp)) ht
    have hapart := (refreshPacket_ok hurls.1 ht).1
    have hapart' := (refreshPacket_ok hurls.1 ht').1
    refine ⟨t',ht',hnumbers.2,hurls.2.1,fun q hq => ?_⟩
    have hne : q.number ≠ p.number :=
      fun heq => hnumbers.1 (List.mem_map.mpr ⟨q,hq,heq⟩)
    have hother : ∀ u ∈ q.prs, u ∉ p.prs :=
      fun u hu hup => hurls.2.2 hup (List.mem_flatMap.mpr ⟨q,hq,hu⟩)
    exact (hready q (by simp [hq])).congr hapart'.objects (hapart.slots _ hne) (hapart'.slots _ hne)
      (fun u hu => hapart.records u (hother u hu)) fun u hu => hapart'.records u (hother u hu))
    ⟨hnumbers,hurls,h⟩ hk
  exact ⟨k',hk'⟩

/-- A journal after follow-ups on the owners it holds. -/
structure FollowsUp (j j' : Journal) : Prop where
  retained : j'.retained = j.retained
  prs : j'.prs = j.prs
  objects : j'.packets.isObject = j.packets.isObject
  keys : ∀ k : String, (j'.packets.get? k).isSome = (j.packets.get? k).isSome
  rows : ∀ n, (j.row n).isObject = true → (j'.row n).isObject = true
  keeps : ∀ n, ∀ k ∉ followUpKeys, (j'.row n).get? k = (j.row n).get? k
  pending : ∀ n, PendingValid (j.row n) → PendingValid (j'.row n)

theorem FollowsUp.refl (j : Journal) : FollowsUp j j :=
  ⟨rfl,rfl,rfl,fun _ => rfl,fun _ h => h,fun _ _ _ => rfl,fun _ h => h⟩

theorem FollowsUp.trans {i j k : Journal} (h : FollowsUp i j) (h' : FollowsUp j k) : FollowsUp i k where
  retained := h'.retained.trans h.retained
  prs := h'.prs.trans h.prs
  objects := h'.objects.trans h.objects
  keys l := (h'.keys l).trans (h.keys l)
  rows n hn := h'.rows n (h.rows n hn)
  keeps n l hl := (h'.keeps n l hl).trans (h.keeps n l hl)
  pending n hn := h'.pending n (h.pending n hn)

/-- What the operations keep of a journal that began empty. -/
structure Sound (j : Journal) : Prop where
  objects : j.packets.isObject = true
  fresh : j.retained = none → j.packets = .obj []
  rows : ∀ n, j.slot n = none ∨ ((j.row n).isObject = true ∧ Tidy n (j.row n))

/-- Whether the rows of a journal are in scope depends on their keys only. -/
theorem all_keys_congr {v w : Json} (hv : v.isObject = true) (hw : w.isObject = true)
    (hkeys : ∀ k : String, (w.get? k).isSome = (v.get? k).isSome) (P : String → Bool)
    (h : (v.asObject.getD []).all (fun f => P f.1) = true) :
    (w.asObject.getD []).all (fun f => P f.1) = true := by
  obtain ⟨fs,rfl⟩ : ∃ fs, v = .obj fs := by cases v <;> simp_all [isObject]
  obtain ⟨gs,rfl⟩ : ∃ gs, w = .obj gs := by cases w <;> simp_all [isObject]
  refine List.all_eq_true.mpr fun g hg => ?_
  have hmem : g.1 ∈ fs.map Prod.fst := by
    rw [mem_keys_iff]
    have hkey : (gs.lookup g.1).isSome = true := mem_keys_iff.mp (List.mem_map.mpr ⟨g,hg,rfl⟩)
    rw [← hkey]
    exact (hkeys g.1).symm
  obtain ⟨f,hf,hfg⟩ := List.mem_map.mp hmem
  rw [← hfg]
  exact List.all_eq_true.mp h f hf

/-- A refresh that succeeds has found the requests of its owners valid. -/
theorem refreshPackets_pending {m : Manifest} (hdistinct : m.Distinct) {j k : Journal}
    (hk : m.packets.foldlM (refreshPacket lib policy inputs) j = .ok k) {p : Packet}
    (hp : p ∈ m.packets) : PendingValid (j.row p.number) := by
  obtain ⟨before,after,u,v,hsplit,hu,hv,-⟩ := foldlM_mem hk hp
  have hother : ∀ q ∈ before, q.number ≠ p.number := by
    have hnodup := hdistinct.numbers
    rw [hsplit,List.map_append,List.map_cons,List.nodup_middle,List.nodup_cons] at hnodup
    intro q hq heq
    exact hnodup.1 (by rw [← heq]; exact List.mem_append_left _ (List.mem_map_of_mem hq))
  have hnodup : ∀ q ∈ before, q.prs.Nodup :=
    fun q hq => hdistinct.urls_nodup (by rw [hsplit]; exact List.mem_append_left _ hq)
  have hslot := (refreshPackets_apart hnodup hu).2.2.1 p.number hother
  obtain ⟨ps,hps,-⟩ := bind_ok hv
  obtain ⟨-,hrow,hvalid⟩ := journalPacket_ok hps
  have hpending : PendingValid ps.json := hvalid.pending
  rw [← hrow] at hpending
  unfold PendingValid at hpending ⊢
  rwa [Journal.entry_get,Journal.row_of_slot hslot] at hpending

/-- A refresh succeeds after follow-ups when it succeeds before them. -/
theorem refresh_similar {m : Manifest} {j j' k : Journal} (h : FollowsUp j j') (hj : Sound j)
    (hj' : Sound j') (hk : refresh lib m j policy inputs = .ok k) :
    ∃ k', refresh lib m j' policy inputs = .ok k' := by
  have hrefreshed := refresh_ok hk
  obtain ⟨⟨⟩,hchecks,hk⟩ := bind_ok hk
  obtain ⟨i,hi,hk⟩ := bind_ok hk
  obtain ⟨coverage,hcoverage,-⟩ := bind_ok hk
  obtain ⟨⟨⟩,hretained,hchecks⟩ := bind_ok hchecks
  obtain ⟨⟨⟩,hscope,himported⟩ := bind_ok hchecks
  have hscope := require_ok hscope
  simp only [inScope,Bool.and_eq_true] at hscope
  obtain ⟨⟨⟨hprs,hpackets⟩,hurls⟩,hnumbers⟩ := hscope
  have hobjects' : j'.Objects := ⟨by rw [h.objects,hpackets],by rw [h.prs,hprs]⟩
  have hadmits : admitManifest m j' = .ok () := by
    have hscope' : inScope m j' = true := by
      simp only [inScope,Bool.and_eq_true]
      refine ⟨⟨⟨hobjects'.2,hobjects'.1⟩,by rw [h.prs]; exact hurls⟩,?_⟩
      exact all_keys_congr hpackets hobjects'.1 h.keys
        (fun key => m.packets.any fun p => toString p.number = key) hnumbers
    have hrequire : (require (inScope m j') "manifest drops retained journal scope" :
        Except String Unit) = .ok () := if_pos hscope'
    have hretained' : validateRetained m j' = .ok () := by
      unfold validateRetained
      rw [h.retained]
      exact hretained
    simp only [admitManifest,hretained',hrequire,h.retained,bind,Except.bind]
    cases hr : j.retained with
    | some r => rfl
    | none =>
      -- nothing is retained yet, so both journals are still empty
      rw [hr] at himported
      have hempty : j'.packets = j.packets := by
        rw [hj.fresh hr,hj'.fresh (h.retained.trans hr)]
      have hsame : imported m j' = imported m j := by
        unfold imported
        rw [hempty,h.prs]
      exact hsame.trans himported
  have hready : ∀ p ∈ m.packets, Ready p.number p.prs j j' := by
    intro p hp
    refine ⟨⟨hobjects',?_,h.keeps _,?_,?_⟩,fun u _ => by rw [h.prs]⟩
    · exact (hj'.rows p.number).imp id And.left
    · exact h.pending _ (refreshPackets_pending hrefreshed.distinct hi hp)
    · rcases hj'.rows p.number with hnone | hrow
      · rw [show j'.row p.number = (j'.slot p.number).getD .null from rfl,hnone]
        rfl
      · exact hrow.2.status
  have hdistinct := hrefreshed.distinct
  obtain ⟨i',hi'⟩ := refreshPackets_similar hdistinct.numbers hdistinct.urls hready hi
  have hvalid : m.validate none = .ok () := validate_none.mpr hrefreshed.own
  obtain ⟨coverage',hcoverage'⟩ : ∃ c, m.coverage i'.prs = .ok c := by
    unfold Manifest.coverage
    rw [hvalid]
    exact ⟨_,rfl⟩
  have hk' : refresh lib m j' policy inputs =
      .ok { i' with retained := some (.ok m), coverage := some coverage' } := by
    simp only [refresh,hadmits,hi',hcoverage',bind,Except.bind]
  exact ⟨_,hk'⟩

/-! ## What the follow-ups leave -/

/-- Digests are spelled with hexadecimal digits. -/
def HexDigest (lib : Library) : Prop := ∀ s, ∀ c ∈ (lib.sha256 s).toList, hexDigit c = true

/-- The operations beside refresh and the collectors'. -/
def Operation.FollowUp : Operation → Prop
  | .observe _ => False
  | .refresh .. => False
  | _ => True

/-- A prepare or acknowledgement that finds its owner's row, or no records at all. -/
def Operation.Held (op : Operation) (j : Journal) : Prop :=
  match op with
  | .prepare p .. => j.prs.isObject = true → (j.slot p.number).isSome = true
  | .acknowledge n .. => j.prs.isObject = true → (j.slot n).isSome = true
  | _ => True

theorem Operation.FollowUp.keys {op : Operation} (h : op.FollowUp) (n : ℕ) :
    op.keys n ⊆ followUpKeys := by
  apply Operation.keys_followUp
  intro m policy inputs hop
  subst hop
  exact h

theorem Journal.entry_of_held {j : Journal} {n : ℕ} (h : j.prs.isObject = true → (j.slot n).isSome = true) :
    j.entry n = j := by
  unfold entry
  split
  · rename_i hnew
    simp only [Bool.and_eq_true] at hnew
    have hsome := h hnew.1.2
    rw [slot,Option.isNone_iff_eq_none.mp hnew.2] at hsome
    cases hsome
  · rfl

theorem Journal.slot_of_row {j : Journal} {n : ℕ} {fields : List (String × Json)}
    (h : j.row n = .obj fields) : j.slot n = some (.obj fields) := by
  have hread : (j.slot n).getD .null = .obj fields := h
  cases hslot : j.slot n with
  | none =>
    rw [hslot] at hread
    cases hread
  | some v =>
    rw [hslot] at hread
    exact congrArg some hread

/-- Storing a row that the journal holds, with new follow-up fields. -/
theorem Journal.put_followsUp {j : Journal} {n : ℕ} {fields : List (String × Json)} {ps : Row}
    (h : j.row n = .obj fields) (hkeeps : Row.Keeps followUpKeys ⟨fields⟩ ps)
    (hpending : PendingValid (.obj fields) → PendingValid ps.json) : FollowsUp j (j.put n ps) := by
  have hpackets := objects_of_row h
  have hslot := Journal.slot_of_row h
  constructor
  · rfl
  · rfl
  · rw [hpackets]
    exact isObject_set (assignable_of_isObject hpackets) _ _
  · intro k
    simp only [Journal.put,Json.get?_set (assignable_of_isObject hpackets)]
    split
    · rename_i hk
      unfold Journal.slot at hslot
      rw [hk,hslot]
      rfl
    · rfl
  · intro m hm
    rw [Journal.row_put_packets hpackets]
    split
    · rfl
    · exact hm
  · intro m k hk
    rw [Journal.row_put_packets hpackets]
    split
    · rename_i hm
      rw [hm,h]
      exact hkeeps k hk
    · rfl
  · intro m hm
    rw [Journal.row_put_packets hpackets]
    split
    · rename_i hmn
      rw [hmn,h] at hm
      exact hpending hm
    · exact hm

theorem Journal.mapRow_followsUp {j : Journal} {n : ℕ} {f : Row → Row} {keys : List String}
    (hf : ∀ ps, Row.Keeps keys ps (f ps)) (hkeys : keys ⊆ followUpKeys) (hno : "pending" ∉ keys) :
    FollowsUp j (j.mapRow n f) := by
  unfold Journal.mapRow
  split
  · rename_i fields hrow
    refine Journal.put_followsUp hrow (fun k hk => hf _ k fun hmem => hk (hkeys hmem)) fun hpending => ?_
    unfold PendingValid at hpending ⊢
    rw [Row.json_get,(hf ⟨fields⟩).get hno]
    exact hpending
  · exact .refl j

theorem hexDigit_alphanum {c : Char} (h : hexDigit c = true) : c.isAlphanum = true := by
  have hf : 'f'.val ≤ 'z'.val := by decide
  have hF : 'F'.val ≤ 'Z'.val := by decide
  simp only [hexDigit,Char.isAlphanum,Char.isAlpha,Char.isUpper,Char.isLower,Bool.or_eq_true,
    Bool.and_eq_true,decide_eq_true_eq] at h ⊢
  rcases h with (hdigit | ⟨hlow,hhigh⟩) | ⟨hlow,hhigh⟩
  · exact .inr hdigit
  · exact .inl (.inr ⟨hlow,UInt32.le_trans hhigh hf⟩)
  · exact .inl (.inl ⟨hlow,UInt32.le_trans hhigh hF⟩)

theorem messageId_identifier (hex : HexDigest lib) (v : Json) :
    identifier ("msg_" ++ short (digest lib v)) = true := by
  simp only [identifier,String.toList_append,List.all_append,Bool.and_eq_true]
  refine ⟨by decide,List.all_eq_true.mpr fun c hc => ?_⟩
  rw [short,String.toList_ofList] at hc
  simp [hexDigit_alphanum (hex _ c (List.mem_of_mem_take hc))]

/-- A fresh request is one that the journal accepts. -/
theorem prepareRow_pending (hex : HexDigest lib) {n : ℕ} {ps ps' : Row} {p : Packet} {text at_ : String}
    {body : Json} (htidy : Tidy n ps.json) (h : prepareRow lib ps p policy text at_ = .ok (ps',body))
    (hpending : PendingValid ps.json) : PendingValid ps'.json := by
  unfold prepareRow at h
  split at h
  · obtain ⟨rfl,-⟩ := Prod.mk.inj (Except.ok.inj h)
    exact hpending
  · obtain ⟨⟨⟩,-,h⟩ := bind_ok h
    obtain ⟨⟨⟩,hdurable,h⟩ := bind_ok h
    obtain ⟨g,-,h⟩ := bind_ok h
    obtain ⟨rfl,-⟩ := Prod.mk.inj (Except.ok.inj h)
    obtain ⟨hversion,hgoal,hat⟩ := require_ok hdurable
    have hobservation := htidy.observation
    have hprogress := htidy.progress
    rw [Row.json_get] at hobservation hprogress
    right
    rw [Row.json_get,enqueue_get]
    have hbody : ∀ (k : String) (x : Json), (k,x) ∈ [("id",Json.str ("msg_" ++ short (digest lib
        (messageInputs p policy (ps.get "version") g)))),
        ("metadata",object [("coordination",.str "native-campaign-v1"),("packet",nat p.number),
          ("eventVersion",ps.get "version")])] →
        (messageBody lib p policy (ps.get "version") g text).get k = x := by
      intro k x hx
      simp only [List.mem_cons,Prod.mk.injEq,List.not_mem_nil,or_false] at hx
      rcases hx with ⟨rfl,rfl⟩ | ⟨rfl,rfl⟩ <;> exact object_get (by simp) (by simp)
    generalize hb : messageBody lib p policy (ps.get "version") g text = b at hbody ⊢
    have hobject : b.isObject = true := by
      rw [← hb]
      exact isObject_object _
    have hevent : (b.get "metadata").get "eventVersion" = ps.get "version" := by
      rw [hbody "metadata" (object [("coordination",.str "native-campaign-v1"),("packet",nat p.number),
        ("eventVersion",ps.get "version")]) (by simp)]
      exact object_get (by simp) (by simp)
    set request := object [("version",ps.get "version"),("observationVersion",ps.get "observationVersion"),
      ("progressVersion",ps.get "progressVersion"),("goalPolicy",.str policy.goalPolicy),("body",b),
      ("preparedAt",.str at_)] with hrequest
    have hget : request.get "version" = ps.get "version" ∧ request.get "body" = b ∧
        request.get "observationVersion" = ps.get "observationVersion" ∧
        request.get "progressVersion" = ps.get "progressVersion" ∧
        request.get "goalPolicy" = .str policy.goalPolicy ∧ request.get "preparedAt" = .str at_ := by
      refine ⟨?_,?_,?_,?_,?_,?_⟩ <;> exact object_get (by simp) (by simp)
    obtain ⟨hv,hbd,ho,hp,hg,hpr⟩ := hget
    have hid := hbody "id" (.str ("msg_" ++ short (digest lib
      (messageInputs p policy (ps.get "version") g)))) (by simp)
    have hgoal' : nonempty (.str policy.goalPolicy) = true := by simp [nonempty,asStr,hgoal]
    have hat' : nonempty (.str at_) = true := by simp [nonempty,asStr,hat]
    have hid' : ((Json.str ("msg_" ++ short (digest lib
        (messageInputs p policy (ps.get "version") g)))).asStr).any
          (fun id => id ≠ "" && identifier id) = true := by
      simp [asStr,messageId_identifier hex]
    simp only [validPending,hbd,hv,ho,hp,hg,hpr,hid,hobject,hevent,hid',hgoal',hat',hversion,List.all_cons,
      List.all_nil,Bool.and_true,Bool.or_eq_true,Bool.and_eq_true,hobservation,hprogress,and_true]
    simp [hrequest,isObject_object]

theorem Sound.tidy {j : Journal} (h : Sound j) (n : ℕ) : Tidy n (j.row n) := by
  rcases h.rows n with hnone | hrow
  · rw [show j.row n = (j.slot n).getD .null from rfl,hnone]
    exact ⟨.inl rfl,.inl rfl,rfl⟩
  · exact hrow.2

theorem Tidy.congr {n : ℕ} {r r' : Json} (h : Tidy n r)
    (hkeeps : ∀ k ∉ followUpKeys, r'.get? k = r.get? k) : Tidy n r' := by
  have hget : ∀ k ∉ followUpKeys, r'.get k = r.get k :=
    fun k hk => congrArg (Option.getD · Json.null) (hkeeps k hk)
  refine ⟨?_,?_,?_⟩
  · rw [hget _ (by decide)]
    exact h.observation
  · rw [hget _ (by decide)]
    exact h.progress
  · rw [hget _ (by decide)]
    exact h.status

theorem FollowsUp.sound {j j' : Journal} (h : FollowsUp j j') (hj : Sound j) : Sound j' := by
  have hobjects : j'.packets.isObject = true := by rw [h.objects,hj.objects]
  refine ⟨hobjects,fun hretained => ?_,fun n => ?_⟩
  · have hempty := hj.fresh (h.retained.symm.trans hretained)
    obtain ⟨fs,hfs⟩ : ∃ fs, j'.packets = .obj fs := by
      generalize j'.packets = v at hobjects
      cases v <;> simp_all [isObject]
    cases fs with
    | nil => exact hfs
    | cons f fs =>
      have hkey := h.keys f.1
      rw [hfs,hempty] at hkey
      simp [Json.get?] at hkey
  · have hkey := h.keys (toString n)
    rcases hj.rows n with hnone | ⟨hobject,htidy⟩
    · left
      unfold Journal.slot at hnone ⊢
      rw [hnone] at hkey
      exact Option.not_isSome_iff_eq_none.mp (by rw [hkey]; decide)
    · exact .inr ⟨h.rows n hobject,htidy.congr (h.keeps n)⟩

/-- A follow-up of an owner that the journal holds changes its follow-up fields only. -/
theorem apply_followsUp (hex : HexDigest lib) {op : Operation} {j : Journal} (hj : Sound j)
    (hop : op.FollowUp) (hheld : op.Held j) : FollowsUp j (op.apply lib j) := by
  cases op with
  | observe prs => exact hop.elim
  | refresh m policy inputs => exact hop.elim
  | recheck n policy now =>
    exact Journal.mapRow_followsUp (scheduleRecheck_keeps policy now) (by decide) (by decide)
  | recover n idle now =>
    exact Journal.mapRow_followsUp (recordIdleRecovery_keeps idle now) (by decide) (by decide)
  | prepare p policy text at_ =>
    have hentry : j.entry p.number = j := Journal.entry_of_held hheld
    simp only [Operation.apply,prepare,hentry]
    split
    · exact .refl j
    · rename_i ps hps
      obtain ⟨-,hrow,-⟩ := journalPacket_ok hps
      rw [hentry] at hrow
      split
      · exact .refl j
      · rename_i ps' body hprepare
        have htidy : Tidy p.number ps.json := by
          rw [← hrow]
          exact hj.tidy p.number
        refine Journal.put_followsUp hrow (fun k hk => ?_) (prepareRow_pending hex htidy hprepare)
        have hkeys : ["admissionGeneration","pending"] ⊆ followUpKeys := by decide
        exact prepareRow_keeps hprepare k fun hmem => hk (hkeys hmem)
  | acknowledge n id at_ =>
    have hentry : j.entry n = j := Journal.entry_of_held hheld
    simp only [Operation.apply,acknowledge,hentry]
    split
    · exact .refl j
    · rename_i ps hps
      obtain ⟨-,hrow,-⟩ := journalPacket_ok hps
      rw [hentry] at hrow
      split
      · exact .refl j
      · refine Journal.put_followsUp hrow (fun k hk => ?_) fun _ => ?_
        · have hkeys : ["deliveredVersion","deliveredObservationVersion","deliveredAt",
            "deliveredPreparedAt","deliveredSubmissionAttemptAt","deliveredProgressVersion",
            "goalAckVersion","pending"] ⊆ followUpKeys := by decide
          exact deliver_keeps ps at_ k fun hmem => hk (hkeys hmem)
        · left
          simp [deliver,isNull]

/-- The journal of a new campaign. -/
def emptyJournal : Journal where
  retained := none
  prs := .obj []
  packets := .obj []

theorem emptyJournal_sound : Sound emptyJournal :=
  ⟨rfl,fun _ => rfl,fun _ => .inl rfl⟩

theorem refresh_sound {m : Manifest} {j j' : Journal} (hj : Sound j)
    (h : refresh lib m j policy inputs = .ok j') : Sound j' := by
  have hrefreshed := refresh_ok h
  refine ⟨hrefreshed.objects.1,fun hnone => ?_,fun n => ?_⟩
  · rw [hrefreshed.retained] at hnone
    cases hnone
  · by_cases hn : ∃ p ∈ m.packets, p.number = n
    · obtain ⟨p,hp,rfl⟩ := hn
      have howner := hrefreshed.owners p hp
      exact .inr ⟨howner.object,howner.tidy (hj.tidy _)⟩
    · have hslot := hrefreshed.slots n fun p hp heq => hn ⟨p,hp,heq⟩
      rw [hslot,Journal.row_of_slot hslot]
      exact hj.rows n

theorem apply_sound (hex : HexDigest lib) {op : Operation} {j : Journal} (hj : Sound j)
    (hheld : op.Held j) : Sound (op.apply lib j) := by
  by_cases hop : op.FollowUp
  · exact (apply_followsUp hex hj hop hheld).sound hj
  · cases op with
    | observe prs => exact ⟨hj.objects,hj.fresh,hj.rows⟩
    | refresh m policy inputs =>
      simp only [Operation.apply]
      split
      · rename_i j' hj'
        exact refresh_sound hj hj'
      · exact hj
    | recheck n policy now => exact absurd trivial hop
    | recover n idle now => exact absurd trivial hop
    | prepare p policy text at_ => exact absurd trivial hop
    | acknowledge n id at_ => exact absurd trivial hop

/-! ## Calls on an owner that the journal does not hold -/

theorem journalPacket_new {j : Journal} {n : ℕ} (hj : Sound j) (hprs : j.prs.isObject = true)
    (hnone : j.slot n = none) : journalPacket j n = .ok ⟨[]⟩ := by
  have hentry : (j.entry n).row n = .obj [] := by
    unfold Journal.slot at hnone
    unfold Journal.entry
    rw [if_pos (by rw [hj.objects,hprs,hnone]; rfl)]
    simp [Journal.row,Json.get_set (assignable_of_isObject hj.objects)]
  unfold journalPacket
  rw [if_neg (by simp [hj.objects,hprs]),hentry]
  rfl

theorem entry_new {j : Journal} {n : ℕ} (hj : Sound j) (hprs : j.prs.isObject = true)
    (hnone : j.slot n = none) : j.entry n ≠ j := by
  intro heq
  have hslot : (j.entry n).slot n = some (.obj []) := by
    unfold Journal.slot at hnone
    unfold Journal.entry
    rw [if_pos (by rw [hj.objects,hprs,hnone]; rfl)]
    simp [Journal.slot,Json.get?_set (assignable_of_isObject hj.objects)]
  rw [heq,hnone] at hslot
  cases hslot

theorem prepare_new (policy : Policy) (text at_ : String) {j : Journal} {p : Packet} (hj : Sound j)
    (hprs : j.prs.isObject = true) (hnone : j.slot p.number = none) :
    ∃ e, prepare lib j p policy text at_ = (.error e,j.entry p.number) := by
  have hrow : prepareRow lib ⟨[]⟩ p policy text at_ =
      .error "owner has no unadmitted event or continuation text is empty" := rfl
  simp only [prepare,journalPacket_new hj hprs hnone,hrow]
  exact ⟨_,rfl⟩

theorem acknowledge_new (id at_ : String) {j : Journal} {n : ℕ} (hj : Sound j)
    (hprs : j.prs.isObject = true) (hnone : j.slot n = none) :
    ∃ e, acknowledge j n id at_ = (.error e,j.entry n) := by
  simp only [acknowledge,journalPacket_new hj hprs hnone]
  exact ⟨_,rfl⟩

/-! ## Runs -/

namespace Run

/-- The step at `t` leaves the journal when it fails, and the follow-ups from `t` on leave
every refresh that succeeds at `t`. -/
structure Atomic (run : Run lib) (t : ℕ) : Prop where
  prepare : ∀ p policy text at_ e, run.op t = .prepare p policy text at_ →
    (Orchestration.prepare lib (run.state t) p policy text at_).1 = .error e →
      run.state (t+1) = run.state t
  acknowledge : ∀ n id at_ e, run.op t = .acknowledge n id at_ →
    (Orchestration.acknowledge (run.state t) n id at_).1 = .error e → run.state (t+1) = run.state t
  refresh : ∀ u, t ≤ u → (∀ v, t ≤ v → v < u → (run.op v).FollowUp) →
    ∀ m policy inputs k, Orchestration.refresh lib m (run.state t) policy inputs = .ok k →
      ∃ k', Orchestration.refresh lib m (run.state u) policy inputs = .ok k'

variable {run : Run lib}

theorem sound (hex : HexDigest lib) (hempty : run.state 0 = emptyJournal)
    {t : ℕ} (hheld : ∀ v < t, (run.op v).Held (run.state v)) : Sound (run.state t) := by
  induction t with
  | zero =>
    rw [hempty]
    exact emptyJournal_sound
  | succ t ih =>
    rw [run.step]
    exact apply_sound hex (ih fun v hv => hheld v (by omega)) (hheld t (by omega))

theorem followsUp (hex : HexDigest lib) (hempty : run.state 0 = emptyJournal)
    (hheld : ∀ v, (run.op v).Held (run.state v)) {t u : ℕ} (htu : t ≤ u)
    (hops : ∀ v, t ≤ v → v < u → (run.op v).FollowUp) : FollowsUp (run.state t) (run.state u) := by
  induction u, htu using Nat.le_induction with
  | base => exact .refl _
  | succ u htu ih =>
    have hstep : FollowsUp (run.state u) (run.state (u+1)) := by
      rw [run.step]
      exact apply_followsUp hex (sound hex hempty fun v _ => hheld v) (hops u htu (by omega)) (hheld u)
    exact (ih fun v hv hvu => hops v hv (by omega)).trans hstep

/-- A step that leaves the journal on failure has found its owner's row. -/
theorem Atomic.held {t : ℕ} (h : run.Atomic t) (hsound : Sound (run.state t)) :
    (run.op t).Held (run.state t) := by
  cases hop : run.op t with
  | observe prs => trivial
  | refresh m policy inputs => trivial
  | recheck n policy now => trivial
  | recover n idle now => trivial
  | prepare p policy text at_ =>
    intro hprs
    by_contra hno
    have hnone := Option.not_isSome_iff_eq_none.mp hno
    obtain ⟨e,he⟩ : ∃ e, Orchestration.prepare lib (run.state t) p policy text at_ = _ :=
      prepare_new policy text at_ hsound hprs hnone
    have hsame := h.prepare p policy text at_ e hop (by rw [he])
    rw [run.step,hop,Operation.apply,he] at hsame
    exact entry_new hsound hprs hnone hsame
  | acknowledge n id at_ =>
    intro hprs
    by_contra hno
    have hnone := Option.not_isSome_iff_eq_none.mp hno
    obtain ⟨e,he⟩ := acknowledge_new id at_ hsound hprs hnone
    have hsame := h.acknowledge n id at_ e hop (by rw [he])
    rw [run.step,hop,Operation.apply,he] at hsame
    exact entry_new hsound hprs hnone hsame

/-- From an empty journal, a failed prepare or acknowledgement leaves the journal, and no
follow-ups spoil a refresh, exactly when every prepare and acknowledgement is of an owner
whose row the journal holds. -/
theorem atomic_iff (hex : HexDigest lib) (hempty : run.state 0 = emptyJournal) :
    (∀ t, run.Atomic t) ↔ ∀ t, (run.op t).Held (run.state t) := by
  constructor
  · intro h t
    induction t using Nat.strong_induction_on with
    | _ t ih => exact (h t).held (sound hex hempty ih)
  · intro hheld t
    refine ⟨?_,?_,?_⟩
    · intro p policy text at_ e hop he
      have hentry : (run.state t).entry p.number = run.state t := by
        have h := hheld t
        rw [hop] at h
        exact Journal.entry_of_held h
      rw [run.step,hop]
      simp only [Operation.apply]
      unfold Orchestration.prepare at he ⊢
      split at he
      · exact hentry
      · split at he
        · exact hentry
        · cases he
    · intro n id at_ e hop he
      have hentry : (run.state t).entry n = run.state t := by
        have h := hheld t
        rw [hop] at h
        exact Journal.entry_of_held h
      rw [run.step,hop]
      simp only [Operation.apply]
      unfold Orchestration.acknowledge at he ⊢
      split at he
      · exact hentry
      · split at he
        · rename_i hid
          rw [if_pos hid]
          exact hentry
        · cases he
    · intro u htu hops m policy inputs k hk
      exact refresh_similar (followsUp hex hempty hheld htu hops) (sound hex hempty fun v _ => hheld v)
        (sound hex hempty fun v _ => hheld v) hk

end Run

/-! A new campaign of one owner. -/

/-- The digests of a campaign of one owner and of its first request. -/
def requestTable : List (String × String) :=
  [("\x7b\"comments\":null,\"head\":null,\"inlineComments\":null,\"issueComments\":null," ++
      "\"mergeCommit\":null,\"reviews\":null,\"state\":null,\"threads\":null," ++
      "\"url\":\"one\"\x7d",
      "cd32d4fe5cdd6531e6d4be543d99b8198ae13154a43c66a5cceafabe91b24b15"),
    ("\x7b\"evidence\":\x7b\x7d,\"producers\":[]\x7d",
      "12408370892d48ff113860a9fb4f74289a82c30f8a9a1dd05ef539c7a9d056d7"),
    ("\x7b\"url\":\"one\"\x7d",
      "e5071388c5d780fac966c08f3747886096717ca68dd2f8241c5c96a03d2edf29"),
    ("\x7b\"dependencies\":\x7b\x7d,\"goalPolicy\":\"goal-1\"," ++
      "\"prs\":[\"e5071388c5d780fac966c08f3747886096717ca68dd2f8241c5c96a03d2edf29\"]\x7d",
      "6538e434ae55aeaa5674a03725c8c7a8120bebc624616251d9a8ea1ce549ebf3"),
    ("\x7b\"dependencies\":\x7b\x7d,\"goalPolicy\":\"goal-1\",\"progressVersion\":null," ++
      "\"prs\":[\"e5071388c5d780fac966c08f3747886096717ca68dd2f8241c5c96a03d2edf29\"]\x7d",
      "62fcf6392ad17b585ede55a3b23aee2b7b06b8d70c8db50a67bc778d3676664d"),
    ("[\"ses_one\",\"62fcf6392ad17b585ede55a3b23aee2b7b06b8d70c8db50a67bc778d3676664d\"," ++
      "\"goal-1\",1]",
      "9f482a0b244a69e711d782cb00101cf0ab0fe3db6410211b4897bca4127d829b")]

def requestLibrary : Library :=
  { soloLibrary with sha256 := fun text => (requestTable.lookup text).getD "0" }

theorem requestLibrary_hex : HexDigest requestLibrary := by
  intro text c hc
  have htable : ∀ f ∈ requestTable, f.2.toList.all hexDigit = true := by decide +kernel
  cases htext : requestTable.lookup text with
  | none =>
    simp only [requestLibrary,htext,Option.getD_none] at hc
    exact List.all_eq_true.mp (by decide : "0".toList.all hexDigit = true) c hc
  | some hash =>
    simp only [requestLibrary,htext,Option.getD_some] at hc
    exact List.all_eq_true.mp (htable _ (mem_of_lookup htext)) c hc

def soloOwner : Packet := ⟨1,"ses_one","builder","Owner 1",["one"],[],[],[],∅⟩

/-- The owner is refreshed, prepared, wrongly acknowledged and acknowledged. -/
def newCampaign : ℕ → Operation
  | 0 => .refresh solo soloPolicy ⟨[],[],[]⟩
  | 1 => .prepare soloOwner soloPolicy "Continue" "now"
  | 2 => .acknowledge 1 "msg_other" "now"
  | 3 => .acknowledge 1 "msg_9f482a0b244a69e711d782cb00101cf0" "now"
  | _ => .recheck 1 soloPolicy 0

/-- An acknowledgement of an owner that the campaign does not have. -/
def strayCampaign : ℕ → Operation
  | 0 => .acknowledge 99 "msg_other" "now"
  | _ => .recheck 1 soloPolicy 0

theorem newCampaign_atomic : (Run.start requestLibrary emptyJournal newCampaign).Atomic 3 := by
  refine (Run.atomic_iff requestLibrary_hex rfl).mpr (fun t => ?_) 3
  match t with
  | 0 => trivial
  | 1 => exact fun _ => by decide +kernel
  | 2 => exact fun _ => by decide +kernel
  | 3 => exact fun _ => by decide +kernel
  | t+4 => trivial

/-- The stray acknowledgement fails and leaves an empty row, with which the refresh fails
that would have succeeded. -/
theorem strayCampaign_fails :
    (¬ ∀ run : Run requestLibrary, run.state 0 = emptyJournal → ∀ t, run.Atomic t) ∧
    (acknowledge emptyJournal 99 "msg_other" "now").1 =
      .error "acknowledgement does not match the exact pending input" ∧
    ((Run.start requestLibrary emptyJournal strayCampaign).state 1).slot 99 = some (.obj []) := by
  refine ⟨fun h => ?_,by decide +kernel,by decide +kernel⟩
  have hatomic := h (Run.start requestLibrary emptyJournal strayCampaign) rfl 0
  have hok : (refresh requestLibrary solo emptyJournal soloPolicy ⟨[],[],[]⟩).isOk = true := by
    decide +kernel
  have hfails : (refresh requestLibrary solo
      ((Run.start requestLibrary emptyJournal strayCampaign).state 1) soloPolicy ⟨[],[],[]⟩).isOk =
        false := by decide +kernel
  obtain ⟨k,hk⟩ := Run.exists_of_isOk hok
  obtain ⟨k',hk'⟩ := hatomic.refresh 1 (by omega) (fun v _ hv => by
    obtain rfl : v = 0 := by omega
    trivial) solo soloPolicy ⟨[],[],[]⟩ k hk
  rw [hk'] at hfails
  cases hfails

end Orchestration
end CanixToolbelt
