import CanixToolbelt.OrchestrationRefresh

/-! What a refresh does to the journal: one owner's part never touches another's. -/
namespace CanixToolbelt
namespace Orchestration

open Fallible Json Canonical

/-! ## Rows of the journal -/

theorem number_inj {n m : ℕ} (h : toString n = toString m) : n = m := by
  have hd : Nat.toDigits 10 n = Nat.toDigits 10 m := by
    rw [← Nat.toList_repr,← Nat.toList_repr]
    exact congrArg String.toList h
  rw [← Nat.ofDigitChars_toDigits (b := 10) (n := n) (by omega) (by omega),hd,
    Nat.ofDigitChars_toDigits (by omega) (by omega)]

namespace Journal

/-- The two maps of a journal are there. -/
def Objects (j : Journal) : Prop := j.packets.isObject = true ∧ j.prs.isObject = true

/-- The row as it is stored: `none` when the journal does not hold it. -/
def slot (j : Journal) (n : ℕ) : Option Json := j.packets.get? (toString n)

theorem row_of_slot {j j' : Journal} {n : ℕ} (h : j'.slot n = j.slot n) : j'.row n = j.row n :=
  congrArg (Option.getD · Json.null) h

theorem slot_put {j : Journal} (h : j.Objects) (n n' : ℕ) (r : Row) :
    (j.put n r).slot n' = if n' = n then some r.json else j.slot n' := by
  simp only [slot,put,Json.get?_set (assignable_of_isObject h.1)]
  by_cases hn : n' = n
  · simp [hn]
  · rw [if_neg hn,if_neg fun heq => hn (number_inj heq)]

theorem row_put {j : Journal} (h : j.Objects) (n n' : ℕ) (r : Row) :
    (j.put n r).row n' = if n' = n then r.json else j.row n' := by
  have hslot : (j.put n r).row n' = Option.getD _ Json.null :=
    congrArg (Option.getD · Json.null) (slot_put h n n' r)
  split
  · rename_i hn
    rw [if_pos hn] at hslot
    exact hslot
  · rename_i hn
    rw [if_neg hn] at hslot
    exact hslot

theorem objects_put {j : Journal} (h : j.Objects) (n : ℕ) (r : Row) : (j.put n r).Objects :=
  ⟨isObject_set (assignable_of_isObject h.1) _ _,h.2⟩

@[simp] theorem prs_put (j : Journal) (n : ℕ) (r : Row) : (j.put n r).prs = j.prs := rfl
@[simp] theorem retained_put (j : Journal) (n : ℕ) (r : Row) : (j.put n r).retained = j.retained := rfl

@[simp] theorem prs_entry (j : Journal) (n : ℕ) : (j.entry n).prs = j.prs := by
  unfold entry
  split <;> rfl

@[simp] theorem retained_entry (j : Journal) (n : ℕ) : (j.entry n).retained = j.retained := by
  unfold entry
  split <;> rfl

theorem objects_entry {j : Journal} (h : j.Objects) (n : ℕ) : (j.entry n).Objects := by
  unfold entry
  split
  · exact ⟨isObject_set (assignable_of_isObject h.1) _ _,h.2⟩
  · exact h

/-- An inserted row reads like the missing one. -/
theorem entry_get? (j : Journal) (n n' : ℕ) (k : String) :
    ((j.entry n).row n').get? k = (j.row n').get? k := by
  unfold entry
  split
  · rename_i h
    simp only [Bool.and_eq_true,Option.isNone_iff_eq_none] at h
    simp only [row,Json.get_set (assignable_of_isObject h.1.1)]
    split
    · rename_i heq
      rw [heq,Json.get,h.2]
      rfl
    · rfl
  · rfl

theorem entry_slot (j : Journal) {n n' : ℕ} (h : n' ≠ n) : (j.entry n).slot n' = j.slot n' := by
  unfold entry
  split
  · exact get?_set_ne _ _ fun heq => h (number_inj heq)
  · rfl

theorem entry_get (j : Journal) (n n' : ℕ) (k : String) :
    ((j.entry n).row n').get k = (j.row n').get k :=
  congrArg (Option.getD · Json.null) (entry_get? j n n' k)

end Journal

/-- What `journal_packet` has checked of a row. -/
structure Row.Valid (r : Row) : Prop where
  maps : ∀ key ∈ ["auditedFeedback","auditedCheckpoints","auditedDependencies",
    "feedbackObservations"], (r.get key).Assignable
  pending : (r.get "pending").isNull = true ∨ validPending (r.get "pending") = true
  generation : ∀ v, r.get? "dependencyGeneration" = some v → v.asU64.isSome = true

theorem checkRow_ok {n : ℕ} {v : Json} {r : Row} (h : checkRow n v = .ok r) :
    v = r.json ∧ r.Valid := by
  unfold checkRow at h
  split at h
  · obtain ⟨u,hgeneration,h⟩ := bind_ok h
    split at h
    · cases h
    · rename_i hfind
      obtain ⟨-,-,h⟩ := bind_ok h
      obtain ⟨u',hpending,h⟩ := bind_ok h
      obtain rfl := Except.ok.inj h
      have hvalid := require_ok hgeneration
      simp only [validGeneration,Bool.and_eq_true] at hvalid
      refine ⟨rfl,fun key hkey => ?_,by simpa using require_ok hpending,fun v hv => ?_⟩
      rotate_left
      · simpa [hv] using hvalid.1.1
      have hmap := List.find?_eq_none.mp hfind key hkey
      generalize Row.get _ key = x at hmap ⊢
      cases x <;> simp_all [isNull,isObject,Assignable]
  · cases h

theorem journalPacket_ok {j : Journal} {n : ℕ} {ps : Row} (h : journalPacket j n = .ok ps) :
    j.Objects ∧ (j.entry n).row n = ps.json ∧ ps.Valid := by
  unfold journalPacket at h
  split at h
  · cases h
  · rename_i hobjects
    have hobjects' : j.Objects := by simpa [Journal.Objects,not_or] using hobjects
    exact ⟨hobjects',checkRow_ok h⟩

/-! ## Feedback -/

variable {lib : Library}

/-- The generation that a record carries. -/
def prGeneration (pr : Json) : ℕ := (pr.get "feedbackGeneration").asU64.getD 0

/-- What a record must hold for its generation to be the journal's. -/
def generationField (g : ℕ) : Option Json := if 0 < g then some (nat g) else none

theorem prGeneration_of_field {pr : Json} {g : ℕ} (hg : g < 2^64)
    (h : pr.get? "feedbackGeneration" = generationField g) : prGeneration pr = g := by
  unfold generationField at h
  unfold prGeneration Json.get
  rw [h]
  split
  · simp [asU64_nat hg]
  · simp [asU64]
    omega

/-- Records that read alike outside the fields a refresh derives. -/
def Alike (a b : Json) : Prop := ∀ k, k ≠ "progress" → k ≠ "classification" → a.get? k = b.get? k

theorem Alike.get {a b : Json} (h : Alike a b) {k : String} (h₁ : k ≠ "progress")
    (h₂ : k ≠ "classification") : a.get k = b.get k :=
  congrArg (Option.getD · Json.null) (h k h₁ h₂)

theorem Alike.feedbackInputs {a b : Json} (h : Alike a b) : feedbackInputs a = feedbackInputs b := by
  unfold Orchestration.feedbackInputs
  congr 1
  apply List.map_congr_left
  intro k hk
  rw [h.get (by rintro rfl; simp at hk) (by rintro rfl; simp at hk)]

theorem Alike.feedbackVersion {a b : Json} (h : Alike a b) :
    feedbackVersion lib a = feedbackVersion lib b := by
  unfold Orchestration.feedbackVersion
  rw [h.feedbackInputs,h.get (by decide) (by decide)]

theorem Alike.closed {a b : Json} (h : Alike a b) : closed a = closed b := by
  unfold Orchestration.closed
  rw [h.get (by decide) (by decide)]

theorem lookup_fields (v : Json) (k : String) : (v.asObject.getD []).lookup k = v.get? k := by
  cases v <;> rfl

/-- An event version depends on the fields that it does not ignore. -/
theorem eventVersion_congr {a b : Json} (hclosed : closed a = closed b)
    (h : ∀ k, ignored (closed b) k = false → a.get? k = b.get? k) :
    eventVersion lib a = eventVersion lib b := by
  unfold eventVersion digest
  refine congrArg (fun text => lib.sha256 (String.ofList text)) (canonical_congr fun k => ?_)
  refine (lookup_filter_key (p := fun k => !ignored (closed a) k) _ k).trans
    (.trans ?_ (lookup_filter_key (p := fun k => !ignored (closed b) k) _ k).symm)
  rw [hclosed,lookup_fields,lookup_fields]
  cases hk : ignored (closed b) k with
  | false => simpa using h k hk
  | true => rfl

/-- The observation reads the records' event versions and the evidence. -/
theorem observationInputs_congr (policy : Policy) (p : Packet) (g : ℕ) {src src' : Sources}
    (hprs : src.prs.map (eventVersion lib) = src'.prs.map (eventVersion lib))
    (hevidence : src.evidence = src'.evidence) :
    observationInputs lib policy p src g = observationInputs lib policy p src' g := by
  have htexts : (src.prs.map fun pr => Json.str (eventVersion lib pr)) =
      src'.prs.map fun pr => Json.str (eventVersion lib pr) := by
    have h := congrArg (List.map Json.str) hprs
    rw [List.map_map,List.map_map] at h
    exact h
  simp only [observationInputs,htexts,hevidence]

theorem Alike.eventVersion {a b : Json} (h : Alike a b) : eventVersion lib a = eventVersion lib b := by
  refine eventVersion_congr h.closed fun k hk => h k ?_ ?_
  · rintro rfl
    simp [ignored] at hk
  · rintro rfl
    simp [ignored] at hk

section Progress
variable (p : Packet) (src : Sources) (d : String) (ps : Row) (items : List Json) {prs : Json}

theorem reviseProgress_alike (hprs : prs.isObject = true) (url u : String) :
    Alike ((reviseProgress lib p src d ps items prs url).get u) (prs.get u) ∧
      (reviseProgress lib p src d ps items prs url).isObject = true := by
  refine ⟨fun k h₁ h₂ => ?_,isObject_set (assignable_of_isObject hprs) _ _⟩
  simp only [reviseProgress,Json.get_set (assignable_of_isObject hprs)]
  split
  · rename_i hu
    subst hu
    rw [get?_set_ne _ _ h₁,get?_set_ne _ _ h₂,get?_set_ne _ _ h₁]
  · rfl

theorem foldl_reviseProgress_alike {urls : List String} (hprs : prs.isObject = true) (u : String) :
    Alike ((urls.foldl (reviseProgress lib p src d ps items) prs).get u) (prs.get u) ∧
      (urls.foldl (reviseProgress lib p src d ps items) prs).isObject = true := by
  induction urls generalizing prs with
  | nil => exact ⟨fun _ _ _ => rfl,hprs⟩
  | cons url urls ih =>
    obtain ⟨hstep,hobject⟩ := reviseProgress_alike p src d ps items hprs url u
    obtain ⟨halike,hlast⟩ := ih hobject
    exact ⟨fun k h₁ h₂ => (halike k h₁ h₂).trans (hstep k h₁ h₂),hlast⟩

theorem foldl_reviseProgress_other {urls : List String} {u : String} (hu : u ∉ urls) :
    (urls.foldl (reviseProgress lib p src d ps items) prs).get? u = prs.get? u := by
  induction urls generalizing prs with
  | nil => rfl
  | cons url urls ih =>
    simp only [List.mem_cons,not_or] at hu
    rw [List.foldl_cons,ih hu.2]
    exact get?_set_ne _ _ hu.1

end Progress

theorem identified_ok {prs pr : Json} {url : String} (h : identified prs url = .ok pr) :
    pr.isObject = true ∧ pr.get "url" = .str url := by
  unfold identified at h
  dsimp only at h
  split at h
  · cases h
  · rename_i hobject
    split at h
    · cases h
    · rename_i hurl
      obtain rfl := Except.ok.inj h
      refine ⟨?_,by simpa using hurl⟩
      unfold addressed
      split
      · exact isObject_set (assignable_of_isObject (by simpa using hobject)) _ _
      · simpa using hobject

/-- Completing a record with its address leaves its other fields. -/
theorem identified_get? {prs pr : Json} {url : String} (h : identified prs url = .ok pr) {k : String}
    (hk : k ≠ "url") : pr.get? k = (prs.get url).get? k := by
  unfold identified at h
  dsimp only at h
  split at h
  · cases h
  · split at h
    · cases h
    · obtain rfl := Except.ok.inj h
      have hrecord : ∀ v : Json, (addressed v url).get? k = v.get? k := by
        intro v
        unfold addressed
        split
        · exact get?_set_ne _ _ hk
        · rfl
      rw [hrecord,Json.get]
      cases prs.get? url with
      | none =>
        have hne : (k == "url") = false := beq_eq_false_iff_ne.mpr hk
        simp [Json.get?,List.lookup,hne]
      | some v => rfl

theorem restoreGeneration_get? {pr : Json} (h : pr.isObject = true) (g : ℕ) (k : String) :
    (restoreGeneration pr g).get? k =
      if k = "feedbackGeneration" then generationField g else pr.get? k := by
  unfold restoreGeneration generationField
  split
  · rw [get?_set (assignable_of_isObject h)]
  · rw [get?_remove]

theorem restoreGeneration_get {pr : Json} (h : pr.isObject = true) (g : ℕ) {k : String}
    (hk : k ≠ "feedbackGeneration") : (restoreGeneration pr g).get k = pr.get k := by
  simp [Json.get,restoreGeneration_get? h,hk]

theorem restoreGeneration_inputs {pr : Json} (h : pr.isObject = true) (g : ℕ) :
    feedbackInputs (restoreGeneration pr g) = feedbackInputs pr := by
  unfold feedbackInputs
  congr 1
  apply List.map_congr_left
  intro k hk
  rw [restoreGeneration_get h g (by rintro rfl; simp at hk)]

theorem feedbackGeneration_lt {r : Json} {url raw : String} {g : ℕ}
    (h : feedbackGeneration r url raw = .ok g) : g < 2^64 := by
  have hlt : ∀ v : Json, v.asU64.getD 0 < 2^64 := by
    intro v
    unfold asU64
    split
    · split
      · assumption
      · decide
    · decide
  unfold feedbackGeneration at h
  dsimp only at h
  split at h
  · exact (bump_ok h).2
  · obtain rfl := Except.ok.inj h
    exact hlt _

/-- What one refresh records of the feedback of `url`: `pr` is the record it leaves, `r`
and `r'` are the owner's row before and after. -/
structure FeedbackSeen (lib : Library) (url : String) (r r' pr : Json) : Prop where
  generation : feedbackGeneration r url (digest lib (feedbackInputs pr)) = .ok (prGeneration pr)
  field : pr.get? "feedbackGeneration" = generationField (prGeneration pr)
  identity : pr.get "url" = .str url
  recorded : (r'.get "feedbackObservations").get url = .obj [("generation",nat (prGeneration pr)),
    ("version",.str (digest lib (feedbackInputs pr)))]

/-- What observing the feedback of `urls` does to a journal. -/
structure FeedbackPass (lib : Library) (n : ℕ) (urls : List String) (j j' : Journal) : Prop where
  objects : j'.Objects
  retained : j'.retained = j.retained
  slots : ∀ m ≠ n, j'.slot m = j.slot m
  keeps : ∀ k ≠ "feedbackObservations", (j'.row n).get? k = (j.row n).get? k
  records : ∀ u ∉ urls, j'.prs.get? u = j.prs.get? u
  observations : ∀ u ∉ urls, ((j'.row n).get "feedbackObservations").get u =
    ((j.row n).get "feedbackObservations").get u
  seen : ∀ u ∈ urls, FeedbackSeen lib u (j.row n) (j'.row n) (j'.pr u)
  kept : ∀ u, ∀ k ∉ ["feedbackGeneration","url"], (j'.pr u).get? k = (j.pr u).get? k

theorem observeFeedback_ok {n : ℕ} {j j' : Journal} {url : String} (hj : j.Objects)
    (h : observeFeedback lib n j url = .ok j') : FeedbackPass lib n [url] j j' := by
  obtain ⟨pr,hpr,h⟩ := bind_ok h
  obtain ⟨g,hg,h⟩ := bind_ok h
  obtain ⟨ps,hps,h⟩ := bind_ok h
  obtain ⟨hobject,hurl⟩ := identified_ok hpr
  obtain ⟨hobjects,hrow,hvalid⟩ := journalPacket_ok hps
  obtain rfl := Except.ok.inj h
  have hread : ∀ k, ps.json.get? k = (j.row n).get? k := by
    intro k
    rw [← hrow]
    exact Journal.entry_get? _ n n k
  have hget : ∀ k, ps.get k = (j.row n).get k :=
    fun k => congrArg (Option.getD · Json.null) (hread k)
  have hrecord : ∀ u, (j.prs.set url (restoreGeneration pr g)).get u =
      if u = url then restoreGeneration pr g else j.prs.get u :=
    fun u => Json.get_set (assignable_of_isObject hj.2) url u _
  have hlt := feedbackGeneration_lt hg
  have hfield : (restoreGeneration pr g).get? "feedbackGeneration" = generationField g := by
    rw [restoreGeneration_get? hobject,if_pos rfl]
  have hgen : prGeneration (restoreGeneration pr g) = g := prGeneration_of_field hlt hfield
  constructor
  · exact Journal.objects_put hobjects _ _
  · rfl
  · intro m hm
    rw [Journal.slot_put hobjects,if_neg hm]
    rfl
  · intro k hk
    rw [Journal.row_put hobjects,if_pos rfl,← hread k]
    exact (Row.get?_set _ _ _ _).trans (if_neg hk)
  · intro u hu
    rw [Journal.prs_put]
    exact get?_set_ne _ _ (by simpa using hu)
  · intro u hu
    rw [Journal.row_put hobjects,if_pos rfl,Row.json_get,Row.get_set,if_pos rfl,
      get_set_ne _ _ (by simpa using hu),objectOr_get,hget]
  · intro u hu
    obtain rfl : u = url := by simpa using hu
    have hpru : (Journal.put { j with prs := j.prs.set u (restoreGeneration pr g) } n
        (ps.set "feedbackObservations" ((objectOr (ps.get "feedbackObservations")).set u
          (.obj [("generation",nat g),("version",.str (digest lib (feedbackInputs pr)))])))).pr u =
        restoreGeneration pr g := by
      rw [Journal.pr,Journal.prs_put,hrecord,if_pos rfl]
    rw [hpru]
    constructor
    · rw [restoreGeneration_inputs hobject,hgen]
      exact hg
    · rw [hfield,hgen]
    · rw [restoreGeneration_get hobject g (by decide)]
      exact hurl
    · rw [Journal.row_put hobjects,if_pos rfl,Row.json_get,Row.get_set,if_pos rfl,
        Json.get_set (objectOr_assignable _),if_pos rfl,hgen,restoreGeneration_inputs hobject]
  · intro u k hk
    simp only [List.mem_cons,List.not_mem_nil,or_false,not_or] at hk
    rw [Journal.pr,Journal.prs_put,hrecord]
    split
    · rename_i hu
      rw [restoreGeneration_get? hobject,if_neg hk.1,identified_get? hpr hk.2,hu]
      rfl
    · rfl

theorem feedbackGeneration_congr {r s : Json} {url : String} (raw : String)
    (hO : (r.get "feedbackObservations").get url = (s.get "feedbackObservations").get url)
    (hF : r.get "auditedFeedback" = s.get "auditedFeedback") :
    feedbackGeneration r url raw = feedbackGeneration s url raw := by
  unfold feedbackGeneration
  rw [hO,hF]

theorem FeedbackPass.nil {n : ℕ} {j : Journal} (h : j.Objects) : FeedbackPass lib n [] j j :=
  ⟨h,rfl,fun _ _ => rfl,fun _ _ => rfl,fun _ _ => rfl,fun _ _ => rfl,by simp,fun _ _ _ => rfl⟩

theorem FeedbackPass.cons {n : ℕ} {url : String} {urls : List String} {i j k : Journal}
    (h : FeedbackPass lib n [url] i j) (h' : FeedbackPass lib n urls j k) (hurl : url ∉ urls) :
    FeedbackPass lib n (url::urls) i k := by
  have hF : (j.row n).get "auditedFeedback" = (i.row n).get "auditedFeedback" :=
    congrArg (Option.getD · Json.null) (h.keeps _ (by decide))
  constructor
  · exact h'.objects
  · exact h'.retained.trans h.retained
  · exact fun m hm => (h'.slots m hm).trans (h.slots m hm)
  · exact fun key hk => (h'.keeps key hk).trans (h.keeps key hk)
  · intro u hu
    simp only [List.mem_cons,not_or] at hu
    rw [h'.records u hu.2,h.records u (by simpa using hu.1)]
  · intro u hu
    simp only [List.mem_cons,not_or] at hu
    rw [h'.observations u hu.2,h.observations u (by simpa using hu.1)]
  · intro u hu
    rcases List.mem_cons.mp hu with rfl | hmem
    · have hpr : k.pr u = j.pr u := congrArg (Option.getD · Json.null) (h'.records u hurl)
      have hseen := h.seen u (by simp)
      rw [hpr]
      exact ⟨hseen.generation,hseen.field,hseen.identity,(h'.observations u hurl).trans hseen.recorded⟩
    · have hne : u ∉ [url] := by
        rintro hmem'
        obtain rfl : u = url := by simpa using hmem'
        exact hurl hmem
      have hseen := h'.seen u hmem
      refine ⟨?_,hseen.field,hseen.identity,hseen.recorded⟩
      rw [← hseen.generation]
      exact feedbackGeneration_congr _ (h.observations u hne).symm hF.symm
  · exact fun u key hk => (h'.kept u key hk).trans (h.kept u key hk)

theorem observeFeedback_fold {n : ℕ} {urls : List String} {j j' : Journal} (hj : j.Objects)
    (hnodup : urls.Nodup) (h : urls.foldlM (observeFeedback lib n) j = .ok j') :
    FeedbackPass lib n urls j j' := by
  induction urls generalizing j with
  | nil =>
    obtain rfl := foldlM_nil_ok h
    exact .nil hj
  | cons url urls ih =>
    obtain ⟨i,hi,h⟩ := foldlM_cons_ok h
    have hstep := observeFeedback_ok hj hi
    have hrest := ih hstep.objects (List.nodup_cons.mp hnodup).2 h
    exact hstep.cons hrest (List.nodup_cons.mp hnodup).1

/-! ## One owner -/

variable {policy : Policy} {inputs : Inputs}

/-- What a refresh does to the owner `p`, on its row and the records assigned to it. -/
structure PacketRefreshed (lib : Library) (policy : Policy) (inputs : Inputs) (p : Packet)
    (j j' : Journal) : Prop where
  keeps : ∀ k ∉ "feedbackObservations" :: refreshKeys,
    (j'.row p.number).get? k = (j.row p.number).get? k
  object : (j'.row p.number).isObject = true
  counts : Counts (evidenceComplete p inputs.dependencies) (j.row p.number) (j'.row p.number)
  dependencyVersion : (j'.row p.number).get "dependencyVersion" = .str (dependencyFingerprint lib
    (producers p) (evidence p inputs.dependencies) (generationOf (j'.row p.number)))
  observation : ∃ record : String → Json,
    (∀ u ∈ p.prs, (record u).get? "feedbackGeneration" =
      generationField (prGeneration (j'.pr u)) ∧ (record u).isObject = true) ∧
    (j'.row p.number).get "observationVersion" = .str (observationVersion lib policy p
      ⟨(p.prs.insertionSort (· ≤ ·)).map record,evidence p inputs.dependencies,
        evidenceComplete p inputs.dependencies⟩ (generationOf (j'.row p.number)))
  feedback : ∀ u ∈ p.prs, FeedbackSeen lib u (j.row p.number) (j'.row p.number) (j'.pr u)
  audits : ∀ u,
    (((j'.row p.number).get "auditedFeedback").get u = ((j.row p.number).get "auditedFeedback").get u ∧
      (evidenceComplete p inputs.dependencies = true →
        ((j'.row p.number).get "auditedDependencies").get u =
          ((j.row p.number).get "auditedDependencies").get u) ∧
      (evidenceComplete p inputs.dependencies = false →
        ((j'.row p.number).get "auditedDependencies").get u = .null)) ∨
    (evidenceComplete p inputs.dependencies = true ∧ u ∈ p.prs ∧
      Accepts inputs p (j'.row p.number) u (feedbackVersion lib (j'.pr u)) ∧
      ((j'.row p.number).get "auditedFeedback").get u = .str (feedbackVersion lib (j'.pr u)) ∧
      ((j'.row p.number).get "auditedDependencies").get u =
        (j'.row p.number).get "dependencyVersion")
  verdict : (j'.row p.number).get "terminal" = .bool true →
    evidenceComplete p inputs.dependencies = true ∧ ∀ u ∈ p.prs, closed (j'.pr u) = true ∧
      ((j'.row p.number).get "auditedFeedback").get u = .str (feedbackVersion lib (j'.pr u)) ∧
      (p.dependencies ≠ [] → ((j'.row p.number).get "auditedDependencies").get u =
        (j'.row p.number).get "dependencyVersion")
  bound : (j.row p.number).get "deliveredObservationVersion" ≠ .null →
    (j'.row p.number).get "deliveredObservationVersion" =
      (j.row p.number).get "deliveredObservationVersion"
  unbound : (j.row p.number).get "deliveredObservationVersion" = .null →
    (j'.row p.number).get "deliveredObservationVersion" =
      if rebinds (j.row p.number) then (j.row p.number).get "observationVersion" else .null
  unanswered : (j'.row p.number).get "deliveredObservationVersion" = .null →
    (j'.row p.number).get "workerStatus" = (j.row p.number).get "workerStatus"
  settled : (j'.row p.number).get "terminal" = .bool true → Settled lib (j'.row p.number)
  inputs_dependencies : ((j'.row p.number).get "versionInputs").get "dependencies" =
    evidence p inputs.dependencies
  cleared : evidenceComplete p inputs.dependencies = true →
    (j'.row p.number).get? "dependencyEvidenceIncomplete" = some (.bool false)
  counted : ∀ v, (j'.row p.number).get? "dependencyGeneration" = some v → v.asU64.isSome = true
  tidy : Tidy p.number (j.row p.number) → Tidy p.number (j'.row p.number)
  inputs_version : (j'.row p.number).get "versionInputs" =
    observationInputs lib policy p (sources inputs p j') (generationOf (j'.row p.number))
  digested : (j'.row p.number).get "observationVersion" =
    .str (digest lib ((j'.row p.number).get "versionInputs"))
  stamped : (j'.row p.number).get "version" = stamp lib (j'.row p.number)
  reported : ∀ k ∈ ["progressVersion","workerStatus"],
    (j'.row p.number).get k = (j.row p.number).get k ∨
      ∃ report, inputs.reports.lookup p.number = some report ∧
        (j'.row p.number).get k = if k = "workerStatus" then report else .str (digest lib report)
  records : ∀ u ∈ p.prs, ∀ k ∉ ["progress","classification","feedbackGeneration","url"],
    (j'.pr u).get? k = (j.pr u).get? k

theorem sources_congr (inputs : Inputs) {p : Packet} {i j : Journal}
    (h : ∀ u ∈ p.prs, j.pr u = i.pr u) : sources inputs p j = sources inputs p i := by
  unfold sources
  congr 1
  exact List.map_congr_left fun u hu => h u ((List.mem_insertionSort _).mp hu)

/-- The statement only reads the owner's row and its records. -/
theorem PacketRefreshed.congr {p : Packet} {i i' j j' : Journal}
    (h : PacketRefreshed lib policy inputs p i i') (hrow : j.row p.number = i.row p.number)
    (hrow' : j'.row p.number = i'.row p.number) (hpr : ∀ u ∈ p.prs, j.pr u = i.pr u)
    (hpr' : ∀ u ∈ p.prs, j'.pr u = i'.pr u) :
    PacketRefreshed lib policy inputs p j j' := by
  obtain ⟨keeps,object,counts,dependencyVersion,observation,feedback,audits,verdict,bound,unbound,
    unanswered,settled,inputs_dependencies,cleared,counted,tidy,inputs_version,digested,stamped,
    reported,records⟩ := h
  rw [← hrow] at keeps counts bound unbound unanswered tidy reported
  rw [← hrow'] at keeps object counts dependencyVersion verdict bound digested stamped reported
  rw [← hrow'] at unbound unanswered settled inputs_dependencies cleared counted tidy inputs_version
  rw [← sources_congr inputs hpr'] at inputs_version
  refine ⟨keeps,object,counts,dependencyVersion,?_,?_,?_,?_,bound,unbound,unanswered,settled,
    inputs_dependencies,cleared,counted,tidy,inputs_version,digested,stamped,reported,fun u hu => by
      rw [hpr u hu,hpr' u hu]
      exact records u hu⟩
  · obtain ⟨record,hrecord,hobservation⟩ := observation
    refine ⟨record,fun u hu => ?_,?_⟩
    · rw [hpr' u hu]
      exact hrecord u hu
    · rw [hrow']
      exact hobservation
  · intro u hu
    rw [hrow,hrow',hpr' u hu]
    exact feedback u hu
  · intro u
    rw [hrow,hrow']
    rcases audits u with hkept | ⟨hcomplete,hu,hnew⟩
    · exact .inl hkept
    · rw [hpr' u hu]
      exact .inr ⟨hcomplete,hu,hnew⟩
  · intro hterminal
    refine ⟨(verdict hterminal).1,fun u hu => ?_⟩
    rw [hpr' u hu]
    exact (verdict hterminal).2 u hu

/-- What refreshing the owner `p` leaves of the others. -/
structure Apart (p : Packet) (j j' : Journal) : Prop where
  objects : j'.Objects
  retained : j'.retained = j.retained
  slots : ∀ n ≠ p.number, j'.slot n = j.slot n
  records : ∀ u ∉ p.prs, j'.prs.get? u = j.prs.get? u

theorem sources_named (inputs : Inputs) {p : Packet} {j : Journal} {r r' : Json}
    (h : ∀ u ∈ p.prs, FeedbackSeen lib u r r' (j.pr u)) :
    (sources inputs p j).Named lib (fun u => feedbackVersion lib (j.pr u)) p.prs := by
  intro pr hpr
  obtain ⟨u,hu,rfl⟩ := List.mem_map.mp hpr
  have hmem : u ∈ p.prs := (List.perm_insertionSort _ _).subset hu
  exact ⟨u,hmem,(h u hmem).identity,rfl⟩

theorem refreshPacket_ok {p : Packet} {j j' : Journal} (hnodup : p.prs.Nodup)
    (h : refreshPacket lib policy inputs j p = .ok j') :
    Apart p j j' ∧ PacketRefreshed lib policy inputs p j j' := by
  obtain ⟨ps₀,hps₀,h⟩ := bind_ok h
  obtain ⟨i,hi,h⟩ := bind_ok h
  obtain ⟨ps,hps,h⟩ := bind_ok h
  obtain ⟨⟨ps',d⟩,hrow,h⟩ := bind_ok h
  obtain ⟨items,-,h⟩ := bind_ok h
  obtain rfl := Except.ok.inj h
  obtain ⟨hobjects,-,-⟩ := journalPacket_ok hps₀
  have hpass := observeFeedback_fold (Journal.objects_entry hobjects _) hnodup hi
  obtain ⟨hiobjects,hirow,hvalid⟩ := journalPacket_ok hps
  obtain ⟨s⟩ := refreshRow_steps hrow
  have hnamed := sources_named inputs hpass.seen
  -- the row that is refreshed reads like the journal's, but for the feedback just observed
  have hread : ∀ k, ps.get k = (i.row p.number).get k := by
    intro k
    rw [← Row.json_get,← hirow,Journal.entry_get]
  have hkeep? : ∀ k ≠ "feedbackObservations", ps.get? k = (j.row p.number).get? k := by
    intro k hk
    rw [← Journal.entry_get? j p.number,← hpass.keeps k hk,← Journal.entry_get? i p.number,hirow]
    rfl
  have hkeep : ∀ k ≠ "feedbackObservations", ps.get k = (j.row p.number).get k :=
    fun k hk => congrArg (Option.getD · Json.null) (hkeep? k hk)
  have hpr : ∀ u, Alike ((p.prs.foldl (reviseProgress lib p (sources inputs p i) d ps' items) i.prs).get u)
      (i.pr u) := fun u => (foldl_reviseProgress_alike p _ d ps' items hiobjects.2 u).1
  set prs := p.prs.foldl (reviseProgress lib p (sources inputs p i) d ps' items) i.prs
  have hrow' : ∀ n, Journal.row { i.put p.number ps' with prs := prs } n =
      if n = p.number then ps'.json else i.row n := Journal.row_put hiobjects p.number (r := ps')
  have hown : Journal.row { i.put p.number ps' with prs := prs } p.number = ps'.json := by
    rw [hrow',if_pos rfl]
  have hrecord : ∀ u, Journal.pr { i.put p.number ps' with prs := prs } u = prs.get u := fun _ => rfl
  have hgen : ∀ u, prGeneration (prs.get u) = prGeneration (i.pr u) := by
    intro u
    unfold prGeneration
    rw [(hpr u).get (by decide) (by decide)]
  refine ⟨⟨?_,?_,?_,?_⟩,?_⟩
  · exact ⟨(Journal.objects_put hiobjects _ _).1,
      (foldl_reviseProgress_alike p _ d ps' items hiobjects.2 "").2⟩
  · exact hpass.retained.trans (Journal.retained_entry _ _)
  · intro n hn
    exact (Journal.slot_put hiobjects p.number n ps').trans
      ((if_neg hn).trans ((hpass.slots n hn).trans (Journal.entry_slot j hn)))
  · intro u hu
    have hrecord : prs.get? u = i.prs.get? u := foldl_reviseProgress_other p _ d ps' items hu
    rw [hpass.records u hu,Journal.prs_entry] at hrecord
    exact hrecord
  have hfields := s.fields hvalid.generation
  refine ⟨?_,?_,?_,?_,?_,?_,?_,?_,?_,?_,?_,?_,?_,?_,?_,?_,?_,?_,?_,?_,?_⟩ <;> try rw [hown]
  · intro k hk
    simp only [List.mem_cons,not_or] at hk
    rw [← hkeep? k hk.1]
    exact s.writes.keeps k hk.2
  · rfl
  · have hcounts := s.counts.2
    have hg : generationOf ps.json = generationOf (j.row p.number) := by
      simp [generationOf,hkeep "dependencyGeneration" (by decide)]
    have hf : incomplete ps.json ↔ incomplete (j.row p.number) := by
      simp [incomplete,hkeep "dependencyEvidenceIncomplete" (by decide)]
    exact ⟨fun hc => hg ▸ hcounts.kept hc,hcounts.flagged,
      fun hc hi => hg ▸ hcounts.again hc (hf.mpr hi),
      fun hc hi => hg ▸ hcounts.bumped hc fun h => hi (hf.mp h)⟩
  · rw [Row.json_get,s.dependencyVersion,s.version,s.counts.1]
    rfl
  · refine ⟨i.pr,fun u hu => ?_,?_⟩
    · have hseen := hpass.seen u hu
      have hobject : (i.pr u).isObject = true := by
        by_contra hno
        have hnull := get_eq_null_of_not_isObject (by simpa using hno) "url"
        rw [hseen.identity] at hnull
        cases hnull
      exact ⟨by rw [hrecord,hgen,hseen.field],hobject⟩
    · rw [Row.json_get,s.observation,s.counts.1]
      rfl
  · intro u hu
    have hseen := hpass.seen u hu
    rw [hrecord]
    refine ⟨?_,?_,?_,?_⟩
    · rw [(hpr u).feedbackInputs,hgen,← hseen.generation]
      exact (feedbackGeneration_congr _ (by rw [Journal.entry_get]) (Journal.entry_get _ _ _ _)).symm
    · rw [hpr u _ (by decide) (by decide),hgen,hseen.field]
    · rw [(hpr u).get (by decide) (by decide),hseen.identity]
    · rw [Row.json_get,s.writes.keeps.get (by decide),hread,(hpr u).feedbackInputs,hgen,hseen.recorded]
  · intro u
    have haudit := s.audits hnamed (hvalid.maps _ (by simp)) u
    rw [hkeep "auditedFeedback" (by decide),hkeep "auditedDependencies" (by decide)] at haudit
    rw [hrecord,(hpr u).feedbackVersion,Row.json_get,Row.json_get,Row.json_get,s.dependencyVersion]
    exact haudit
  · intro hterminal
    obtain ⟨hcomplete,hall⟩ := s.verdict hterminal
    refine ⟨hcomplete,fun u hu => ?_⟩
    have hmem : i.pr u ∈ (sources inputs p i).prs :=
      List.mem_map_of_mem ((List.perm_insertionSort _ _).symm.subset hu)
    obtain ⟨hclosed,haudit⟩ := hall _ hmem
    rw [hrecord,(hpr u).closed,(hpr u).feedbackVersion,Row.json_get,Row.json_get,Row.json_get,
      s.dependencyVersion]
    exact ⟨hclosed,haudit u (hpass.seen u hu).identity⟩
  · intro hne
    rw [Row.json_get,s.bound (by rwa [hkeep _ (by decide)]),hkeep _ (by decide)]
  · intro hnull
    have hsame : rebinds ps.json = rebinds (j.row p.number) := by
      apply rebinds_congr
      intro k hk
      refine hkeep k ?_
      rintro rfl
      simp at hk
    rw [Row.json_get,s.unbound (by rwa [hkeep _ (by decide)]),hsame,
      hkeep "observationVersion" (by decide)]
  · intro hnull
    rw [Row.json_get,s.unanswered hnull,hkeep _ (by decide)]
  · exact s.settled
  · exact s.inputs_dependencies
  · exact hfields.1
  · exact hfields.2
  · intro htidy
    refine s.tidy ⟨?_,?_,?_⟩
    · rw [Row.json_get,hkeep _ (by decide)]
      exact htidy.observation
    · rw [Row.json_get,hkeep _ (by decide)]
      exact htidy.progress
    · rw [Row.json_get,hkeep _ (by decide)]
      exact htidy.status
  · rw [Row.json_get,s.versionInputs,s.counts.1]
    refine observationInputs_congr _ _ _ ?_ rfl
    simp only [sources,List.map_map]
    exact List.map_congr_left fun u _ => ((hpr u).eventVersion).symm
  · rw [Row.json_get,Row.json_get,s.observation,s.versionInputs]
    rfl
  · rw [Row.json_get,s.stamped_version,← s.versionInputs]
    rfl
  · intro k hk
    have hne : k ≠ "feedbackObservations" := by
      rintro rfl
      simp at hk
    rw [Row.json_get,← hkeep k hne]
    exact s.reported_fields k hk
  · intro u hu k hk
    simp only [List.mem_cons,List.not_mem_nil,or_false,not_or] at hk
    rw [hrecord,hpr u k hk.1 hk.2.1,hpass.kept u k (by simp [hk]),Journal.pr,Journal.prs_entry]
    rfl

/-! ## The whole refresh -/

/-- What a successful refresh does. -/
structure Refreshed (lib : Library) (m : Manifest) (policy : Policy) (inputs : Inputs)
    (j j' : Journal) : Prop where
  own : m.validateOwn = .ok ()
  distinct : m.Distinct
  retained : j'.retained = some (.ok m)
  extended : ∀ old, j.retained = some (.ok old) → m.validate (some old) = .ok ()
  objects : j'.Objects
  owners : ∀ p ∈ m.packets, PacketRefreshed lib policy inputs p j j'
  slots : ∀ n, (∀ p ∈ m.packets, p.number ≠ n) → j'.slot n = j.slot n

theorem Refreshed.others {m : Manifest} {j j' : Journal} (h : Refreshed lib m policy inputs j j')
    (n : ℕ) (hn : ∀ p ∈ m.packets, p.number ≠ n) : j'.row n = j.row n :=
  Journal.row_of_slot (h.slots n hn)

theorem refreshPackets_apart {ps : List Packet} (hnodup : ∀ p ∈ ps, p.prs.Nodup) {j j' : Journal}
    (h : ps.foldlM (refreshPacket lib policy inputs) j = .ok j') :
    (ps ≠ [] → j'.Objects) ∧ j'.retained = j.retained ∧
      (∀ n, (∀ p ∈ ps, p.number ≠ n) → j'.slot n = j.slot n) ∧
      ∀ u, (∀ p ∈ ps, u ∉ p.prs) → j'.prs.get? u = j.prs.get? u := by
  induction ps generalizing j with
  | nil =>
    obtain rfl := foldlM_nil_ok h
    exact ⟨by simp,rfl,fun _ _ => rfl,fun _ _ => rfl⟩
  | cons p ps ih =>
    obtain ⟨i,hi,h⟩ := foldlM_cons_ok h
    have hstep := (refreshPacket_ok (hnodup p (by simp)) hi).1
    obtain ⟨hobjects,hretained,hrows,hrecords⟩ := ih (fun q hq => hnodup q (by simp [hq])) h
    refine ⟨fun _ => ?_,hretained.trans hstep.retained,fun n hn => ?_,fun u hu => ?_⟩
    · cases ps with
      | nil =>
        rw [← foldlM_nil_ok h]
        exact hstep.objects
      | cons q qs => exact hobjects (by simp)
    · rw [hrows n fun q hq => hn q (by simp [hq]),hstep.slots n (hn p (by simp)).symm]
    · rw [hrecords u fun q hq => hu q (by simp [hq]),hstep.records u (hu p (by simp))]

/-- The refresh of one owner among the others: it finds the owner's row and records as they were,
and leaves them as they stay. -/
theorem refreshPackets_owner {m : Manifest} (hm : m.Distinct) {j k : Journal}
    (h : m.packets.foldlM (refreshPacket lib policy inputs) j = .ok k) {p : Packet}
    (hp : p ∈ m.packets) : ∃ u v, refreshPacket lib policy inputs u p = .ok v ∧
      u.row p.number = j.row p.number ∧ k.row p.number = v.row p.number ∧
      (∀ w ∈ p.prs, u.pr w = j.pr w) ∧ ∀ w ∈ p.prs, k.pr w = v.pr w := by
  have hurls : ∀ p ∈ m.packets, p.prs.Nodup := fun p hp => hm.urls_nodup hp
  -- the owners before and after `p` are other owners with other records
  obtain ⟨before,after,u,v,hsplit,hu,hv,hafter⟩ := foldlM_mem h hp
  have hother : ∀ q ∈ before ++ after, q.number ≠ p.number := by
    have hnodup := hm.numbers
    rw [hsplit,List.map_append,List.map_cons,List.nodup_middle,List.nodup_cons] at hnodup
    intro q hq heq
    exact hnodup.1 (by rw [← List.map_append,← heq]; exact List.mem_map_of_mem hq)
  have hmem : ∀ q ∈ before ++ after, q ∈ m.packets := by
    intro q hq
    rw [hsplit]
    rcases List.mem_append.mp hq with h | h <;> simp [h]
  have hforeign : ∀ q ∈ before ++ after, ∀ w ∈ p.prs, w ∉ q.prs := fun q hq w hw hwq =>
    hother q hq (congrArg _ (hm.url_owner (hmem q hq) hp hwq hw))
  have hb := refreshPackets_apart (fun q hq => hurls q (hmem q (by simp [hq]))) hu
  have ha := refreshPackets_apart (fun q hq => hurls q (hmem q (by simp [hq]))) hafter
  refine ⟨u,v,hv,?_,?_,fun w hw => ?_,fun w hw => ?_⟩
  · exact Journal.row_of_slot (hb.2.2.1 _ fun q hq => hother q (by simp [hq]))
  · exact Journal.row_of_slot (ha.2.2.1 _ fun q hq => hother q (by simp [hq]))
  · refine congrArg (Option.getD · Json.null) (hb.2.2.2 w fun q hq => ?_)
    exact hforeign q (by simp [hq]) w hw
  · refine congrArg (Option.getD · Json.null) (ha.2.2.2 w fun q hq => ?_)
    exact hforeign q (by simp [hq]) w hw

theorem admitManifest_ok {m : Manifest} {j : Journal} (h : admitManifest m j = .ok ()) :
    m.Distinct ∧ ∀ old, j.retained = some (.ok old) → m.validate (some old) = .ok () := by
  obtain ⟨⟨⟩,hvalid,-⟩ := bind_ok h
  unfold validateRetained at hvalid
  split at hvalid
  · cases hvalid
  · rename_i old hretained
    exact ⟨validate_own hvalid,fun old' hold => by simp_all⟩
  · rename_i hretained
    exact ⟨validate_own hvalid,fun old' hold => by simp_all⟩

theorem validateOwn_nonempty {m : Manifest} (h : m.validateOwn = .ok ()) : m.packets ≠ [] := by
  obtain ⟨s,-,h⟩ := bind_ok h
  obtain ⟨u,hcount,-⟩ := bind_ok h
  exact (require_ok hcount).1

theorem refresh_ok {m : Manifest} {j j' : Journal} (h : refresh lib m j policy inputs = .ok j') :
    Refreshed lib m policy inputs j j' := by
  obtain ⟨⟨⟩,hchecks,h⟩ := bind_ok h
  obtain ⟨k,hk,h⟩ := bind_ok h
  obtain ⟨coverage,hcoverage,h⟩ := bind_ok h
  obtain rfl := Except.ok.inj h
  obtain ⟨hdistinct,hextended⟩ := admitManifest_ok hchecks
  have hurls : ∀ p ∈ m.packets, p.prs.Nodup := fun p hp => hdistinct.urls_nodup hp
  obtain ⟨hobjects,-,hrows,-⟩ := refreshPackets_apart hurls hk
  obtain ⟨⟨⟩,hvalid,-⟩ := bind_ok hcoverage
  obtain ⟨⟨⟩,hown,-⟩ := bind_ok hvalid
  have hnonempty : m.packets ≠ [] := validateOwn_nonempty hown
  refine ⟨hown,hdistinct,rfl,hextended,hobjects hnonempty,fun p hp => ?_,hrows⟩
  obtain ⟨u,v,hv,hrow,hrow',hpr,hpr'⟩ := refreshPackets_owner hdistinct hk hp
  exact (refreshPacket_ok (hurls p hp) hv).2.congr hrow.symm hrow' (fun w hw => (hpr w hw).symm) hpr'

end Orchestration
end CanixToolbelt
