import CanixToolbelt.OrchestrationDelivery

/-! Audits retired by regressed evidence or changed feedback never certify an owner again. -/
namespace CanixToolbelt
namespace Orchestration

open Fallible Json Canonical

variable {lib : Library}

/-! ## Versions of different generations differ -/

theorem digest_get? (hlib : lib.Spells) (hsha : Function.Injective lib.sha256) {v w : Json}
    (hv : v.isObject = true) (hw : w.isObject = true) (h : digest lib v = digest lib w) (k : String) :
    (v.get? k).map (canonical lib) = (w.get? k).map (canonical lib) := by
  obtain ⟨fs,rfl⟩ : ∃ fs, v = .obj fs := by cases v <;> simp_all [isObject]
  obtain ⟨gs,rfl⟩ : ∃ gs, w = .obj gs := by cases w <;> simp_all [isObject]
  exact canonical_get? hlib (digest_canonical hsha h) k

theorem generationField_inj (lib : Library) {g g' : ℕ} (h : (generationField g).map (canonical lib) =
    (generationField g').map (canonical lib)) : g = g' := by
  unfold generationField at h
  split at h
  · split at h
    · exact canonical_nat_inj (Option.some.inj h)
    · cases h
  · split at h
    · cases h
    · omega

/-- Inputs that name their generation from the first one on. -/
def numbered (inputs : Json) (key : String) (g : ℕ) : Json :=
  if 0 < g then inputs.set key (nat g) else inputs

section Numbered
variable {v : Json} {k : String}

theorem numbered_isObject (h : v.isObject = true) (k : String) (g : ℕ) :
    (numbered v k g).isObject = true := by
  unfold numbered
  split
  · exact isObject_set (assignable_of_isObject h) _ _
  · exact h

theorem numbered_get? (h : v.isObject = true) (hk : v.get? k = none) (g : ℕ) :
    (numbered v k g).get? k = generationField g := by
  unfold numbered generationField
  split
  · rw [Json.get?_set (assignable_of_isObject h),if_pos rfl]
  · exact hk

theorem numbered_get?_ne {l : String} (hl : l ≠ k) (g : ℕ) :
    (numbered v k g).get? l = v.get? l := by
  unfold numbered
  split
  · exact get?_set_ne _ _ hl
  · rfl

end Numbered

/-- The inputs of a dependency version beside its generation. -/
def fingerprintInputs (ids : List ℕ) (e : Json) : Json :=
  .obj [("evidence",e),("producers",.arr (ids.map nat))]

/-- The inputs of an observation version beside its generation. -/
def observedInputs (lib : Library) (policy : Policy) (p : Packet) (src : Sources) : Json :=
  let inputs := .obj [("dependencies",src.evidence),("goalPolicy",.str policy.goalPolicy),
    ("prs",.arr (src.prs.map fun pr => .str (eventVersion lib pr)))]
  if p.dependencies ≠ [] then inputs.set "producers" (.arr ((producers p).map nat)) else inputs

theorem observedInputs_isObject (policy : Policy) (p : Packet) (src : Sources) :
    (observedInputs lib policy p src).isObject = true := by
  unfold observedInputs
  dsimp only
  split <;> rfl

theorem observedInputs_get? (policy : Policy) (p : Packet) (src : Sources) {k : String}
    (hk : k ≠ "producers") : (observedInputs lib policy p src).get? k =
      (Json.obj [("dependencies",src.evidence),("goalPolicy",.str policy.goalPolicy),
        ("prs",.arr (src.prs.map fun pr => .str (eventVersion lib pr)))]).get? k := by
  unfold observedInputs
  dsimp only
  split
  · exact get?_set_ne _ _ hk
  · rfl

theorem fingerprint_inj (hlib : lib.Spells) (hsha : Function.Injective lib.sha256)
    {ids ids' : List ℕ} {e e' : Json} {g g' : ℕ}
    (h : dependencyFingerprint lib ids e g = dependencyFingerprint lib ids' e' g') :
    g = g' ∧ canonical lib e = canonical lib e' := by
  have hkeys := digest_get? hlib hsha
    (numbered_isObject (v := fingerprintInputs ids e) rfl "generation" g)
    (numbered_isObject (v := fingerprintInputs ids' e') rfl "generation" g') h
  constructor
  · have hgeneration := hkeys "generation"
    rw [numbered_get? (v := fingerprintInputs ids e) rfl rfl,
      numbered_get? (v := fingerprintInputs ids' e') rfl rfl] at hgeneration
    exact generationField_inj lib hgeneration
  · have hevidence := hkeys "evidence"
    rw [numbered_get?_ne (by decide),numbered_get?_ne (by decide)] at hevidence
    exact Option.some.inj hevidence

theorem observation_inj (hlib : lib.Spells) (hsha : Function.Injective lib.sha256)
    {policy policy' : Policy} {p p' : Packet} {src src' : Sources} {g g' : ℕ}
    (h : observationVersion lib policy p src g = observationVersion lib policy' p' src' g') :
    g = g' ∧ canonical lib src.evidence = canonical lib src'.evidence ∧
      src.prs.map (eventVersion lib) = src'.prs.map (eventVersion lib) := by
  have hkeys := digest_get? hlib hsha
    (numbered_isObject (observedInputs_isObject policy p src) "dependencyGeneration" g)
    (numbered_isObject (observedInputs_isObject policy' p' src') "dependencyGeneration" g') h
  refine ⟨?_,?_,?_⟩
  · have hgeneration := hkeys "dependencyGeneration"
    rw [numbered_get? (observedInputs_isObject policy p src) (observedInputs_get? _ _ _ (by decide)),
      numbered_get? (observedInputs_isObject policy' p' src')
        (observedInputs_get? _ _ _ (by decide))] at hgeneration
    exact generationField_inj lib hgeneration
  · have hevidence := hkeys "dependencies"
    rw [numbered_get?_ne (by decide),numbered_get?_ne (by decide),observedInputs_get? _ _ _ (by decide),
      observedInputs_get? _ _ _ (by decide)] at hevidence
    exact Option.some.inj hevidence
  · have hprs := hkeys "prs"
    rw [numbered_get?_ne (by decide),numbered_get?_ne (by decide),observedInputs_get? _ _ _ (by decide),
      observedInputs_get? _ _ _ (by decide)] at hprs
    have htexts := canonical_arr_inj hlib (Option.some.inj hprs)
    simp only [List.map_map] at htexts
    have hstr : Function.Injective fun s : String => canonical lib (.str s) :=
      fun s t hst => canonical_str_inj hst
    apply List.map_injective_iff.mpr hstr
    simpa [Function.comp_def] using htexts

theorem evidence_get? {p : Packet} (deps : List (ℕ × String)) {id : ℕ} (h : id ∈ p.dependencies) :
    (evidence p deps).get? (toString id) =
      some (((deps.lookup id).map Json.str).getD .null) := by
  apply lookup_object
  · exact List.mem_map.mpr ⟨id,h,rfl⟩
  · intro y hy
    obtain ⟨id',-,heq⟩ := List.mem_map.mp hy
    obtain ⟨hid,hy⟩ := Prod.mk.inj heq
    rw [← hy,number_inj hid]

theorem feedbackVersion_inj (hlib : lib.Spells) (hsha : Function.Injective lib.sha256) {a b : Json}
    (h : feedbackVersion lib a = feedbackVersion lib b) : prGeneration a = prGeneration b := by
  have hversion : ∀ pr, feedbackVersion lib pr =
      digest lib (numbered (feedbackInputs pr) "feedbackGeneration" (prGeneration pr)) := by
    intro pr
    unfold feedbackVersion numbered prGeneration
    cases hfield : (pr.get "feedbackGeneration").asU64 with
    | none => simp
    | some g =>
      have hnat : pr.get "feedbackGeneration" = nat g := by
        unfold asU64 at hfield
        split at hfield
        · rename_i g' hg'
          split at hfield
          · rw [hg',← Option.some.inj hfield]
            rfl
          · cases hfield
        · cases hfield
      by_cases hg : 0 < g <;> simp [hg,hnat]
  have hnone : ∀ pr, (feedbackInputs pr).get? "feedbackGeneration" = none := by
    intro pr
    apply lookup_object_none
    intro f hf
    obtain ⟨k,hk,rfl⟩ := List.mem_map.mp hf
    rintro rfl
    simp at hk
  have hobject : ∀ pr, (feedbackInputs pr).isObject = true := fun _ => rfl
  rw [hversion,hversion] at h
  have hkey := digest_get? hlib hsha (numbered_isObject (hobject a) _ _)
    (numbered_isObject (hobject b) _ _) h "feedbackGeneration"
  rw [numbered_get? (hobject a) (hnone a),numbered_get? (hobject b) (hnone b)] at hkey
  exact generationField_inj lib hkey

theorem eventVersion_inj (hlib : lib.Spells) (hsha : Function.Injective lib.sha256) {a b : Json}
    (ha : a.isObject = true) (hb : b.isObject = true) (h : eventVersion lib a = eventVersion lib b) :
    (a.get? "feedbackGeneration").map (canonical lib) =
      (b.get? "feedbackGeneration").map (canonical lib) := by
  have hfield : ∀ pr : Json, pr.isObject = true → (Json.obj ((pr.asObject.getD []).filter fun f =>
      !ignored (closed pr) f.1)).get? "feedbackGeneration" = pr.get? "feedbackGeneration" := by
    intro pr hpr
    obtain ⟨fs,rfl⟩ : ∃ fs, pr = .obj fs := by cases pr <;> simp_all [isObject]
    refine (lookup_filter_key (p := fun k => !ignored (closed (.obj fs)) k) fs _).trans ?_
    rw [if_pos (by cases closed (.obj fs) <;> decide)]
    rfl
  have hkey := digest_get? hlib hsha rfl rfl h "feedbackGeneration"
  rwa [hfield a ha,hfield b hb] at hkey

/-- Lists that hold the same addresses are observed in one order. -/
theorem sorted_eq {us vs : List String} (hus : us.Nodup) (hsub : us ⊆ vs)
    (hlen : vs.length ≤ us.length) : us.insertionSort (· ≤ ·) = vs.insertionSort (· ≤ ·) := by
  have hperm : us.Perm vs := (hus.subperm hsub).perm_of_length_le hlen
  exact (((List.perm_insertionSort _ us).trans hperm).trans
    (List.perm_insertionSort _ vs).symm).eq_of_pairwise' (List.pairwise_insertionSort _ us)
      (List.pairwise_insertionSort _ vs)

/-- Evidence once incomplete never reads like evidence that is complete. -/
theorem evidence_ne (hlib : lib.Spells) {p p' : Packet} {deps deps' : List (ℕ × String)}
    (hgrown : ∀ id ∈ p.dependencies, id ∈ p'.dependencies)
    (hincomplete : evidenceComplete p deps = false) (hcomplete : evidenceComplete p' deps' = true) :
    canonical lib (evidence p deps) ≠ canonical lib (evidence p' deps') := by
  intro heq
  obtain ⟨id,hid,hmissing⟩ := List.all_eq_false.mp hincomplete
  have hkept := List.all_eq_true.mp hcomplete id (hgrown id hid)
  have hkey := canonical_get? hlib (show canonical lib (.obj _) = canonical lib (.obj _) from heq)
    (toString id)
  rw [show (Json.obj _).get? _ = _ from evidence_get? deps hid,
    show (Json.obj _).get? _ = _ from evidence_get? deps' (hgrown id hid)] at hkey
  have hvalue := Option.some.inj hkey
  obtain ⟨hash,hhash,hheld⟩ : ∃ hash, deps'.lookup id = some hash ∧ blank hash = false := by
    cases hlookup : deps'.lookup id with
    | none => simp [hlookup] at hkept
    | some hash => exact ⟨hash,rfl,by simpa [hlookup] using hkept⟩
  cases hlookup : deps.lookup id with
  | none =>
    rw [hlookup,hhash] at hvalue
    simp [canonical,string_eq,render] at hvalue
  | some hash' =>
    rw [hlookup,hhash] at hvalue
    have hsame : hash' = hash := canonical_str_inj hvalue
    simp [hlookup,hsame,hheld] at hmissing

/-! ## Counted feedback -/

/-- The row counts feedback of `u` other than `raw` above the generation `g`, or is above
it already. -/
def Remembers (r : Json) (u : String) (g : ℕ) (raw : String) : Prop :=
  let prior := (r.get "feedbackObservations").get u
  g < (prior.get "generation").asU64.getD 0 ∨ (g = (prior.get "generation").asU64.getD 0 ∧
    ((prior.get "version").asStr <|> ((r.get "auditedFeedback").get u).asStr) = some raw)

theorem Remembers.counts {r : Json} {u raw raw' : String} {g g' : ℕ} (h : Remembers r u g raw)
    (hg : feedbackGeneration r u raw' = .ok g') : g < g' ∨ (g = g' ∧ raw' = raw) := by
  unfold Remembers at h
  unfold feedbackGeneration at hg
  dsimp only at h hg
  split at hg
  · obtain ⟨rfl,-⟩ := bump_ok hg
    rcases h with hlt | ⟨rfl,-⟩
    · exact .inl (by omega)
    · exact .inl (by omega)
  · rename_i hsame
    obtain rfl := Except.ok.inj hg
    rcases h with hlt | ⟨heq,hraw⟩
    · exact .inl hlt
    · refine .inr ⟨heq,?_⟩
      rw [hraw] at hsame
      simp only [Option.any_some,decide_eq_true_eq,not_not] at hsame
      exact hsame.symm

/-- What a refresh records is remembered. -/
theorem FeedbackSeen.remembers {u : String} {r r' pr : Json} (h : FeedbackSeen lib u r r' pr) :
    Remembers r' u (prGeneration pr) (digest lib (feedbackInputs pr)) := by
  right
  have hlt := feedbackGeneration_lt h.generation
  rw [h.recorded]
  simp [Json.get,Json.get?,List.lookup,asU64_nat hlt,asStr]

theorem Remembers.kept {r : Json} {u raw raw' : String} {g g' : ℕ} (h : Remembers r u g' raw')
    (hg : g < g' ∨ (g = g' ∧ raw' = raw)) : Remembers r u g raw := by
  rcases hg with hlt | ⟨rfl,rfl⟩
  · rcases h with hlt' | ⟨heq,-⟩
    · exact .inl (by omega)
    · exact .inl (by omega)
  · exact h

/-! ## Refreshes of a run -/

/-- The keys that the operations beside refresh write. -/
def followUpKeys : List String :=
  ["recheckedReport","recheckVersion","idleRecovery","continuationBlocker","recoveryVersion",
    "lastIdleOutcome","admissionGeneration","pending","deliveredVersion",
    "deliveredObservationVersion","deliveredAt","deliveredPreparedAt",
    "deliveredSubmissionAttemptAt","deliveredProgressVersion","goalAckVersion"]

theorem Operation.keys_followUp {op : Operation} (h : ∀ m policy inputs, op ≠ .refresh m policy inputs)
    (n : ℕ) : op.keys n ⊆ followUpKeys := by
  cases op with
  | refresh m policy inputs => exact absurd rfl (h m policy inputs)
  | observe prs => simp [Operation.keys]
  | recheck m policy now =>
    simp only [Operation.keys]
    split <;> decide
  | recover m idle now =>
    simp only [Operation.keys]
    split <;> decide
  | prepare p policy text at_ =>
    simp only [Operation.keys]
    split <;> decide
  | acknowledge m id at_ =>
    simp only [Operation.keys]
    split <;> decide

namespace Run

variable (run : Run lib)

/-- At time `t` a refresh of `m` succeeds, which has the owner `p` under the number `n`. -/
structure Refreshes (t n : ℕ) (m : Manifest) (policy : Policy) (inputs : Inputs) (p : Packet) :
    Prop where
  op : run.op t = .refresh m policy inputs
  ok : ∃ j, Orchestration.refresh lib m (run.state t) policy inputs = .ok j
  owner : p ∈ m.packets
  number : p.number = n

variable {run} {t n : ℕ} {m : Manifest} {policy : Policy} {inputs : Inputs} {p : Packet}

theorem Refreshes.whole (h : run.Refreshes t n m policy inputs p) :
    Refreshed lib m policy inputs (run.state t) (run.state (t+1)) := by
  obtain ⟨j,hj⟩ := h.ok
  have hstate : run.state (t+1) = j := by
    rw [run.step,h.op]
    simp [Operation.apply,hj]
  rw [hstate]
  exact refresh_ok hj

theorem Refreshes.packet (h : run.Refreshes t n m policy inputs p) :
    PacketRefreshed lib policy inputs p (run.state t) (run.state (t+1)) :=
  h.whole.owners p h.owner

theorem Refreshes.row (h : run.Refreshes t n m policy inputs p) (t' : ℕ) :
    (run.state t').row p.number = run.row t' n := by
  rw [h.number]
  rfl

variable (run n)

theorem refreshes_or_same (hop : run.op t = .refresh m policy inputs) :
    (∃ p, run.Refreshes t n m policy inputs p) ∨ run.row (t+1) n = run.row t n := by
  cases hok : Orchestration.refresh lib m (run.state t) policy inputs with
  | error e =>
    right
    rw [row_succ,hop]
    simp [Operation.apply,hok,row]
  | ok j =>
    by_cases hn : ∃ p ∈ m.packets, p.number = n
    · obtain ⟨p,hp,hnumber⟩ := hn
      exact .inl ⟨p,hop,⟨j,hok⟩,hp,hnumber⟩
    · right
      rw [row_succ,hop]
      simp only [Operation.apply,hok]
      exact (refresh_ok hok).others n fun p hp heq => hn ⟨p,hp,heq⟩

variable (t)

/-- A row is refreshed, or only its follow-up fields change. -/
theorem refreshes_or_keeps : (∃ m policy inputs p, run.Refreshes t n m policy inputs p) ∨
    ∀ k ∉ followUpKeys, (run.row (t+1) n).get k = (run.row t n).get k := by
  by_cases hrefresh : ∃ m policy inputs, run.op t = .refresh m policy inputs
  · obtain ⟨m,policy,inputs,hop⟩ := hrefresh
    rcases run.refreshes_or_same n hop with hr | hsame
    · obtain ⟨p,hr⟩ := hr
      exact .inl ⟨m,policy,inputs,p,hr⟩
    · exact .inr fun k _ => by rw [hsame]
  · right
    intro k hk
    refine run.row_keeps fun hmem => hk (Operation.keys_followUp (fun m policy inputs hop => ?_) n hmem)
    exact hrefresh ⟨m,policy,inputs,hop⟩

variable {t n}

/-- After a refresh of an owner there is a last one, and its fields still stand. -/
theorem last_refresh {k : ℕ} (hk : run.Refreshes k n m policy inputs p) (hkt : k < t) :
    ∃ r m' policy' inputs' p', k ≤ r ∧ r < t ∧ run.Refreshes r n m' policy' inputs' p' ∧
      ∀ key ∉ followUpKeys, (run.row t n).get key = (run.row (r+1) n).get key := by
  induction t, hkt using Nat.le_induction with
  | base => exact ⟨k,m,policy,inputs,p,Nat.le_refl _,Nat.lt_succ_self _,hk,fun _ _ => rfl⟩
  | succ t hkt ih =>
    rcases run.refreshes_or_keeps t n with hrefresh | hkeeps
    · obtain ⟨m',policy',inputs',p',hr⟩ := hrefresh
      exact ⟨t,m',policy',inputs',p',by omega,by omega,hr,fun _ _ => rfl⟩
    · obtain ⟨r,m',policy',inputs',p',hkr,hrt,hr,hread⟩ := ih
      exact ⟨r,m',policy',inputs',p',hkr,by omega,hr,
        fun key hkey => (hkeeps key hkey).trans (hread key hkey)⟩

variable {run}

/-- A later refresh is of a manifest accepted after the earlier one. -/
theorem Refreshes.after {s : ℕ} {m' : Manifest} {policy' : Policy} {inputs' : Inputs} {p' : Packet}
    (h : run.Refreshes t n m policy inputs p) (h' : run.Refreshes s n m' policy' inputs' p')
    (hts : t < s) : m.After m' := by
  obtain ⟨old,hold,hafter⟩ := run.retained_after hts h.whole.own h.whole.retained
  exact hafter.trans (validate_iff.mp (h'.whole.extended old hold))

theorem Refreshes.unique {m' : Manifest} {policy' : Policy} {inputs' : Inputs} {p' : Packet}
    (h : run.Refreshes t n m policy inputs p) (h' : run.Refreshes t n m' policy' inputs' p') :
    m = m' ∧ inputs = inputs' ∧ p = p' := by
  obtain ⟨rfl,-,rfl⟩ := Operation.refresh.inj (h.op.symm.trans h'.op)
  exact ⟨rfl,rfl,h.whole.distinct.packet_eq h.owner h'.owner (by rw [h.number,h'.number])⟩

theorem Refreshes.succeeds {s : ℕ} {m' : Manifest} {policy' : Policy} {inputs' : Inputs} {p' : Packet}
    (h : run.Refreshes t n m policy inputs p) (h' : run.Refreshes s n m' policy' inputs' p')
    (hts : t ≤ s) : p.Succeeds p' := by
  rcases Nat.lt_or_eq_of_le hts with hlt | heq
  · obtain ⟨q,hq,hsucc⟩ := (h.after h' hlt).owners p h.owner
    have hqp : q = p' :=
      h'.whole.distinct.packet_eq hq h'.owner (by rw [hsucc.number,h.number,h'.number])
    rwa [hqp] at hsucc
  · subst heq
    rw [(h.unique h').2.2]
    exact .refl p'

/-- A completed campaign has only terminal owners among those refreshed. -/
theorem Refreshes.finished_terminal {k : ℕ} (h : run.Refreshes k n m policy inputs p) (hkt : k < t)
    {m' : Manifest} {active : Activity} {observationOk : Bool}
    (hfinished : finished lib m' (run.state t) active observationOk = true) :
    (run.row t n).get "terminal" = .bool true := by
  obtain ⟨old,hold,hafter⟩ := run.retained_after hkt h.whole.own h.whole.retained
  simp only [finished,Bool.and_eq_true] at hfinished
  obtain ⟨⟨⟨⟨⟨⟨-,hcurrent⟩,-⟩,-⟩,-⟩,-⟩,hpackets⟩ := hfinished
  have hvalid : m'.validate (some old) = .ok () := by
    simp only [manifestCurrent,hold,Bool.and_eq_true] at hcurrent
    cases hv : m'.validate (some old) with
    | error e => simp [hv,Except.isOk,Except.toBool] at hcurrent
    | ok u => rfl
  obtain ⟨q,hq,hsucc⟩ := (hafter.trans (validate_iff.mp hvalid)).owners p h.owner
  have hpacket := List.all_eq_true.mp hpackets q hq
  unfold finishedPacket at hpacket
  dsimp only at hpacket
  split at hpacket
  · cases hpacket
  · simp only [Bool.and_eq_true,decide_eq_true_eq] at hpacket
    rw [← h.number,← hsucc.number]
    exact hpacket.1.1.1.1.1.1.1.1.1

/-! ## Accepted audits -/

/-- At time `s` a refresh accepts the audit item `item` for `u`. -/
structure AuditTaken (run : Run lib) (s n : ℕ) (u : String) (inputs : Inputs) (p : Packet)
    (item : Json) : Prop where
  refresh : ∃ m policy, run.Refreshes s n m policy inputs p
  complete : evidenceComplete p inputs.dependencies = true
  given : ∃ audit, inputs.audits.lookup p.number = some audit ∧ item ∈ (audit.get "prs").items
  named : item.get "url" = .str u
  seen : item.get "feedbackVersion" = .str (feedbackVersion lib ((run.state (s+1)).pr u))
  bound : p.dependencies ≠ [] →
    item.get "dependencyVersion" = (run.row (s+1) n).get "dependencyVersion"

/-- At time `s` a refresh accepts an item of `report` for `u`. -/
structure ReportTaken (run : Run lib) (s n : ℕ) (u : String) (inputs : Inputs) (p : Packet)
    (report : Json) : Prop where
  refresh : ∃ m policy, run.Refreshes s n m policy inputs p
  complete : evidenceComplete p inputs.dependencies = true
  accepted : ReportAccepted inputs p (run.row (s+1) n) report
  named : ∃ item ∈ reportItems report, item.get "url" = .str u

/-- At time `s` a refresh audits `u`, of the owner `n`. -/
structure Audits (run : Run lib) (s n : ℕ) (u : String) (inputs : Inputs) (p : Packet) : Prop where
  refresh : ∃ m policy, run.Refreshes s n m policy inputs p
  assigned : u ∈ p.prs
  taken : (∃ item, run.AuditTaken s n u inputs p item) ∨ ∃ report, run.ReportTaken s n u inputs p report
  feedback : ((run.row (s+1) n).get "auditedFeedback").get u =
    .str (feedbackVersion lib ((run.state (s+1)).pr u))
  dependencies : ((run.row (s+1) n).get "auditedDependencies").get u =
    (run.row (s+1) n).get "dependencyVersion"

/-- What stands for `u` at time `t` stood at time `i` or was accepted since, but for
dependencies forgotten when evidence was missing. -/
def AuditKept (run : Run lib) (i t n : ℕ) (u : String) : Prop :=
  ((run.row t n).get "auditedFeedback").get u = ((run.row i n).get "auditedFeedback").get u ∧
    (((run.row t n).get "auditedDependencies").get u = ((run.row i n).get "auditedDependencies").get u ∨
      ((run.row t n).get "auditedDependencies").get u = .null)

theorem AuditKept.trans {i j k : ℕ} {u : String} (h : run.AuditKept i j n u)
    (h' : run.AuditKept j k n u) : run.AuditKept i k n u := by
  refine ⟨h'.1.trans h.1,?_⟩
  rcases h'.2 with hsame | hnull
  · rcases h.2 with hsame' | hnull'
    · exact .inl (hsame.trans hsame')
    · exact .inr (hsame.trans hnull')
  · exact .inr hnull

variable (run t n)

theorem audits_step (u : String) :
    run.AuditKept t (t+1) n u ∨ ∃ inputs p, run.Audits t n u inputs p := by
  rcases run.refreshes_or_keeps t n with hrefresh | hkeeps
  · obtain ⟨m,policy,inputs,p,hr⟩ := hrefresh
    have haudits := hr.packet.audits u
    rw [hr.row,hr.row] at haudits
    rcases haudits with ⟨hfeedback,hcomplete,hincomplete⟩ | ⟨hcomplete,hu,htaken,hfeedback,hbound⟩
    · left
      refine ⟨hfeedback,?_⟩
      cases hc : evidenceComplete p inputs.dependencies with
      | true => exact .inl (hcomplete hc)
      | false => exact .inr (hincomplete hc)
    · right
      refine ⟨inputs,p,⟨m,policy,hr⟩,hu,?_,hfeedback,hbound⟩
      cases htaken with
      | audit hgiven hlisted hnamed hseen hdeps =>
        exact .inl ⟨_,⟨m,policy,hr⟩,hcomplete,⟨_,hgiven,hlisted⟩,hnamed,hseen,hdeps⟩
      | report haccepted hlisted hnamed =>
        exact .inr ⟨_,⟨m,policy,hr⟩,hcomplete,haccepted,⟨_,hlisted,hnamed⟩⟩
  · left
    exact ⟨by rw [hkeeps _ (by decide)],.inl (by rw [hkeeps _ (by decide)])⟩

variable {t}

/-- An audit stands from `i` on, or the refresh that last accepted it is known. -/
theorem audits_since {i : ℕ} (hit : i ≤ t) (u : String) : run.AuditKept i t n u ∨
    ∃ s inputs p, i ≤ s ∧ s < t ∧ run.Audits s n u inputs p ∧ run.AuditKept (s+1) t n u := by
  induction t, hit using Nat.le_induction with
  | base => exact .inl ⟨rfl,.inl rfl⟩
  | succ t hit ih =>
    rcases run.audits_step t n u with hkept | hnew
    · rcases ih with hold | ⟨s,inputs,p,his,hst,haudits,hold⟩
      · exact .inl (hold.trans hkept)
      · exact .inr ⟨s,inputs,p,his,by omega,haudits,hold.trans hkept⟩
    · obtain ⟨inputs,p,haudits⟩ := hnew
      exact .inr ⟨t,inputs,p,hit,by omega,haudits,⟨rfl,.inl rfl⟩⟩

/-! ## Regressed evidence -/

def generation (t n : ℕ) : ℕ := generationOf (run.row t n)

/-- The generation `g` is over, or it is current and its evidence complete. -/
def Outdates (g t n : ℕ) : Prop :=
  g < run.generation t n ∨ (g = run.generation t n ∧ ¬ incomplete (run.row t n))

variable {n}

theorem generation_step (t : ℕ) : run.generation t n ≤ run.generation (t+1) n := by
  rcases run.refreshes_or_keeps t n with hrefresh | hkeeps
  · obtain ⟨m,policy,inputs,p,hr⟩ := hrefresh
    have hcounts := hr.packet.counts
    rw [hr.row,hr.row] at hcounts
    unfold generation
    cases hc : evidenceComplete p inputs.dependencies with
    | true => exact (hcounts.kept hc).1.ge
    | false =>
      by_cases hflag : incomplete (run.row t n)
      · exact (hcounts.again hc hflag).ge
      · rw [hcounts.bumped hc hflag]
        exact Nat.le_succ _
  · unfold generation generationOf
    rw [hkeeps _ (by decide)]

theorem generation_mono {i : ℕ} (h : i ≤ t) : run.generation i n ≤ run.generation t n := by
  induction t, h using Nat.le_induction with
  | base => exact Nat.le_refl _
  | succ t _ ih => exact ih.trans (run.generation_step t)

variable {run}

theorem Outdates.step {g : ℕ} (h : run.Outdates g t n) : run.Outdates g (t+1) n := by
  rcases run.refreshes_or_keeps t n with hrefresh | hkeeps
  · obtain ⟨m,policy,inputs,p,hr⟩ := hrefresh
    have hmono := run.generation_step (n := n) t
    have hcounts := hr.packet.counts
    rw [hr.row,hr.row] at hcounts
    rcases h with hlt | ⟨heq,hflag⟩
    · exact .inl (by omega)
    · cases hc : evidenceComplete p inputs.dependencies with
      | true =>
        obtain ⟨hsame,hclear⟩ := hcounts.kept hc
        exact .inr ⟨heq.trans hsame.symm,hclear⟩
      | false =>
        have hnext : run.generation (t+1) n = run.generation t n + 1 := hcounts.bumped hc hflag
        exact .inl (by omega)
  · have hsame : run.generation (t+1) n = run.generation t n := by
      unfold generation generationOf
      rw [hkeeps _ (by decide)]
    rw [Outdates,hsame,incomplete,hkeeps _ (by decide)]
    exact h

theorem Outdates.later {g i : ℕ} (h : run.Outdates g i n) (hit : i ≤ t) : run.Outdates g t n := by
  induction t, hit using Nat.le_induction with
  | base => exact h
  | succ t _ ih => exact ih.step

section Regression

variable {i k s : ℕ} {m' m'' : Manifest} {policy' policy'' : Policy} {inputs' inputs'' : Inputs}
  {p' p'' : Packet}

/-- Between two refreshes with complete evidence, one without it starts a generation. -/
theorem Refreshes.generation_lt (hi : run.Refreshes i n m' policy' inputs' p')
    (hcomplete : evidenceComplete p' inputs'.dependencies = true)
    (hk : run.Refreshes k n m policy inputs p)
    (hregressed : evidenceComplete p inputs.dependencies = false) (hik : i < k) :
    run.generation (i+1) n < run.generation (k+1) n := by
  have hcounts := hi.packet.counts
  rw [hi.row,hi.row] at hcounts
  have hstart : run.Outdates (run.generation (i+1) n) (i+1) n := .inr ⟨rfl,(hcounts.kept hcomplete).2⟩
  have hnext := hk.packet.counts
  rw [hk.row,hk.row] at hnext
  rcases (hstart.later (show i+1 ≤ k by omega)) with hlt | ⟨heq,hflag⟩
  · exact Nat.lt_of_lt_of_le hlt (run.generation_step k)
  · have hbumped : run.generation (k+1) n = run.generation k n + 1 := hnext.bumped hregressed hflag
    omega

/-- A version of before the regression is never current with complete evidence after it. -/
theorem Refreshes.versions_ne (hlib : lib.Spells) (hsha : Function.Injective lib.sha256)
    (hi : run.Refreshes i n m' policy' inputs' p') (hk : run.Refreshes k n m policy inputs p)
    (hregressed : evidenceComplete p inputs.dependencies = false)
    (hs : run.Refreshes s n m'' policy'' inputs'' p'')
    (hcomplete : evidenceComplete p'' inputs''.dependencies = true) (hik : i < k) (hks : k ≤ s) :
    (run.row (i+1) n).get "dependencyVersion" ≠ (run.row (s+1) n).get "dependencyVersion" ∧
      (run.row (i+1) n).get "observationVersion" ≠ (run.row (s+1) n).get "observationVersion" := by
  have hdiffer : run.generation (i+1) n ≠ run.generation (s+1) n ∨
      canonical lib (evidence p' inputs'.dependencies) ≠
        canonical lib (evidence p'' inputs''.dependencies) := by
    cases hc : evidenceComplete p' inputs'.dependencies with
    | true =>
      have hlt := hi.generation_lt hc hk hregressed hik
      have hmono := run.generation_mono (n := n) (show k+1 ≤ s+1 by omega)
      exact .inl (by omega)
    | false =>
      exact .inr (evidence_ne hlib (hi.succeeds hs (by omega)).dependencies hc hcomplete)
  have hversion := hi.packet.dependencyVersion
  have hversion' := hs.packet.dependencyVersion
  obtain ⟨record,-,hobservation⟩ := hi.packet.observation
  obtain ⟨record',-,hobservation'⟩ := hs.packet.observation
  rw [hi.row] at hversion hobservation
  rw [hs.row] at hversion' hobservation'
  constructor
  · rw [hversion,hversion',ne_eq,Json.str.injEq]
    intro heq
    obtain ⟨hgeneration,hevidence⟩ := fingerprint_inj hlib hsha heq
    exact hdiffer.elim (· hgeneration) (· hevidence)
  · rw [hobservation,hobservation',ne_eq,Json.str.injEq]
    intro heq
    obtain ⟨hgeneration,hevidence,-⟩ := observation_inj hlib hsha heq
    exact hdiffer.elim (· hgeneration) (· hevidence)

end Regression

/-! ## The delivered observation -/

/-- No request of the owner `n` is acknowledged from `i` on before `t`. -/
def Unacknowledged (run : Run lib) (i t n : ℕ) : Prop :=
  ∀ a id, i ≤ a → a < t → ¬ run.Acknowledges a n id

theorem bound_step (h : (run.row t n).get "deliveredObservationVersion" ≠ .null)
    (hno : ∀ id, ¬ run.Acknowledges t n id) :
    (run.row (t+1) n).get "deliveredObservationVersion" =
      (run.row t n).get "deliveredObservationVersion" := by
  cases hop : run.op t with
  | observe prs => exact run.row_keeps (by simp [hop,Operation.keys])
  | refresh m policy inputs =>
    rcases run.refreshes_or_same n hop with hrefresh | hsame
    · obtain ⟨p,hr⟩ := hrefresh
      have hbound := hr.packet.bound
      rw [hr.row,hr.row] at hbound
      exact hbound h
    · rw [hsame]
  | recheck m policy now =>
    refine run.row_keeps ?_
    rw [hop,Operation.keys]
    split <;> simp
  | recover m idle now =>
    refine run.row_keeps ?_
    rw [hop,Operation.keys]
    split <;> simp
  | prepare p policy text at_ =>
    refine run.row_keeps ?_
    rw [hop,Operation.keys]
    split <;> simp
  | acknowledge m id at_ =>
    rw [row_succ,hop]
    refine acknowledge_get (fun hmn hacc => ?_) _
    subst hmn
    exact hno id ⟨⟨at_,hop,hacc⟩⟩

theorem bound_kept {i : ℕ} (hit : i ≤ t) (h : (run.row i n).get "deliveredObservationVersion" ≠ .null)
    (hno : run.Unacknowledged i t n) : (run.row t n).get "deliveredObservationVersion" =
      (run.row i n).get "deliveredObservationVersion" := by
  induction t, hit using Nat.le_induction with
  | base => rfl
  | succ t hit ih =>
    have hsame := ih fun a id hia hat => hno a id hia (by omega)
    rw [bound_step (by rwa [hsame]) fun id => hno t id hit (by omega),hsame]

/-- Reports accepted at two refreshes answer one observation, when none was delivered between. -/
theorem reports_observation {i s : ℕ} {inputs' : Inputs} {p' : Packet} {report report' : Json}
    (his : i ≤ s) (hi : ReportAccepted inputs p (run.row (i+1) n) report)
    (hs : ReportAccepted inputs' p' (run.row (s+1) n) report')
    (hno : run.Unacknowledged (i+1) (s+1) n) :
    (run.row (i+1) n).get "observationVersion" = (run.row (s+1) n).get "observationVersion" := by
  have hne : (run.row (i+1) n).get "deliveredObservationVersion" ≠ .null := by
    rw [hi.observation]
    intro hnull
    have htext := hi.text
    rw [hnull] at htext
    cases htext
  rw [← hi.observation,← hs.observation,bound_kept (by omega) hne hno]

/-- Regressed evidence retires audits.  Once the producers' evidence of an owner was seen
incomplete, a terminal verdict rests on audits accepted since, each of the dependency
version it is judged by; an item bound to a dependency version of before is not among
them, nor a report on the observation that one had answered before. -/
theorem regressed_evidence_retires (hlib : lib.Spells) (hsha : Function.Injective lib.sha256) {k : ℕ}
    (hk : run.Refreshes k n m policy inputs p)
    (hregressed : evidenceComplete p inputs.dependencies = false) :
    (∀ t, k < t → ((run.row t n).get "terminal" = .bool true ∨
        ∃ m' active ok, finished lib m' (run.state t) active ok = true) →
      ∃ r m' policy' inputs' p', k < r ∧ r < t ∧ run.Refreshes r n m' policy' inputs' p' ∧
        ∀ u ∈ p'.prs, ∃ s inputs'' p'', k < s ∧ s ≤ r ∧ run.Audits s n u inputs'' p'' ∧
          (run.row (s+1) n).get "dependencyVersion" = (run.row t n).get "dependencyVersion") ∧
    (∀ i s u m' policy' inputs' p' inputs'' p'' item, i < k → k ≤ s →
      run.Refreshes i n m' policy' inputs' p' →
      item.get "dependencyVersion" = (run.row (i+1) n).get "dependencyVersion" →
      ¬ run.AuditTaken s n u inputs'' p'' item) ∧
    (∀ i s u m' policy' inputs' p' inputs'' p'' report report', i < k → k ≤ s →
      run.Refreshes i n m' policy' inputs' p' →
      ReportAccepted inputs' p' (run.row (i+1) n) report →
      run.Unacknowledged (i+1) (s+1) n → ¬ run.ReportTaken s n u inputs'' p'' report') := by
  have hproducers : ∀ {s m' policy' inputs' p'}, run.Refreshes s n m' policy' inputs' p' → k ≤ s →
      p'.dependencies ≠ [] := by
    intro s m' policy' inputs' p' hs hks hnil
    obtain ⟨id,hid,-⟩ := List.all_eq_false.mp hregressed
    have hmem := (hk.succeeds hs hks).dependencies id hid
    rw [hnil] at hmem
    cases hmem
  refine ⟨fun t hkt hdone => ?_,?_,?_⟩
  · have hterminal : (run.row t n).get "terminal" = .bool true := by
      rcases hdone with hterminal | ⟨m',active,ok,hfinished⟩
      · exact hterminal
      · exact hk.finished_terminal hkt hfinished
    obtain ⟨r,m',policy',inputs',p',hkr,hrt,hr,hread⟩ := run.last_refresh hk hkt
    have hverdict := hr.packet.verdict
    rw [hr.row] at hverdict
    obtain ⟨hcomplete,hurls⟩ := hverdict (by rw [← hread _ (by decide),hterminal])
    have hne : k ≠ r := by
      rintro rfl
      obtain ⟨-,rfl,rfl⟩ := hk.unique hr
      rw [hregressed] at hcomplete
      cases hcomplete
    refine ⟨r,m',policy',inputs',p',by omega,hrt,hr,fun u hu => ?_⟩
    obtain ⟨-,-,hbound⟩ := hurls u hu
    have hbound := hbound (hproducers hr hkr)
    have hversion := hr.packet.dependencyVersion
    rw [hr.row] at hversion
    -- nothing stood right after the regression
    have hforgotten : ((run.row (k+1) n).get "auditedDependencies").get u = .null := by
      have haudits := hk.packet.audits u
      rw [hk.row,hk.row] at haudits
      rcases haudits with ⟨-,-,hnull⟩ | ⟨hcomplete',-⟩
      · exact hnull hregressed
      · rw [hregressed] at hcomplete'
        cases hcomplete'
    have hstands : ((run.row (r+1) n).get "auditedDependencies").get u ≠ .null := by
      rw [hbound,hversion]
      simp
    rcases run.audits_since n (show k+1 ≤ r+1 by omega) u with hold | hnew
    · rcases hold.2 with hsame | hnull
      · exact absurd (hsame.trans hforgotten) hstands
      · exact absurd hnull hstands
    · obtain ⟨s,inputs'',p'',hks,hsr,haudits,hold⟩ := hnew
      refine ⟨s,inputs'',p'',by omega,by omega,haudits,?_⟩
      rcases hold.2 with hsame | hnull
      · rw [hread _ (by decide),← hbound,hsame,haudits.dependencies]
      · exact absurd hnull hstands
  · intro i s u m' policy' inputs' p' inputs'' p'' item hik hks hi hitem htaken
    obtain ⟨m'',policy'',hs⟩ := htaken.refresh
    have hne := (hi.versions_ne hlib hsha hk hregressed hs htaken.complete hik hks).1
    exact hne (hitem.symm.trans (htaken.bound (hproducers hs hks)))
  · intro i s u m' policy' inputs' p' inputs'' p'' report report' hik hks hi hreport hno htaken
    obtain ⟨m'',policy'',hs⟩ := htaken.refresh
    have hne := (hi.versions_ne hlib hsha hk hregressed hs htaken.complete hik hks).2
    exact hne (reports_observation (by omega) hreport htaken.accepted hno)

/-! A run in which an imported audit is retired twice: its pull request was merged since,
and the producer's evidence is missing at the first refresh. -/

def retiringLibrary : Library := tableLibrary
  [("\x7b\"comments\":null,\"head\":\"h1\",\"inlineComments\":null,\"issueComments\":null," ++
      "\"mergeCommit\":null,\"reviews\":null,\"state\":\"CLOSED\",\"threads\":null," ++
      "\"url\":\"one\"\x7d",
      "f8c6c97fc80b6b3a96caa4966d3229c5215b1f0258880e4c5d3b60a92f2ff078"),
    ("\x7b\"comments\":null,\"head\":\"h1\",\"inlineComments\":null,\"issueComments\":null," ++
      "\"mergeCommit\":null,\"reviews\":null,\"state\":\"MERGED\",\"threads\":null," ++
      "\"url\":\"one\"\x7d",
      "3fc91bdebf76b7d790756a021e2276be25484462342a514dd7e7bc28b2002b81"),
    ("\x7b\"evidence\":\x7b\"2\":null\x7d,\"generation\":1,\"producers\":[2]\x7d",
      "361a66aaef74bd1a1566c173b360de6aa5bd52b11289dd3119988ec428096a65"),
    ("\x7b\"feedbackGeneration\":1,\"head\":\"h1\",\"state\":\"MERGED\",\"url\":\"one\"\x7d",
      "8d5db3e2d87a848babca9ca29762a00951e4bb70989eed62b89b47a335305819"),
    ("\x7b\"dependencies\":\x7b\"2\":null\x7d,\"dependencyGeneration\":1," ++
      "\"goalPolicy\":\"goal-1\",\"producers\":[2]," ++
      "\"prs\":[\"8d5db3e2d87a848babca9ca29762a00951e4bb70989eed62b89b47a335305819\"]\x7d",
      "694f8ec8d1ab697ab8ae0bbfbc79b8b99fd302a1dfcb7783ab099a5325af4a9e"),
    ("\x7b\"dependencies\":\x7b\"2\":null\x7d,\"dependencyGeneration\":1," ++
      "\"goalPolicy\":\"goal-1\",\"producers\":[2],\"progressVersion\":null," ++
      "\"prs\":[\"8d5db3e2d87a848babca9ca29762a00951e4bb70989eed62b89b47a335305819\"]\x7d",
      "0473ba2931199415d4eac928683a34063dd5934cfba25d842c931efb8d2c1fb2"),
    ("\x7b\"comments\":null,\"head\":null,\"inlineComments\":null,\"issueComments\":null," ++
      "\"mergeCommit\":null,\"reviews\":null,\"state\":null,\"threads\":null," ++
      "\"url\":\"two\"\x7d",
      "ad2d9e713bb0c546dbf0435cad71c45a6402b8277d28362cc2b9f300d4ee596c"),
    ("\x7b\"evidence\":\x7b\x7d,\"producers\":[]\x7d",
      "12408370892d48ff113860a9fb4f74289a82c30f8a9a1dd05ef539c7a9d056d7"),
    ("\x7b\"url\":\"two\"\x7d",
      "79db042af060dc2d2dd0ba005af344267d8fbf188a6d48b95866110934461e60"),
    ("\x7b\"dependencies\":\x7b\x7d,\"goalPolicy\":\"goal-1\"," ++
      "\"prs\":[\"79db042af060dc2d2dd0ba005af344267d8fbf188a6d48b95866110934461e60\"]\x7d",
      "c6da3379454d236b477211e21e231300e53cd2582ea3bd7ede8da2531fd3099c"),
    ("\x7b\"dependencies\":\x7b\x7d,\"goalPolicy\":\"goal-1\",\"progressVersion\":null," ++
      "\"prs\":[\"79db042af060dc2d2dd0ba005af344267d8fbf188a6d48b95866110934461e60\"]\x7d",
      "b8bb6cb5570b8ed505b4ea874a779f02ecbbca9c0e585d64d64f0a8d44915cad"),
    ("\x7b\"evidence\":\x7b\"2\":\"sha256-p\"\x7d,\"generation\":1,\"producers\":[2]\x7d",
      "de4bdf45b9c5106926d1b23ebc2aa8e2bc5ecf1daba4bc10f3f87b8664ccfde9"),
    ("\x7b\"dependencies\":\x7b\"2\":\"sha256-p\"\x7d,\"dependencyGeneration\":1," ++
      "\"goalPolicy\":\"goal-1\",\"producers\":[2]," ++
      "\"prs\":[\"8d5db3e2d87a848babca9ca29762a00951e4bb70989eed62b89b47a335305819\"]\x7d",
      "48cc224f832740f5bbabb4715c6a3d6128a86e984297f169b8a7f00e618c1c32"),
    ("\x7b\"dependencies\":\x7b\"2\":\"sha256-p\"\x7d,\"dependencyGeneration\":1," ++
      "\"goalPolicy\":\"goal-1\",\"producers\":[2],\"progressVersion\":null," ++
      "\"prs\":[\"8d5db3e2d87a848babca9ca29762a00951e4bb70989eed62b89b47a335305819\"]\x7d",
      "6ba7a8224150f3f11bcefe65c6de0679621974b4ef3669efc20119b8c0729da0"),
    ("\x7b\"comments\":null,\"feedbackGeneration\":1,\"head\":\"h1\",\"inlineComments\":null," ++
      "\"issueComments\":null,\"mergeCommit\":null,\"reviews\":null,\"state\":\"MERGED\"," ++
      "\"threads\":null,\"url\":\"one\"\x7d",
      "eb8a4bcf8c2b72104f22a505ff0e09dcafbb60e25c6a2cc93a10bfdfc660f1a8")]

def retiringPolicy : Policy := ⟨"goal-1",[],[],[],[]⟩

def retiringOwner : Packet := ⟨1,"ses_one","builder","Owner 1",["one"],[],[],[2],∅⟩

/-- The record that the imported audit saw. -/
def auditedRecord : Json :=
  .obj [("url",.str "one"),("state",.str "CLOSED"),("head",.str "h1")]

def retiringJournal : Journal where
  retained := some (.ok original)
  prs := .obj [("one",.obj [("url",.str "one"),("state",.str "MERGED"),("head",.str "h1")])]
  packets := .obj [("1",.obj [("auditedFeedback",.obj [("one",
    .str "f8c6c97fc80b6b3a96caa4966d3229c5215b1f0258880e4c5d3b60a92f2ff078")])])]

/-- The audit of the merged pull request under the new generation. -/
def freshAudit : Json :=
  .obj [("packet",nat 1),("prs",.arr [.obj [("url",.str "one"),("evidence",.str "checked"),
    ("feedbackVersion",.str "eb8a4bcf8c2b72104f22a505ff0e09dcafbb60e25c6a2cc93a10bfdfc660f1a8"),
    ("dependencyVersion",
      .str "de4bdf45b9c5106926d1b23ebc2aa8e2bc5ecf1daba4bc10f3f87b8664ccfde9")]])]

def retiringOps : ℕ → Operation
  | 0 => .refresh original retiringPolicy ⟨[],[],[]⟩
  | 1 => .refresh original retiringPolicy ⟨[],[(1,freshAudit)],[(2,"sha256-p")]⟩
  | _ => .observe (.obj [])

def retiring : Run retiringLibrary := .start retiringLibrary retiringJournal retiringOps

theorem retiring_injective : Function.Injective retiringLibrary.sha256 :=
  tableHash_injective (by decide +kernel) (by decide +kernel)

theorem exists_of_isOk {ε α : Type} {x : Except ε α} (h : x.isOk = true) : ∃ a, x = .ok a := by
  cases x with
  | error e => cases h
  | ok a => exact ⟨a,rfl⟩

/-- What the run shows: its first refresh succeeds, its second one ends in a verdict, and between
the two the record has changed since the imported audit. -/
structure RetiringShown : Prop where
  refreshed : (refresh retiringLibrary original (retiring.state 0) retiringPolicy ⟨[],[],[]⟩).isOk =
    true
  terminal : (retiring.row 2 1).get "terminal" = .bool true
  unobserved : ((retiring.row 0 1).get "feedbackObservations").get "one" = .null
  audited : ((retiring.row 0 1).get "auditedFeedback").get "one" =
    .str (feedbackVersion retiringLibrary auditedRecord)
  changed : canonical retiringLibrary (feedbackInputs ((retiring.state 1).pr "one")) ≠
    canonical retiringLibrary (feedbackInputs auditedRecord)

theorem retiring_shown : RetiringShown where
  refreshed := by decide +kernel
  terminal := by decide +kernel
  unobserved := by decide +kernel
  audited := by decide +kernel
  changed := by decide +kernel

-- the imported row has no verdict yet
example : (retiring.row 0 1).get "terminal" = .null := by decide +kernel

theorem retiring_refreshes : retiring.Refreshes 0 1 original retiringPolicy ⟨[],[],[]⟩
    retiringOwner where
  op := rfl
  ok := exists_of_isOk retiring_shown.refreshed
  owner := by simp [original,retiringOwner]
  number := rfl

theorem retiring_terminal : (retiring.row 2 1).get "terminal" = .bool true := retiring_shown.terminal

/-- The verdict of the second refresh rests on an audit accepted since the first. -/
theorem retiring_evidence :
    ∃ s inputs p, 0 < s ∧ s ≤ 1 ∧ retiring.Audits s 1 "one" inputs p := by
  obtain ⟨r,m,policy,inputs,p,-,hr,hrefresh,hurls⟩ :=
    (regressed_evidence_retires (tableLibrary_spells _) retiring_injective retiring_refreshes rfl).1
      2 (by omega) (.inl retiring_terminal)
  have hone : "one" ∈ p.prs :=
    (retiring_refreshes.succeeds hrefresh (Nat.zero_le r)).prs "one" (by simp [retiringOwner])
  obtain ⟨s,inputs',p',hs,hsr,haudits,-⟩ := hurls "one" hone
  exact ⟨s,inputs',p',hs,by omega,haudits⟩

/-! ## Changed feedback -/

section Memory

variable {u raw : String} {g : ℕ}

theorem Refreshes.remembers (h : run.Refreshes t n m policy inputs p) (hu : u ∈ p.prs)
    (hmemory : Remembers (run.row t n) u g raw) :
    (g < prGeneration ((run.state (t+1)).pr u) ∨ (g = prGeneration ((run.state (t+1)).pr u) ∧
        digest lib (feedbackInputs ((run.state (t+1)).pr u)) = raw)) ∧
      Remembers (run.row (t+1) n) u g raw := by
  have hseen := h.packet.feedback u hu
  rw [h.row,h.row] at hseen
  have hcounts := hmemory.counts hseen.generation
  exact ⟨hcounts,hseen.remembers.kept hcounts⟩

/-- What is remembered of an assigned record stays so. -/
theorem remembers_later {i : ℕ} (hi : run.Refreshes i n m policy inputs p) (hu : u ∈ p.prs)
    (hmemory : Remembers (run.row (i+1) n) u g raw) (hit : i+1 ≤ t) :
    Remembers (run.row t n) u g raw := by
  induction t, hit using Nat.le_induction with
  | base => exact hmemory
  | succ t hit ih =>
    rcases run.refreshes_or_keeps t n with hrefresh | hkeeps
    · obtain ⟨m',policy',inputs',p',hr⟩ := hrefresh
      exact (hr.remembers ((hi.succeeds hr (by omega)).prs u hu) ih).2
    · unfold Remembers
      rw [hkeeps _ (by decide),hkeeps _ (by decide)]
      exact ih

end Memory

/-- An audit of `u` stands before time `k` that saw the record `pr`: one accepted in this
run, or an imported one, whose feedback is not yet counted. -/
def Certified (run : Run lib) (k n : ℕ) (u : String) (pr : Json) : Prop :=
  (∃ i inputs p, i < k ∧ run.Audits i n u inputs p ∧ pr = (run.state (i+1)).pr u) ∨
    (((run.row k n).get "feedbackObservations").get u = .null ∧
      ((run.row k n).get "auditedFeedback").get u = .str (feedbackVersion lib pr) ∧
      prGeneration pr = 0)

theorem Certified.remembers {k : ℕ} {u : String} {pr : Json} (h : run.Certified k n u pr) :
    Remembers (run.row k n) u (prGeneration pr) (digest lib (feedbackInputs pr)) := by
  rcases h with ⟨i,inputs,p,hik,haudits,rfl⟩ | ⟨hnull,hfeedback,hgeneration⟩
  · obtain ⟨m,policy,hi⟩ := haudits.refresh
    have hseen := hi.packet.feedback u haudits.assigned
    rw [hi.row,hi.row] at hseen
    exact remembers_later hi haudits.assigned hseen.remembers hik
  · right
    have hversion : feedbackVersion lib pr = digest lib (feedbackInputs pr) := by
      unfold feedbackVersion
      rw [if_neg]
      unfold prGeneration at hgeneration
      cases hfield : (pr.get "feedbackGeneration").asU64 <;> simp_all
    rw [hnull,hfeedback,hgeneration,hversion]
    simp [asU64,asStr]

/-- From changed feedback on, every refresh sees a later generation. -/
theorem Certified.generation_lt (hsha : Function.Injective lib.sha256) {k s : ℕ} {u : String}
    {pr : Json} (h : run.Certified k n u pr) (hk : run.Refreshes k n m policy inputs p)
    (hu : u ∈ p.prs) (hchanged : canonical lib (feedbackInputs ((run.state (k+1)).pr u)) ≠
      canonical lib (feedbackInputs pr)) {m' : Manifest} {policy' : Policy} {inputs' : Inputs}
    {p' : Packet} (hs : run.Refreshes s n m' policy' inputs' p') (hks : k ≤ s) :
    prGeneration pr < prGeneration ((run.state (s+1)).pr u) := by
  have hstart : prGeneration pr < prGeneration ((run.state (k+1)).pr u) := by
    rcases (hk.remembers hu h.remembers).1 with hlt | ⟨-,hsame⟩
    · exact hlt
    · exact absurd (digest_canonical hsha hsame) hchanged
  rcases Nat.lt_or_eq_of_le hks with hlt | heq
  · have hseen := hk.packet.feedback u hu
    rw [hk.row,hk.row] at hseen
    have hlater := remembers_later hk hu hseen.remembers (show k+1 ≤ s by omega)
    have hus : u ∈ p'.prs := (hk.succeeds hs hks).prs u hu
    rcases (hs.remembers hus hlater).1 with hnext | ⟨hnext,-⟩
    · omega
    · omega
  · rwa [← heq]

/-- Reports accepted before and after changed feedback answer different observations. -/
theorem observations_ne (hlib : lib.Spells) (hsha : Function.Injective lib.sha256) {i s : ℕ}
    {u : String} {m' : Manifest} {policy' : Policy} {inputs' : Inputs} {p' : Packet}
    (hi : run.Refreshes i n m policy inputs p) (hs : run.Refreshes s n m' policy' inputs' p')
    (his : i ≤ s) (hu : u ∈ p.prs)
    (hlt : prGeneration ((run.state (i+1)).pr u) < prGeneration ((run.state (s+1)).pr u)) :
    (run.row (i+1) n).get "observationVersion" ≠ (run.row (s+1) n).get "observationVersion" := by
  obtain ⟨record,hrecord,hobservation⟩ := hi.packet.observation
  obtain ⟨record',hrecord',hobservation'⟩ := hs.packet.observation
  rw [hi.row] at hobservation
  rw [hs.row] at hobservation'
  rw [hobservation,hobservation',ne_eq,Json.str.injEq]
  intro heq
  obtain ⟨-,-,hevents⟩ := observation_inj hlib hsha heq
  have hsucc := hi.succeeds hs his
  have hlen : p'.prs.length = p.prs.length := by
    have hlen := congrArg List.length hevents
    simp only [List.length_map,List.length_insertionSort] at hlen
    exact hlen.symm
  have hsorted := sorted_eq (hi.whole.distinct.urls_nodup hi.owner) hsucc.prs hlen.le
  simp only [← hsorted,List.map_map,List.map_inj_left] at hevents
  have hmem : u ∈ p.prs.insertionSort (· ≤ ·) := (List.mem_insertionSort _).mpr hu
  have hkey := eventVersion_inj hlib hsha (hrecord u hu).2 (hrecord' u (hsucc.prs u hu)).2
    (hevents u hmem)
  rw [(hrecord u hu).1,(hrecord' u (hsucc.prs u hu)).1] at hkey
  have hsame := generationField_inj lib hkey
  omega

/-- Changed feedback retires audits.  Once a refresh has observed feedback of `u` other than
that an audit of it was bound to, a terminal verdict never rests on that audit: it names
other feedback, accepted from an audit that names it; an item that names the audited feedback
is not accepted again, nor a report on the observation that had been answered. -/
theorem changed_feedback_retires (hlib : lib.Spells) (hsha : Function.Injective lib.sha256) {k : ℕ}
    {u : String} {pr : Json} (hk : run.Refreshes k n m policy inputs p) (hu : u ∈ p.prs)
    (hcertified : run.Certified k n u pr)
    (hchanged : canonical lib (feedbackInputs ((run.state (k+1)).pr u)) ≠
      canonical lib (feedbackInputs pr)) :
    (∀ t, k < t → ((run.row t n).get "terminal" = .bool true ∨
        ∃ m' active ok, finished lib m' (run.state t) active ok = true) →
      ((run.row t n).get "auditedFeedback").get u ≠ .str (feedbackVersion lib pr) ∧
      ∃ s inputs' p', s < t ∧ run.Audits s n u inputs' p' ∧
        ((run.row t n).get "auditedFeedback").get u =
          .str (feedbackVersion lib ((run.state (s+1)).pr u))) ∧
    (∀ s inputs' p' item, k ≤ s → run.AuditTaken s n u inputs' p' item →
      item.get "feedbackVersion" ≠ .str (feedbackVersion lib pr)) ∧
    (∀ i s inputs' p' inputs'' p'' report report', i < k → k ≤ s → run.Audits i n u inputs' p' →
      pr = (run.state (i+1)).pr u → run.ReportTaken i n u inputs' p' report →
      run.Unacknowledged (i+1) (s+1) n → ¬ run.ReportTaken s n u inputs'' p'' report') := by
  have hlater : ∀ {s m' policy' inputs' p'}, run.Refreshes s n m' policy' inputs' p' → k ≤ s →
      feedbackVersion lib ((run.state (s+1)).pr u) ≠ feedbackVersion lib pr := by
    intro s m' policy' inputs' p' hs hks heq
    have hlt := hcertified.generation_lt hsha hk hu hchanged hs hks
    have hsame := feedbackVersion_inj hlib hsha heq
    omega
  refine ⟨fun t hkt hdone => ?_,?_,?_⟩
  · have hterminal : (run.row t n).get "terminal" = .bool true := by
      rcases hdone with hterminal | ⟨m',active,ok,hfinished⟩
      · exact hterminal
      · exact hk.finished_terminal hkt hfinished
    obtain ⟨r,m',policy',inputs',p',hkr,hrt,hr,hread⟩ := run.last_refresh hk hkt
    have hverdict := hr.packet.verdict
    rw [hr.row] at hverdict
    obtain ⟨-,hurls⟩ := hverdict (by rw [← hread _ (by decide),hterminal])
    obtain ⟨-,hfeedback,-⟩ := hurls u ((hk.succeeds hr hkr).prs u hu)
    have hne := hlater hr hkr
    have hrow : ((run.row t n).get "auditedFeedback").get u =
        .str (feedbackVersion lib ((run.state (r+1)).pr u)) := by
      rw [hread _ (by decide),hfeedback]
    refine ⟨by rw [hrow]; simpa using hne,?_⟩
    -- what stood before was of the audited feedback, so this was accepted since
    obtain ⟨i,hit,hstood⟩ : ∃ i ≤ t, ((run.row i n).get "auditedFeedback").get u =
        .str (feedbackVersion lib pr) := by
      rcases hcertified with ⟨i,inputs,p,hik,haudits,rfl⟩ | ⟨-,hstood,-⟩
      · exact ⟨i+1,by omega,haudits.feedback⟩
      · exact ⟨k,by omega,hstood⟩
    rcases run.audits_since n hit u with hold | hnew
    · rw [hold.1,hstood,Json.str.injEq] at hrow
      exact absurd hrow.symm hne
    · obtain ⟨s,inputs'',p'',-,hst,haudits,hold⟩ := hnew
      exact ⟨s,inputs'',p'',hst,haudits,hold.1.trans haudits.feedback⟩
  · intro s inputs' p' item hks htaken hitem
    obtain ⟨m',policy',hs⟩ := htaken.refresh
    rw [htaken.seen,Json.str.injEq] at hitem
    exact hlater hs hks hitem
  · intro i s inputs' p' inputs'' p'' report report' hik hks haudits hpr hreport hno htaken
    obtain ⟨m',policy',hi⟩ := haudits.refresh
    obtain ⟨m'',policy'',hs⟩ := htaken.refresh
    have hlt := hcertified.generation_lt hsha hk hu hchanged hs hks
    rw [hpr] at hlt
    exact observations_ne hlib hsha hi hs (by omega) haudits.assigned hlt
      (reports_observation (by omega) hreport.accepted htaken.accepted hno)

theorem retiring_certified : retiring.Certified 0 1 "one" auditedRecord :=
  .inr ⟨retiring_shown.unobserved,retiring_shown.audited,rfl⟩

theorem retiring_changed : canonical retiringLibrary (feedbackInputs ((retiring.state 1).pr "one")) ≠
    canonical retiringLibrary (feedbackInputs auditedRecord) := retiring_shown.changed

/-- The merged pull request is terminal on an audit of its own feedback. -/
theorem retiring_feedback : ((retiring.row 2 1).get "auditedFeedback").get "one" ≠
    .str (feedbackVersion retiringLibrary auditedRecord) :=
  ((changed_feedback_retires (tableLibrary_spells _) retiring_injective retiring_refreshes
    (by simp [retiringOwner]) retiring_certified retiring_changed).1 2 (by omega)
      (.inl retiring_terminal)).1

end Run

end Orchestration
end CanixToolbelt
