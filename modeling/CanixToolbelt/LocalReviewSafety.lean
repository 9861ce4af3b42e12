import CanixToolbelt.LocalReview

/-! One enqueue for every intent and one job for every submission, over every sequence of
calls on one state directory. -/
namespace CanixToolbelt
namespace LocalReview
open Effect Review Fallible Script

variable {platform : Platform} {w w' : World} {r : RoborevLocalRequest} {task : Task}
  {intent : Intent} {u : Unit}

/-! ## Logs -/

/-- The lists of jobs that the daemon replied with. -/
def listings (log : Log) : List (List Json) :=
  log.filterMap fun e => match e with
    | ⟨.jobs _,.ok js⟩ => some js
    | _ => none

/-- The intents whose enqueue was sent, and the jobs that it was answered with. -/
def sent (log : Log) : List Intent :=
  log.filterMap fun e => match e with
    | ⟨.enqueue intent _,_⟩ => some intent
    | _ => none

def enqueuedJobs (log : Log) : List Json :=
  log.filterMap fun e => match e with
    | ⟨.enqueue _ _,.ok job⟩ => some job
    | _ => none

/-! ## What may be asked -/

/-- What holds between two calls. -/
structure Sound (platform : Platform) (w : World) : Prop where
  anchored : ∀ i ∈ w.enqueued, w.files.anchor (key platform i) = true
  once : (w.enqueued.map (key platform)).Nodup

/-- The job that a key has on record. -/
def Stored (w : World) (k : String) (job : Json) : Prop :=
  ∃ saved : Submission, w.files.ledger k = some (.ledger saved) ∧ saved.job = some job

/-- The record before an enqueue: the jobs listed in this call are its baseline. -/
structure First (platform : Platform) (w : World) (r : RoborevLocalRequest) (intent : Intent)
    (saved : Submission) : Prop where
  intent : saved.intent = intent
  snapshot : r.snapshot = some saved.snapshot
  range : saved.gitRef = r.gitRef
  digest : saved.diffDigest = diffDigest platform r
  baseline : ∃ listed, listings w.log = [listed] ∧ listed.mapM jobId = .ok saved.baseline
  job : saved.job = none
  unsent : sent w.log = []

/-- Two records of one submission. -/
structure Same (old new : Submission) : Prop where
  intent : new.intent = old.intent
  snapshot : new.snapshot = old.snapshot
  range : new.gitRef = old.gitRef
  baseline : new.baseline = old.baseline
  digest : new.diffDigest = old.diffDigest

/-- An inspection of this very submission takes the only listed job that matches and is not
in the baseline, for a working-tree review with exactly the captured diff. -/
def Adopted (platform : Platform) (w : World) (task : Task) (old : Submission) (job : Json) : Prop :=
  ∃ r candidate policy intent all listed, task = .inspect r candidate policy (some intent) ∧
    foreign platform r candidate policy intent old = false ∧ listings w.log = [all] ∧
    all.filter (adoptable r old) = [listed] ∧
    ((r.diff = none ∧ job = listed) ∨
      (matchesJob r job = true ∧ matchesDiff r job = true ∧ job.get "id" = listed.get "id" ∧
        job.get "uuid" = listed.get "uuid"))

/-- The job that the enqueue of this call was answered with. -/
structure Replied (w : World) (r : RoborevLocalRequest) (job : Json) : Prop where
  reply : enqueuedJobs w.log = [job]
  fits : matchesJob r job = true
  diff : matchesDiff r job = true

/-- A record with the job of a submission: the one it had, or one that it may take. -/
structure Next (platform : Platform) (w : World) (task : Task) (old new : Submission) : Prop where
  same : Same old new
  job : ∃ job, new.job = some job ∧ (receipt job).isOk ∧
    (∀ prior, old.job = some prior → jobId job = jobId prior ∧ job.get "uuid" = prior.get "uuid") ∧
    (old.job = none → Adopted platform w task old job ∨
      ∃ r intent, task = .submit r intent ∧ Replied w r job)

/-- An enqueue: nothing of its intent was there when the call began, it is on record, and it
is the first of the call. -/
structure Enqueuable (platform : Platform) (w : World) (intent : Intent) (body : Json) : Prop where
  task : ∃ r, w.current = some (.submit r intent) ∧ body = enqueueBody r ∧
    ∃ saved, w.files.ledger (key platform intent) = some (.ledger saved) ∧
      First platform w r intent saved
  unenqueued : key platform intent ∉ w.enqueued.map (key platform)
  anchored : w.files.anchor (key platform intent) = true
  unclaimed : w.began.anchor (key platform intent) = false
  unstored : w.began.ledger (key platform intent) = none

/-- A record is the first of its intent, or follows the one that is stored. -/
def Writable (platform : Platform) (w : World) (k : String) (new : Submission) : Prop :=
  ∃ task intent, w.current = some task ∧ task.intent = some intent ∧ k = key platform intent ∧
    ((∃ r, task = .submit r intent ∧ w.files.ledger k = none ∧ First platform w r intent new) ∨
      ∃ old, w.files.ledger k = some (.ledger old) ∧ Next platform w task old new)

def Allowed (platform : Platform) (w : World) : Req → Prop
  | .inr (.enqueue intent body) => Enqueuable platform w intent body
  | .inl (.write k new) => Writable platform w k new
  | _ => True

/-! ## What a run keeps -/

theorem Sound.grow (h : Sound platform w) (henqueued : w'.enqueued = w.enqueued)
    (hanchor : ∀ k, w.files.anchor k = true → w'.files.anchor k = true) : Sound platform w' := by
  constructor
  · rw [henqueued]
    exact fun i hi => hanchor _ (h.anchored i hi)
  · rw [henqueued]
    exact h.once

/-- A lock file is never removed. -/
theorem anchor_mono {q : Ledger.Req Submission} {d d' : Ledger.Directory Submission}
    {r : Except Error (Ledger.Rep q)} (h : Ledger.answers q d r d') {k : String}
    (hk : d.anchor k = true) : d'.anchor k = true := by
  cases q with
  | openLock key =>
    cases r with
    | error e =>
      rcases h with rfl | rfl
      · exact hk
      · exact d.opened_mono hk
    | ok fresh =>
      obtain ⟨-,rfl⟩ := h
      exact d.opened_mono hk
  | read key =>
    obtain ⟨rfl,-⟩ := h
    exact hk
  | write key saved =>
    rcases h with rfl | ⟨rfl,-⟩
    · exact hk
    · exact hk
  | createDir | tryLock =>
    obtain rfl : d' = d := h
    exact hk

theorem Sound.answer {q : Req} {a : Except Error (Rep q)} (h : Sound platform w)
    (hq : Allowed platform w q) (ha : answers q w a w') : Sound platform w' := by
  cases q with
  | inl q =>
    obtain ⟨files,ha,rfl⟩ := ha
    exact h.grow rfl fun k => anchor_mono ha
  | inr q =>
    obtain ⟨-,rfl⟩ := ha
    cases q with
    | enqueue i body =>
      constructor
      · intro j hj
        rcases List.mem_cons.mp hj with rfl | hj
        · exact hq.anchored
        · exact h.anchored j hj
      · exact List.nodup_cons.mpr ⟨hq.unenqueued,h.once⟩
    | vacant | jobs | get => exact h.grow rfl fun _ hk => hk

/-- A job on record, by its identity. -/
def Recorded (w : World) (k id uuid : String) : Prop :=
  ∃ job, Stored w k job ∧ jobId job = .ok id ∧ job.get "uuid" = .str uuid

theorem Recorded.answer {k id uuid : String} {q : Req} {a : Except Error (Rep q)}
    (h : Recorded w k id uuid) (hq : Allowed platform w q) (ha : answers q w a w') :
    Recorded w' k id uuid := by
  obtain ⟨job,⟨saved,hk,hjob⟩,hid,huuid⟩ := h
  cases q with
  | inr q =>
    obtain ⟨-,rfl⟩ := ha
    exact ⟨job,⟨saved,hk,hjob⟩,hid,huuid⟩
  | inl q =>
    obtain ⟨files,ha,rfl⟩ := ha
    cases q with
    | openLock key =>
      cases a with
      | error e => rcases ha with rfl | rfl <;> exact ⟨job,⟨saved,hk,hjob⟩,hid,huuid⟩
      | ok fresh =>
        obtain ⟨-,rfl⟩ := ha
        exact ⟨job,⟨saved,hk,hjob⟩,hid,huuid⟩
    | read key =>
      obtain ⟨rfl,-⟩ := ha
      exact ⟨job,⟨saved,hk,hjob⟩,hid,huuid⟩
    | createDir | tryLock =>
      obtain rfl : files = w.files := ha
      exact ⟨job,⟨saved,hk,hjob⟩,hid,huuid⟩
    | write k' new =>
      rcases ha with rfl | ⟨rfl,-⟩
      · by_cases hkey : k = k'
        · subst hkey
          obtain ⟨task,intent,-,-,-,⟨r,-,hnone,-⟩ | ⟨old,hold,hnext⟩⟩ := hq
          · rw [hk] at hnone
            cases hnone
          · rw [hk] at hold
            cases hold
            obtain ⟨job',hnew,-,hsame,-⟩ := hnext.job
            obtain ⟨hid',huuid'⟩ := hsame job hjob
            exact ⟨job',⟨new,Ledger.Directory.saved_self ..,hnew⟩,hid'.trans hid,huuid'.trans huuid⟩
        · refine ⟨job,⟨saved,?_,hjob⟩,hid,huuid⟩
          rw [← hk]
          exact Ledger.Directory.saved_ne hkey new
      · exact ⟨job,⟨saved,hk,hjob⟩,hid,huuid⟩

/-! ## The stages of a call -/

abbrev Then {α : Type} (post : α → World → Prop) : Except Error α → Unit → World → Prop :=
  Ends (fun a _ w => post a w) fun _ _ _ => True

abbrev outside (platform : Platform) : Effect.World Req (fun q => Except Error (Rep q)) World :=
  (system platform).toWorld

/-- A call that has listed so much and not touched the files. -/
structure Begun (platform : Platform) (task : Task) (lists : List (List Json)) (w : World) :
    Prop where
  sound : Sound platform w
  began : w.began = w.files
  current : w.current = some task
  listed : listings w.log = lists
  unsent : sent w.log = []

/-- What a call knows of its world once it has read its submission. -/
structure Opened (platform : Platform) (task : Task) (intent : Intent) (old : Option Submission)
    (lists : List (List Json)) (w : World) : Prop where
  current : w.current = some task
  anchored : w.files.anchor (key platform intent) = true
  stored : w.files.ledger (key platform intent) = old.map .ledger
  began : w.began.ledger (key platform intent) = old.map .ledger
  fresh : old = none → w.began.anchor (key platform intent) = false ∧
    key platform intent ∉ w.enqueued.map (key platform)
  listed : listings w.log = lists
  unsent : sent w.log = []

/-- The state directory as a part of the world. -/
def files : Part World (Ledger.Directory Submission) where
  get := World.files
  put := fun w d => { w with files := d }
  get_put := fun _ _ => rfl
  put_put := fun _ _ _ => rfl
  put_get := fun _ => rfl

theorem wp_files {α : Type} {m : Ledger.Files Submission Unit α}
    {P : Except Error α → Unit → Ledger.Directory Submission → Prop}
    (h : Script.wp (Ledger.disk Submission) (fun _ q => Ledger.Quiet q) m P () w.files) :
    Script.wp (outside platform) (Allowed platform) (Script.left m)
      (fun a u w' => ∃ d, w' = { w with files := d } ∧ P a u d) () w := by
  refine Script.wp_left.2 ?_
  refine Effect.wp_guard (Effect.wp_part files ?_ ?_ h) ?_
  · rintro v _ rfl
    exact ⟨v.files,rfl,rfl⟩
  · rintro q v a _ ⟨_,rfl,d,hd,rfl⟩
    exact ⟨d,hd,rfl⟩
  · intro v q hq
    cases q with
    | write key saved => exact hq.elim
    | createDir | openLock | tryLock | read => exact trivial

theorem wp_checked {α β : Type} {a : Except Error α} {f : α → Call β} {R : β → World → Prop}
    (h : ∀ x, a = .ok x → Script.wp (outside platform) (Allowed platform) (f x) (Then R) u w) :
    Script.wp (outside platform) (Allowed platform) (checked a >>= f) (Then R) u w := by
  cases a with
  | error e => exact trivial
  | ok x => exact h x rfl

theorem wp_runner {q : Runner} {R : q.Rep → World → Prop} (hq : Allowed platform w (.inr q))
    (h : ∀ a, looked w.files q (.ok a) → R a (asked q w (.ok a))) :
    Script.wp (outside platform) (Allowed platform) (Script.ask (.inr q : Req) : Call q.Rep)
      (Then R) u w := by
  rintro _ rfl
  refine ⟨hq,?_⟩
  rintro (e | a) _ ⟨hlooked,rfl⟩
  · exact trivial
  · exact h a hlooked

theorem wp_save {k : String} {saved : Submission} {R : Unit → World → Prop}
    (hq : Writable platform w k saved) (h : R () { w with files := w.files.saved k saved }) :
    Script.wp (outside platform) (Allowed platform) (save k saved) (Then R) u w := by
  rintro _ rfl
  refine ⟨hq,?_⟩
  rintro a _ ⟨d,hd,rfl⟩
  cases a with
  | error e => exact trivial
  | ok a =>
    rcases hd with rfl | ⟨-,e,he⟩
    · exact h
    · cases he

theorem listings_asked (q : Runner) (w : World) (a : Except Error q.Rep) :
    listings (asked q w a).log = listings w.log ++ listings [⟨q,a⟩] := List.filterMap_append ..

theorem sent_asked (q : Runner) (w : World) (a : Except Error q.Rep) :
    sent (asked q w a).log = sent w.log ++ sent [⟨q,a⟩] := List.filterMap_append ..

theorem enqueuedJobs_asked (q : Runner) (w : World) (a : Except Error q.Rep) :
    enqueuedJobs (asked q w a).log = enqueuedJobs w.log ++ enqueuedJobs [⟨q,a⟩] :=
  List.filterMap_append ..

theorem enqueuedJobs_of_unsent {log : Log} (h : sent log = []) : enqueuedJobs log = [] := by
  induction log with
  | nil => rfl
  | cons e log ih =>
    obtain ⟨q,a⟩ := e
    cases q with
    | enqueue intent body => exact absurd h (by simp [sent])
    | vacant | jobs | get => exact ih h

/-- Claiming and reading: the submission is the one the call found, and a new claim means
that nothing of the intent was ever sent. -/
theorem wp_opened {β : Type} {f : Option Submission → Call β} {R : β → World → Prop}
    {lists : List (List Json)} (hb : Begun platform task lists w)
    (h : ∀ old u w', Opened platform task intent old lists w' →
      Script.wp (outside platform) (Allowed platform) (f old) (Then R) u w') :
    Script.wp (outside platform) (Allowed platform) (do
      let fresh ← claim (key platform intent)
      let saved ← readSubmission (key platform intent) fresh
      f saved) (Then R) () w := by
  refine Script.wp_bind.2 (Script.wp_mono (wp_files (Ledger.wp_claim _ _ _)) ?_)
  rintro (e | fresh) u _ ⟨d,rfl,hd⟩
  · exact trivial
  obtain ⟨hfresh,rfl⟩ := hd
  refine Script.wp_bind.2 (Script.wp_mono (wp_files (Ledger.wp_readLedger _ _ _ _)) ?_)
  rintro (e | old) u' _ ⟨d,rfl,hd⟩
  · exact trivial
  obtain ⟨rfl,hold,hnone⟩ := hd
  refine h old _ _ ⟨hb.current,Ledger.Directory.opened_self ..,hold,?_,fun hn => ?_,hb.listed,hb.unsent⟩
  · rw [← hold,hb.began]
    rfl
  · have hanchor : w.files.anchor (key platform intent) = false := by
      rw [hnone hn] at hfresh
      simpa using hfresh
    refine ⟨by rw [hb.began]; exact hanchor,fun hmem => ?_⟩
    obtain ⟨i,hi,heq⟩ := List.mem_map.mp hmem
    have hyes := hb.sound.anchored i hi
    rw [heq,hanchor] at hyes
    cases hyes

/-! ## Submitting -/

theorem wp_enqueueOnce {listed : List Json} {path : String} {baseline : List String}
    (ho : Opened platform (.submit r intent) intent none [listed] w)
    (hpath : r.snapshot = some path) (hbaseline : listed.mapM jobId = .ok baseline) :
    Script.wp (outside platform) (Allowed platform) (enqueueOnce platform r intent path baseline)
      (Then fun result w' => w'.current = w.current ∧ w'.began = w.began ∧
        ∃ job, Stored w' (key platform intent) job ∧ receipt job = .ok result) u w := by
  unfold enqueueOnce
  let saved : Submission := ⟨intent,path,r.gitRef,baseline,none,true,diffDigest platform r⟩
  have hfirst : First platform w r intent saved :=
    ⟨rfl,hpath,rfl,rfl,⟨listed,ho.listed,hbaseline⟩,rfl,ho.unsent⟩
  refine Script.wp_then (wp_save (R := fun _ w' => w' = { w with
    files := w.files.saved (key platform intent) saved }) ?_ rfl) ?_
  · exact ⟨_,intent,ho.current,rfl,rfl,.inl ⟨r,rfl,ho.stored,hfirst⟩⟩
  rintro ⟨⟩ u₁ w₁ hw₁
  have hstored₁ : w₁.files.ledger (key platform intent) = some (.ledger saved) := by
    rw [hw₁]
    exact Ledger.Directory.saved_self ..
  have hcurrent₁ : w₁.current = some (.submit r intent) := by rw [hw₁]; exact ho.current
  have hlog₁ : w₁.log = w.log := by rw [hw₁]
  have hfresh := ho.fresh rfl
  refine Script.wp_then (wp_runner (R := fun job w' =>
    w' = asked (.enqueue intent (enqueueBody r)) w₁ (.ok job)) ?_ fun job _ => rfl) ?_
  · refine ⟨⟨r,hcurrent₁,rfl,saved,hstored₁,?_⟩,?_,?_,?_,?_⟩
    · exact ⟨rfl,hpath,rfl,rfl,⟨listed,by rw [hlog₁]; exact ho.listed,hbaseline⟩,rfl,
        by rw [hlog₁]; exact ho.unsent⟩
    · rw [hw₁]
      exact hfresh.2
    · rw [hw₁]
      exact ho.anchored
    · rw [hw₁]
      exact hfresh.1
    · rw [hw₁]
      exact ho.began
  intro job u₂ w₂ hw₂
  by_cases hmatches : (!matchesJob r job || !matchesDiff r job) = true
  · rw [if_pos hmatches]
    exact trivial
  rw [if_neg hmatches]
  simp only [Bool.or_eq_true,Bool.not_eq_true',not_or,Bool.not_eq_false] at hmatches
  refine wp_checked fun result hresult => ?_
  have hreplied : Replied w₂ r job := by
    refine ⟨?_,hmatches.1,hmatches.2⟩
    rw [hw₂,enqueuedJobs_asked,hlog₁,enqueuedJobs_of_unsent ho.unsent]
    rfl
  refine Script.wp_then (wp_save (R := fun _ w' => w' = { w₂ with
    files := w₂.files.saved (key platform intent)
      { saved with job := some job, dispatching := false } }) ?_ rfl) ?_
  · refine ⟨_,intent,by rw [hw₂]; exact hcurrent₁,rfl,rfl,
      .inr ⟨saved,by rw [hw₂]; exact hstored₁,⟨rfl,rfl,rfl,rfl,rfl⟩,job,rfl,?_,?_,?_⟩⟩
    · rw [hresult]
      rfl
    · intro prior hprior
      cases hprior
    · exact fun _ => .inr ⟨r,intent,rfl,hreplied⟩
  rintro ⟨⟩ u₃ w₃ hw₃
  refine ⟨by rw [hw₃,hw₂,hw₁]; rfl,by rw [hw₃,hw₂,hw₁]; rfl,job,
    ⟨{ saved with job := some job, dispatching := false },?_,rfl⟩,hresult⟩
  rw [hw₃]
  exact Ledger.Directory.saved_self ..

/-- What a submission that succeeded has found and done. -/
structure Submitted (platform : Platform) (intent : Intent) (result : String) (w : World) :
    Prop where
  unclaimed : w.began.anchor (key platform intent) = false
  unstored : w.began.ledger (key platform intent) = none
  job : ∃ job, Stored w (key platform intent) job ∧ receipt job = .ok result

theorem wp_submit (hb : Begun platform (.submit r intent) [] w) :
    Script.wp (outside platform) (Allowed platform) (submit platform r intent)
      (Then fun result w' => w'.current = w.current ∧ Submitted platform intent result w') () w := by
  unfold submit
  refine wp_checked fun _ _ => wp_opened hb fun old u₁ w₁ ho => ?_
  cases old with
  | some saved => exact trivial
  | none =>
    rw [if_neg (by simp)]
    refine wp_checked fun path hpath => ?_
    have hpath : r.snapshot = some path := by
      unfold checkout at hpath
      cases hs : r.snapshot with
      | none => rw [hs] at hpath; cases hpath
      | some p => rw [hs] at hpath; cases hpath; rfl
    refine Script.wp_then (wp_runner (q := .jobs path)
      (R := fun listed w' => w' = asked (.jobs path) w₁ (.ok listed)) trivial fun _ _ => rfl) ?_
    intro listed u₂ w₂ hw₂
    refine wp_checked fun baseline hbaseline => ?_
    have ho₂ : Opened platform (.submit r intent) intent none [listed] w₂ := by
      rw [hw₂]
      refine ⟨ho.current,ho.anchored,ho.stored,ho.began,ho.fresh,?_,?_⟩
      · rw [listings_asked,ho.listed]
        rfl
      · rw [sent_asked,ho.unsent]
        rfl
    refine Script.wp_mono (wp_enqueueOnce ho₂ hpath hbaseline) ?_
    rintro (e | result) u₃ w₃ hpost
    · exact trivial
    obtain ⟨hcurrent,hbegan,hjob⟩ := hpost
    refine ⟨by rw [hcurrent,ho₂.current,hb.current],?_,?_,hjob⟩
    · rw [hbegan]
      exact (ho₂.fresh rfl).1
    · rw [hbegan]
      exact ho₂.began

/-! ## Inspecting -/

/-- A review of a job, by the daemon's reply to the request for it. -/
structure Correlated (job raw : Json) (review : Evaluation) : Prop where
  id : raw.get "job_id" = job.get "id"
  uuid : Forge.pointer ["job","uuid"] raw = job.get? "uuid"
  named : ∃ id, jobId job = .ok id ∧ review.providerJobId = some id

theorem normalize_correlated {raw job : Json} {candidate : Candidate} {policy : Policy}
    {expectedFiles : ℕ} {scope : RoborevLocalScope} {review : Evaluation}
    (h : normalizeRoborevLocal platform raw job candidate policy expectedFiles scope = .ok review) :
    Correlated job raw review := by
  unfold normalizeRoborevLocal at h
  simp only [bind_ok_iff,require_ok_iff] at h
  obtain ⟨-,⟨hid,huuid,-⟩,h⟩ := h
  cases href : (job.get "git_ref").asStr with
  | none => rw [href] at h; cases h
  | some gitRef =>
    rw [href] at h
    simp only [bind_ok_iff] at h
    obtain ⟨-,-,h⟩ := h
    cases hdocument : raw.get? "structured_output" with
    | none => rw [hdocument] at h; cases h
    | some document =>
      rw [hdocument] at h
      simp only [bind_ok_iff,require_ok_iff] at h
      obtain ⟨-,-,h⟩ := h
      cases hfindings : (document.get "findings").asArray with
      | none => rw [hfindings] at h; cases h
      | some findings =>
        rw [hfindings] at h
        cases hreview : (raw.get "id").asU64.filter (0 < ·) with
        | none => simp only [hreview] at h; cases h
        | some n =>
          simp only [hreview,bind_ok_iff,require_ok_iff] at h
          obtain ⟨_,-,_,-,id,hjob,_,-,h⟩ := h
          cases h
          exact ⟨hid,huuid,id,hjob,rfl⟩

/-- What an inspection reports of a submission: a receipt of the job on record, and a review
of it that the daemon replied with. -/
structure Reported (platform : Platform) (intent : Intent) (e : Evidence) (w : World) : Prop where
  job : ∀ result, e.requestReceipt = some result →
    ∃ job, Stored w (key platform intent) job ∧ receipt job = .ok result ∧
      ∀ review, e.review = some review →
        ∃ (path : String) (raw : Json), ⟨.get path,.ok raw⟩ ∈ w.log ∧ Correlated job raw review
  none : e.requestReceipt = none → e.review = none

theorem wp_outcome {candidate : Candidate} {policy : Policy} {job : Json} :
    Script.wp (outside platform) (Allowed platform) (outcome platform r candidate policy job)
      (Then fun review w' => w'.current = w.current ∧ w'.began = w.began ∧ w'.files = w.files ∧
        ∀ v, review = some v → ∃ (path : String) (raw : Json), ⟨.get path,.ok raw⟩ ∈ w'.log ∧ Correlated job raw v)
      u w := by
  unfold outcome
  split
  · exact ⟨rfl,rfl,rfl,nofun⟩
  · exact ⟨rfl,rfl,rfl,nofun⟩
  · refine wp_checked fun id _ => ?_
    refine Script.wp_then (wp_runner (q := .get ("/api/review?job_id=" ++ id))
      (R := fun raw w' => w' = asked (.get ("/api/review?job_id=" ++ id)) w (.ok raw)) trivial
      fun _ _ => rfl) ?_
    intro raw u₁ w₁ hw₁
    refine wp_checked fun review hreview => ?_
    refine ⟨by rw [hw₁]; rfl,by rw [hw₁]; rfl,by rw [hw₁]; rfl,?_⟩
    rintro _ ⟨⟩
    refine ⟨"/api/review?job_id=" ++ id,raw,?_,normalize_correlated hreview⟩
    rw [hw₁]
    exact List.mem_append_right _ List.mem_cons_self
  · exact trivial

/-- The listed job itself, or its detail with the captured diff. -/
theorem wp_detail {listed : Json} {lists : List (List Json)} (hlists : listings w.log = lists) :
    Script.wp (outside platform) (Allowed platform) (detail r listed)
      (Then fun job w' => w'.current = w.current ∧ w'.began = w.began ∧ w'.files = w.files ∧
        listings w'.log = lists ∧
        ((r.diff = none ∧ job = listed) ∨
          (matchesJob r job = true ∧ matchesDiff r job = true ∧
            job.get "id" = listed.get "id" ∧ job.get "uuid" = listed.get "uuid"))) u w := by
  unfold detail
  by_cases hdiff : r.diff.isNone = true
  · rw [if_pos hdiff]
    exact ⟨rfl,rfl,rfl,hlists,.inl ⟨Option.isNone_iff_eq_none.mp hdiff,rfl⟩⟩
  rw [if_neg hdiff]
  refine wp_checked fun id _ => ?_
  refine Script.wp_then (wp_runner (q := .get ("/api/jobs?id=" ++ id))
    (R := fun raw w' => w' = asked (.get ("/api/jobs?id=" ++ id)) w (.ok raw)) trivial
    fun _ _ => rfl) ?_
  intro data u₁ w₁ hw₁
  cases hjob : detailed r listed data with
  | error e => exact trivial
  | ok job =>
    refine ⟨by rw [hw₁]; rfl,by rw [hw₁]; rfl,by rw [hw₁]; rfl,?_,.inr ?_⟩
    · rw [hw₁,listings_asked,hlists]
      exact List.append_nil _
    unfold detailed at hjob
    split at hjob
    · cases hjob
    · split_ifs at hjob with hmore hmatches
      cases hjob
      simpa [not_or,and_assoc] using hmatches
    · cases hjob

theorem chosen_ok {saved : Submission} {all : List Json} {listed : Json}
    (h : chosen r saved all = .ok (some listed)) :
    (∀ prior, saved.job = some prior → jobId listed = jobId prior) ∧
      (saved.job = none → all.filter (adoptable r saved) = [listed]) := by
  unfold chosen at h
  split at h
  · rename_i existing hjob
    rw [bind_ok_iff] at h
    obtain ⟨id,hid,h⟩ := h
    split at h
    · rename_i job hfind
      cases h
      have hjobId : (jobId listed).toOption = some id := by simpa using List.find?_some hfind
      refine ⟨fun prior hprior => ?_,fun hnone => ?_⟩
      · rw [hjob] at hprior
        cases hprior
        rw [hid]
        cases hj : jobId listed with
        | error e => rw [hj] at hjobId; cases hjobId
        | ok id' => rw [hj] at hjobId; cases hjobId; rfl
      · rw [hjob] at hnone
        cases hnone
    · cases h
  · rename_i job hjob hfilter
    cases h
    exact ⟨fun prior hprior => by (rw [hjob] at hprior; cases hprior),fun _ => hfilter⟩
  · cases h
  · cases h

theorem jobId_congr {a b : Json} (h : a.get "id" = b.get "id") : jobId a = jobId b := by
  unfold jobId
  rw [h]

theorem wp_reconcile {candidate : Candidate} {policy : Policy} {saved : Submission}
    {evidence : Evidence} {all : List Json} {listed : Json}
    (ho : Opened platform (.inspect r candidate policy (some intent)) intent (some saved) [all] w)
    (hown : foreign platform r candidate policy intent saved = false)
    (hchosen : chosen r saved all = .ok (some listed)) :
    Script.wp (outside platform) (Allowed platform)
      (reconcile platform r (key platform intent) candidate policy saved evidence listed)
      (Then fun e w' => w'.current = w.current ∧ w'.began = w.began ∧ Reported platform intent e w')
      u w := by
  unfold reconcile
  obtain ⟨hprior,hnone⟩ := chosen_ok hchosen
  refine Script.wp_then (wp_detail ho.listed) ?_
  intro job u₁ w₁ hw₁
  obtain ⟨hcurrent,hbegan,hfiles,hlisted,hjob⟩ := hw₁
  have hid : jobId job = jobId listed := by
    rcases hjob with ⟨-,rfl⟩ | ⟨-,-,hid,-⟩
    · rfl
    · exact jobId_congr hid
  refine wp_checked fun result hresult => ?_
  by_cases hchanged : (saved.job.any fun old => old.get "uuid" ≠ job.get "uuid") = true
  · rw [if_pos hchanged]
    exact trivial
  rw [if_neg hchanged]
  have huuid : ∀ prior, saved.job = some prior → job.get "uuid" = prior.get "uuid" := by
    intro prior h
    rw [h,Option.any_some,decide_eq_true_iff,not_not] at hchanged
    exact hchanged.symm
  refine Script.wp_then (wp_save (R := fun _ w' => w' = { w₁ with
    files := w₁.files.saved (key platform intent) { saved with job := some job } }) ?_ rfl) ?_
  · refine ⟨_,intent,hcurrent.trans ho.current,rfl,rfl,.inr ⟨saved,?_,⟨rfl,rfl,rfl,rfl,rfl⟩,job,rfl,
      ?_,fun prior h => ⟨hid.trans (hprior prior h),huuid prior h⟩,fun h => .inl ?_⟩⟩
    · rw [hfiles]
      exact ho.stored
    · rw [hresult]
      rfl
    · exact ⟨r,candidate,policy,intent,all,listed,rfl,hown,hlisted,hnone h,hjob⟩
  rintro ⟨⟩ u₂ w₂ hw₂
  have hstored : Stored w₂ (key platform intent) job := by
    rw [hw₂]
    exact ⟨{ saved with job := some job },Ledger.Directory.saved_self ..,rfl⟩
  refine Script.wp_then wp_outcome ?_
  intro review u₃ w₃ hw₃
  obtain ⟨hcurrent₃,hbegan₃,hfiles₃,hreview⟩ := hw₃
  refine ⟨by rw [hcurrent₃,hw₂]; exact hcurrent,by rw [hbegan₃,hw₂]; exact hbegan,?_,nofun⟩
  rintro _ ⟨⟩
  refine ⟨job,?_,hresult,hreview⟩
  unfold Stored
  rw [hfiles₃]
  exact hstored

/-- What an inspection that succeeded has found and reports. -/
structure Inspected (platform : Platform) (r : RoborevLocalRequest) (candidate : Candidate)
    (policy : Policy) (intent : Intent) (e : Evidence) (w : World) : Prop where
  own : ∀ saved, w.began.ledger (key platform intent) = some (.ledger saved) →
    foreign platform r candidate policy intent saved = false
  reported : Reported platform intent e w

theorem reported_none {e : Evidence} (hreceipt : e.requestReceipt = none) (hreview : e.review = none) :
    Reported platform intent e w :=
  ⟨fun _ h => by (rw [hreceipt] at h; cases h),fun _ => hreview⟩

theorem wp_inspectSaved {candidate : Candidate} {policy : Policy} {evidence : Evidence}
    {all : List Json} {saved : Submission} (hreceipt : evidence.requestReceipt = none)
    (hreview : evidence.review = none)
    (ho : Opened platform (.inspect r candidate policy (some intent)) intent (some saved) [all] w) :
    Script.wp (outside platform) (Allowed platform)
      (inspectSaved platform r (key platform intent) candidate policy intent evidence all saved)
      (Then fun e w' => w'.current = w.current ∧ Inspected platform r candidate policy intent e w')
      u w := by
  unfold inspectSaved
  by_cases hforeign : foreign platform r candidate policy intent saved = true
  · rw [if_pos hforeign]
    exact trivial
  rw [if_neg hforeign]
  have hown : ∀ {w' : World}, w'.began = w.began → ∀ old,
      w'.began.ledger (key platform intent) = some (.ledger old) →
        foreign platform r candidate policy intent old = false := by
    intro w' hbegan old hold
    rw [hbegan,ho.began] at hold
    cases hold
    exact Bool.eq_false_iff.mpr hforeign
  refine wp_checked fun _ _ => wp_checked fun job hjob => ?_
  cases job with
  | none => exact ⟨rfl,hown rfl,reported_none hreceipt hreview⟩
  | some listed =>
    refine Script.wp_mono (wp_reconcile ho (Bool.eq_false_iff.mpr hforeign) hjob) ?_
    rintro (e | e) u₁ w₁ hpost
    · exact trivial
    obtain ⟨hcurrent,hbegan,hreported⟩ := hpost
    exact ⟨hcurrent,hown hbegan,hreported⟩

theorem wp_inspect {candidate : Candidate} {policy : Policy}
    (hb : Begun platform (.inspect r candidate policy (some intent)) [] w) :
    Script.wp (outside platform) (Allowed platform) (inspect platform r candidate policy (some intent))
      (Then fun e w' => w'.current = w.current ∧ Inspected platform r candidate policy intent e w')
      () w := by
  unfold inspect
  refine wp_checked fun path _ => ?_
  refine Script.wp_then (wp_runner (q := .jobs path)
    (R := fun all w' => w' = asked (.jobs path) w (.ok all)) trivial fun _ _ => rfl) ?_
  rintro all ⟨⟩ w₁ hw₁
  refine wp_checked fun ids _ => ?_
  refine Script.wp_then (wp_runner (q := .vacant (key platform intent))
    (R := fun nothing w' => w' = asked (.vacant (key platform intent)) w₁ (.ok nothing) ∧
      (nothing = true → w₁.files.ledger (key platform intent) = none)) trivial ?_) ?_
  · rintro nothing ⟨b,hb,hvacant⟩
    cases hb
    exact ⟨rfl,fun h => (hvacant h).1⟩
  rintro nothing ⟨⟩ w₂ ⟨hw₂,hnothing⟩
  have hbegun : Begun platform (.inspect r candidate policy (some intent)) [all] w₂ := by
    rw [hw₂,hw₁]
    refine ⟨hb.sound.grow rfl fun _ h => h,hb.began,hb.current,?_,?_⟩
    · rw [listings_asked,listings_asked,hb.listed]
      rfl
    · rw [sent_asked,sent_asked,hb.unsent]
      rfl
  cases nothing with
  | true =>
    refine ⟨by rw [hbegun.current,hb.current],fun saved hsaved => ?_,reported_none rfl rfl⟩
    have hempty := hnothing rfl
    rw [hbegun.began,hw₂] at hsaved
    exact absurd (hempty.symm.trans hsaved) nofun
  | false =>
    refine wp_opened hbegun fun old u₃ w₃ ho => ?_
    cases old with
    | none =>
      refine ⟨by rw [ho.current,hb.current],fun saved hsaved => ?_,reported_none rfl rfl⟩
      rw [ho.began] at hsaved
      cases hsaved
    | some saved =>
      refine Script.wp_mono (wp_inspectSaved rfl rfl ho) ?_
      rintro (e | e) u₄ w₄ hpost
      · exact trivial
      · exact ⟨by rw [hpost.1,ho.current,hb.current],hpost.2⟩

/-- Without an intent there is nothing to report. -/
theorem wp_inspect_none {candidate : Candidate} {policy : Policy} :
    Script.wp (outside platform) (Allowed platform) (inspect platform r candidate policy none)
      (Then fun e w' => w'.current = w.current ∧ e.requestReceipt = none ∧ e.review = none) () w := by
  unfold inspect
  refine wp_checked fun path _ => ?_
  refine Script.wp_then (wp_runner (q := .jobs path)
    (R := fun all w' => w' = asked (.jobs path) w (.ok all)) trivial fun _ _ => rfl) ?_
  rintro all ⟨⟩ w₁ hw₁
  refine wp_checked fun ids _ => ?_
  exact ⟨by rw [hw₁]; rfl,rfl,rfl⟩

/-! ## Every sequence of calls -/

/-- What a call that succeeded has found and returned. -/
def Done (platform : Platform) (w : World) : Task → Result → Prop
  | .submit _ intent, .submitted result => Submitted platform intent result w
  | .inspect r candidate policy (some intent), .inspected e =>
    Inspected platform r candidate policy intent e w
  | .inspect _ _ _ none, .inspected e => e.requestReceipt = none ∧ e.review = none
  | _, _ => False

theorem wp_call (hb : Begun platform task [] w) :
    Script.wp (outside platform) (Allowed platform) (task.call platform)
      (Then fun result w' => w'.current = some task ∧ Done platform w' task result) () w := by
  cases task with
  | submit r intent =>
    refine Script.wp_then (wp_submit hb) ?_
    rintro result ⟨⟩ w' ⟨hcurrent,hdone⟩
    exact ⟨by rw [hcurrent,hb.current],hdone⟩
  | inspect r candidate policy intent =>
    cases intent with
    | none =>
      refine Script.wp_then wp_inspect_none ?_
      rintro e ⟨⟩ w' ⟨hcurrent,hdone⟩
      exact ⟨by rw [hcurrent,hb.current],hdone⟩
    | some intent =>
      refine Script.wp_then (wp_inspect hb) ?_
      rintro e ⟨⟩ w' ⟨hcurrent,hdone⟩
      exact ⟨by rw [hcurrent,hb.current],hdone⟩

theorem Sound.begin (hs : Sound platform w) (task : Task) :
    Sound platform { w with began := w.files, current := some task, log := [] } :=
  hs.grow rfl fun _ hk => hk

theorem wp_sound (hs : Sound platform w) :
    Script.wp (outside platform) (fun w q => Sound platform w ∧ Allowed platform w q)
      (task.call platform)
      (fun a u w' => Sound platform w' ∧
        Then (fun result w' => w'.current = some task ∧ Done platform w' task result) a u w') ()
      { w with began := w.files, current := some task, log := [] } := by
  refine wp_invariant (fun w w' h hr => ?_) (fun w q a w' h hq ha => h.answer hq ha)
    (hs.begin task) (wp_call ⟨hs.begin task,rfl,rfl,rfl,rfl⟩)
  exact (show w = w' from hr) ▸ h

theorem invariant (platform : Platform) :
    (system platform).Invariant (fun w q => Sound platform w ∧ Allowed platform w q)
      (Sound platform) where
  start := by
    rintro w w' p hs ⟨task,-,rfl,rfl⟩
    exact wp_mono (wp_sound hs) fun _ _ h => h.1
  idle := fun w w' h hr => (show w = w' from hr) ▸ h
  rely := fun w w' h hr => (show w = w' from hr) ▸ h
  guard := fun _ _ h => h.1
  torn := fun _ _ _ h ht => h.1.answer h.2 ht.choose_spec

theorem Recorded.unique {k id id' uuid uuid' : String} (h : Recorded w k id uuid)
    (h' : Recorded w k id' uuid') : id = id' ∧ uuid = uuid' := by
  obtain ⟨job,⟨saved,hk,hjob⟩,hid,huuid⟩ := h
  obtain ⟨job',⟨saved',hk',hjob'⟩,hid',huuid'⟩ := h'
  rw [hk] at hk'
  cases hk'
  rw [hjob] at hjob'
  cases hjob'
  exact ⟨Except.ok.inj (hid.symm.trans hid'),Json.str.inj (huuid.symm.trans huuid')⟩

def receiptOf (id uuid : String) : String := "roborev:job:" ++ id ++ ":" ++ uuid

/-- A receipt names the identity of its job. -/
theorem receipt_ok {job : Json} {result : String} (h : receipt job = .ok result) :
    ∃ id uuid, jobId job = .ok id ∧ job.get "uuid" = .str uuid ∧ result = receiptOf id uuid := by
  unfold receipt at h
  cases huuid : (job.get "uuid").asStr.filter (· ≠ "") with
  | none => rw [huuid] at h; cases h
  | some uuid =>
    simp only [huuid,bind_ok_iff] at h
    obtain ⟨id,hid,h⟩ := h
    have hstr := (Option.filter_eq_some_iff.mp huuid).1
    refine ⟨id,uuid,hid,?_,(Except.ok.inj h).symm⟩
    cases hjob : job.get "uuid" <;> rw [hjob] at hstr <;> cases hstr
    rfl

/-- A result that is about one job: its receipts name it, and its review is of it, by the
reply that the daemon gave. -/
def Result.About (w : World) (id uuid : String) : Result → Prop
  | .submitted result => result = receiptOf id uuid
  | .inspected e => (∀ result, e.requestReceipt = some result → result = receiptOf id uuid) ∧
    ∀ review, e.review = some review → review.providerJobId = some id ∧
      ∃ (path : String) (raw : Json), ⟨.get path,.ok raw⟩ ∈ w.log ∧
        (raw.get "job_id").asU64.map toString = some id ∧
        Forge.pointer ["job","uuid"] raw = some (.str uuid)

theorem stored_receipt {k id uuid : String} {job : Json} {result : String}
    (h : Recorded w k id uuid) (hstored : Stored w k job) (hresult : receipt job = .ok result) :
    jobId job = .ok id ∧ job.get "uuid" = .str uuid ∧ result = receiptOf id uuid := by
  obtain ⟨id',uuid',hid,huuid,rfl⟩ := receipt_ok hresult
  obtain ⟨rfl,rfl⟩ := h.unique ⟨job,hstored,hid,huuid⟩
  exact ⟨hid,huuid,rfl⟩

theorem Correlated.about {job raw : Json} {review : Evaluation} (h : Correlated job raw review)
    {id uuid : String} (hid : jobId job = .ok id) (huuid : job.get "uuid" = .str uuid) :
    review.providerJobId = some id ∧ (raw.get "job_id").asU64.map toString = some id ∧
      Forge.pointer ["job","uuid"] raw = some (.str uuid) := by
  obtain ⟨id',hid',hnamed⟩ := h.named
  cases hid.symm.trans hid'
  refine ⟨hnamed,?_,?_⟩
  · rw [h.id]
    unfold jobId at hid
    split at hid
    · rename_i n hn
      rw [(Option.filter_eq_some_iff.mp hn).1]
      exact congrArg some (Except.ok.inj hid)
    · cases hid
  · rw [h.uuid]
    unfold Json.get at huuid
    cases hget : job.get? "uuid" with
    | none => rw [hget] at huuid; cases huuid
    | some v => rw [hget] at huuid; exact congrArg some huuid

/-- What a call returns is about the job on record. -/
theorem Done.about {id uuid : String} {result : Result} (hdone : Done platform w task result)
    (hintent : task.intent = some intent) (h : Recorded w (key platform intent) id uuid) :
    result.About w id uuid := by
  cases task with
  | submit r i =>
    cases hintent
    cases result with
    | inspected e => exact hdone.elim
    | submitted result =>
      obtain ⟨job,hstored,hresult⟩ := hdone.job
      exact (stored_receipt h hstored hresult).2.2
  | inspect r candidate policy i =>
    cases hintent
    cases result with
    | submitted result => exact hdone.elim
    | inspected e =>
      have hreported := hdone.reported
      refine ⟨fun result hresult => ?_,fun review hreview => ?_⟩
      · obtain ⟨job,hstored,hjob,-⟩ := hreported.job result hresult
        exact (stored_receipt h hstored hjob).2.2
      · cases hreceipt : e.requestReceipt with
        | none =>
          rw [hreported.none hreceipt] at hreview
          cases hreview
        | some result =>
          obtain ⟨job,hstored,hjob,hback⟩ := hreported.job result hreceipt
          obtain ⟨path,raw,hlog,hcorrelated⟩ := hback review hreview
          obtain ⟨hid,huuid,-⟩ := stored_receipt h hstored hjob
          obtain ⟨hnamed,hraw,hpointer⟩ := hcorrelated.about hid huuid
          exact ⟨hnamed,path,raw,hlog,hraw,hpointer⟩

/-- What holds at every moment of every sequence of calls. -/
structure OneJob (platform : Platform) (c : (system platform).Conf) : Prop where
  /-- No intent was enqueued twice, and none is about to be enqueued again. -/
  once : (c.1.enqueued.map (·.id)).Nodup
  fresh : ∀ p intent body, c.2 = some p → p.pending = some (.inr (.enqueue intent body)) →
    intent.id ∉ c.1.enqueued.map (·.id)
  /-- An enqueue is on record with the jobs that were listed before it. -/
  ahead : ∀ p intent body, c.2 = some p → p.pending = some (.inr (.enqueue intent body)) →
    Enqueuable platform c.1 intent body
  /-- A record takes a job only if the enqueue was answered with it, or if it is adopted. -/
  taken : ∀ p k saved, c.2 = some p → p.pending = some (.inl (.write k saved)) →
    Writable platform c.1 k saved
  /-- A call succeeds on a submission of its own only. -/
  done : ∀ p result u, c.2 = some p → p.returned = some (.ok result,u) →
    ∃ task, c.1.current = some task ∧ Done platform c.1 task result
  /-- A job on record stays, and everything returned later is about it. -/
  kept : ∀ c', Relation.ReflTransGen (system platform).Step c c' → ∀ k id uuid,
    Recorded c.1 k id uuid → Recorded c'.1 k id uuid ∧
      ∀ p task intent result u, c'.2 = some p → p.returned = some (.ok result,u) →
        c'.1.current = some task → task.intent = some intent → key platform intent = k →
        result.About c'.1 id uuid

/-- Whatever the daemon replies and whenever a call crashes, an intent is enqueued at most
once, a job is adopted only if it is the only one that can be meant, and once it is on record
every receipt and review is of it. -/
theorem enqueued_once_own_job (platform : Platform) (w₀ : World) (h₀ : w₀.enqueued = [])
    (c : (system platform).Conf) (hc : (system platform).Reachable w₀ c) : OneJob platform c := by
  have hi := invariant platform
  have hs₀ : Sound platform w₀ := ⟨fun i hi => by simp [h₀] at hi,by simp [h₀]⟩
  have hs := hi.world hs₀ hc
  have hkeys : c.1.enqueued.map (key platform) =
      (c.1.enqueued.map (·.id)).map fun id => platform.hexDigest id.toList := by
    rw [List.map_map]
    rfl
  have hg : ∀ p q, c.2 = some p → p.pending = some q → Allowed platform c.1 q := by
    intro p q hp hq
    obtain ⟨w,o⟩ := c
    cases hp
    exact (hi.request hs₀ hc hq).2
  have hdone : ∀ c', (system platform).Reachable w₀ c' → ∀ p result u, c'.2 = some p →
      p.returned = some (.ok result,u) →
      ∃ task, c'.1.current = some task ∧ Done platform c'.1 task result := by
    intro c' hc' p result u hp hr
    obtain ⟨w,o⟩ := c'
    cases hp
    refine hi.returned (P := fun a w => ∀ result, a.1 = .ok result →
      ∃ task, w.current = some task ∧ Done platform w task result) hs₀ ?_ ?_ hc' hr result rfl
    · rintro w w' p hs ⟨task,-,rfl,rfl⟩
      refine wp_mono (wp_sound hs) ?_
      rintro ⟨_ | result,u⟩ w'' ⟨-,hthen⟩ _ ⟨⟩
      exact ⟨task,hthen⟩
    · exact fun a w w' h hr => (show w = w' from hr) ▸ h
  refine ⟨?_,?_,fun p intent body hp hq => hg p _ hp hq,fun p k saved hp hq => hg p _ hp hq,
    hdone c hc,?_⟩
  · have honce := hs.once
    rw [hkeys] at honce
    exact honce.of_map
  · intro p intent body hp hq hmem
    refine (show Enqueuable platform c.1 intent body from hg p _ hp hq).unenqueued ?_
    rw [hkeys]
    exact List.mem_map.mpr ⟨intent.id,hmem,rfl⟩
  · intro c' hc' k id uuid hrecorded
    have hlater : Recorded c'.1 k id uuid := by
      refine hi.keeps hs₀ (J := fun w => Recorded w k id uuid) ?_ ?_ ?_ ?_ ?_ hc hrecorded hc'
      · rintro w w' p h ⟨task,-,rfl,rfl⟩
        exact h
      · exact fun w w' h hr => (show w = w' from hr) ▸ h
      · exact fun w w' h hr => (show w = w' from hr) ▸ h
      · exact fun w q a w' hg h ha => h.answer hg.2 ha
      · exact fun w q w' hg h ht => h.answer hg.2 ht.choose_spec
    refine ⟨hlater,?_⟩
    intro p task intent result u hp hr hcurrent hintent hkey
    obtain ⟨task',hcurrent',hd⟩ := hdone c' (hc.trans hc') p result u hp hr
    rw [hcurrent] at hcurrent'
    cases hcurrent'
    exact hd.about hintent (hkey ▸ hlater)

/-! ## A lost reply -/

def samplePolicy : Policy := ⟨1,"roborev","unix-http-v0.71",1,[]⟩

def sampleCandidate : Candidate :=
  ⟨"https://example.org/pull/1","fork","topic","main","0123456789012345678901234567890123456789",
    "9876543210987654321098765432109876543210",false,true⟩

/-- SHA-256 of the two texts the sample hashes. -/
def samplePlatform : Platform where
  hexDigest := fun text =>
    if text = samplePolicy.json.render then
      "9223f23b8967fe4f18442fb8d248c0bc8ee53739660074d8db99a04fe2697d5f"
    else "19f1064b619d49d35392eac7261cd7266c720671fc594f4b226f32bf0bee74ba"
  canonicalUrl := fun url => url = sampleCandidate.url

def sampleRequest : RoborevLocalRequest where
  snapshot := some "/snapshot"
  gitRef := Receipt.range sampleCandidate
  agent := "codex"
  diff := none
  expectedFiles := 1
  scope := .pullRequest

def sampleIntent : Intent :=
  ⟨1,"request-1",sampleCandidate,"9223f23b8967fe4f18442fb8d248c0bc8ee53739660074d8db99a04fe2697d5f",[]⟩

def sampleJob : Json := .obj
  [("id",.int 12),("uuid",.str "u-12"),("repo_path",.str "/snapshot"),
    ("git_ref",.str (Receipt.range sampleCandidate)),("agent",.str "codex"),
    ("agentic",.bool false),("min_severity",.str "low"),("status",.str "queued")]

/-- A daemon without jobs until one is enqueued. -/
def smooth : (q : Req) → World → Except Error (Rep q) × World
  | .inl (.openLock key), w => (.ok (!w.files.anchor key),{ w with files := w.files.opened key })
  | .inl (.read key), w => (.ok (w.files.ledger key),w)
  | .inl (.write key saved), w => (.ok (),{ w with files := w.files.saved key saved })
  | .inl .createDir, w | .inl (.tryLock _), w => (.ok (),w)
  | .inr q, w =>
    let a : Except Error q.Rep := match q with
      | .vacant key => .ok ((w.files.ledger key).isNone && !w.files.anchor key)
      | .jobs _ => .ok (if w.enqueued = [] then [] else [sampleJob])
      | .get _ => .error (.other "no detail")
      | .enqueue _ _ => .ok sampleJob
    (a,asked q w a)

theorem smooth_answers (q : Req) (w : World) : answers q w (smooth q w).1 (smooth q w).2 := by
  rcases q with q | q
  · cases q with
    | openLock => exact ⟨_,⟨rfl,rfl⟩,rfl⟩
    | read => exact ⟨_,⟨rfl,fun _ h => (Except.ok.inj h).symm⟩,rfl⟩
    | write => exact ⟨_,.inl rfl,rfl⟩
    | createDir | tryLock => exact ⟨_,rfl,rfl⟩
  · cases q with
    | vacant key =>
      refine ⟨⟨_,rfl,fun h => ?_⟩,rfl⟩
      have h : ((w.files.ledger key).isNone && !w.files.anchor key) = true := h
      simpa using h
    | jobs | get | enqueue => exact ⟨trivial,rfl⟩

def World.empty : World := ⟨⟨fun _ => false,fun _ => none⟩,[],⟨fun _ => false,fun _ => none⟩,none,[]⟩

/-- The first `n` requests of a call. -/
def sampleCall (task : Task) (n : ℕ) (w : World) := advance smooth n
  ((task.call samplePlatform).start ()) { w with began := w.files, current := some task, log := [] }

theorem sampleCall_reachable {w₀ w : World} (task : Task) (hf : task.request.frozen = true)
    (h : (system samplePlatform).Reachable w₀ (w,none)) (n : ℕ) :
    (system samplePlatform).Reachable w₀
      ((sampleCall task n w).2,some (sampleCall task n w).1) := by
  have hstart : (system samplePlatform).Reachable w₀ (_,some _) :=
    .tail h (.start ⟨task,hf,rfl,rfl⟩)
  exact hstart.reach (reach_advance (M := (system samplePlatform).toWorld) smooth_answers n _ _)

/-- What a submission leaves that crashed when its enqueue was sent. -/
def sampleCrashed : World := (sampleCall (.submit sampleRequest sampleIntent) 7 .empty).2

def sampleInspection :=
  sampleCall (.inspect sampleRequest sampleCandidate samplePolicy (some sampleIntent)) 9 sampleCrashed

/-- The job of the lost reply is adopted. -/
theorem sample_own_job :
    sampleInspection.2.enqueued = [sampleIntent] ∧
      sampleInspection.1.returned.map (fun a => a.1.toOption.map fun
        | .submitted _ => none
        | .inspected e => e.requestReceipt) = some (some (some "roborev:job:12:u-12")) ∧
      OneJob samplePlatform (sampleInspection.2,some sampleInspection.1) := by
  have hcrashed : (system samplePlatform).Reachable .empty (sampleCrashed,none) :=
    .tail (sampleCall_reachable (.submit sampleRequest sampleIntent) (by decide +kernel) .refl 7)
      .crash
  have hlast := sampleCall_reachable
    (.inspect sampleRequest sampleCandidate samplePolicy (some sampleIntent)) (by decide +kernel)
    hcrashed 9
  exact ⟨by decide +kernel,by decide +kernel,
    enqueued_once_own_job samplePlatform .empty rfl _ hlast⟩

end LocalReview
end CanixToolbelt
