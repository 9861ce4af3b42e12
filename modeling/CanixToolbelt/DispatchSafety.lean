import CanixToolbelt.Dispatch

/-! At most one enqueue an intent, over every sequence of calls: whatever the runner
replies, whenever a call crashes, and whatever the ledger directory held before. -/
namespace CanixToolbelt
namespace Dispatch
open Effect Review Receipt Script

variable {platform : Platform} {readers : Readers} {w w' : World} {dispatch : RoborevDispatch}
  {policy : Policy} {u : Unit}

/-! ## What a run keeps -/

/-- What holds between two calls. -/
structure Sound (platform : Platform) (w : World) : Prop where
  anchored : ∀ d ∈ w.enqueued, w.files.anchor (key platform d) = true
  once : (w.enqueued.map (key platform)).Nodup

/-- The lists of jobs that the runner replied with. -/
def listed (log : Log) : List (List Json) :=
  log.filterMap fun e => match e with
    | ⟨.jobs _,.ok js⟩ => some js
    | _ => none

/-- What an enqueue needs: nothing of its intent was there when the call began, and the
checkout had no jobs. -/
structure Enqueuable (platform : Platform) (w : World) (d : RoborevDispatch) : Prop where
  unenqueued : key platform d ∉ w.enqueued.map (key platform)
  anchored : w.files.anchor (key platform d) = true
  unclaimed : w.began.anchor (key platform d) = false
  unstored : w.began.ledger (key platform d) = none
  empty : listed w.log = [[]]
  current : w.current = some d

/-- A ledger that may replace what is stored: it has the same dispatch and job. -/
def Extends (stored : Option (Ledger.Stored Ledger)) (ledger : Ledger) : Prop :=
  ∀ old, stored = some (.ledger old) → ledger.dispatch = old.dispatch ∧
    ∀ job, old.job = some job → ledger.job = some job

def Allowed (platform : Platform) (w : World) : Req → Prop
  | .inr (.enqueue d) => Enqueuable platform w d
  | .inl (.write key ledger) => Extends (w.files.ledger key) ledger
  | _ => True

theorem Sound.grow (h : Sound platform w) (henqueued : w'.enqueued = w.enqueued)
    (hanchor : ∀ k, w.files.anchor k = true → w'.files.anchor k = true) : Sound platform w' := by
  constructor
  · rw [henqueued]
    exact fun d hd => hanchor _ (h.anchored d hd)
  · rw [henqueued]
    exact h.once

/-- A lock file is never removed. -/
theorem anchor_mono {q : Ledger.Req Ledger} {d d' : Ledger.Directory Ledger}
    {r : Except Error (Ledger.Rep q)} (h : Ledger.answers q d r d') {k : String}
    (hk : d.anchor k = true) : d'.anchor k = true := by
  cases q with
  | openLock key =>
    cases r with
    | error e =>
      rcases h with rfl | rfl
      · exact hk
      · exact d.opened_mono hk
    | ok fresh =>
      obtain ⟨-,rfl⟩ := h
      exact d.opened_mono hk
  | read key =>
    obtain ⟨rfl,-⟩ := h
    exact hk
  | write key ledger =>
    rcases h with rfl | ⟨rfl,-⟩
    · exact hk
    · exact hk
  | createDir | tryLock =>
    obtain rfl : d' = d := h
    exact hk

theorem Sound.answer {q : Req} {r : Except Error (Rep q)} (h : Sound platform w)
    (hq : Allowed platform w q) (ha : answers q w r w') : Sound platform w' := by
  cases q with
  | inl q =>
    obtain ⟨files,ha,rfl⟩ := ha
    exact h.grow rfl fun k => anchor_mono ha
  | inr q =>
    obtain rfl : w' = asked q w r := ha
    cases q with
    | enqueue d =>
      constructor
      · intro d' hd'
        rcases List.mem_cons.mp hd' with rfl | hd'
        · exact hq.anchored
        · exact h.anchored d' hd'
      · exact List.nodup_cons.mpr ⟨hq.unenqueued,h.once⟩
    | verifyCheckout | jobs | savedReview => exact h.grow rfl fun _ hk => hk

/-- Whether the stored ledger of a key names this job of this dispatch. -/
def Holds (w : World) (k : String) (dispatch : RoborevDispatch) (job : RoborevJobIdentity) : Prop :=
  ∃ ledger : Ledger, w.files.ledger k = some (.ledger ledger) ∧ ledger.dispatch = dispatch ∧
    ledger.job = some job

theorem Holds.answer {k : String} {job : RoborevJobIdentity} {q : Req} {r : Except Error (Rep q)}
    (h : Holds w k dispatch job) (hq : Allowed platform w q) (ha : answers q w r w') :
    Holds w' k dispatch job := by
  obtain ⟨ledger,hk,hd,hj⟩ := h
  cases q with
  | inl q =>
    obtain ⟨files,ha,rfl⟩ := ha
    cases q with
    | openLock key =>
      cases r with
      | error e => rcases ha with rfl | rfl <;> exact ⟨ledger,hk,hd,hj⟩
      | ok fresh =>
        obtain ⟨-,rfl⟩ := ha
        exact ⟨ledger,hk,hd,hj⟩
    | read key =>
      obtain ⟨rfl,-⟩ := ha
      exact ⟨ledger,hk,hd,hj⟩
    | write key new =>
      rcases ha with rfl | ⟨rfl,-⟩
      · by_cases hkey : k = key
        · subst hkey
          obtain ⟨hdispatch,hjob⟩ := hq ledger hk
          exact ⟨new,Ledger.Directory.saved_self ..,hdispatch.trans hd,hjob job hj⟩
        · refine ⟨ledger,?_,hd,hj⟩
          rw [← hk]
          exact Ledger.Directory.saved_ne hkey new
      · exact ⟨ledger,hk,hd,hj⟩
    | createDir | tryLock =>
      obtain rfl : files = w.files := ha
      exact ⟨ledger,hk,hd,hj⟩
  | inr q =>
    obtain rfl : w' = asked q w r := ha
    exact ⟨ledger,hk,hd,hj⟩

/-! ## The stages of a call -/

/-- What a call knows of its world once it has read its ledger. -/
structure Ready (platform : Platform) (dispatch : RoborevDispatch) (old : Option Ledger)
    (lists : List (List Json)) (w : World) : Prop where
  current : w.current = some dispatch
  anchored : w.files.anchor (key platform dispatch) = true
  stored : w.files.ledger (key platform dispatch) = old.map .ledger
  began : w.began.ledger (key platform dispatch) = old.map .ledger
  fresh : old = none → w.began.anchor (key platform dispatch) = false ∧
    key platform dispatch ∉ w.enqueued.map (key platform)
  listed : listed w.log = lists

/-- What it knows when it has its ledger and the last list of jobs. -/
structure Collectable (platform : Platform) (dispatch : RoborevDispatch) (ledger : Ledger)
    (last : List Json) (w : World) : Prop where
  current : w.current = some dispatch
  stored : w.files.ledger (key platform dispatch) = some (.ledger ledger)
  own : ledger.schemaVersion = 2 ∧ ledger.dispatch = dispatch
  began : (w.began.anchor (key platform dispatch) = false ∧
      w.began.ledger (key platform dispatch) = none ∧ (listed w.log).head? = some []) ∨
    ∃ old : Ledger, w.began.ledger (key platform dispatch) = some (.ledger old) ∧
      old.dispatch = dispatch
  last : (listed w.log).getLast? = some last

/-- The evidence behind a receipt: the job that the runner listed last is the stored one, and
it ran over the exact commits in the exact checkout with the exact agent. -/
structure Bound (platform : Platform) (w : World) (dispatch : RoborevDispatch)
    (receipt : RoborevReceipt) : Prop where
  job : ∃ identity job, Holds w (key platform dispatch) dispatch identity ∧
    (listed w.log).getLast? = some [job] ∧ RoborevJobIdentity.fromJob job = .ok identity ∧
    (job.get "repo_path").asStr = some dispatch.checkout ∧
    (job.get "git_ref").asStr = some (range dispatch.intent.candidate) ∧
    (job.get "agent").asStr = some dispatch.agent ∧ receipt.jobId = some identity.id
  request : receipt.requestId = dispatch.intent.id
  candidate : receipt.candidate = dispatch.intent.candidate
  head : receipt.reviewedHead = dispatch.intent.candidate.head
  base : receipt.reviewedBase = dispatch.intent.candidate.base

/-- What a call that succeeded has found and done. -/
structure Done (platform : Platform) (w : World) (dispatch : RoborevDispatch)
    (result : Option RoborevReceipt) : Prop where
  began : (w.began.anchor (key platform dispatch) = false ∧
      w.began.ledger (key platform dispatch) = none ∧ (listed w.log).head? = some []) ∨
    ∃ old : Ledger, w.began.ledger (key platform dispatch) = some (.ledger old) ∧
      old.dispatch = dispatch
  bound : ∀ receipt, result = some receipt → Bound platform w dispatch receipt

abbrev Then {α : Type} (post : α → World → Prop) : Except Error α → Unit → World → Prop :=
  Ends (fun a _ w => post a w) fun _ _ _ => True

abbrev outside (platform : Platform) (readers : Readers) :
    Effect.World Req (fun q => Except Error (Rep q)) World := (system platform readers).toWorld

/-- The ledger directory as a part of the world. -/
def files : Part World (Ledger.Directory Ledger) where
  get := World.files
  put := fun w d => { w with files := d }
  get_put := fun _ _ => rfl
  put_put := fun _ _ _ => rfl
  put_get := fun _ => rfl

theorem wp_files {α : Type} {m : Ledger.Files Ledger Unit α}
    {P : Except Error α → Unit → Ledger.Directory Ledger → Prop}
    (h : Script.wp (Ledger.disk Ledger) (fun _ q => Ledger.Quiet q) m P () w.files) :
    Script.wp (outside platform readers) (Allowed platform) (Script.left m)
      (fun r u w' => ∃ d, w' = { w with files := d } ∧ P r u d) () w := by
  refine Script.wp_left.2 ?_
  refine Effect.wp_guard (Effect.wp_part files ?_ ?_ h) ?_
  · rintro v _ rfl
    exact ⟨v.files,rfl,rfl⟩
  · rintro q v r _ ⟨_,rfl,d,hd,rfl⟩
    exact ⟨d,hd,rfl⟩
  · intro v q hq
    cases q with
    | write key ledger => exact hq.elim
    | createDir | openLock | tryLock | read => exact trivial

theorem wp_checked {α β : Type} {r : Except Error α} {f : α → Call β} {R : β → World → Prop}
    (h : ∀ a, r = .ok a → Script.wp (outside platform readers) (Allowed platform) (f a)
      (Then R) u w) :
    Script.wp (outside platform readers) (Allowed platform) (checked r >>= f) (Then R) u w := by
  cases r with
  | error e => exact trivial
  | ok a => exact h a rfl

theorem wp_runner {q : Runner} {R : q.Rep → World → Prop}
    (hq : Allowed platform w (.inr q)) (h : ∀ a, R a (asked q w (.ok a))) :
    Script.wp (outside platform readers) (Allowed platform)
      (Script.ask (.inr q : Req) : Call q.Rep) (Then R) u w := by
  rintro _ rfl
  refine ⟨hq,?_⟩
  rintro (e | a) _ rfl
  · exact trivial
  · exact h a

theorem wp_save {k : String} {ledger : Ledger} {R : Unit → World → Prop}
    (hq : Extends (w.files.ledger k) ledger)
    (h : R () { w with files := w.files.saved k ledger }) :
    Script.wp (outside platform readers) (Allowed platform) (save k ledger) (Then R) u w := by
  rintro _ rfl
  refine ⟨hq,?_⟩
  rintro r _ ⟨d,hd,rfl⟩
  cases r with
  | error e => exact trivial
  | ok a =>
    rcases hd with rfl | ⟨-,e,he⟩
    · exact h
    · cases he

theorem ready_asked {old : Option Ledger} {lists : List (List Json)} {q : Runner}
    {r : Except Error q.Rep} (h : Ready platform dispatch old lists w) (hq : ∀ d, q ≠ .enqueue d) :
    Ready platform dispatch old (lists ++ listed [⟨q,r⟩]) (asked q w r) where
  current := h.current
  anchored := h.anchored
  stored := h.stored
  began := h.began
  fresh := by
    cases q with
    | enqueue d => exact absurd rfl (hq d)
    | verifyCheckout | jobs | savedReview => exact h.fresh
  listed := by
    rw [← h.listed]
    exact List.filterMap_append ..

/-- Claiming and reading: the ledger is the one the call found, and a new claim means that
nothing of the intent was ever enqueued. -/
theorem wp_opened {β : Type} {f : Option Ledger → Call β} {R : β → World → Prop}
    (hs : Sound platform w) (hbegan : w.began = w.files) (hcurrent : w.current = some dispatch)
    (hlog : w.log = [])
    (h : ∀ old u w', Ready platform dispatch old [] w' →
      Script.wp (outside platform readers) (Allowed platform) (f old) (Then R) u w') :
    Script.wp (outside platform readers) (Allowed platform) (do
      let fresh ← claim (key platform dispatch)
      let ledger ← readLedger (key platform dispatch) fresh
      f ledger) (Then R) () w := by
  refine Script.wp_bind.2 (Script.wp_mono (wp_files (Ledger.wp_claim _ _ _)) ?_)
  rintro (e | fresh) u _ ⟨d,rfl,hd⟩
  · exact trivial
  obtain ⟨hfresh,rfl⟩ := hd
  refine Script.wp_bind.2 (Script.wp_mono (wp_files (Ledger.wp_readLedger _ _ _ _)) ?_)
  rintro (e | old) u' _ ⟨d,rfl,hd⟩
  · exact trivial
  obtain ⟨rfl,hold,hnone⟩ := hd
  refine h old _ _ ⟨hcurrent,Ledger.Directory.opened_self ..,hold,?_,fun hn => ?_,?_⟩
  · rw [← hold,hbegan]
    rfl
  · have hanchor : w.files.anchor (key platform dispatch) = false := by
      rw [hnone hn] at hfresh
      simpa using hfresh
    refine ⟨by rw [hbegan]; exact hanchor,fun hmem => ?_⟩
    obtain ⟨d,hd,heq⟩ := List.mem_map.mp hmem
    have hyes := hs.anchored d hd
    rw [heq,hanchor] at hyes
    cases hyes
  · rw [hlog]
    rfl

theorem wp_enqueueOnce {before : List Json} (h : Ready platform dispatch none [before] w) :
    Script.wp (outside platform readers) (Allowed platform)
      (enqueueOnce (key platform dispatch) dispatch before)
      (Then fun a w' => Collectable platform dispatch a.1 a.2 w') u w := by
  unfold enqueueOnce
  split
  · exact trivial
  rename_i hempty
  have hempty : before = [] := not_not.mp hempty
  have hfresh := h.fresh rfl
  refine Script.wp_then (wp_save (R := fun _ w' => w' = { w with
    files := w.files.saved (key platform dispatch) ⟨2,dispatch,none⟩ }) ?_ rfl) ?_
  · intro old hold
    rw [h.stored] at hold
    cases hold
  rintro ⟨⟩ u₁ w₁ hw₁
  have hstored₁ : w₁.files.ledger (key platform dispatch) = some (.ledger ⟨2,dispatch,none⟩) := by
    rw [hw₁]
    exact Ledger.Directory.saved_self ..
  have hlog₁ : w₁.log = w.log := by rw [hw₁]
  have hbegan₁ : w₁.began = w.began := by rw [hw₁]
  have hcurrent₁ : w₁.current = some dispatch := by rw [hw₁]; exact h.current
  refine Script.wp_then (wp_runner (R := fun a w' => w' = asked (.enqueue dispatch) w₁ (.ok a))
    ?_ fun a => rfl) ?_
  · refine ⟨?_,?_,?_,?_,?_,hcurrent₁⟩
    · rw [hw₁]
      exact hfresh.2
    · rw [hw₁]
      exact h.anchored
    · rw [hbegan₁]
      exact hfresh.1
    · rw [hbegan₁]
      exact h.began
    · rw [hlog₁,h.listed,hempty]
  intro identity u₂ w₂ hw₂
  refine wp_checked fun a _ => ?_
  refine Script.wp_then (wp_save (R := fun _ w' => w' = { w₂ with
    files := w₂.files.saved (key platform dispatch) ⟨2,dispatch,some identity⟩ }) ?_ rfl) ?_
  · intro old hold
    rw [hw₂] at hold
    obtain rfl := Ledger.Stored.ledger.inj (Option.some.inj (hstored₁.symm.trans hold))
    exact ⟨rfl,fun job hjob => nomatch hjob⟩
  rintro ⟨⟩ u₃ w₃ hw₃
  refine Script.wp_then (wp_runner (q := .jobs dispatch)
    (R := fun a w' => w' = asked (.jobs dispatch) w₃ (.ok a)) trivial fun a => rfl) ?_
  intro after u₄ w₄ hw₄
  have hlisted : listed w₄.log = [before,after] := by
    have hlog₄ : w₄.log = w.log ++ [⟨.enqueue dispatch,.ok identity⟩] ++ [⟨.jobs dispatch,.ok after⟩] := by
      rw [hw₄,hw₃,hw₂]
      simp only [asked,hlog₁]
    rw [hlog₄,listed,List.filterMap_append,List.filterMap_append]
    exact congrArg (· ++ [] ++ [after]) h.listed
  refine ⟨?_,?_,⟨rfl,rfl⟩,.inl ⟨?_,?_,?_⟩,?_⟩
  · rw [hw₄,hw₃,hw₂]
    exact hcurrent₁
  · rw [hw₄,hw₃]
    exact Ledger.Directory.saved_self ..
  · rw [hw₄,hw₃,hw₂]
    exact (congrArg (fun d => d.anchor (key platform dispatch)) hbegan₁).trans hfresh.1
  · rw [hw₄,hw₃,hw₂]
    exact (congrArg (fun d => d.ledger (key platform dispatch)) hbegan₁).trans h.began
  · rw [hlisted,hempty]
    rfl
  · rw [hlisted]
    rfl

open Fallible in
/-- A receipt from a saved review is of the dispatched job and of the exact comparison. -/
theorem fromSavedReview_ok {identity : RoborevJobIdentity} {saved : Json} {receipt : RoborevReceipt}
    (h : RoborevReceipt.fromSavedReview platform readers dispatch policy identity saved = .ok receipt) :
    receipt.jobId = some identity.id ∧ receipt.requestId = dispatch.intent.id ∧
      receipt.candidate = dispatch.intent.candidate ∧
      receipt.reviewedHead = dispatch.intent.candidate.head ∧
      receipt.reviewedBase = dispatch.intent.candidate.base := by
  obtain ⟨_,-,h⟩ := bind_ok h
  obtain ⟨_,-,h⟩ := bind_ok h
  split at h
  · cases h
  obtain ⟨_,-,h⟩ := bind_ok h
  obtain ⟨_,-,h⟩ := bind_ok h
  split at h
  · cases h
  split at h
  · cases h
  obtain ⟨id,-,h⟩ := bind_ok h
  obtain ⟨_,-,h⟩ := bind_ok h
  cases h
  exact ⟨rfl,rfl,rfl,rfl,rfl⟩

/-- The job behind a conclusion: stored, listed last, and of this dispatch. -/
def Concluded (platform : Platform) (dispatch : RoborevDispatch) (identity : RoborevJobIdentity)
    (w : World) : Prop :=
  ∃ job, Holds w (key platform dispatch) dispatch identity ∧
    (listed w.log).getLast? = some [job] ∧ RoborevJobIdentity.fromJob job = .ok identity ∧
    (job.get "repo_path").asStr = some dispatch.checkout ∧
    (job.get "git_ref").asStr = some (range dispatch.intent.candidate) ∧
    (job.get "agent").asStr = some dispatch.agent

theorem Concluded.bound {identity : RoborevJobIdentity} {receipt : RoborevReceipt}
    (h : Concluded platform dispatch identity w)
    (hr : receipt.jobId = some identity.id ∧ receipt.requestId = dispatch.intent.id ∧
      receipt.candidate = dispatch.intent.candidate ∧
      receipt.reviewedHead = dispatch.intent.candidate.head ∧
      receipt.reviewedBase = dispatch.intent.candidate.base) : Bound platform w dispatch receipt := by
  obtain ⟨job,hholds,hlast,hjob,hpath,href,hagent⟩ := h
  exact ⟨⟨identity,job,hholds,hlast,hjob,hpath,href,hagent,hr.1⟩,hr.2.1,hr.2.2.1,hr.2.2.2.1,hr.2.2.2.2⟩

theorem wp_conclude {identity : RoborevJobIdentity} {job : Json}
    (hconcluded : Concluded platform dispatch identity w) :
    Script.wp (outside platform readers) (Allowed platform)
      (conclude platform readers dispatch policy identity job)
      (Then fun result w' => w'.current = w.current ∧ w'.began = w.began ∧
        listed w'.log = listed w.log ∧
        ∀ receipt, result = some receipt → Bound platform w' dispatch receipt) u w := by
  unfold conclude
  split
  · exact ⟨rfl,rfl,rfl,nofun⟩
  · exact ⟨rfl,rfl,rfl,nofun⟩
  · refine Script.wp_then (wp_runner (q := .savedReview identity.id)
      (R := fun a w' => w' = asked (.savedReview identity.id) w (.ok a)) trivial fun a => rfl) ?_
    intro saved u₁ w₁ hw₁
    refine wp_checked fun receipt hreceipt => ?_
    have hlisted : listed w₁.log = listed w.log := by
      rw [hw₁]
      exact List.filterMap_append.trans (List.append_nil _)
    refine ⟨by rw [hw₁]; rfl,by rw [hw₁]; rfl,hlisted,?_⟩
    rintro _ ⟨⟩
    have hconcluded₁ : Concluded platform dispatch identity w₁ := by
      obtain ⟨job,hholds,hlast,hjob⟩ := hconcluded
      refine ⟨job,?_,hlisted ▸ hlast,hjob⟩
      rw [hw₁]
      exact hholds
    exact hconcluded₁.bound (fromSavedReview_ok hreceipt)
  · split
    · refine ⟨rfl,rfl,rfl,?_⟩
      rintro _ ⟨⟩
      exact hconcluded.bound ⟨rfl,rfl,rfl,rfl,rfl⟩
    · exact trivial
  · exact trivial

theorem matchesDispatch_iff {ledger : Ledger} {job : Json} {identity : RoborevJobIdentity} :
    matchesDispatch ledger dispatch job identity = true ↔
      (job.get "repo_path").asStr = some dispatch.checkout ∧
      (job.get "git_ref").asStr = some (range dispatch.intent.candidate) ∧
      (job.get "agent").asStr = some dispatch.agent ∧ (job.get "job_type").asStr = some "range" ∧
      job.get "agentic" = .bool false ∧ job.get "prompt_prebuilt" = .bool false ∧
      (job.get "min_severity").asStr.any (· ∈ ["","low"]) = true ∧
      ledger.job.all (· = identity) = true := by
  simp only [matchesDispatch,Bool.and_eq_true,decide_eq_true_eq,and_assoc]

theorem wp_collect {ledger : Ledger} {last : List Json}
    (h : Collectable platform dispatch ledger last w) :
    Script.wp (outside platform readers) (Allowed platform)
      (collect platform readers (key platform dispatch) dispatch policy ledger last)
      (Then fun result w' => w'.current = some dispatch ∧ Done platform w' dispatch result) u w := by
  match hlast : last with
  | [] => exact trivial
  | _::_::_ => exact trivial
  | [job] =>
    refine wp_checked fun identity hidentity => ?_
    split
    · exact trivial
    rename_i hmatches
    have hm := matchesDispatch_iff.mp (by simpa using hmatches)
    obtain ⟨hpath,href,hagent,-,-,-,-,hjob⟩ := hm
    refine Script.wp_then (wp_save (R := fun _ w' => w' = { w with
      files := w.files.saved (key platform dispatch) { ledger with job := some identity } }) ?_ rfl) ?_
    · intro old hold
      obtain rfl := Ledger.Stored.ledger.inj (Option.some.inj (h.stored.symm.trans hold))
      refine ⟨rfl,fun j hj => ?_⟩
      rw [hj] at hjob
      exact congrArg some (of_decide_eq_true hjob).symm
    rintro ⟨⟩ u₁ w₁ hw₁
    have hlog : w₁.log = w.log := by rw [hw₁]
    have hbegan : w₁.began = w.began := by rw [hw₁]
    have hholds : Holds w₁ (key platform dispatch) dispatch identity := by
      rw [hw₁]
      exact ⟨{ ledger with job := some identity },Ledger.Directory.saved_self ..,h.own.2,rfl⟩
    refine Script.wp_mono (wp_conclude ⟨job,hholds,hlog ▸ h.last,hidentity,hpath,href,hagent⟩) ?_
    rintro (e | result) u₂ w₂ hpost
    · exact trivial
    obtain ⟨hcurrent,hbegan₂,hlisted,hbound⟩ := hpost
    refine ⟨?_,?_,hbound⟩
    · rw [hcurrent,hw₁]
      exact h.current
    · rw [hbegan₂,hbegan,hlisted,hlog]
      exact h.began

theorem sameDispatch_ok {old : Ledger} {u : Unit} (h : sameDispatch dispatch (some old) = .ok u) :
    old.schemaVersion = 2 ∧ old.dispatch = dispatch := by
  simp only [sameDispatch] at h
  split at h
  · cases h
  · rename_i hold
    simpa only [not_or,not_not] using hold

/-- A whole call from a world it just began in. -/
theorem wp_dispatch (hs : Sound platform w) (hbegan : w.began = w.files)
    (hcurrent : w.current = some dispatch) (hlog : w.log = []) :
    Script.wp (outside platform readers) (Allowed platform)
      (dispatchRoborevOnce platform readers dispatch policy)
      (Then fun result w' => w'.current = some dispatch ∧ Done platform w' dispatch result) () w := by
  unfold dispatchRoborevOnce
  refine wp_checked fun _ _ => wp_checked fun _ _ => wp_checked fun _ _ => ?_
  split
  · exact trivial
  refine wp_opened hs hbegan hcurrent hlog fun old u₁ w₁ hready => ?_
  refine wp_checked fun _ hsame => ?_
  refine Script.wp_then (wp_runner (q := .verifyCheckout dispatch)
    (R := fun a w' => w' = asked (.verifyCheckout dispatch) w₁ (.ok a)) trivial fun a => rfl) ?_
  intro a u₂ w₂ hw₂
  refine Script.wp_then (wp_runner (q := .jobs dispatch)
    (R := fun a w' => w' = asked (.jobs dispatch) w₂ (.ok a)) trivial fun a => rfl) ?_
  intro before u₃ w₃ hw₃
  have hready₃ : Ready platform dispatch old [before] w₃ := by
    have h := ready_asked (ready_asked hready (q := .verifyCheckout dispatch) (r := .ok a) nofun)
      (q := .jobs dispatch) (r := .ok before) nofun
    rw [hw₃,hw₂]
    exact h
  cases old with
  | none =>
    refine Script.wp_then (wp_enqueueOnce hready₃) ?_
    rintro ⟨ledger,last⟩ u₄ w₄ hcollect
    exact wp_collect hcollect
  | some old =>
    have hown := sameDispatch_ok hsame
    refine wp_collect ⟨hready₃.current,hready₃.stored,hown,.inr ⟨old,hready₃.began,hown.2⟩,?_⟩
    rw [hready₃.listed]
    rfl

/-! ## Every sequence of calls -/

theorem Sound.begin (hs : Sound platform w) (d : RoborevDispatch) :
    Sound platform { w with began := w.files, current := some d, log := [] } :=
  hs.grow rfl fun _ hk => hk

theorem wp_sound (hs : Sound platform w) :
    Script.wp (outside platform readers) (fun w q => Sound platform w ∧ Allowed platform w q)
      (dispatchRoborevOnce platform readers dispatch policy)
      (fun r u w' => Sound platform w' ∧
        Then (fun result w' => w'.current = some dispatch ∧ Done platform w' dispatch result) r u w') ()
      { w with began := w.files, current := some dispatch, log := [] } := by
  refine wp_invariant (fun w w' h hr => ?_) (fun w q r w' h hq ha => h.answer hq ha)
    (hs.begin dispatch) (wp_dispatch (hs.begin dispatch) rfl rfl rfl)
  exact (show w = w' from hr) ▸ h

theorem invariant (platform : Platform) (readers : Readers) :
    (system platform readers).Invariant (fun w q => Sound platform w ∧ Allowed platform w q)
      (Sound platform) where
  start := by
    rintro w w' p hs ⟨dispatch,policy,rfl,rfl⟩
    exact wp_mono (wp_sound hs) fun _ _ h => h.1
  idle := fun w w' h hr => (show w = w' from hr) ▸ h
  rely := fun w w' h hr => (show w = w' from hr) ▸ h
  guard := fun _ _ h => h.1
  torn := fun _ _ _ h ht => h.1.answer h.2 ht.choose_spec

/-- What an enqueue is counted by. -/
def request (d : RoborevDispatch) : String × String :=
  (d.intent.candidate.url,d.intent.id)

/-- What holds at every moment of every sequence of calls. -/
structure AtMostOnce (platform : Platform) (readers : Readers) (c : (system platform readers).Conf) :
    Prop where
  /-- No request was enqueued twice, and none is about to be enqueued again. -/
  once : (c.1.enqueued.map request).Nodup
  fresh : ∀ p d, c.2 = some p → p.pending = some (.inr (.enqueue d)) →
    request d ∉ c.1.enqueued.map request
  /-- An enqueue is of a request without ledger, and of a checkout without jobs. -/
  refused : ∀ p d, c.2 = some p → p.pending = some (.inr (.enqueue d)) →
    c.1.current = some d ∧ c.1.began.ledger (key platform d) = none ∧ listed c.1.log = [[]]
  /-- A call succeeds on the stored dispatch only, or on the first one of an empty checkout. -/
  done : ∀ p result u, c.2 = some p → p.returned = some (.ok result,u) →
    ∃ d, c.1.current = some d ∧ Done platform c.1 d result
  /-- A stored job stays stored. -/
  kept : ∀ c', Relation.ReflTransGen (system platform readers).Step c c' → ∀ k d job,
    Holds c.1 k d job → Holds c'.1 k d job

/-- Keys are digests of requests. -/
theorem keys_eq (platform : Platform) (ds : List RoborevDispatch) : ds.map (key platform) =
    (ds.map request).map fun r => platform.hexDigest (r.1 ++ ":" ++ r.2).toList := by
  rw [List.map_map]
  rfl

def samplePolicy : Policy := ⟨1,"roborev","github-receipt-v1",1,[⟨"review-policy",some 7⟩]⟩

def sampleCandidate : Candidate :=
  ⟨"https://example.org/pull/1","fork","topic","main","0123456789012345678901234567890123456789",
    "9876543210987654321098765432109876543210",false,true⟩

/-- SHA-256 of the two texts the sample hashes. -/
def samplePlatform : Platform where
  hexDigest := fun text =>
    if text = samplePolicy.json.render then
      "a3f65b1f72b32fadd6acf4e18c9504ad0d9373b1b17bd7449d2e602b7366b72d"
    else "d9869142dce4a81a9f8d65e1609ff8281c15969c79513d9b34bda3bf10409da5"
  canonicalUrl := fun url => url = sampleCandidate.url

def sampleDispatch : RoborevDispatch where
  intent := ⟨1,"request-1",sampleCandidate,
    "a3f65b1f72b32fadd6acf4e18c9504ad0d9373b1b17bd7449d2e602b7366b72d",[]⟩
  checkout := "/checkout"
  agent := "codex"
  expectedFiles := 1

def sampleJob : Json := .obj
  [("id",.int 12),("uuid",.str "01234567-89ab-cdef-0123-456789abcdef"),
    ("repo_path",.str "/checkout"),("git_ref",.str (range sampleCandidate)),("agent",.str "codex"),
    ("job_type",.str "range"),("agentic",.bool false),("prompt_prebuilt",.bool false),
    ("min_severity",.str ""),("status",.str "failed")]

/-- A checkout without jobs until one is enqueued, which fails. -/
def smooth : (q : Req) → World → Except Error (Rep q) × World
  | .inl (.openLock key), w =>
    (.ok (!w.files.anchor key),{ w with files := w.files.opened key })
  | .inl (.read key), w => (.ok (w.files.ledger key),w)
  | .inl (.write key ledger), w => (.ok (),{ w with files := w.files.saved key ledger })
  | .inl .createDir, w | .inl (.tryLock _), w => (.ok (),w)
  | .inr q, w =>
    let r : Except Error q.Rep := match q with
      | .verifyCheckout _ => .ok ()
      | .jobs _ => .ok (if w.enqueued = [] then [] else [sampleJob])
      | .enqueue _ => .ok ⟨12,"01234567-89ab-cdef-0123-456789abcdef"⟩
      | .savedReview _ => .error (.other "no review")
    (r,asked q w r)

theorem smooth_answers (q : Req) (w : World) : answers q w (smooth q w).1 (smooth q w).2 := by
  rcases q with q | q
  · cases q with
    | openLock => exact ⟨_,⟨rfl,rfl⟩,rfl⟩
    | read => exact ⟨_,⟨rfl,fun _ h => (Except.ok.inj h).symm⟩,rfl⟩
    | write => exact ⟨_,.inl rfl,rfl⟩
    | createDir | tryLock => exact ⟨_,rfl,rfl⟩
  · rfl

def World.empty : World := ⟨⟨fun _ => false,fun _ => none⟩,[],⟨fun _ => false,fun _ => none⟩,none,[]⟩

/-- The first `n` requests of the first call. -/
def sampleCall (readers : Readers) (n : ℕ) := advance smooth n
  ((dispatchRoborevOnce samplePlatform readers sampleDispatch samplePolicy).start ())
  { World.empty with current := some sampleDispatch }

theorem sampleCall_reachable (readers : Readers) (n : ℕ) :
    (system samplePlatform readers).Reachable .empty
      ((sampleCall readers n).2,some (sampleCall readers n).1) := by
  have hstart : (system samplePlatform readers).Reachable .empty (_,some
      ((dispatchRoborevOnce samplePlatform readers sampleDispatch samplePolicy).start ())) :=
    .tail .refl (.start ⟨sampleDispatch,samplePolicy,rfl,rfl⟩)
  exact hstart.reach (reach_advance (M := (system samplePlatform readers).toWorld)
    smooth_answers n _ _)

def noReaders : Readers := ⟨fun _ => none,fun _ => none,fun _ => none⟩

end Dispatch
end CanixToolbelt
