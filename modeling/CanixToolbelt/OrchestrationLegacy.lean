import CanixToolbelt.OrchestrationCompletion

/-! Imported journals whose delivery lacks its observation: when such a delivery stays
unbound until a fresh turn, and when it does not. -/
namespace CanixToolbelt
namespace Orchestration

open Fallible Json Canonical

variable {lib : Library}

namespace Run

/-- The journal is imported, and the owner `n` was delivered an event whose observation
it does not hold. -/
structure Legacy (run : Run lib) (n : ℕ) : Prop where
  imported : (run.state 0).retained = none
  delivered : (run.row 0 n).get "deliveredVersion" ≠ .null
  unbound : (run.row 0 n).get "deliveredObservationVersion" = .null
  unobserved : (run.row 0 n).get "observationVersion" = .null

/-- No request of the owner `n` is ever acknowledged. -/
def Unanswered (run : Run lib) (n : ℕ) : Prop := ∀ a id, ¬ run.Acknowledges a n id

/-- At time `t` the delivery of `n` is unbound and no report has been adopted for it. -/
structure Waits (run : Run lib) (t n : ℕ) : Prop where
  unbound : (run.row t n).get "deliveredObservationVersion" = .null
  status : (run.row t n).get "workerStatus" = (run.row 0 n).get "workerStatus"

variable {run : Run lib} {t n : ℕ}

/-- Beside a refresh and an acknowledgement, nothing touches the delivered observation. -/
theorem Waits.kept (h : run.Waits t n) (hop : ∀ m policy inputs, run.op t ≠ .refresh m policy inputs)
    (hno : run.Unanswered n) : run.Waits (t+1) n := by
  have hstatus : (run.row (t+1) n).get "workerStatus" = (run.row t n).get "workerStatus" := by
    refine run.row_keeps fun hmem => ?_
    have hkeys := Operation.keys_followUp hop n hmem
    revert hkeys
    decide
  refine ⟨?_,hstatus.trans h.status⟩
  rw [← h.unbound]
  cases hop' : run.op t with
  | observe prs => exact run.row_keeps (by simp [hop',Operation.keys])
  | refresh m policy inputs => exact absurd hop' (hop m policy inputs)
  | recheck m policy now =>
    refine run.row_keeps ?_
    rw [hop',Operation.keys]
    split <;> simp
  | recover m idle now =>
    refine run.row_keeps ?_
    rw [hop',Operation.keys]
    split <;> simp
  | prepare p policy text at_ =>
    refine run.row_keeps ?_
    rw [hop',Operation.keys]
    split <;> simp
  | acknowledge m id at_ =>
    rw [row_succ,hop']
    refine acknowledge_get (fun hmn hacc => ?_) _
    subst hmn
    exact hno t id ⟨⟨at_,hop',hacc⟩⟩

theorem Waits.step (h : run.Waits t n) (hno : run.Unanswered n)
    (hfresh : ∀ m policy inputs p, run.Refreshes t n m policy inputs p →
      rebinds (run.row t n) = false) : run.Waits (t+1) n := by
  by_cases hop : ∃ m policy inputs, run.op t = .refresh m policy inputs
  · obtain ⟨m,policy,inputs,hop⟩ := hop
    rcases run.refreshes_or_same n hop with hrefresh | hsame
    · obtain ⟨p,hr⟩ := hrefresh
      have hunbound := hr.packet.unbound
      have hunanswered := hr.packet.unanswered
      rw [hr.row,hr.row] at hunbound hunanswered
      have hnull := hunbound h.unbound
      rw [hfresh m policy inputs p hr,if_neg (by decide)] at hnull
      exact ⟨hnull,(hunanswered hnull).trans h.status⟩
    · exact ⟨by rw [hsame,h.unbound],by rw [hsame,h.status]⟩
  · exact h.kept (fun m policy inputs heq => hop ⟨m,policy,inputs,heq⟩) hno

/-- A legacy delivery stays unbound, and no report is accepted for it, exactly when no
refresh finds the row's own version to be the delivered one with an observation retained. -/
theorem legacy_waits_iff (hlegacy : run.Legacy n) (hno : run.Unanswered n) :
    (∀ t, run.Waits t n ∧ ∀ m policy inputs p report, run.Refreshes t n m policy inputs p →
      ¬ ReportAccepted inputs p (run.row (t+1) n) report) ↔
    ∀ t m policy inputs p, run.Refreshes t n m policy inputs p → rebinds (run.row t n) = false := by
  constructor
  · intro h t m policy inputs p hr
    by_contra hrebinds
    rw [Bool.not_eq_false] at hrebinds
    have hbound := hr.packet.unbound
    rw [hr.row,hr.row,hrebinds,if_pos rfl,(h (t+1)).1.unbound] at hbound
    have hstring := hrebinds
    simp only [rebinds,Bool.and_eq_true] at hstring
    rw [← hbound (h t).1.unbound] at hstring
    exact absurd hstring.2 (by decide)
  · intro h
    have hwaits : ∀ t, run.Waits t n := by
      intro t
      induction t with
      | zero => exact ⟨hlegacy.unbound,rfl⟩
      | succ t ih => exact ih.step hno (h t)
    refine fun t => ⟨hwaits t,fun m policy inputs p report hr haccepted => ?_⟩
    have htext := haccepted.text
    rw [← haccepted.observation,(hwaits (t+1)).unbound] at htext
    cases htext

end Run

/-! Two imports of a campaign of one owner: the delivered event is another one, or the very
one the next refresh computes. -/

def importedJournal (delivered : String) : Journal where
  retained := none
  prs := .obj [("one",.obj [("url",.str "one"),("state",.str "MERGED"),("head",.str "h1")])]
  packets := .obj [("1",.obj [("deliveredVersion",.str delivered),("ownerHost",.str "builder"),
    ("prs",.arr [.str "one"]),("sessionID",.str "ses_one")])]

def soloPolicy : Policy := ⟨"goal-1",[],[],[],[]⟩

/-- A worker's report on the event delivered before the import. -/
def lateReport : Json :=
  .obj [("eventVersion",.str "71bb644b257e45c8ea44fb8026ff6cde0de9013731027d3bfde49a9f11d64f40"),
    ("packet",nat 1),("schemaVersion",nat 1),("status",.str "merged")]

def importOps : ℕ → Operation
  | 0 => .refresh solo soloPolicy ⟨[],[],[]⟩
  | 1 => .refresh solo soloPolicy ⟨[(1,lateReport)],[],[]⟩
  | _ => .observe (.obj [])

def importRun (delivered : String) : Run soloLibrary :=
  .start soloLibrary (importedJournal delivered) importOps

theorem importRun_legacy (delivered : String) : (importRun delivered).Legacy 1 where
  imported := rfl
  delivered := by
    rw [show ((importRun delivered).row 0 1).get "deliveredVersion" = .str delivered from rfl]
    simp
  unbound := rfl
  unobserved := rfl

theorem importRun_unanswered (delivered : String) : (importRun delivered).Unanswered 1 := by
  intro a id hacc
  obtain ⟨at_,hop,-⟩ := hacc.op
  match a,hop with
  | 0,hop => cases hop
  | 1,hop => cases hop
  | a+2,hop => cases hop

/-- Another event delivered before the import waits for a fresh turn. -/
theorem legacy_waits : (importRun "old").Waits 2 1 := by
  refine ((Run.legacy_waits_iff (importRun_legacy "old") (importRun_unanswered "old")).mpr ?_ 2).1
  intro t m policy inputs p hr
  match t,hr.op with
  | 0,_ => rfl
  | 1,_ => decide +kernel
  | t+2,hop => cases hop

/-- The event delivered before the import is the one the first refresh computes: the second
binds it and adopts a report on it, though no turn was delivered since. -/
theorem legacy_rebound :
    (¬ ∀ (run : Run soloLibrary) (n : ℕ), run.Legacy n → run.Unanswered n → ∀ t, run.Waits t n) ∧
    ((importRun "71bb644b257e45c8ea44fb8026ff6cde0de9013731027d3bfde49a9f11d64f40").row 2 1).get
      "workerStatus" = lateReport := by
  constructor
  · intro hall
    have hwaits := hall
      (importRun "71bb644b257e45c8ea44fb8026ff6cde0de9013731027d3bfde49a9f11d64f40") 1
      (importRun_legacy _) (importRun_unanswered _) 2
    exact absurd hwaits.unbound (by decide +kernel)
  · decide +kernel

end Orchestration
end CanixToolbelt
