import CanixToolbelt.Review

/-! The private ledgers of roborev requests: a claim that outlives the call which made it,
and the record that is saved behind it. -/
namespace CanixToolbelt
namespace Ledger
open Effect Review

variable {T σ : Type}

/-- What a ledger file reads as. -/
inductive Stored (T : Type)
  | ledger (ledger : T)
  | oversized
  | malformed

inductive Req (T : Type)
  | createDir
  | openLock (key : String)
  | tryLock (key : String)
  | read (key : String)
  | write (key : String) (ledger : T)

def Rep : Req T → Type
  | .openLock _ => Bool
  | .read _ => Option (Stored T)
  | _ => Unit

abbrev Files (T σ α : Type) := Script (Req T) Rep σ Error α

def createDir : Files T σ Unit := Script.ask Req.createDir
/-- Open the lock file, made where it is absent: the reply is whether it was. -/
def openLock (key : String) : Files T σ Bool := Script.ask (Req.openLock key)
def tryLock (key : String) : Files T σ Unit := Script.ask (Req.tryLock key)
def read (key : String) : Files T σ (Option (Stored T)) := Script.ask (Req.read key)
/-- The ledger in a temporary file that replaces the old one. -/
def save (key : String) (ledger : T) : Files T σ Unit := Script.ask (Req.write key ledger)

/-- Hold the request of this key; the lock file stays behind. -/
def claim (key : String) : Files T σ Bool := do
  createDir
  let fresh ← openLock key
  let held ← (tryLock key).attempt
  match held with
  | .ok _ => pure fresh
  | .error _ => throw (.other "another worker owns this roborev request")

def readLedger (key : String) (fresh : Bool) : Files T σ (Option T) := do
  let stored ← read key
  match stored with
  | some (.ledger ledger) => pure (some ledger)
  | some .oversized => throw (.other "oversized roborev ledger")
  | some .malformed => throw (.other "malformed roborev ledger")
  | none =>
    if fresh then pure none
    else throw (.other "roborev ledger is missing behind a claimed request; no mutation replay is permitted")

/-! ## The state directory -/

/-- Which lock files there are, and what the ledger files hold. -/
structure Directory (T : Type) where
  anchor : String → Bool
  ledger : String → Option (Stored T)

namespace Directory

def opened (d : Directory T) (key : String) : Directory T :=
  { d with anchor := Function.update d.anchor key true }

def saved (d : Directory T) (key : String) (ledger : T) : Directory T :=
  { d with ledger := Function.update d.ledger key (some (.ledger ledger)) }

@[simp] theorem opened_ledger (d : Directory T) (key : String) :
    (d.opened key).ledger = d.ledger := rfl
@[simp] theorem saved_anchor (d : Directory T) (key : String) (l : T) :
    (d.saved key l).anchor = d.anchor := rfl
@[simp] theorem opened_self (d : Directory T) (key : String) : (d.opened key).anchor key = true :=
  Function.update_self ..
@[simp] theorem saved_self (d : Directory T) (key : String) (l : T) :
    (d.saved key l).ledger key = some (.ledger l) := Function.update_self ..

theorem saved_ne {d : Directory T} {key k : String} (h : k ≠ key) (l : T) :
    (d.saved key l).ledger k = d.ledger k := Function.update_of_ne h ..

theorem opened_mono (d : Directory T) {key k : String} (h : d.anchor k = true) :
    (d.opened key).anchor k = true := by
  by_cases hk : k = key
  · rw [hk,opened_self]
  · simp only [opened,Function.update_of_ne hk,h]

end Directory

/-- How a request may be answered: a ledger is replaced as a whole, and any request may
fail, after its effect or before it. -/
def answers : (q : Req T) → Directory T → Except Error (Rep q) → Directory T → Prop
  | .openLock key, d, r, d' => match r with
    | .ok fresh => fresh = !d.anchor key ∧ d' = d.opened key
    | .error _ => d' = d ∨ d' = d.opened key
  | .read key, d, r, d' => d' = d ∧ ∀ stored, r = .ok stored → stored = d.ledger key
  | .write key l, d, r, d' => d' = d.saved key l ∨ (d' = d ∧ ∃ e, r = .error e)
  | _, d, _, d' => d' = d

/-- The directory while nobody else writes to it. -/
def disk (T : Type) : World (Req T) (fun q => Except Error (Rep q)) (Directory T) where
  step := answers

/-- Everything but a saved ledger. -/
def Quiet : Req T → Prop
  | .write _ _ => False
  | _ => True

theorem wp_claim (key : String) (d : Directory T) (s : σ) :
    Script.wp (disk T) (fun _ q => Quiet q) (claim key)
      (Script.Ends (fun fresh _ d' => fresh = !d.anchor key ∧ d' = d.opened key)
        fun _ _ d' => d' = d ∨ d' = d.opened key) s d := by
  refine Script.wp_then (R := fun _ _ d' => d' = d) ?_ ?_
  · rintro _ rfl
    refine ⟨trivial,fun r d' hd => ?_⟩
    obtain rfl : d' = d := hd
    cases r with
    | error e => exact .inl rfl
    | ok u => rfl
  intro u s' d' hd
  rw [hd]
  refine Script.wp_then (R := fun fresh _ d' => fresh = !d.anchor key ∧ d' = d.opened key) ?_ ?_
  · rintro _ rfl
    refine ⟨trivial,fun r d' hd => ?_⟩
    cases r with
    | error e => exact hd
    | ok fresh => exact hd
  intro fresh s' d' hd
  obtain ⟨hfresh,hd⟩ := hd
  rw [hd]
  refine Script.wp_bind.2 (Script.wp_attempt.2 ?_)
  rintro _ rfl
  refine ⟨trivial,fun r d' hd => ?_⟩
  obtain rfl : d' = _ := hd
  cases r with
  | error e => exact .inr rfl
  | ok u => exact ⟨hfresh,rfl⟩

theorem wp_readLedger (key : String) (fresh : Bool) (d : Directory T) (s : σ) :
    Script.wp (disk T) (fun _ q => Quiet q) (readLedger key fresh)
      (Script.Ends (fun old _ d' => d' = d ∧ d.ledger key = old.map .ledger ∧
        (old = none → fresh = true)) fun _ _ d' => d' = d) s d := by
  refine Script.wp_then (R := fun stored _ d' => d' = d ∧ stored = d.ledger key) ?_ ?_
  · rintro _ rfl
    refine ⟨trivial,fun r d' hd => ?_⟩
    obtain ⟨rfl,hstored⟩ := hd
    cases r with
    | error e => rfl
    | ok stored => exact ⟨rfl,hstored stored rfl⟩
  intro stored s' d' hd
  obtain ⟨hd,hstored⟩ := hd
  rw [hd,← hstored]
  cases stored with
  | none =>
    cases fresh with
    | false => rfl
    | true => exact ⟨rfl,rfl,fun _ => rfl⟩
  | some l =>
    cases l with
    | ledger l => exact ⟨rfl,rfl,fun h => nomatch h⟩
    | oversized => rfl
    | malformed => rfl

end Ledger
end CanixToolbelt
