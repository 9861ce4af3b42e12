import CanixToolbelt.Effect
import CanixToolbelt.JsonText

/-! The durable operator: idempotent service stages with checkpoints, retry budgets,
interruption and restoration of the workers it stopped.  Every access to the disk, the
service manager, the clock or the cancellation flag is a request. -/
namespace CanixToolbelt
namespace Operator
open Effect

/-- One idempotent, checkpoint-aware unit owned by the consumer. -/
structure Stage where
  name : String
  unit : String
  deriving DecidableEq, Repr

/-- Immutable policy for a run. -/
structure OperatorConfig where
  name : String
  contractId : String
  stateDir : String
  requestPath : String
  sentinelPath : String
  stages : List Stage
  maxAttempts : UInt64
  retryDelays : List String
  quiesceUnits : List String
  deriving DecidableEq, Repr

inductive Outcome
  | succeeded | failed | interrupted | cancelled
  deriving DecidableEq, Repr

/-- The texts of the checkpoint's `state` and `result`. -/
inductive Phase
  | running | succeeded | failed | interrupted | cancelled
  deriving DecidableEq, Repr

namespace Phase

def text : Phase → String
  | .running => "running"
  | .succeeded => "succeeded"
  | .failed => "failed"
  | .interrupted => "interrupted"
  | .cancelled => "cancelled"

def terminal : Phase → Bool
  | .succeeded | .failed | .cancelled => true
  | .running | .interrupted => false

end Phase

def Outcome.phase : Outcome → Phase
  | .succeeded => .succeeded
  | .failed => .failed
  | .interrupted => .interrupted
  | .cancelled => .cancelled

/-- Result observed from the service manager. -/
structure StageResult where
  success : Bool
  result : String
  exitStatus : Int32
  deriving DecidableEq, Repr

/-- An error and its text; `invalid` is the engine's own refusal. -/
inductive Error
  | invalid (message : String)
  | other (message : String)
  deriving DecidableEq, Repr

def Error.text : Error → String
  | .invalid message | .other message => message

/-- Device, inode and modification time of the request file. -/
abbrev Identity := String

/-- A clock reading in nanoseconds. -/
abbrev Reading := ℕ

/-- The whole seconds of a reading, a 64-bit number. -/
def asSecs (t : Reading) : ℕ := t / 10^9 % 2^64

/-- The checkpoint `state.json`.  A stage without recorded failures has none; run
ids are clock readings, printed in decimal. -/
structure State where
  runId : ℕ
  state : Phase
  result : Phase
  config : Option OperatorConfig
  completed : List String
  failures : String → ℕ
  restoreWorkers : List String
  restoring : Bool
  requestIdentity : Option Identity
  currentUnit : String
  currentStage : String
  currentIndex : ℤ
  stageCount : ℕ
  report : String
  updatedAt : ℕ

/-- The memory of an invocation that has not loaded or made a checkpoint yet. -/
def State.unloaded : State :=
  ⟨0,.running,.running,none,[],fun _ => 0,[],false,none,"","",-1,0,"",0⟩

/-- One line of a run's event log. -/
structure Event where
  event : String
  stage : String
  unit : String
  attempt : ℕ
  result : String
  exitStatus : Int32
  at_ : Reading

def Event.json (e : Event) : Json := .obj
  [("at",.int (asSecs e.at_)),("attempt",.int e.attempt),("event",.str e.event),
   ("exit_status",.int e.exitStatus.toInt),("result",.str e.result),("stage",.str e.stage),
   ("unit",.str e.unit)]

def Event.text (e : Event) : List Char := e.json.render ++ ['\n']

structure Report where
  runId : ℕ
  result : Phase
  events : List Json

/-- Who asks for a stop: worker quiescence, or the end of a stage's unit. -/
inductive Role
  | worker | stage
  deriving DecidableEq, Repr

inductive Req
  | lock | now | cancelled | ready | panic
  | requestIdentity | markRequest | removeRequest
  | readState | makeRunDir (runId : ℕ) | writeState (state : State)
  | active (unit : String) | stop (role : Role) (unit : String)
  | restore (unit : String) | start (unit : String) | wait (delay : ℕ)
  | markSentinel | removeSentinel | sentinelExists
  | appendEvent (runId : ℕ) (event : Event) | readEvents (runId : ℕ)
  | writeReport (path : String) (report : Report)

def Rep : Req → Type
  | .now => Reading
  | .cancelled | .active _ | .sentinelExists => Bool
  | .requestIdentity => Option Identity
  | .readState => Option State
  | .start _ => StageResult
  | .readEvents _ => ByteArray
  | _ => Unit

abbrev Op := Script Req Rep State Error

/-! ## Requests -/

def lock : Op Unit := Script.ask Req.lock
def now : Op Reading := Script.ask Req.now
def cancelled : Op Bool := Script.ask Req.cancelled
def ready : Op Unit := Script.ask Req.ready
def outOfRange : Op Unit := Script.ask Req.panic
def requestIdentity : Op (Option Identity) := Script.ask Req.requestIdentity
def markRequest : Op Unit := Script.ask Req.markRequest
def removeRequest : Op Unit := Script.ask Req.removeRequest
def readState : Op (Option State) := Script.ask Req.readState
def makeRunDir (runId : ℕ) : Op Unit := Script.ask (Req.makeRunDir runId)
def writeState (st : State) : Op Unit := Script.ask (Req.writeState st)
def active (unit : String) : Op Bool := Script.ask (Req.active unit)
def stop (role : Role) (unit : String) : Op Unit := Script.ask (Req.stop role unit)
def restore (unit : String) : Op Unit := Script.ask (Req.restore unit)
def start (unit : String) : Op StageResult := Script.ask (Req.start unit)
def wait (delay : ℕ) : Op Unit := Script.ask (Req.wait delay)
def markSentinel : Op Unit := Script.ask Req.markSentinel
def removeSentinel : Op Unit := Script.ask Req.removeSentinel
def sentinelExists : Op Bool := Script.ask Req.sentinelExists
def appendEvent (runId : ℕ) (e : Event) : Op Unit := Script.ask (Req.appendEvent runId e)
def readEvents (runId : ℕ) : Op ByteArray := Script.ask (Req.readEvents runId)
def writeReport (path : String) (report : Report) : Op Unit :=
  Script.ask (Req.writeReport path report)
def load : Op State := get
def update (f : State → State) : Op Unit := modify f
def onlyIf (c : Bool) (m : Op Unit) : Op Unit := if c then m else pure ()

@[simp] theorem onlyIf_true (m : Op Unit) : onlyIf true m = m := rfl
@[simp] theorem onlyIf_false (m : Op Unit) : onlyIf false m = pure () := rfl

/-! ## The contract -/

def stripSuffix (suffix cs : List Char) : Option (List Char) :=
  if suffix.isSuffixOf cs then some (cs.take (cs.length - suffix.length)) else none

/-- `parse::<u64>`: digits after an optional plus sign, below 2^64. -/
def parseU64 (cs : List Char) : Option ℕ :=
  let ds := match cs with
    | '+' :: ds => ds
    | ds => ds
  if ds ≠ [] ∧ ds.all Char.isDigit ∧ Json.digitValue ds < 2^64 then some (Json.digitValue ds)
  else none

/-- A retry delay in milliseconds; the first suffix that fits decides. -/
def delay (value : String) : Except Error ℕ :=
  let units := [("ms",1),("min",60000),("s",1000),("m",60000),("h",3600000)]
  match units.findSome? fun u => (stripSuffix u.1.toList value.toList).map (·,u.2) with
  | none => .error (.invalid "retry delay must use ms, s, min, m, or h")
  | some (number,multiplier) =>
    match parseU64 number with
    | some n =>
      if n*multiplier < 2^64 then .ok (n*multiplier) else .error (.invalid "invalid retry delay")
    | none => .error (.invalid "invalid retry delay")

def unitName (unit : String) : Bool :=
  ".service".toList.isSuffixOf unit.toList && unit.toList.head? ≠ some '-' &&
    unit.toList.all fun c => c.isAlphanum || c ∈ ['-','_','.','@',':','+']

def validate (config : OperatorConfig) : Except Error (List ℕ) :=
  if config.contractId = "" ∨ config.stages = [] ∨ config.maxAttempts = 0 ∨
      config.retryDelays.length < config.maxAttempts.toNat - 1 then
    .error (.invalid "operator requires stages and a positive retry budget with delays")
  else if ¬ (config.stages.map Stage.name).Nodup ∨ "" ∈ config.stages.map Stage.name then
    .error (.invalid "stage identities must be unique and nonempty")
  else if ¬ (config.stages.map Stage.unit ++ config.quiesceUnits).all unitName then
    .error (.invalid "invalid service unit name")
  else config.retryDelays.mapM delay

/-! ## The engine -/

def checked {α : Type} (r : Except Error α) : Op α := ExceptT.mk (pure r)

@[simp] theorem checked_ok {α : Type} (a : α) : checked (.ok a) = pure a := rfl

def save : Op Unit := do
  let t ← now
  update fun st => { st with updatedAt := asSecs t }
  let st ← load
  writeState st

def event (name : String) (attempt : ℕ) (result : String) (status : Int32) : Op Unit := do
  let st ← load
  let t ← now
  appendEvent st.runId ⟨name,st.currentStage,st.currentUnit,attempt,result,status,t⟩

def stopConfirmed (role : Role) (unit : String) : Op Unit := do
  stop role unit
  let running ← active unit
  onlyIf running (throw (.other ("stage " ++ unit ++ " remains active after stop")))

def reportPath (config : OperatorConfig) (runId : ℕ) : String :=
  config.stateDir ++ "/runs/" ++ toString runId ++ "/report.json"

/-- A new run, its directory made before its first checkpoint. -/
def fresh (config : OperatorConfig) : Op Unit := do
  let t ← now
  makeRunDir t
  update fun _ =>
    { runId := t, state := .running, result := .running, config := some config,
      completed := [], failures := fun _ => 0, restoreWorkers := [], restoring := false,
      requestIdentity := none, currentUnit := "", currentStage := "", currentIndex := -1,
      stageCount := config.stages.length, report := reportPath config t, updatedAt := 0 }

/-- Whether a present request belongs to the checkpointed run. -/
def resumes (st : State) (requested : Option Identity) : Bool :=
  requested.isSome &&
    (st.restoring || st.state = .running || st.state = .interrupted ||
      (st.state.terminal && (st.requestIdentity.isNone || st.requestIdentity = requested)))

/-- Resume the checkpointed run, refuse to abandon it, or begin a new one. -/
def admission (config : OperatorConfig) (requested : Option Identity) : Option State → Op Unit
  | some st =>
    if resumes st requested then
      if st.config = some config then update fun _ => st
      else throw (.invalid "interrupted operator contract changed (or legacy shell state); preserve the run and reconcile it before starting a new contract")
    else if st.restoreWorkers ≠ [] ∨ st.currentUnit ≠ "" then
      throw (.invalid ("run " ++ toString st.runId ++ " has unrecovered workers; retain its request and recover the original contract"))
    else fresh config
  | none => fresh config

def State.restoreOnly (st : State) : Bool := st.restoring || st.state.terminal

/-- The unit of the current stage may still be running. -/
def State.unsettled (st : State) : Bool :=
  st.currentUnit ≠ "" && st.currentStage ∉ st.completed

/-- Record a worker that is active and not recorded yet. -/
def claimWorker (unit : String) : Op Unit := do
  let running ← active unit
  onlyIf running do
    update fun st => { st with restoreWorkers := st.restoreWorkers ++ [unit] }
    save

def quiesceWorker (unit : String) : Op Unit := do
  let st ← load
  onlyIf (unit ∉ st.restoreWorkers) (claimWorker unit)
  let st ← load
  onlyIf (unit ∈ st.restoreWorkers) (stopConfirmed .worker unit)

def quiesce : List String → Op Unit
  | [] => pure ()
  | unit::units => do
    quiesceWorker unit
    quiesce units

/-- Start a stage; a service-manager error counts as a failed attempt. -/
def startStage (unit : String) : Op StageResult := do
  let r ← (start unit).attempt
  match r with
  | .ok result => pure result
  | .error e => pure ⟨false,"service-manager-error: " ++ e.text,-1⟩

def complete (stage : Stage) (failures : ℕ) (result : StageResult) : Op Unit := do
  update fun st => { st with completed := st.completed ++ [stage.name] }
  save
  event "completed" (failures+1) result.result result.exitStatus

/-- Record a failed attempt, stop its unit, and wait if another may follow. -/
def attemptFailed (config : OperatorConfig) (delays : List ℕ) (stage : Stage) (failures : ℕ)
    (result : StageResult) : Op Unit := do
  update fun st => { st with failures := Function.update st.failures stage.name (failures+1) }
  save
  event "attempt_failed" (failures+1) result.result result.exitStatus
  stopConfirmed .stage stage.unit
  onlyIf (failures+1 < config.maxAttempts.toNat)
    (match delays[failures]? with
      | some d => wait d
      | none => outOfRange)

/-- The attempts a stage has left after `failures` failures: how many failures there
are when they end, or `none` for an interruption. -/
def attempts (config : OperatorConfig) (delays : List ℕ) (stage : Stage) :
    ℕ → ℕ → Op (Option ℕ)
  | 0, failures => pure (some failures)
  | n+1, failures => do
    let stopped ← cancelled
    if stopped then pure none else do
      update fun st => { st with currentUnit := stage.unit }
      save
      let result ← startStage stage.unit
      let stopped ← cancelled
      if stopped then pure none else
        if result.success then do
          complete stage failures result
          pure (some failures)
        else do
          attemptFailed config delays stage failures result
          attempts config delays stage n (failures+1)

/-- The stages from the given index on. -/
def runStages (config : OperatorConfig) (delays : List ℕ) : ℕ → List Stage → Bool → Op Outcome
  | _, [], failed => pure (if failed then .failed else .succeeded)
  | index, stage::stages, failed => do
    let stopped ← cancelled
    if stopped then pure .interrupted else do
      update fun st =>
        { st with currentStage := stage.name, currentUnit := stage.unit, currentIndex := index }
      let st ← load
      if stage.name ∈ st.completed then do
        event "skipped" 0 "success" 0
        runStages config delays (index+1) stages failed
      else do
        save
        let failures := st.failures stage.name
        let ended ← attempts config delays stage (config.maxAttempts.toNat - failures) failures
        match ended with
        | none => pure .interrupted
        | some failures => do
          let st ← load
          if stage.name ∈ st.completed then
            runStages config delays (index+1) stages failed
          else do
            event "failed" failures "failed" 1
            runStages config delays (index+1) stages true

/-- A prior crash may have left a stage running; it is stopped before anything else. -/
def settle : Op Unit := do
  let st ← load
  onlyIf st.unsettled do
    stopConfirmed .stage st.currentUnit
    update fun st => { st with currentUnit := "" }
    save

def recordedOutcome : Op Outcome := do
  let st ← load
  match st.result with
  | .succeeded => pure .succeeded
  | .failed => pure .failed
  | .interrupted => pure .interrupted
  | .cancelled => pure .cancelled
  | .running => throw (.invalid "restoration state has no recorded execution result")

def execute (config : OperatorConfig) (delays : List ℕ) (restoreOnly : Bool) : Op Outcome := do
  settle
  onlyIf (!restoreOnly) (quiesce config.quiesceUnits)
  markSentinel
  ready
  if restoreOnly then recordedOutcome else runStages config delays 0 config.stages false

/-- What an execution's end is recorded as. -/
def resultPhase : Except Error Outcome → Phase
  | .ok .succeeded => .succeeded
  | .ok .failed => .failed
  | .ok .cancelled => .cancelled
  | _ => .interrupted

/-- Start the workers again, keeping the first error. -/
def restoreAll : List String → Option Error → Op (Option Error)
  | [], first => pure first
  | unit::units, first => do
    let r ← (restore unit).attempt
    match r with
    | .error e => restoreAll units (first.or (some e))
    | .ok () => do
      update fun st => { st with restoreWorkers := st.restoreWorkers.filter (· ≠ unit) }
      let saved ← save.attempt
      match saved with
      | .ok () => restoreAll units first
      | .error e => restoreAll units (first.or (some e))

def lines : List Char → List (List Char)
  | [] => []
  | '\r' :: '\n' :: cs => []::lines cs
  | c::cs =>
    if c = '\n' then []::lines cs
    else match lines cs with
      | [] => [[c]]
      | l::ls => (c::l)::ls

/-- The lines of a log, each read as JSON. -/
def parseEvents (log : ByteArray) : Option (List Json) :=
  log.utf8Decode?.bind fun text => (lines text.toList).mapM Json.parse

/-- A dead service manager is no proof that a unit stopped: unless the stop is
confirmed both fences and the worker list stay as they are. -/
def confirmStage : Op Unit := do
  let st ← load
  onlyIf st.unsettled do
    let r ← (stopConfirmed .stage st.currentUnit).attempt
    match r with
    | .ok () => pure ()
    | .error e => do
      update fun st => { st with state := .interrupted }
      save
      throw e

/-- Take the sentinel down and restore every recorded worker, errors retained. -/
def recover : Op (Option Error) := do
  let removed ← removeSentinel.attempt
  let st ← load
  restoreAll st.restoreWorkers (match removed with
    | .ok () => none
    | .error e => some e)

def outcomeOf (execution : Except Error Outcome) (recoveryError : Option Error) : Outcome :=
  match execution, recoveryError with
  | .ok outcome, none => outcome
  | _, _ => .interrupted

/-- Write the report of a settled run and retire its request. -/
def retire (execution : Except Error Outcome) (recoveryError : Option Error) : Op Outcome := do
  let st ← load
  let log ← readEvents st.runId
  match parseEvents log with
  | none => throw (.invalid "malformed event line")
  | some events => do
    writeReport st.report ⟨st.runId,st.result,events⟩
    onlyIf (outcomeOf execution recoveryError ≠ .interrupted) removeRequest
    match recoveryError, execution with
    | some e, _ => throw e
    | none, .ok _ => pure (outcomeOf execution recoveryError)
    | none, .error e => throw e

def State.settled (st : State) (outcome : Outcome) (restoring : Bool) : State :=
  { st with state := outcome.phase, restoring := restoring
            result := if restoring then st.result else outcome.phase }

/-- Fences down, workers restored, report written, request removed. -/
def finish (execution : Except Error Outcome) : Op Outcome := do
  confirmStage
  update fun st => { st with currentUnit := "", restoring := true, result := resultPhase execution }
  save
  let recoveryError ← recover
  update fun st => st.settled (outcomeOf execution recoveryError) recoveryError.isSome
  save
  retire execution recoveryError

/-- Bind the request that is present, made first if there was none. -/
def bindRequest (requested : Option Identity) : Op Unit := do
  onlyIf requested.isNone markRequest
  let identity ← requestIdentity
  update fun st => { st with requestIdentity := identity }

/-- Everything before the execution: whether only restoration is left. -/
def prepare (config : OperatorConfig) : Op Bool := do
  lock
  let requested ← requestIdentity
  let previous ← readState
  admission config requested previous
  bindRequest requested
  let st ← load
  onlyIf (!st.restoreOnly) (update fun st => { st with state := .running, result := .running })
  save
  pure st.restoreOnly

/-- Execute or resume a run, from its admission through worker recovery. -/
def runWithReady (config : OperatorConfig) : Op Outcome := do
  let delays ← checked (validate config)
  let restoreOnly ← prepare config
  let execution ← (execute config delays restoreOnly).attempt
  finish execution

/-- Mark a checkpoint without workers, unit or sentinel cancelled. -/
def cancelState (st : State) : Op Unit :=
  if st.restoreWorkers ≠ [] ∨ st.currentUnit ≠ "" then
    throw (.invalid "cannot cancel with unrecovered workers or an unconfirmed stage")
  else do
    let executing ← sentinelExists
    if executing then
      throw (.invalid "cannot cancel with unrecovered workers or an unconfirmed stage")
    else do
      update fun _ => { st with state := .cancelled, result := .cancelled }
      save

def cancelPrevious : Option State → Op Unit
  | none => pure ()
  | some st => cancelState st

/-- Cancel only after the main service has stopped. -/
def cancel (config : OperatorConfig) : Op Unit := do
  let _ ← checked (validate config)
  lock
  let previous ← readState
  cancelPrevious previous
  removeRequest

/-! ## The outside -/

inductive Invocation
  | run | cancel
  deriving DecidableEq, Repr

/-- What happened so far, for stating properties; no invocation reads it. -/
structure History where
  /-- The invocation under way, or the last one. -/
  invocation : Invocation
  /-- The request that invocation bound: the one in the checkpoint it wrote last. -/
  bound : Option Identity
  /-- The last unit whose stop succeeded. -/
  stopped : Option String
  /-- Units this invocation stopped and then saw inactive. -/
  confirmed : List String
  /-- Units this invocation saw inactive. -/
  quiet : List String
  /-- Workers stopped for a run and not started again since. -/
  owned : List String
  /-- Stage units started, and neither completed nor confirmed stopped since. -/
  unsettled : List String
  /-- Stages ever recorded completed, with their run. -/
  done : List (ℕ × String)
  /-- Request identities whose stages were run to a terminal result. -/
  executed : List Identity
  /-- Request identities recorded with a terminal state. -/
  retired : List Identity
  /-- The same when the invocation under way began. -/
  retiredBefore : List Identity

def History.empty : History := ⟨.cancel,none,none,[],[],[],[],[],[],[],[]⟩

structure Disk where
  request : Option Identity
  state : Option State
  sentinel : Bool
  /-- The runs that have a directory. -/
  runs : List ℕ
  events : ℕ → ByteArray
  report : String → Option Report
  past : History

def Disk.empty : Disk := ⟨none,none,false,[],fun _ => .empty,fun _ => none,.empty⟩

namespace Disk

def begin (w : Disk) (i : Invocation) : Disk :=
  { w with past := { w.past with
      invocation := i, bound := none, stopped := none, confirmed := [], quiet := []
      retiredBefore := w.past.retired } }

/-- Stages are run to a terminal result when a running checkpoint turns to restoring
with such a result. -/
def settles (w : Disk) (st : State) : Bool :=
  w.state.any (fun old => old.state = .running && !old.restoring) && st.restoring &&
    (st.result = .succeeded || st.result = .failed)

def write (w : Disk) (st : State) : Disk :=
  { w with
    state := some st
    past := { w.past with
      bound := st.requestIdentity
      done := st.completed.map (st.runId,·) ++ w.past.done
      executed := (if w.settles st then st.requestIdentity.toList else []) ++ w.past.executed
      retired := (if st.state.terminal then st.requestIdentity.toList else []) ++ w.past.retired } }

def stopping (w : Disk) (role : Role) (unit : String) : Disk :=
  match role with
  | .worker => { w with past := { w.past with owned := unit :: w.past.owned } }
  | .stage => w

def stopOk (w : Disk) (unit : String) : Disk :=
  { w with past := { w.past with stopped := some unit } }

def inactive (w : Disk) (unit : String) : Disk :=
  { w with past := { w.past with
      quiet := unit :: w.past.quiet
      confirmed := (if w.past.stopped = some unit then [unit] else []) ++ w.past.confirmed
      unsettled :=
        if w.past.stopped = some unit then w.past.unsettled.filter (· ≠ unit)
        else w.past.unsettled } }

def restored (w : Disk) (unit : String) : Disk :=
  { w with past := { w.past with
      stopped := none
      quiet := w.past.quiet.filter (· ≠ unit)
      confirmed := w.past.confirmed.filter (· ≠ unit)
      owned := w.past.owned.filter (· ≠ unit) } }

def startOk (w : Disk) : Disk := { w with past := { w.past with stopped := none } }

def starting (w : Disk) (unit : String) : Disk :=
  { w with past := { w.past with stopped := none, unsettled := unit :: w.past.unsettled } }

def append (w : Disk) (runId : ℕ) (bytes : ByteArray) : Disk :=
  { w with events := Function.update w.events runId (w.events runId ++ bytes) }

end Disk

def Event.bytes (e : Event) : ByteArray := (String.ofList e.text).toByteArray

/-- What may go wrong: when others may touch the request, which runs may begin, and
how many bytes of a line an interrupted append may leave. -/
structure Faults where
  touch : Disk → Prop
  begin : Disk → Prop
  tear : ByteArray → ℕ → Prop

/-- Anything may go wrong at any moment. -/
def Faults.all : Faults := ⟨fun _ => True,fun _ => True,fun _ _ => True⟩

/-- An effect that happens when it succeeds and may have happened when it fails. -/
def Effected {α : Type} (w w₁ : Disk) (r : Except Error α) (w' : Disk) : Prop :=
  w' = w₁ ∨ (w' = w ∧ ∃ e, r = .error e)

/-- How a request may be answered.  Any request may fail; a failing one may have taken
effect, and a failing append may have left a part of its line.  The clock never reads
the number of an earlier run. -/
def answers (faults : Faults) : (q : Req) → Disk → Except Error (Rep q) → Disk → Prop
  | .now, w, r, w' => w' = w ∧ ∀ t, r = .ok t → t ∉ w.runs
  | .requestIdentity, w, r, w' => w' = w ∧ ∀ i, r = .ok i → i = w.request
  | .markRequest, w, r, w' => ∃ i, Effected w { w with request := some i } r w'
  | .removeRequest, w, r, w' => Effected w { w with request := none } r w'
  | .readState, w, r, w' => w' = w ∧ ∀ st, r = .ok st → st = w.state
  | .makeRunDir runId, w, r, w' => Effected w { w with runs := runId :: w.runs } r w'
  | .writeState st, w, r, w' => Effected w (w.write st) r w'
  | .stop role unit, w, r, w' => match r with
    | .ok _ => w' = (w.stopping role unit).stopOk unit
    | .error _ => w' = w.stopping role unit
  | .active unit, w, r, w' => match r with
    | .ok false => w' = w.inactive unit
    | _ => w' = w
  | .restore unit, w, r, w' => Effected w (w.restored unit) r w'
  | .start unit, w, r, w' => match r with
    | .ok result => w' = if result.success then w.startOk else w.starting unit
    | .error _ => w' = w.starting unit
  | .markSentinel, w, r, w' => Effected w { w with sentinel := true } r w'
  | .removeSentinel, w, r, w' => Effected w { w with sentinel := false } r w'
  | .sentinelExists, w, r, w' => w' = w ∧ ∀ b, r = .ok b → b = w.sentinel
  | .appendEvent runId e, w, r, w' => match r with
    | .ok _ => w' = w.append runId e.bytes
    | .error _ => ∃ n, faults.tear e.bytes n ∧ w' = w.append runId (e.bytes.extract 0 n)
  | .readEvents runId, w, r, w' => w' = w ∧ ∀ log, r = .ok log → log = w.events runId
  | .writeReport path report, w, r, w' =>
    Effected w { w with report := Function.update w.report path (some report) } r w'
  | _, w, _, w' => w' = w

/-- Others only ever make or replace the request. -/
def touched (faults : Faults) (w w' : Disk) : Prop :=
  w' = w ∨ (faults.touch w ∧ ∃ i, w' = { w with request := some i })

def Invocation.script (config : OperatorConfig) : Invocation → Op Unit
  | .run => do
    let _ ← runWithReady config
    pure ()
  | .cancel => Operator.cancel config

/-- The memory of an invocation is gone when it ends; a crash inside a request leaves
what any answer to it could have left. -/
def system (config : OperatorConfig) (faults : Faults) :
    System Req (fun q => Except Error (Rep q)) Disk (Except Error Unit × State) where
  step := answers faults
  rely := touched faults
  torn := fun q w w' => ∃ r, answers faults q w r w'
  rely_refl := fun _ => .inl rfl
  rely_trans := by
    rintro w₁ w₂ w₃ (rfl | ⟨h,i,rfl⟩) (rfl | ⟨h',j,rfl⟩)
    · exact .inl rfl
    · exact .inr ⟨h',j,rfl⟩
    · exact .inr ⟨h,i,rfl⟩
    · exact .inr ⟨h,j,rfl⟩
  start := fun w w' p => ∃ i : Invocation, (i = .run → faults.begin w) ∧ w' = w.begin i ∧
    p = (i.script config).start .unloaded
  idle := touched .all

end Operator
end CanixToolbelt
