import CanixToolbelt.OrchestrationSelect
import CanixToolbelt.ScriptRules
import CanixToolbelt.Snapshots
import CanixToolbelt.Utf8

/-! The bounded orchestration cycle: every owner is observed, the journal is reconciled with what
was seen, and the owners selected are compacted or woken. -/
namespace CanixToolbelt
namespace Orchestration
namespace Driver

open Effect Fallible Json Canonical

/-! ## The adapter -/

inductive Method where
  | get
  | post
  deriving DecidableEq

structure Reply where
  status : ℕ
  data : Json

/-- What a cycle asks of its adapter, and of the fence that it acquired. -/
inductive Call where
  | acquire
  | verify
  | api (host : String) (method : Method) (path : String) (body : Option Json)
  | persist (state : Journal)
  | continuation (p : Packet) (state : Journal)

def Call.Answer : Call → Type
  | .api .. => Reply
  | .continuation .. => String
  | _ => Unit

/-- The retained selectors of a session. -/
structure Identity where
  model : Json
  agent : String
  permissions : Json

abbrev Expectations := List (ℕ × Identity)

/-- A script on the adapter; it keeps nothing beside its replies. -/
abbrev Reading (α : Type) := Script Call Call.Answer Unit String α

/-- What the adapter was asked, and what it replied. -/
abbrev Log := Script.Replies Call Call.Answer String

def Reply.checked (r : Reply) : Except String Json :=
  if 200 ≤ r.status ∧ r.status < 300 then .ok r.data else .error s!"OpenCode HTTP {r.status}"

section
variable {σ : Type}

def verify : Script Call Call.Answer σ String Unit := Script.ask Call.verify

def api (host : String) (method : Method) (path : String) (body : Option Json) :
    Script Call Call.Answer σ String Reply := Script.ask (Call.api host method path body)

def sessionPath (p : Packet) (suffix : String) : String := "/api/session/" ++ p.sessionId ++ suffix

def request (p : Packet) (suffix : String) : Script Call Call.Answer σ String Json := do
  let reply ← api p.ownerHost .get (sessionPath p suffix) none
  Script.lift reply.checked

end

def verifyIdentity (info : Json) (p : Packet) (i : Identity) : Except String Unit :=
  if info.get "id" ≠ .str p.sessionId ∨ info.get "title" ≠ .str p.title ∨
      info.get "model" ≠ i.model ∨ (info.get "agent").asStr ≠ some i.agent ∨
      info.get "permissions" ≠ i.permissions then
    .error s!"owner {p.number} identity/model/permission selectors changed"
  else .ok ()

/-- Every item has an identity, and no two the same. -/
def verifyInbox (inbox : List Json) : Except String Unit :=
  require (Snapshots.insertIds Snapshots.nodeId [] inbox).isSome
    "missing or duplicate inbox receipt identity"

def verifyMirrorInbox (p : Packet) (host : String) : Reading Unit :=
  if host = p.ownerHost then pure ()
  else do
    let reply ← api host .get (sessionPath p "/inbox") none
    if reply.status = 404 then pure ()
    else do
      let data ← Script.lift reply.checked
      match data.asArray with
      | none => throw "incomplete mirror inbox observation"
      | some [] => pure ()
      | some _ => throw (s!"owner {p.number} has pending input on mirror {host}; " ++
          "reconcile the exact input before admission")

/-! ## Bounded history -/

/-- What the messages of a history have shown so far: the time of the last one, every identity,
and what the selector keeps. -/
structure Scan (τ : Type) where
  time : ℕ
  ids : List String
  seen : τ

def messageId (m : Json) : Option String :=
  (m.get "id").asStr.filter fun id => "msg_".toList <+: id.toList

section
variable {τ : Type} (p : Packet) (kind : String) (select : τ → Json → Except String (τ × Bool))

def scanMessage (s : Scan τ) (m : Json) : Except String (Scan τ × Bool) :=
  match messageId m with
  | none => .error "missing context message identity"
  | some id =>
    match ((m.get "time").get "created").asU64 with
    | none => .error "missing or malformed context message time"
    | some time =>
      if m.get "type" ≠ .str kind ∨ s.time < time ∨ id ∈ s.ids then
        .error "incoherent filtered context history"
      else do
        let (seen,found) ← select s.seen m
        .ok (⟨time,id::s.ids,seen⟩,found)

/-- The messages of one page up to the one that is found. -/
def scanPage (s : Scan τ) : List Json → Except String (Scan τ × Option Json)
  | [] => .ok (s,none)
  | m::ms => do
    let (s,found) ← scanMessage kind select s m
    if found then .ok (s,some m) else scanPage s ms

def pageMessages (page : Json) : Except String (List Json) :=
  match (page.asArray <|> (page.get "data").asArray).filter (·.length ≤ 64) with
  | none => .error "malformed filtered context page"
  | some messages => .ok messages

/-- The cursor of the page after this one, if the history goes on. -/
def nextCursor (page : Json) (messages : List Json) (cursors : List String) :
    Except String (Option String) :=
  if page.isArray then
    if messages.length = 64 then .error "context page omitted its continuation cursor" else .ok none
  else
    match (page.get "cursor").get? "next" with
    | none => .error "context page omitted its continuation cursor"
    | some .null => .ok none
    | some next =>
      match next.asStr.filter fun v => v ≠ "" ∧ v.utf8ByteSize ≤ 4096 with
      | none => .error "malformed context continuation cursor"
      | some next =>
        if messages = [] ∨ next ∈ cursors then .error "context pagination made no progress"
        else .ok (some next)

def hexDigitOf (n : UInt8) : Char := ("0123456789ABCDEF".toList)[n.toNat]?.getD '0'

def percent (byte : UInt8) : List Char := ['%',hexDigitOf (byte >>> 4),hexDigitOf (byte &&& 15)]

def pageSuffix : Option String → String
  | none => "/message?limit=64&order=desc&type=" ++ kind
  | some cursor => "/message?limit=64&type=" ++ kind ++ "&cursor=" ++
      String.ofList ((Utf8.encode cursor.toList).flatMap percent)

/-- At most so many pages of a history, newest message first. -/
def searchPages : ℕ → Option String → List String → Scan τ → Reading (Scan τ × Option Json)
  | 0, _, _, _ => throw "physical context lookup exceeded its bounded history"
  | left+1, cursor, cursors, s => do
    let page ← request p (pageSuffix kind cursor)
    let messages ← Script.lift (pageMessages page)
    let (s,found) ← Script.lift (scanPage kind select s messages)
    match found with
    | some m => pure (s,some m)
    | none => do
      match ← Script.lift (nextCursor page messages cursors) with
      | none => pure (s,none)
      | some next => searchPages left (some next) (next::cursors) s

/-- `context_message`, beginning with these identities. -/
def contextMessage (ids : List String) (seen : τ) : Reading (Scan τ × Option Json) :=
  searchPages p kind select 4 none [] ⟨2^64-1,ids,seen⟩

end

def addTokens (total : ℕ) (v : Json) : Except String ℕ :=
  match v.asU64 with
  | none => .error "missing or malformed physical context usage"
  | some tokens =>
    if total + tokens < 2^64 then .ok (total + tokens) else .error "physical context usage overflow"

def physicalTokens (m : Json) : Except String ℕ :=
  let tokens := m.get "tokens"
  [tokens.get "input",(tokens.get "cache").get "read",(tokens.get "cache").get "write"].foldlM
    addTokens 0

def compactionStatus (m : Json) : Except String String :=
  match (m.get "status").asStr.filter (· ∈ ["completed","failed","running","queued"]) with
  | none => .error "malformed context compaction status"
  | some status => .ok status

def collectCompaction (history : List Json) (m : Json) : Except String (List Json × Bool) := do
  let _ ← compactionStatus m
  .ok (history ++ [m],false)

def compactionHistory (p : Packet) (ids : List String) : Reading (List Json) := do
  let (s,_) ← contextMessage p "compaction" collectCompaction ids []
  pure s.seen

def usesContext (_ : Unit) (m : Json) : Except String (Unit × Bool) := do
  let tokens ← physicalTokens m
  .ok ((),0 < tokens)

/-- The newest message with physical usage, and every identity that was read. -/
def physicalContext (p : Packet) : Reading (Json × List String) := do
  let (s,found) ← contextMessage p "assistant" usesContext [] ()
  match found with
  | none => throw s!"owner {p.number} physical context is unknown"
  | some m => pure (m,s.ids)

/-- A history as a map from its identities. -/
def compactionObservations (history : List Json) : List (String × Json) :=
  history.foldl (fun map m => insertField ((m.get "id").asStr.getD "") m map) []

/-! ## Observation -/

/-- What one pass reads of an owner. -/
structure Sighting where
  inbox : List Json := []
  messages : List Json := []
  physical : Json := .null
  history : List Json := []
  tokens : ℕ := 0
  deriving Inhabited

structure Observation where
  active : Activity
  occupied : Activity
  sightings : List (ℕ × Sighting)

namespace Observation

def sighting (o : Observation) (n : ℕ) : Sighting := (o.sightings.lookup n).getD default
def inbox (o : Observation) (n : ℕ) : List Json := (o.sighting n).inbox
def messages (o : Observation) (n : ℕ) : List Json := (o.sighting n).messages
def contextTokens (o : Observation) (n : ℕ) : ℕ := (o.sighting n).tokens
def physicalMessageId (o : Observation) (n : ℕ) : String :=
  ((o.sighting n).physical.get "id").asStr.getD ""

end Observation

/-- The newest compaction that is queued or running. -/
def Sighting.inProgressCompaction (s : Sighting) : Option Json :=
  s.history.find? fun m => m.get "status" = .str "queued" || m.get "status" = .str "running"

def created (m : Json) : ℕ := ((m.get "time").get "created").asU64.getD 0

/-- Whether a compaction was completed after the message that shows physical usage. -/
def compacted (physical : Json) (history : List Json) : Bool :=
  history.any fun m => m.get "status" = .str "completed" && created physical < created m

/-- The owner added to those of a host. -/
def occupy (active : Activity) (host : String) (n : ℕ) : Activity :=
  active.map fun f => if f.1 = host ∧ n ∉ f.2 then (f.1,f.2.orderedInsert (· ≤ ·) n) else f

def observeActivity (m : Manifest) (raw : List (String × Json)) (host : String) :
    Reading (List (String × Json)) := do
  let reply ← api host .get "/api/session/active" none
  let data ← Script.lift reply.checked
  match data.asObject with
  | none => throw s!"incomplete activity observation on {host}"
  | some sessions =>
    if sessions.any fun f => m.packets.all fun p => p.sessionId ≠ f.1 then
      throw s!"unregistered active session on {host}; host capacity is unknown"
    else pure (raw ++ [(host,data)])

/-- The owner's execution, on its own host only. -/
def executing (p : Packet) (active : Activity) (observed : String × Json) :
    Except String Activity :=
  if (observed.2.get? p.sessionId).isNone then .ok active
  else if observed.1 ≠ p.ownerHost then
    .error s!"owner {p.number} executing on mirror {observed.1}; owner is {p.ownerHost}"
  else .ok (occupy active observed.1 p.number)

def observeContext (p : Packet) : Reading (Json × List Json) := do
  let (physical,ids) ← physicalContext p
  let history ← compactionHistory p ids
  pure (physical,history)

def contextSize (physical : Json) (history : List Json) : Except String ℕ :=
  if compacted physical history then .ok 0 else physicalTokens physical

def listed (v : Json) (e : String) : Except String (List Json) :=
  match v.asArray with
  | none => .error e
  | some items => .ok items

/-- An owner as a first pass finds it. -/
def sight (raw : List (String × Json)) (expected : Expectations) (p : Packet) :
    Reading Sighting := do
  Script.lift (require (p.ownerHost ∈ raw.map Prod.fst) "missing owner host observation")
  (raw.map Prod.fst).forM (verifyMirrorInbox p)
  let info ← request p ""
  match expected.lookup p.number with
  | none => throw "complete retained session expectations are required"
  | some identity => do
    Script.lift (verifyIdentity info p identity)
    let inbox ← request p "/inbox"
    let inbox ← Script.lift (listed inbox "incomplete inbox observation")
    Script.lift (verifyInbox inbox)
    let page ← request p "/message?limit=12&order=desc"
    match page.asArray <|> (page.get "data").asArray with
    | none => throw "incomplete context observation"
    | some recent => do
      let (physical,history) ← observeContext p
      let tokens ← Script.lift (contextSize physical history)
      if 300000 ≤ tokens then throw s!"owner {p.number} context ceiling reached: {tokens}"
      else pure ⟨inbox,recent,physical,history,tokens⟩

def sightOwner (raw : List (String × Json)) (expected : Expectations)
    (seen : Activity × List (ℕ × Sighting)) (p : Packet) :
    Reading (Activity × List (ℕ × Sighting)) := do
  let active ← Script.lift (raw.foldlM (executing p) seen.1)
  let s ← sight raw expected p
  pure (active,seen.2 ++ [(p.number,s)])

/-- The owner again, as the first pass found it. -/
def confirm (raw : List (String × Json)) (sightings : List (ℕ × Sighting)) (p : Packet) :
    Reading Unit := do
  let s := (sightings.lookup p.number).getD default
  (raw.map Prod.fst).forM (verifyMirrorInbox p)
  let fresh ← request p "/inbox"
  let fresh ← Script.lift (listed fresh "incomplete final inbox observation")
  Script.lift (verifyInbox fresh)
  if fresh ≠ s.inbox then throw s!"owner {p.number} inbox changed during observation"
  else do
    let (physical,ids) ← physicalContext p
    if physical ≠ s.physical then
      throw s!"owner {p.number} physical context changed during observation"
    else do
      let history ← compactionHistory p ids
      Script.lift (require (compactionObservations history = compactionObservations s.history)
        s!"owner {p.number} compaction history changed during observation")

def confirmActivity (observed : String × Json) : Reading Unit := do
  let reply ← api observed.1 .get "/api/session/active" none
  let after ← Script.lift reply.checked
  Script.lift (require (after = observed.2)
    s!"activity changed during inbox collection on {observed.1}")

/-- An owner with queued input or an unfinished compaction holds its place. -/
def queue (sightings : List (ℕ × Sighting)) (occupied : Activity) (p : Packet) : Activity :=
  let s := (sightings.lookup p.number).getD default
  if s.inbox ≠ [] ∨ s.inProgressCompaction.isSome then occupy occupied p.ownerHost p.number
  else occupied

section
variable (lib : Library) (m : Manifest) (policy : Policy) (expected : Expectations)

def observeFenced : Reading Observation := do
  verify
  Script.lift (m.validate none)
  Script.lift (require (expected.length = m.packets.length ∧
      ∀ p ∈ m.packets, (expected.lookup p.number).isSome)
    "complete retained session expectations are required")
  let raw ← (policy.maxActivePerHost.map Prod.fst).foldlM (observeActivity m) []
  let (active,sightings) ← m.packets.foldlM (sightOwner raw expected)
    (raw.map fun f => (f.1,[]),[])
  m.packets.forM (confirm raw sightings)
  raw.forM confirmActivity
  let occupied := m.packets.foldl (queue sightings) active
  let _ ← Script.lift (select lib m (.obj []) occupied policy)
  verify
  pure ⟨active,occupied,sightings⟩

/-- `observe`, under a fence of its own. -/
def observe : Reading Observation := do
  Script.ask Call.acquire
  observeFenced lib m policy expected

end

/-! ## Reconciliation -/

def emptyOr (v : Json) : Json := if v.isNull then .arr [] else v

def verifyInput (item body : Json) (p : Packet) : Except String Unit := do
  require (item.get "id" = body.get "id" ∧
      ((item.get "sessionID").isNull ∨ item.get "sessionID" = .str p.sessionId) ∧
      item.get "type" = .str "user")
    "pending input receipt identity/type differs"
  let payload := (item.get? "payload").getD item
  require (payload.get "text" = body.get "text" ∧ payload.get "metadata" = body.get "metadata")
    "pending input receipt body differs; retain both for inspection"
  require (∀ key ∈ ["files","agents","skills"], emptyOr (payload.get key) = emptyOr (body.get key))
    "pending input attachment receipt differs"

def messagePath (p : Packet) (id : String) : String := sessionPath p ("/message/" ++ id)

/-- The receipt of an input, from the inbox or else from the transcript. -/
def findReceipt (o : Observation) (p : Packet) (id : String) : Reading (Option Json) :=
  match (o.inbox p.number).find? fun item => item.get "id" = .str id with
  | some item => pure (some item)
  | none => do
    let reply ← api p.ownerHost .get (messagePath p id) none
    if reply.status = 404 then pure none
    else do
      let receipt ← Script.lift reply.checked
      pure (some receipt)

def reconcileOwner (o : Observation) (at_ : String) (j : Journal) (p : Packet) :
    Reading Journal := do
  let body := ((j.row p.number).get "pending").get "body"
  match (body.get "id").asStr with
  | none => pure j
  | some id => do
    match ← findReceipt o p id with
    | none => pure j
    | some receipt => do
      Script.lift (verifyInput receipt body p)
      Script.lift (acknowledge j p.number id at_).1
      pure (acknowledge j p.number id at_).2

def reconcile (m : Manifest) (o : Observation) (at_ : String) (j : Journal) : Reading Journal :=
  m.packets.foldlM (reconcileOwner o at_) j

/-! ## The cycle's memory -/

/-- The journal that a cycle works on, and the owners for which capacity is held. -/
structure Memory where
  state : Journal
  occupied : Activity

abbrev Act (α : Type) := Script Call Call.Answer Memory String α

/-- `state["packets"][number][key] = value`. -/
def assign (n : ℕ) (key : String) (v : Json) (c : Memory) : Memory :=
  { c with state :=
    { c.state with packets := c.state.packets.set (toString n) ((c.state.row n).set key v) } }

def hold (p : Packet) (c : Memory) : Memory :=
  { c with occupied := occupy c.occupied p.ownerHost p.number }

/-- Publish the journal as it stands. -/
def persist : Act Unit := do
  let c ← get
  Script.ask (Call.persist c.state)

/-! ## Compaction -/

def compactionLimit : ℕ := 180000

/-- A message identity as the host spells it. -/
def nativeId (id : String) : Bool := "msg_".toList <+: id.toList && identifier id

section
variable (lib : Library) (o : Observation) (p : Packet) (identity : Identity) (at_ : String)

def compactionId : String :=
  "msg_" ++ short (digest lib (.arr [.str "context-checkpoint:v2",.str p.sessionId,
    .str (o.physicalMessageId p.number)]))

/-- A new compaction of the context that was observed. -/
def prepareCompaction : Act Unit := do
  modify (assign p.number "pendingCompaction" (object
    [("body",object [("id",.str (compactionId lib o p)),("delivery",.str "steer")]),
      ("physicalMessageID",.str (o.physicalMessageId p.number)),("preparedAt",.str at_)]))
  persist

def completeCompaction (id : String) : Act Bool := do
  let c ← get
  let row := c.state.row p.number
  let changed := ((row.get "pendingCompaction").get "physicalMessageID").asStr ≠
    some (o.physicalMessageId p.number)
  modify fun c => assign p.number "pendingCompaction" .null
    (assign p.number "compactionReceipts" ((objectOr (row.get "compactionReceipts")).set id
      (object [("status",.str "completed"),("at",.str at_)])) c)
  persist
  pure (changed && compactionLimit ≤ o.contextTokens p.number)

def compactPath : String := sessionPath p "/compact"

def submitCompaction (id : String) (body : Json) : Act Bool := do
  let info ← request p ""
  Script.lift (verifyIdentity info p identity)
  verify
  let reply ← api p.ownerHost .post (compactPath p) (some body)
  let receipt ← Script.lift reply.checked
  if receipt.get "id" ≠ .str id ∨ receipt.get "type" ≠ .str "compact" ∨
      receipt.get "sessionID" ≠ .str p.sessionId then
    throw "compaction submission receipt differs"
  else pure true

/-- What the transcript says of the pending compaction. -/
def answerCompaction (id : String) (message : Json) : Act Bool := do
  Script.lift (require (message.get "id" = .str id ∧ message.get "type" = .str "compaction")
    "compaction transcript receipt differs")
  let status ← Script.lift (compactionStatus message)
  if status = "failed" then
    throw "native compaction failed; retain its exact receipt for recovery"
  else if status = "completed" then completeCompaction o p at_ id
  else pure true

def settleCompaction : Act Bool := do
  let c ← get
  let body := ((c.state.row p.number).get "pendingCompaction").get "body"
  match (body.get "id").asStr.filter nativeId with
  | none => throw "invalid durable compaction ID"
  | some id =>
    match (o.inbox p.number).find? fun item => item.get "id" = .str id with
    | some item =>
      if item.get "type" ≠ .str "compact" then throw "compaction inbox receipt type differs"
      else pure true
    | none => do
      verify
      let reply ← api p.ownerHost .get (messagePath p id) none
      if reply.status = 404 then submitCompaction p identity id body
      else do
        let message ← Script.lift reply.checked
        answerCompaction o p at_ id message

/-- `compact`: whether the owner still waits for a compaction. -/
def compact : Act Bool := do
  if (o.sighting p.number).inProgressCompaction.isSome then pure true
  else do
    let c ← get
    if ((c.state.row p.number).get "pendingCompaction").isNull then
      if (o.inbox p.number).any fun item => item.get "type" = .str "compact" then pure true
      else do
        prepareCompaction lib o p at_
        settleCompaction o p identity at_
    else settleCompaction o p identity at_

end

/-! ## Prompts -/

def promptPath (p : Packet) : String := sessionPath p "/prompt"

section
variable (lib : Library) (policy : Policy) (p : Packet) (identity : Identity) (at_ : String)

/-- `prepare` on the journal of the cycle, which keeps what it leaves, also when it fails. -/
def prepareInput (text : String) : Act Json := do
  let c ← get
  set { c with state := (prepare lib c.state p policy text at_).2 }
  Script.lift (prepare lib c.state p policy text at_).1

/-- This attempt, beside the pending request. -/
def stampAttempt (c : Memory) : Memory :=
  assign p.number "pending" (((c.state.row p.number).get "pending").set "submissionAttemptAt"
    (.str at_)) c

def continuation (j : Journal) : Act String := Script.ask (Call.continuation p j)

def continuationText : Act String := do
  let c ← get
  if ((c.state.row p.number).get "pending").isObject then pure "" else continuation p c.state

/-- One submission of an owner's pending request, which is prepared first if there is none. -/
def wake : Act Unit := do
  verify
  let text ← continuationText p
  let body ← prepareInput lib policy p at_ text
  persist
  modify (hold p)
  let info ← request p ""
  Script.lift (verifyIdentity info p identity)
  modify (stampAttempt p at_)
  persist
  verify
  let reply ← api p.ownerHost .post (promptPath p) (some body)
  let receipt ← Script.lift reply.checked
  if receipt.get "id" ≠ body.get "id" ∨ receipt.get "sessionID" ≠ .str p.sessionId then
    throw "submission acknowledgement differs"
  else pure ()

end

/-! ## The cycle -/

/-- The retained compaction of a row, if it has one. -/
def validCompaction (pending : Json) : Bool :=
  let messageId := fun v : Json => v.asStr.any fun id => nativeId id && 4 < id.utf8ByteSize
  pending.isObject && (pending.get "body").isObject && messageId ((pending.get "body").get "id") &&
    (pending.get "body").get "delivery" = .str "steer" &&
    messageId (pending.get "physicalMessageID") && nonempty (pending.get "preparedAt")

def admitRow (j : Journal) (p : Packet) : Except String Journal := do
  let ps ← journalPacket j p.number
  require (ps.get "version").isString "refresh the complete journal before observation/admission"
  require ((ps.get "pendingCompaction").isNull ∨ validCompaction (ps.get "pendingCompaction"))
    "malformed retained pending compaction"
  .ok (j.entry p.number)

section
variable (lib : Library) (m : Manifest) (policy : Policy) (expected : Expectations)

/-- The version of a row whose follow-ups have changed it. -/
def reviseVersion (ps : Row) : Except String Row :=
  if (ps.get "versionInputs").isObject then
    let inputs := (ps.get "versionInputs").set "progressVersion" (ps.get "progressVersion")
    .ok (ps.set "version" (.str (digest lib (["recoveryVersion","recheckVersion"].foldl
      (fun inputs key => if present lib (ps.get key) then inputs.set key (ps.get key) else inputs)
      inputs))))
  else .error "refresh source versions before bounded recovery"

/-- The bounded follow-ups of an owner that nothing occupies. -/
def followUp (o : Observation) (now : ℤ) (j : Journal) (p : Packet) : Except String Journal :=
  if p.number ∈ owners o.occupied p.ownerHost then .ok j
  else
    match j.row p.number with
    | .obj fields => do
      let (ps,recovery) :=
        match (o.messages p.number).find? fun message => message.get "type" = .str "idle" with
        | none => (⟨fields⟩,false)
        | some idle => recordIdleRecovery lib idle now ⟨fields⟩
      let (ps,recheck) := scheduleRecheck lib policy now ps
      if recovery || recheck then do
        let ps ← reviseVersion lib ps
        .ok (j.put p.number ps)
      else .ok (j.put p.number ps)
    | _ => .error "missing refreshed packet journal"

/-- An owner with a durable request is selected first, where its host has room. -/
def reserve (j : Journal) (chosen : List Packet × Activity) (p : Packet) :
    List Packet × Activity :=
  let ps := j.row p.number
  if ((ps.get "pending").isObject || (ps.get "pendingCompaction").isObject) &&
      p.number ∉ owners chosen.2 p.ownerHost &&
      (owners chosen.2 p.ownerHost).length < hostLimit policy p.ownerHost then
    (chosen.1 ++ [p],occupy chosen.2 p.ownerHost p.number)
  else chosen

/-- The owners admitted in this cycle. -/
def choose (o : Observation) (j : Journal) : Except String (List Packet) := do
  let chosen := m.packets.foldl (reserve policy j) ([],o.occupied)
  let more ← select lib m j.packets chosen.2 policy
  .ok (chosen.1 ++ more)

/-- Whether a compaction of the owner is to be started or followed. -/
def compacts (o : Observation) (selected : List Packet) (j : Journal) (p : Packet) : Bool :=
  let pending := (j.row p.number).get "pendingCompaction"
  let admitted := p.number ∈ owners o.active p.ownerHost || selected.any (·.number = p.number)
  let queued := (o.inbox p.number).any fun item => item.get "id" = (pending.get "body").get "id"
  (pending.isObject && (admitted || queued)) ||
    (admitted && compactionLimit ≤ o.contextTokens p.number)

def identityOf (p : Packet) : Identity := (expected.lookup p.number).getD ⟨.null,"",.null⟩

/-- The owners that wait for a compaction, and the errors so far. -/
abbrev Outcome := List ℕ × List String

def compactOwner (o : Observation) (selected : List Packet) (at_ : String) (done : Outcome)
    (p : Packet) : Act Outcome := do
  let c ← get
  if compacts o selected c.state p then do
    verify
    match ← (compact lib o p (identityOf expected p) at_).attempt with
    | .ok false => pure done
    | .ok true => do
      modify (hold p)
      pure (p.number::done.1,done.2)
    | .error e => do
      modify (hold p)
      pure (p.number::done.1,done.2 ++ [s!"owner {p.number} compaction: {e}"])
  else pure done

def wakeOwner (compacting : List ℕ) (at_ : String) (errors : List String) (p : Packet) :
    Act (List String) := do
  let c ← get
  let ps := c.state.row p.number
  if p.number ∈ compacting ∨ (¬ (ps.get "pending").isObject ∧ ¬ needsWake ps) then pure errors
  else
    match ← (wake lib policy p (identityOf expected p) at_).attempt with
    | .ok () => pure errors
    | .error e => pure (errors ++ [s!"owner {p.number}: {e}"])

/-- What an authorised cycle does with the owners selected. -/
def admitSlice (o : Observation) (selected : List Packet) (candidate : Journal) (at_ : String) :
    Act (List String) := do
  verify
  Script.ask (Call.persist candidate)
  modify fun c => { c with state := candidate }
  let done ← m.packets.foldlM (compactOwner lib expected o selected at_) ([],[])
  let errors ← selected.foldlM (wakeOwner lib policy expected done.1 at_) done.2
  persist
  pure errors

structure CycleReport where
  active : Activity
  occupied : Activity
  selected : List ℕ
  errors : List String
  contextTokens : List (ℕ × ℕ)
  inProgressCompactions : List (ℕ × Json)
  dispatchEnabled : Bool

/-- The candidate journal of an authorised cycle. -/
def revise (o : Observation) (at_ : String) (now : ℤ) (candidate : Journal) : Reading Journal := do
  let candidate ← reconcile m o at_ candidate
  Script.lift (m.packets.foldlM (followUp lib policy o now) candidate)

def cycle (at_ : String) (now : ℤ) (dispatch : Bool) : Act CycleReport := do
  let c ← get
  let candidate ← Script.lift (m.packets.foldlM admitRow c.state)
  Script.ask Call.acquire
  let o ← (observeFenced lib m policy expected).still
  modify fun c => { c with occupied := o.occupied }
  let candidate ←
    if dispatch then (revise lib m policy o at_ now candidate).still else pure candidate
  let selected ← Script.lift (choose lib m policy o candidate)
  let errors ←
    if dispatch then admitSlice lib m policy expected o selected candidate at_ else pure []
  let c ← get
  pure ⟨o.active,c.occupied,selected.map (·.number),errors,
    o.sightings.map fun f => (f.1,f.2.tokens),
    o.sightings.filterMap fun f => f.2.inProgressCompaction.map (f.1,·),dispatch⟩

end

end Driver
end Orchestration
end CanixToolbelt
