import CanixToolbelt.Canonical

/-! The execution protocol: its schema, the structural validator, and the codec of its
messages. -/
namespace CanixToolbelt
namespace Protocol

open Json

/-! ## The schema -/

/-- `protocol.json`. -/
def schema : Json := .obj
  [("version",nat 1),("maxFrameBytes",nat 65536),("maxJsonInteger",nat 4294967295),
    ("definitions",.obj
      [("Id",.obj [("type",.str "string"),("format",.str "opaque"),("maxBytes",nat 256)]),
        ("Digest",.obj [("type",.str "string"),("format",.str "sha256")]),
        ("Revision",.obj [("type",.str "string"),("format",.str "git-revision")]),
        ("Counter",.obj [("type",.str "string"),("format",.str "uint64")]),
        ("Generation",.obj [("type",.str "string"),("format",.str "generation")]),
        ("Profile",.obj [("enum",.arr [.str "linux-untrusted-review",.str "linux-managed-paperclip",
          .str "macos-managed-paperclip",.str "macos-untrusted-review"])]),
        ("Capability",.obj [("enum",.arr [.str "authenticated-ipc",.str "durable-intents",
          .str "zero-effect-reopen",.str "descendant-cleanup",.str "retained-delivery",
          .str "live-observation",.str "persisted-reconciliation"])]),
        ("ExecutionState",.obj [("enum",.arr [.str "prepared",.str "starting",.str "unknown",
          .str "running",.str "retained",.str "closed"])]),
        ("ErrorCode",.obj [("enum",.arr [.str "invalid-frame",.str "incompatible-version",
          .str "unsupported-profile",.str "unsupported-capability",.str "authority-denied",
          .str "custody-lost",.str "budget-exhausted",.str "transport-failed",
          .str "effect-unknown"])]),
        ("Implementation",.obj [("fields",.obj [("engineRevision",.str "Revision"),
          ("engineDigest",.str "Digest"),("bridgeDigest",.str "Digest"),
          ("schemaDigest",.str "Digest"),("configurationDigest",.str "Digest"),
          ("credentialReferenceDigest",.str "Digest")])]),
        ("Binding",.obj [("fields",.obj [("callerAuthority",.str "Id"),
          ("callerNamespace",.str "Id"),("intentId",.str "Id"),("executionId",.str "Id"),
          ("executionGeneration",.str "Generation"),("inputDigest",.str "Digest"),
          ("policyDigest",.str "Digest"),("implementationDigest",.str "Digest")])]),
        ("Describe",.obj [("fields",.obj [("expectedImplementation",.str "Implementation"),
          ("requiredProfile",.str "Profile")])]),
        ("Capabilities",.obj [("fields",.obj [("implementation",.str "Implementation"),
          ("profiles",.obj [("items",.str "Profile"),("maxItems",nat 4),("unique",.bool true)]),
          ("capabilities",.obj [("items",.str "Capability"),("maxItems",nat 7),
            ("unique",.bool true)])])]),
        ("Observation",.obj [("fields",.obj [("binding",.str "Binding"),("handle",.str "Id"),
          ("state",.str "ExecutionState"),("sequence",.str "Counter"),("gap",.str "bool")])]),
        ("OutputReceipt",.obj [("fields",.obj [("binding",.str "Binding"),
          ("outputDigest",.str "Digest"),("outputBytes",.str "Counter")])]),
        ("Failure",.obj [("fields",.obj [("code",.str "ErrorCode")])]),
        ("Body",.obj [("tag",.str "kind"),("variants",.obj [("describe",.str "Describe"),
          ("capabilities",.str "Capabilities"),("observation",.str "Observation"),
          ("output-receipt",.str "OutputReceipt"),("error",.str "Failure")])]),
        ("Message",.obj [("fields",.obj [("schemaVersion",.obj [("const",nat 1)]),
          ("requestId",.str "Id"),("body",.str "Body")])])]),
    ("root",.str "Message")]

def maxFrameBytes : ℕ := (schema.get "maxFrameBytes").asU64.getD 0

/-! ## Validation -/

/-- `char::is_control`. -/
def control (c : Char) : Bool := c.toNat < 32 || (127 ≤ c.toNat && c.toNat < 160)

def hexDigit (c : Char) : Bool := c.isDigit || ('a' ≤ c && c ≤ 'f')

/-- `str::parse::<u64>`: digits after an optional plus sign. -/
def parseU64 (text : List Char) : Option ℕ :=
  let digits := match text with
    | '+' :: digits => digits
    | digits => digits
  if digits ≠ [] ∧ digits.all Char.isDigit ∧ digitValue digits < 2^64 then
    some (digitValue digits)
  else none

/-- Whether a text has the format that a string definition names. -/
def formatted (definition : Json) (text : String) : Bool :=
  let format := definition.get "format"
  if format = .str "opaque" then
    text ≠ "" && text.utf8ByteSize ≤ (definition.get "maxBytes").asU64.getD 0 &&
      !text.toList.any control
  else if format = .str "sha256" ∨ format = .str "git-revision" then
    text.utf8ByteSize = (if format = .str "sha256" then 64 else 40) && text.toList.all hexDigit
  else if format = .str "uint64" ∨ format = .str "generation" then
    (parseU64 text.toList).any fun number =>
      decimal number = text.toList && (format ≠ .str "generation" || 0 < number)
  else false

/-- `matches`.  The fuel bounds the depth of definitions; `resolves` says when it is enough. -/
def matchesValue : ℕ → Json → Json → Bool
  | 0, _, _ => false
  | n+1, value, definition =>
    match definition.asStr with
    | some name =>
      if name = "bool" then value.isBoolean
      else ((schema.get "definitions").get? name).any fun definition => matchesValue n value definition
    | none =>
    match definition.get? "const" with
    | some constant => value = constant
    | none =>
    if (definition.get "type").asStr = some "string" then value.asStr.any (formatted definition)
    else
    match (definition.get "enum").asArray with
    | some choices => choices.contains value
    | none =>
    match (definition.get "fields").asObject with
    | some fields => value.asObject.any fun object =>
        object.length = fields.length &&
          fields.all fun f => (object.lookup f.1).any fun value => matchesValue n value f.2
    | none =>
    match (definition.get "variants").asObject with
    | some variants =>
      match (definition.get "tag").asStr,value.asObject with
      | some tag,some fields => ((fields.lookup tag).bind asStr).any fun kind =>
          (variants.lookup kind).any fun variant =>
            matchesValue n (.obj (fields.filter fun f => f.1 ≠ tag)) variant
      | _,_ => false
    | none =>
    match definition.get? "items" with
    | some item => value.asArray.any fun items =>
        items.length ≤ (definition.get "maxItems").asU64.getD 0 &&
          (items.all fun value => matchesValue n value item) &&
          (definition.get "unique" ≠ .bool true || decide items.Nodup)
    | none => false

/-- Whether what a definition refers to ends within `n` steps. -/
def resolves : ℕ → Json → Bool
  | 0, _ => false
  | n+1, definition =>
    match definition.asStr with
    | some name => name = "bool" || ((schema.get "definitions").get? name).all (resolves n)
    | none =>
    match definition.get? "const" with
    | some _ => true
    | none =>
    if (definition.get "type").asStr = some "string" then true
    else
    match (definition.get "enum").asArray with
    | some _ => true
    | none =>
    match (definition.get "fields").asObject with
    | some fields => fields.all fun f => resolves n f.2
    | none =>
    match (definition.get "variants").asObject with
    | some variants => variants.all fun f => resolves n f.2
    | none =>
    match definition.get? "items" with
    | some item => resolves n item
    | none => true

theorem any_congr_of_all {α : Type} {o : Option α} {r p q : α → Bool} (h : o.all r = true)
    (hpq : ∀ a, r a = true → p a = q a) : o.any p = o.any q := by
  cases o with
  | none => rfl
  | some a => exact hpq a h

/-- More fuel than a definition needs changes nothing. -/
theorem matches_enough {n : ℕ} {definition : Json} (h : resolves n definition = true) (k : ℕ)
    (value : Json) : matchesValue (n+k) value definition = matchesValue n value definition := by
  induction n generalizing definition value with
  | zero => cases h
  | succ n ih =>
    rw [Nat.add_right_comm,matchesValue,matchesValue]
    rw [resolves] at h
    split
    · rename_i name hname
      simp only [hname,Bool.or_eq_true,decide_eq_true_eq] at h
      split
      · rfl
      · rename_i hbool
        exact any_congr_of_all (h.resolve_left hbool) fun d hd => ih hd value
    · rename_i hstr
      simp only [hstr] at h
      split
      · rfl
      · rename_i hconst
        simp only [hconst] at h
        split
        · rfl
        · rename_i htype
          simp only [if_neg htype] at h
          split
          · rfl
          · rename_i henum
            simp only [henum] at h
            split
            · rename_i fields hfields
              simp only [hfields,List.all_eq_true] at h
              congr 1
              funext object
              congr 1
              rw [Bool.eq_iff_iff,List.all_eq_true,List.all_eq_true]
              refine forall₂_congr fun f hf => ?_
              simp only [ih (h f hf)]
            · rename_i hfields
              simp only [hfields] at h
              split
              · rename_i variants hvariants
                simp only [hvariants,List.all_eq_true] at h
                split
                · congr 1
                  funext kind
                  cases hkind : variants.lookup kind with
                  | none => rfl
                  | some variant => exact ih (h _ (Canonical.mem_of_lookup hkind)) _
                · rfl
              · rename_i hvariants
                simp only [hvariants] at h
                split
                · rename_i item hitem
                  simp only [hitem] at h
                  simp only [ih h]
                · rfl

/-- Enough for the definitions of the schema. -/
def fuel : ℕ := 10

theorem schema_resolves : resolves fuel (schema.get "root") = true := by decide

inductive ErrorCode where
  | invalidFrame
  | incompatibleVersion
  | unsupportedProfile
  | unsupportedCapability
  | authorityDenied
  | custodyLost
  | budgetExhausted
  | transportFailed
  | effectUnknown
  deriving DecidableEq

def validate (value : Json) : Except ErrorCode Unit :=
  if value.get? "schemaVersion" ≠ some (schema.get "version") then .error .incompatibleVersion
  else if !matchesValue fuel value (schema.get "root") then .error .invalidFrame
  else .ok ()

mutual
/-- Every object with its fields in the order of their keys. -/
def canonical : Json → Json
  | .obj fields => .obj (Canonical.sortKeys (canonicalFields fields))
  | .arr items => .arr (canonicalItems items)
  | .null => .null
  | .bool b => .bool b
  | .int n => .int n
  | .float text => .float text
  | .str s => .str s
def canonicalItems : List Json → List Json
  | [] => []
  | x::xs => canonical x :: canonicalItems xs
def canonicalFields : List (String × Json) → List (String × Json)
  | [] => []
  | (k,x)::fs => (k,canonical x) :: canonicalFields fs
end

def canonicalNumber (n : Json) : Bool :=
  n.asU64.any fun number => number ≤ (schema.get "maxJsonInteger").asU64.getD 0

mutual
def canonicalNumbers : Json → Bool
  | .obj fields => numbersOfFields fields
  | .arr items => numbersOfItems items
  | .int n => canonicalNumber (.int n)
  | .float text => canonicalNumber (.float text)
  | .null => true
  | .bool _ => true
  | .str _ => true
def numbersOfItems : List Json → Bool
  | [] => true
  | x::xs => canonicalNumbers x && numbersOfItems xs
def numbersOfFields : List (String × Json) → Bool
  | [] => true
  | (_,x)::fs => canonicalNumbers x && numbersOfFields fs
end

/-! ## Messages -/

inductive Profile where
  | linuxUntrustedReview
  | linuxManagedPaperclip
  | macosManagedPaperclip
  | macosUntrustedReview
  deriving DecidableEq

inductive Capability where
  | authenticatedIpc
  | durableIntents
  | zeroEffectReopen
  | descendantCleanup
  | retainedDelivery
  | liveObservation
  | persistedReconciliation
  deriving DecidableEq

inductive ExecutionState where
  | prepared
  | starting
  | unknown
  | running
  | retained
  | closed
  deriving DecidableEq

structure Implementation where
  engineRevision : String
  engineDigest : String
  bridgeDigest : String
  schemaDigest : String
  configurationDigest : String
  credentialReferenceDigest : String
  deriving DecidableEq

structure Binding where
  callerAuthority : String
  callerNamespace : String
  intentId : String
  executionId : String
  executionGeneration : String
  inputDigest : String
  policyDigest : String
  implementationDigest : String
  deriving DecidableEq

inductive Body where
  | describe (expectedImplementation : Implementation) (requiredProfile : Profile)
  | capabilities (implementation : Implementation) (profiles : List Profile)
      (capabilities : List Capability)
  | observation (binding : Binding) (handle : String) (state : ExecutionState) (sequence : String)
      (gap : Bool)
  | outputReceipt (binding : Binding) (outputDigest outputBytes : String)
  | error (code : ErrorCode)
  deriving DecidableEq

/-- `contents` is the field `body` of the wire. -/
structure Message where
  schemaVersion : UInt32
  requestId : String
  contents : Body
  deriving DecidableEq

/-! ## Messages as values -/

def Profile.all : List Profile :=
  [.linuxUntrustedReview,.linuxManagedPaperclip,.macosManagedPaperclip,.macosUntrustedReview]

def Profile.name : Profile → String
  | .linuxUntrustedReview => "linux-untrusted-review"
  | .linuxManagedPaperclip => "linux-managed-paperclip"
  | .macosManagedPaperclip => "macos-managed-paperclip"
  | .macosUntrustedReview => "macos-untrusted-review"

def Capability.all : List Capability :=
  [.authenticatedIpc,.durableIntents,.zeroEffectReopen,.descendantCleanup,.retainedDelivery,
    .liveObservation,.persistedReconciliation]

def Capability.name : Capability → String
  | .authenticatedIpc => "authenticated-ipc"
  | .durableIntents => "durable-intents"
  | .zeroEffectReopen => "zero-effect-reopen"
  | .descendantCleanup => "descendant-cleanup"
  | .retainedDelivery => "retained-delivery"
  | .liveObservation => "live-observation"
  | .persistedReconciliation => "persisted-reconciliation"

def ExecutionState.all : List ExecutionState :=
  [.prepared,.starting,.unknown,.running,.retained,.closed]

def ExecutionState.name : ExecutionState → String
  | .prepared => "prepared"
  | .starting => "starting"
  | .unknown => "unknown"
  | .running => "running"
  | .retained => "retained"
  | .closed => "closed"

def ErrorCode.all : List ErrorCode :=
  [.invalidFrame,.incompatibleVersion,.unsupportedProfile,.unsupportedCapability,.authorityDenied,
    .custodyLost,.budgetExhausted,.transportFailed,.effectUnknown]

def ErrorCode.name : ErrorCode → String
  | .invalidFrame => "invalid-frame"
  | .incompatibleVersion => "incompatible-version"
  | .unsupportedProfile => "unsupported-profile"
  | .unsupportedCapability => "unsupported-capability"
  | .authorityDenied => "authority-denied"
  | .custodyLost => "custody-lost"
  | .budgetExhausted => "budget-exhausted"
  | .transportFailed => "transport-failed"
  | .effectUnknown => "effect-unknown"

def Implementation.value (i : Implementation) : Json := object
  [("engineRevision",.str i.engineRevision),("engineDigest",.str i.engineDigest),
    ("bridgeDigest",.str i.bridgeDigest),("schemaDigest",.str i.schemaDigest),
    ("configurationDigest",.str i.configurationDigest),
    ("credentialReferenceDigest",.str i.credentialReferenceDigest)]

def Binding.value (b : Binding) : Json := object
  [("callerAuthority",.str b.callerAuthority),("callerNamespace",.str b.callerNamespace),
    ("intentId",.str b.intentId),("executionId",.str b.executionId),
    ("executionGeneration",.str b.executionGeneration),("inputDigest",.str b.inputDigest),
    ("policyDigest",.str b.policyDigest),("implementationDigest",.str b.implementationDigest)]

/-- A body carries its kind beside its fields. -/
def Body.value : Body → Json
  | .describe expected profile => object [("kind",.str "describe"),
      ("expectedImplementation",expected.value),("requiredProfile",.str profile.name)]
  | .capabilities implementation profiles granted => object [("kind",.str "capabilities"),
      ("implementation",implementation.value),
      ("profiles",.arr (profiles.map fun p => .str p.name)),
      ("capabilities",.arr (granted.map fun c => .str c.name))]
  | .observation binding handle state sequence gap => object [("kind",.str "observation"),
      ("binding",binding.value),("handle",.str handle),("state",.str state.name),
      ("sequence",.str sequence),("gap",.bool gap)]
  | .outputReceipt binding digest bytes => object [("kind",.str "output-receipt"),
      ("binding",binding.value),("outputDigest",.str digest),("outputBytes",.str bytes)]
  | .error code => object [("kind",.str "error"),("code",.str code.name)]

/-- `serde_json::to_value`. -/
def Message.value (m : Message) : Json := object
  [("schemaVersion",nat m.schemaVersion.toNat),("requestId",.str m.requestId),
    ("body",m.contents.value)]

abbrev Fields := List (String × Json)

/-- `deny_unknown_fields`. -/
def known (keys : List String) (fields : Fields) : Bool := fields.all fun f => f.1 ∈ keys

def text (fields : Fields) (k : String) : Option String := (fields.lookup k).bind asStr

def boolean : Json → Option Bool
  | .bool b => some b
  | _ => none

/-- A string that renames one of the variants. -/
def variant {α : Type} (all : List α) (name : α → String) (v : Json) : Option α :=
  v.asStr.bind fun s => all.find? fun a => name a = s

def Implementation.read (v : Json) : Option Implementation := do
  let fields ← v.asObject
  if known ["engineRevision","engineDigest","bridgeDigest","schemaDigest","configurationDigest",
      "credentialReferenceDigest"] fields then
    some ⟨← text fields "engineRevision",← text fields "engineDigest",← text fields "bridgeDigest",
      ← text fields "schemaDigest",← text fields "configurationDigest",
      ← text fields "credentialReferenceDigest"⟩
  else none

def Binding.read (v : Json) : Option Binding := do
  let fields ← v.asObject
  if known ["callerAuthority","callerNamespace","intentId","executionId","executionGeneration",
      "inputDigest","policyDigest","implementationDigest"] fields then
    some ⟨← text fields "callerAuthority",← text fields "callerNamespace",← text fields "intentId",
      ← text fields "executionId",← text fields "executionGeneration",← text fields "inputDigest",
      ← text fields "policyDigest",← text fields "implementationDigest"⟩
  else none

def readDescribe (fields : Fields) : Option Body :=
  if known ["expectedImplementation","requiredProfile"] fields then do
    some (.describe (← (fields.lookup "expectedImplementation").bind Implementation.read)
      (← (fields.lookup "requiredProfile").bind (variant Profile.all Profile.name)))
  else none

def readCapabilities (fields : Fields) : Option Body :=
  if known ["implementation","profiles","capabilities"] fields then do
    some (.capabilities (← (fields.lookup "implementation").bind Implementation.read)
      (← ((fields.lookup "profiles").bind asArray).bind fun items =>
        items.mapM (variant Profile.all Profile.name))
      (← ((fields.lookup "capabilities").bind asArray).bind fun items =>
        items.mapM (variant Capability.all Capability.name)))
  else none

def readObservation (fields : Fields) : Option Body :=
  if known ["binding","handle","state","sequence","gap"] fields then do
    some (.observation (← (fields.lookup "binding").bind Binding.read) (← text fields "handle")
      (← (fields.lookup "state").bind (variant ExecutionState.all ExecutionState.name))
      (← text fields "sequence") (← (fields.lookup "gap").bind boolean))
  else none

def readOutputReceipt (fields : Fields) : Option Body :=
  if known ["binding","outputDigest","outputBytes"] fields then do
    some (.outputReceipt (← (fields.lookup "binding").bind Binding.read)
      (← text fields "outputDigest") (← text fields "outputBytes"))
  else none

def readError (fields : Fields) : Option Body :=
  if known ["code"] fields then do
    some (.error (← (fields.lookup "code").bind (variant ErrorCode.all ErrorCode.name)))
  else none

def Body.read (v : Json) : Option Body := do
  let fields ← v.asObject
  let kind ← text fields "kind"
  let rest := fields.filter fun f => f.1 ≠ "kind"
  match kind with
  | "describe" => readDescribe rest
  | "capabilities" => readCapabilities rest
  | "observation" => readObservation rest
  | "output-receipt" => readOutputReceipt rest
  | "error" => readError rest
  | _ => none

def version (v : Json) : Option UInt32 :=
  v.asU64.bind fun n => if h : n < 2^32 then some (UInt32.ofNatLT n h) else none

/-- `serde_json::from_value`, on the objects that validation lets through. -/
def Message.read (v : Json) : Option Message := do
  let fields ← v.asObject
  if known ["schemaVersion","requestId","body"] fields then
    some ⟨← (fields.lookup "schemaVersion").bind version,← text fields "requestId",
      ← (fields.lookup "body").bind Body.read⟩
  else none

/-! ## The codec -/

/-- `serde_json::to_vec`. -/
def bytes (v : Json) : ByteArray := (String.ofList (render v)).toUTF8

/-- `serde_json::from_slice`. -/
def fromSlice (bytes : ByteArray) : Option Json :=
  (String.fromUTF8? bytes).bind fun s => parse s.toList

def decode (frame : ByteArray) : Except ErrorCode Message :=
  if maxFrameBytes < frame.size then .error .invalidFrame
  else
    match fromSlice frame with
    | none => .error .invalidFrame
    | some value =>
      if !canonicalNumbers value then .error .invalidFrame
      else if bytes (canonical value) ≠ frame then .error .invalidFrame
      else do
        validate value
        match Message.read value with
        | some m => .ok m
        | none => .error .invalidFrame

def encode (m : Message) : Except ErrorCode ByteArray := do
  validate m.value
  if maxFrameBytes < (bytes (canonical m.value)).size then .error .invalidFrame
  else .ok (bytes (canonical m.value))

end Protocol
end CanixToolbelt
