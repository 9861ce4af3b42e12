import CanixToolbelt.Archive
import CanixToolbelt.Disk
import CanixToolbelt.JsonPretty
import CanixToolbelt.Marker
import CanixToolbelt.Utf8

/-! Evidence of qualification: receipts of runs are verified, and a seal retains the bytes of a
required set of them in a directory of its own. -/
namespace CanixToolbelt
namespace Qualification
open FileTree (Path components)
open LinkTree (Tree parts)
open Disk Json Marker

/-! ## Data -/

/-- Values by name, in the order of the names. -/
abbrev Map (α : Type) := Std.ExtTreeMap String α

/-- Artifact paths and their hashes. -/
abbrev ArtifactIndex := Map String

structure Composition where
  schemaVersion : ℕ
  sources : ArtifactIndex
  inputs : ArtifactIndex
  deriving DecidableEq

structure Inventory where
  schemaVersion : ℕ
  files : Archive.Files

inductive RunStatus
  | pending | passed | failed | cancelled | timedOut | sourceChanged
  deriving DecidableEq

structure ProgramIdentity where
  path : String
  sha256 : String

/-- The fields of a receipt that its verification reads. -/
structure Receipt where
  schemaVersion : ℕ
  status : RunStatus
  executionExit : Option ℤ
  composition : Composition
  after : Option Composition
  inventories : Map Inventory
  requestSha256 : String
  stdoutSha256 : String
  stderrSha256 : String
  executable : Option ProgramIdentity
  error : Option String

structure SealRequest where
  composition : Composition
  /-- Labels and the directories of completed executions. -/
  gates : Map String
  /-- Labels and the hashes of receipts, selected independently. -/
  expectedReceipts : ArtifactIndex
  /-- Further files to retain, by their names under `artifacts/`. -/
  artifacts : Map String

structure Seal where
  schemaVersion : ℕ
  composition : Composition
  gates : ArtifactIndex
  artifacts : ArtifactIndex
  deriving DecidableEq

/-- What the source takes from other crates: the hexadecimal SHA-256, a receipt as it is read from
bytes or the refusal of it, and the refusal of bytes that are no seal. -/
structure Library where
  sha256 : List UInt8 → String
  receipt : List UInt8 → Except String Receipt
  refusal : List UInt8 → String

/-! ## JSON -/

def indexJson (index : ArtifactIndex) : Json := .obj (index.toList.map fun f => (f.1,.str f.2))

def Composition.json (c : Composition) : Json := .obj
  [("schemaVersion",.int c.schemaVersion),("sources",indexJson c.sources),
    ("inputs",indexJson c.inputs)]

def sourceFileJson (f : Archive.SourceFile) : Json := .obj
  [("sha256",.str f.sha256),("executable",.bool f.executable),("link",f.link.elim .null .str)]

def Inventory.json (i : Inventory) : Json := .obj
  [("schemaVersion",.int i.schemaVersion),
    ("files",.obj (i.files.toList.map fun f => (f.1,sourceFileJson f.2)))]

def Seal.json (s : Seal) : Json := .obj
  [("schemaVersion",.int s.schemaVersion),("composition",s.composition.json),
    ("gates",indexJson s.gates),("artifacts",indexJson s.artifacts)]

/-- `json_bytes`. -/
def jsonBytes (v : Json) : List UInt8 := Utf8.encode (pretty 0 v ++ ['\n'])

def readIndex : Json → Option ArtifactIndex
  | .obj fs => fs.foldlM (fun index f => (asStr f.2).map (index.insert f.1)) ∅
  | _ => none

def compositionFields : List String := ["schemaVersion","sources","inputs"]

def readComposition (v : Json) : Option Composition := do
  guard (struct compositionFields v)
  let schemaVersion ← (member compositionFields v "schemaVersion").bind asU32
  let sources ← (member compositionFields v "sources").bind readIndex
  let inputs ← (member compositionFields v "inputs").bind readIndex
  pure ⟨schemaVersion,sources,inputs⟩

def sealFields : List String := ["schemaVersion","composition","gates","artifacts"]

def readSeal (v : Json) : Option Seal := do
  guard (struct sealFields v)
  let schemaVersion ← (member sealFields v "schemaVersion").bind asU32
  let composition ← (member sealFields v "composition").bind readComposition
  let gates ← (member sealFields v "gates").bind readIndex
  let artifacts ← (member sealFields v "artifacts").bind readIndex
  pure ⟨schemaVersion,composition,gates,artifacts⟩

/-- `read_json`, at the type of a seal. -/
def sealOf (bytes : List UInt8) : Option Seal := (Utf8.decode bytes).bind fun cs => (source cs).bind readSeal

section
variable (lib : Library) (cwd : Path)

def fingerprint (inventory : Inventory) : String := lib.sha256 (jsonBytes inventory.json)

/-! ## Verification -/

def sha256File (t : Tree) (p : String) : Except Error String := do
  let bytes ← read t cwd p
  .ok (lib.sha256 bytes)

def relative (path : String) : Except Error Unit :=
  (Archive.relative path).mapError fun
    | .io => .notFound
    | .invalid message => .invalid message

/-- A path under a canonical root, all links followed. -/
def contained (t : Tree) (root : Path) (path : String) : Except Error Path := do
  relative path
  let resolved ← resolve t maxLinks [] (root ++ parts path)
  if ¬ root <+: resolved then invalid ("path escapes root: " ++ path) else .ok resolved

def verifyArtifact (t : Tree) (root : Path) (path expected : String) : Except Error Unit := do
  let q ← contained t root path
  let bytes ← contents t q
  if lib.sha256 bytes ≠ expected then invalid ("artifact hash mismatch: " ++ path) else .ok ()

def verifyIndex (t : Tree) (root : String) (index : ArtifactIndex) : Except Error ℕ :=
  if index.isEmpty then invalid "artifact index is empty"
  else do
    let root ← find t cwd root
    index.toList.forM fun f => verifyArtifact lib t root f.1 f.2
    .ok index.size

/-- What a receipt says for itself. -/
def Receipt.incomplete (r : Receipt) (expected : Option Composition) : Bool :=
  r.schemaVersion ≠ 1 || r.composition.schemaVersion ≠ 1 || r.status ≠ .passed ||
    r.executionExit ≠ some 0 || r.after ≠ some r.composition || r.error.isSome ||
    r.composition.sources.isEmpty || r.executable.isNone || expected.any fun c => c ≠ r.composition

def verifyInventory (r : Receipt) (name : String) (inventory : Inventory) : Except Error Unit :=
  if (inventory.schemaVersion ≠ 1 ∧ inventory.schemaVersion ≠ 2) ∨ inventory.files.isEmpty ∨
      r.composition.sources[name]? ≠ some (fingerprint lib inventory) then
    invalid "receipt source inventory identity differs"
  else .ok ()

def verifyLog (t : Tree) (directory name hash : String) : Except Error Unit := do
  let found ← sha256File lib cwd t (join directory name)
  if found ≠ hash then invalid ("receipt artifact changed: " ++ name) else .ok ()

def verifyRun (t : Tree) (directory : String) (expected : Option Composition) :
    Except Error Receipt := do
  let bytes ← read t cwd (join directory "receipt.json")
  let receipt ← (lib.receipt bytes).mapError Error.invalid
  if receipt.incomplete expected then
    invalid "receipt is incomplete, failed, changed, or belongs to another composition"
  else do
    receipt.inventories.toList.forM fun f => verifyInventory lib receipt f.1 f.2
    if receipt.inventories.size ≠ receipt.composition.sources.size then
      invalid "missing source inventories"
    else do
      verifyLog lib cwd t directory "request.json" receipt.requestSha256
      verifyLog lib cwd t directory "stdout.log" receipt.stdoutSha256
      verifyLog lib cwd t directory "stderr.log" receipt.stderrSha256
      .ok receipt

def gateLabel (name : String) : Except Error Unit := do
  relative name
  if name = "." ∨ '/' ∈ name.toList ∨ '\\' ∈ name.toList then
    invalid "gate labels must be single path components"
  else .ok ()

/-- The directory of a gate in a seal's. -/
def gateDirectory (directory name : String) : String := join (join directory "gates") name

def verifyGate (t : Tree) (directory : String) (expected : Composition) (name hash : String) :
    Except Error Unit := do
  gateLabel name
  let run := gateDirectory directory name
  let found ← sha256File lib cwd t (join run "receipt.json")
  if found ≠ hash then invalid "sealed receipt hash differs"
  else do
    let _ ← verifyRun lib cwd t run (some expected)
    .ok ()

def verifySeal (t : Tree) (directory : String) (expected : Composition) (required : ArtifactIndex) :
    Except Error Seal := do
  let bytes ← read t cwd (join directory "seal.json")
  match sealOf bytes with
  | none => invalid (lib.refusal bytes)
  | some s =>
    if s.schemaVersion ≠ 1 ∨ s.composition ≠ expected ∨ required.isEmpty ∨ required ≠ s.gates then
      invalid "seal has a different composition or required gate set"
    else do
      let _ ← verifyIndex lib cwd t directory s.artifacts
      s.gates.toList.forM fun g => verifyGate lib cwd t directory expected g.1 g.2
      .ok s

/-! ## Sealing -/

def copy (source destination : String) : Act String := do
  let input ← .ask fun t => do
    let q ← find t cwd source
    -- A directory is opened, and not read.
    .ok (contents t q)
  createFile cwd destination (input.toOption.getD [])
  let _ ← .check input
  let hash ← .ask fun t => sha256File lib cwd t destination
  let again ← .ask fun t => sha256File lib cwd t source
  if again ≠ hash then .check (invalid "artifact changed during copy") else pure hash

def checkGate (t : Tree) (request : SealRequest) (name run : String) : Except Error Unit := do
  gateLabel name
  let _ ← verifyRun lib cwd t run (some request.composition)
  let found ← sha256File lib cwd t (join run "receipt.json")
  if some found ≠ request.expectedReceipts[name]? then
    invalid ("required attempt differs for gate: " ++ name)
  else .ok ()

def checkRequest (t : Tree) (request : SealRequest) : Except Error Unit :=
  if request.gates.isEmpty then invalid "a seal requires a nonempty explicit gate set"
  else if request.gates.keys ≠ request.expectedReceipts.keys then
    invalid "gate selection differs from the required receipt set"
  else do
    request.gates.toList.forM fun g => checkGate lib cwd t request g.1 g.2
    request.artifacts.keys.forM relative

def gateFiles : List String := ["request.json","receipt.json","stdout.log","stderr.log"]

def gatePath (name file : String) : String := "gates/" ++ name ++ "/" ++ file

/-- The indices of a seal as it is made. -/
structure Retained where
  gates : ArtifactIndex
  artifacts : ArtifactIndex

def copyGateFile (directory name run : String) (s : Retained) (file : String) : Act Retained := do
  let hash ← copy lib cwd (join run file) (join directory (gatePath name file))
  pure ⟨if file = "receipt.json" then s.gates.insert name hash else s.gates,
    s.artifacts.insert (gatePath name file) hash⟩

def sealGate (request : SealRequest) (directory : String) (s : Retained) (gate : String × String) :
    Act Retained := do
  createDir cwd (join (join directory "gates") gate.1)
  let s ← gateFiles.foldlM (copyGateFile lib cwd directory gate.1 gate.2) s
  let _ ← .ask fun t =>
    verifyRun lib cwd t (gateDirectory directory gate.1) (some request.composition)
  pure s

def artifactPath (name : String) : String := "artifacts/" ++ name

/-- The directory above a path, and all above that. -/
def createParent (destination : String) : Act Unit :=
  match (components destination).reverse with
  | [] => .check (invalid "artifact has no parent")
  | c::cs =>
    if c = "/" then .check (invalid "artifact has no parent") else createDirAll cwd cs

def sealArtifact (directory : String) (artifacts : ArtifactIndex) (artifact : String × String) :
    Act ArtifactIndex := do
  let destination := join directory (artifactPath artifact.1)
  createParent cwd destination
  let hash ← copy lib cwd artifact.2 destination
  pure (artifacts.insert (artifactPath artifact.1) hash)

/-- `seal`. -/
def makeSeal (request : SealRequest) (directory : String) : Act Seal := do
  .ask fun t => checkRequest lib cwd t request
  createDir cwd directory
  createDir cwd (join directory "gates")
  createDir cwd (join directory "artifacts")
  let s ← request.gates.toList.foldlM (sealGate lib cwd request directory) ⟨∅,∅⟩
  let artifacts ← request.artifacts.toList.foldlM (sealArtifact lib cwd directory) s.artifacts
  let made : Seal := ⟨1,request.composition,s.gates,artifacts⟩
  .check (if made.gates ≠ request.expectedReceipts then
    invalid "required receipt changed during seal" else .ok ())
  let _ ← .ask fun t => verifyIndex lib cwd t directory made.artifacts
  createFile cwd (join directory "seal.json") (jsonBytes made.json)
  pure made

end

end Qualification
end CanixToolbelt
