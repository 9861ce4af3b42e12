import CanixToolbelt.FileTree
import CanixToolbelt.JsonText

/-! Evidence replication: the batch a sender collects, its application by a receiver,
and the checkpoint that receipts advance. -/
namespace CanixToolbelt
namespace Evidence
open Effect FileTree

/-! ## Batches and receipts -/

def fileLimit : ℕ := 8 * 1024 * 1024
def payloadLimit : ℕ := 48 * 1024 * 1024
def fileCountLimit : ℕ := 10000
def inventoryLimit : ℕ := 20000
def depthLimit : ℕ := 64

abbrev Dict := Std.ExtTreeMap String String

/-- One source-bound artifact with the receiver's previously acknowledged identity. -/
structure Artifact where
  path : String
  sha256 : String
  expected : Option String
  bytes : List UInt8
  deriving DecidableEq, Repr

/-- An acknowledged path whose raw-byte identity is verified or deleted. -/
structure Identity where
  path : String
  sha256 : String
  deriving DecidableEq, Repr

/-- A bounded transfer and host-local or deferred inventory. -/
structure Batch where
  exchangeId : Option String
  files : List Artifact
  verify : List Identity
  delete : List Identity
  prune : List String
  omitted : List String
  deferred : List String
  deriving DecidableEq, Repr

def Batch.empty : Batch := ⟨none,[],[],[],[],[],[]⟩

/-- Native acknowledgement; only accepted identities may advance the exchange journal. -/
structure Receipt where
  batchSha256 : String
  accepted : Dict
  removed : Dict
  pruned : List String
  conflicts : List String

/-- Sender checkpoint for bounded exchanges. -/
structure Exchange where
  known : Dict
  cursor : List String
  pending : Option Batch
  lastReceipt : Option Receipt

def Exchange.fromKnown (known : Dict) : Exchange := ⟨known,[],none,none⟩

/-! ## Encoding -/

def Artifact.json (a : Artifact) : Json := .obj
  [("path",.str a.path),("sha256",.str a.sha256),("expected",a.expected.elim .null .str),
   ("bytes",.arr (a.bytes.map fun b => .int b.toNat))]

def Identity.json (i : Identity) : Json := .obj [("path",.str i.path),("sha256",.str i.sha256)]

/-- The serialized batch, its fields in the order of their declaration. -/
def Batch.json (b : Batch) : Json := .obj
  ((b.exchangeId.elim [] fun id => [("exchange_id",.str id)]) ++
   [("files",.arr (b.files.map Artifact.json)),("verify",.arr (b.verify.map Identity.json)),
    ("delete",.arr (b.delete.map Identity.json)),("prune",.arr (b.prune.map .str)),
    ("omitted",.arr (b.omitted.map .str)),("deferred",.arr (b.deferred.map .str))])

def utf8 (cs : List Char) : List UInt8 := cs.flatMap String.utf8EncodeChar

def Batch.encoding (b : Batch) : List UInt8 := utf8 b.json.render

def invalid {α : Type} (message : String) : Except Error α := .error (.invalid message)

def hexLower (c : Char) : Bool := c.isDigit || ('a' ≤ c && c ≤ 'f')

def validDigest (value : String) : Bool :=
  value.utf8ByteSize = 64 && value.toList.all hexLower

def boundedEncoding (b : Batch) : Except Error Unit :=
  if b.encoding.length > payloadLimit then invalid "encoded evidence payload exceeds its bound"
  else .ok ()

def requireExchangeNonce (b : Batch) : Except Error Unit :=
  if b.exchangeId.any validDigest then .ok ()
  else invalid "pending evidence exchange lacks a valid per-exchange nonce"

/-! ## Scopes -/

/-- The part of a name that counts against the payload. -/
def nameSize (name : String) : ℕ := name.utf8ByteSize + 1024

def marker (c : String) : Bool := c = ".git" || c = "worktrees"

/-- A plain relative path of bounded depth within the allowed roots. -/
def scopedRelative (allowed : List Path) (p : Path) : Except Error Unit :=
  if p = [] ∨ p.length > depthLimit ∨ ¬ p.all normal ∨ ¬ allowed.any (·.isPrefixOf p) then
    invalid "artifact path is outside declared owner evidence roots"
  else .ok ()

def relative (allowed : List Path) (p : Path) : Except Error Unit := do
  scopedRelative allowed p
  if p.any marker then invalid "artifact path is outside declared owner evidence roots"
  else .ok ()

def within (root p : Path) : Bool := root.isPrefixOf p

/-! ## The receiver -/

/-- What a receiver path holds. -/
inductive Receiver
  | missing
  | file (sha : String)
  | foreign
  deriving DecidableEq, Repr

def Receiver.matches_ (r : Receiver) (digest : String) : Bool := r = .file digest

def Receiver.expected (r : Receiver) : Option String → Bool
  | some sha => r.matches_ sha
  | none => r = .missing

/-- Durable evidence is asked for by the mutating steps only. -/
def syncIf (durable : Bool) (p : Path) : Io Unit := if durable then sync p else pure ()

def checkout (p : Path) : Io Bool := do
  let entry ← stat (p ++ [".git"])
  pure entry.isSome

/-- A directory that was opened: no checkout is entered. -/
def enter (durable : Bool) (parent p : Path) : Io Unit := do
  syncIf durable parent
  let git ← checkout p
  if git then throw .blocked else pure ()

/-- Open a directory, or create it where that is asked for. -/
def openOrCreate (create : Bool) (p : Path) : Io Bool := do
  let found ← openDir p
  if found then pure true
  else if create then do
    mkdir p
    let again ← openDir p
    if again then pure true else throw .io
  else pure false

/-- Open the given directories below an open one; false when one is missing. -/
def openFrom (create durable : Bool) (parent : Path) : List String → Io Bool
  | [] => pure true
  | name::names => do
    let found ← openOrCreate create (parent ++ [name])
    if found then do
      enter durable parent (parent ++ [name])
      openFrom create durable (parent ++ [name]) names
    else do
      syncIf durable parent
      pure false

/-- Resolve the parent of a path through pinned, no-follow directory handles. -/
def receiverParent (create durable : Bool) (p : Path) : Io Bool :=
  openFrom create durable [] p.dropLast

section
variable (hash : List UInt8 → String)

def receiverHashAt (p : Path) : Io Receiver := do
  let entry ← stat p
  match entry with
  | none => pure .missing
  | some (.file size) =>
    if size > fileLimit then pure .foreign
    else do
      let content ← read p
      match content with
      | .missing => pure .missing
      | .link | .irregular => pure .foreign
      | .bytes bytes =>
        if bytes.length > fileLimit then pure .foreign else pure (.file (hash bytes))
  | some _ => pure .foreign

def receiverHash (p : Path) : Io Receiver := do
  let parent ← (receiverParent false false p).attempt
  match parent with
  | .ok true => receiverHashAt hash p
  | .ok false => pure .missing
  | .error .blocked => pure .foreign
  | .error e => throw e

/-! ## Validation -/

/-- How validation looks at a receiver; a sender looks at nothing. -/
structure Probe (m : Type → Type) where
  lift : {α : Type} → Except Error α → m α
  blocked : Path → m Bool
  look : Path → m Unit

def noProbe : Probe (Except Error) where
  lift := id
  blocked := fun _ => pure false
  look := fun _ => pure ()

/-- Whether a path is behind a checkout or something that is not a directory. -/
def blockedParent (p : Path) : Io Bool := do
  let parent ← (receiverParent false false p).attempt
  match parent with
  | .ok _ => pure false
  | .error .blocked => pure true
  | .error e => throw e

def receiverProbe : Probe Io where
  lift := checked
  blocked := blockedParent
  look := fun p => do
    let _ ← receiverHash hash p
    pure ()

/-- The paths seen so far and the size they account for. -/
structure Tally where
  size : ℕ
  paths : List Path
  deriving DecidableEq, Repr

def admitFile (item : Artifact) (t : Tally) : Except Error Tally :=
  let size := t.size + (item.bytes.length * 4 + nameSize item.path)
  if components item.path ∈ t.paths ∨ item.bytes.length > fileLimit ∨ size > payloadLimit ∨
      hash item.bytes ≠ item.sha256 ∨ item.expected.any (fun sha => !validDigest sha) then
    invalid "invalid or oversized evidence payload"
  else .ok ⟨size,components item.path::t.paths⟩

def admitIdentity (item : Identity) (t : Tally) : Except Error Tally :=
  let size := t.size + nameSize item.path
  if components item.path ∈ t.paths ∨ ¬ validDigest item.sha256 ∨ size > payloadLimit then
    invalid "invalid or oversized evidence identity inventory"
  else .ok ⟨size,components item.path::t.paths⟩

def namesSize (names : List String) : ℕ := (names.map nameSize).sum

/-- What can be checked before any path is looked at: scopes of names, and counts. -/
def validateInventory (allowed : List Path) (b : Batch) : Except Error ℕ := do
  boundedEncoding b
  if b.exchangeId.any fun id => !validDigest id then
    invalid "malformed evidence exchange nonce"
  else do
    allowed.forM fun p => relative [p] p
    b.omitted.forM fun name => scopedRelative allowed (components name)
    b.deferred.forM fun name => relative allowed (components name)
    if b.files.length + b.delete.length > fileCountLimit ∨ b.verify.length > inventoryLimit ∨
        b.prune.length > inventoryLimit ∨
        b.omitted.length + b.deferred.length > inventoryLimit then
      invalid "evidence file count exceeds its bound"
    else
      let size := namesSize b.omitted + namesSize b.deferred + namesSize b.prune
      if size > payloadLimit then invalid "evidence inventory exceeds its payload bound"
      else .ok size

/-- Every retirement root has a scoped descendant removal and keeps nothing else. -/
def pruneScoped (b : Batch) (root : Path) : Bool :=
  b.delete.any (fun item => within root (components item.path) && components item.path ≠ root) &&
    (b.files.map (components ·.path) ++ b.verify.map (components ·.path)).all fun p =>
      !within root p && !within p root

/-- The retirement roots, if they are well formed. -/
def validatePrune (allowed : List Path) (b : Batch) : List Path → List String → Except Error (List Path)
  | roots, [] =>
    if roots.any fun p => (properAncestors p).any (· ∈ roots) then
      invalid "overlapping directory retirement roots"
    else .ok roots
  | roots, name::names => do
    relative allowed (components name)
    if components name ∈ roots ∨ ¬ pruneScoped b (components name) then
      invalid "directory retirement lacks scoped descendant removal identities"
    else validatePrune allowed b (components name::roots) names

section
variable {m : Type → Type} [Monad m] (probe : Probe m) (allowed : List Path)

/-- The retirement roots that are blocked themselves. -/
def blockedRoots : List String → List Path → m (List Path)
  | [], blocked => pure blocked
  | name::names, blocked => do
    probe.lift (relative allowed (components name))
    let b ← probe.blocked (components name ++ ["retirement-probe"])
    blockedRoots names (if b then components name::blocked else blocked)

/-- The retirement roots that are blocked at one of their deletions. -/
def blockedDeletes (roots : List Path) : List Identity → List Path → m (List Path)
  | [], blocked => pure blocked
  | item::items, blocked => do
    probe.lift (relative allowed (components item.path))
    match (properAncestors (components item.path)).find? (· ∈ roots) with
    | none => blockedDeletes roots items blocked
    | some root => do
      let b ← probe.blocked (components item.path)
      blockedDeletes roots items (if b then root::blocked else blocked)

def validateFiles : List Artifact → Tally → m Tally
  | [], t => pure t
  | item::items, t => do
    probe.lift (relative allowed (components item.path))
    probe.look (components item.path)
    let t ← probe.lift (admitFile hash item t)
    validateFiles items t

def retirementBlocked (blocked : List Path) (p : Path) : Bool :=
  blocked.any fun root => within root p

def lookUnlessBlocked (blocked : List Path) (p : Path) : m Unit :=
  if retirementBlocked blocked p then pure () else probe.look p

def validateIdentities (blocked : List Path) : List Identity → Tally → m Tally
  | [], t => pure t
  | item::items, t => do
    probe.lift (relative allowed (components item.path))
    lookUnlessBlocked probe blocked (components item.path)
    let t ← probe.lift (admitIdentity item t)
    validateIdentities blocked items t

/-- The structural validation that senders and receivers share; a receiver also looks
at the ancestors it would go through.  Gives the blocked roots and all of them. -/
def validateBatch (b : Batch) : m (List Path × List Path) := do
  let size ← probe.lift (validateInventory allowed b)
  let blocked ← blockedRoots probe allowed b.prune []
  let blocked ← blockedDeletes probe allowed (b.prune.map components) b.delete blocked
  let tally ← validateFiles hash probe allowed b.files ⟨size,[]⟩
  let tally ← validateIdentities probe allowed blocked (b.verify ++ b.delete) tally
  if tally.paths.any fun p => (properAncestors p).any (· ∈ tally.paths) then
    probe.lift (invalid "evidence payload contains a file and its descendant")
  else do
    let pruning ← probe.lift (validatePrune allowed b [] b.prune)
    pure (blocked,pruning)

end

/-! ## Application -/

def Receipt.accept (r : Receipt) (path sha : String) : Receipt :=
  { r with accepted := r.accepted.insert path sha }

def Receipt.remove (r : Receipt) (path sha : String) : Receipt :=
  { r with removed := r.removed.insert path sha }

def Receipt.conflict (r : Receipt) (path : String) : Receipt :=
  { r with conflicts := r.conflicts ++ [path] }

def batchDigest (b : Batch) : Except Error String := do
  boundedEncoding b
  .ok (hash b.encoding)

/-- A path that holds the verified bytes is accepted once that is durable. -/
def applyVerify (item : Identity) (r : Receipt) : Io Receipt := do
  let current ← receiverHash hash (components item.path)
  if current.matches_ item.sha256 then do
    let parent ← receiverParent false true (components item.path)
    if ¬ parent then fail "receiver verification parent moved"
    else do
      sync (components item.path).dropLast
      pure (r.accept item.path item.sha256)
  else pure (r.conflict item.path)

/-- Whether a receiver path may take an artifact's bytes. -/
def Artifact.fits (item : Artifact) (current : Receiver) : Bool :=
  current.matches_ item.sha256 || current.expected item.expected

/-- Put the bytes in place, unless they are there already. -/
def settle (item : Artifact) (pinned : Receiver) : Io Unit := do
  if pinned.matches_ item.sha256 then sync (components item.path).dropLast
  else do
    write (components item.path) item.bytes
    sync (components item.path).dropLast

def applyFile (item : Artifact) (r : Receipt) : Io Receipt := do
  let current ← receiverHash hash (components item.path)
  if ¬ item.fits current then pure (r.conflict item.path)
  else do
    let _ ← receiverParent true true (components item.path)
    let pinned ← receiverHashAt hash (components item.path)
    if ¬ item.fits pinned then pure (r.conflict item.path)
    else do
      settle item pinned
      pure (r.accept item.path item.sha256)

def Identity.removable (item : Identity) (current : Receiver) : Bool :=
  current = .missing || current.matches_ item.sha256

/-- Remove the pinned file, unless it is gone already. -/
def removePinned (item : Identity) (pinned : Receiver) : Io Unit := do
  if pinned = .missing then sync (components item.path).dropLast
  else do
    unlink (components item.path)
    sync (components item.path).dropLast

def applyDelete (blocked : List Path) (item : Identity) (r : Receipt) : Io Receipt := do
  if retirementBlocked blocked (components item.path) then pure (r.conflict item.path)
  else do
    let current ← receiverHash hash (components item.path)
    if ¬ item.removable current then pure (r.conflict item.path)
    else do
      let parent ← receiverParent false true (components item.path)
      if parent then do
        let pinned ← receiverHashAt hash (components item.path)
        if ¬ item.removable pinned then pure (r.conflict item.path)
        else do
          removePinned item pinned
          pure (r.remove item.path item.sha256)
      else if current ≠ .missing then fail "receiver deletion parent moved"
      else pure (r.remove item.path item.sha256)

/-- Remove a directory that is empty and no checkout; a missing one is fine. -/
def pruneEmpty (p : Path) : Io Bool := do
  let parent ← receiverParent false true p
  if ¬ parent then pure true
  else do
    let entry ← stat p
    match entry with
    | none => do
      sync p.dropLast
      pure true
    | some .directory => do
      let opened ← openDir p
      if ¬ opened then throw .io
      else do
        let git ← checkout p
        if git then pure false
        else do
          let removed ← rmdir p
          if removed then do
            sync p.dropLast
            pure true
          else pure false
    | some _ => pure false

/-- Remove directories until one has to stay. -/
def pruneAll : List Path → Io Bool
  | [] => pure true
  | p::ps => do
    let complete ← pruneEmpty p
    if complete then pruneAll ps else pure false

def descendants (b : Batch) (root : Path) : List Identity :=
  b.delete.filter fun item => within root (components item.path)

/-- The directories between a root and the removed descendants, descendants first. -/
def retired (root : Path) (items : List Identity) : List Path :=
  let directories := items.flatMap fun item =>
    (properAncestors (components item.path)).filter (within root)
  (Std.ExtTreeSet.ofList directories).toList.reverse

def removedAll (r : Receipt) (items : List Identity) : Bool :=
  items.all fun item => r.removed[item.path]? = some item.sha256

/-- All transition identities are kept until the structural retirement succeeds. -/
def Receipt.keep (r : Receipt) (root : String) (items : List Identity) : Receipt :=
  { r.conflict root with removed := items.foldl (fun d item => d.erase item.path) r.removed }

def Receipt.retire (r : Receipt) (root : String) : Receipt :=
  { r with pruned := r.pruned ++ [root] }

def applyPrune (blocked : List Path) (b : Batch) (name : String) (r : Receipt) : Io Receipt := do
  let root := components name
  let items := descendants b root
  if root ∉ blocked ∧ removedAll r items then do
    let complete ← pruneAll (retired root items)
    if complete then pure (r.retire name) else pure (r.keep name items)
  else pure (r.keep name items)

/-- Run a step over a list, each on the receipt of those before. -/
def each {α : Type} (step : α → Receipt → Io Receipt) : List α → Receipt → Io Receipt
  | [], r => pure r
  | a::as, r => do
    let r ← step a r
    each step as r

/-- The retirement roots as the batch spells them, in the order of their paths. -/
def pruneOrder (b : Batch) (pruning : List Path) : List String :=
  (Std.ExtTreeSet.ofList pruning).toList.filterMap fun p => b.prune.find? fun name => components name = p

/-- The changes of a validated batch, in their order. -/
def applyItems (b : Batch) (blocked pruning : List Path) (r : Receipt) : Io Receipt := do
  let r ← each (applyVerify hash) b.verify r
  let r ← each (applyFile hash) b.files r
  let r ← each (applyDelete hash blocked) b.delete r
  each (applyPrune blocked b) (pruneOrder b pruning) r

/-- Verify and apply one exchange. -/
def applyLocked (allowed : List Path) (b : Batch) : Io Receipt := do
  let git ← checkout []
  if git then throw .blocked
  else do
    let (blocked,pruning) ← validateBatch hash (receiverProbe hash) allowed b
    let digest ← checked (batchDigest hash b)
    applyItems hash b blocked pruning ⟨digest,∅,∅,[],[]⟩

/-! ## Collection -/

/-- What a collection has gathered so far, and what it may still admit. -/
structure Collect where
  batch : Batch
  size : ℕ
  entries : ℕ
  newRemaining : ℕ
  deriving DecidableEq, Repr

def Collect.defer (c : Collect) (name : String) : Collect :=
  { c with batch := { c.batch with deferred := c.batch.deferred ++ [name] } }

def Collect.omit_ (c : Collect) (name : String) : Collect :=
  { c with batch := { c.batch with omitted := c.batch.omitted ++ [name] } }

def Collect.transition (c : Collect) (name : String) : Collect :=
  { c with batch := { c.batch with prune := c.batch.prune ++ [name]
                                   deferred := c.batch.deferred ++ [name] } }

def Collect.verify (c : Collect) (name sha : String) : Collect :=
  { c with batch := { c.batch with verify := c.batch.verify ++ [⟨name,sha⟩] }
           size := c.size + nameSize name }

def Collect.delete (c : Collect) (name sha : String) : Collect :=
  { c with batch := { c.batch with delete := c.batch.delete ++ [⟨name,sha⟩] }
           size := c.size + nameSize name }

def artifactSize (name : String) (bytes : List UInt8) : ℕ := bytes.length * 4 + nameSize name

/-- Admit an artifact; an unknown name takes one of the remaining new places. -/
def Collect.upload (c : Collect) (name sha : String) (expected : Option String)
    (bytes : List UInt8) : Collect :=
  { c with batch := { c.batch with files := c.batch.files ++ [⟨name,sha,expected,bytes⟩] }
           size := c.size + artifactSize name bytes
           newRemaining := if expected.isNone then c.newRemaining - 1 else c.newRemaining }

/-- The names left behind stay within the inventory. -/
def Collect.bounded (c : Collect) : Io Collect :=
  if c.batch.omitted.length + c.batch.deferred.length > inventoryLimit then
    fail "evidence inventory exceeds its bound"
  else pure c

/-- Whether a path is at or below one of the named roots. -/
def below (roots : List String) (p : Path) : Bool := roots.any fun root => within (components root) p

def readAt (p : Path) : Io (List UInt8) := do
  let content ← read p
  match content with
  | .bytes bytes =>
    if bytes.length > fileLimit then fail "artifact grew beyond its bound" else pure bytes
  | .irregular => fail "artifact is not a bounded regular file"
  | .missing | .link => throw .io

section
variable (known : Dict) (cursor : List String)

/-- Whether an acknowledged identity lies below this name. -/
def knownBelow (name : String) : Bool :=
  known.keys.any fun k => (name ++ "/").toList.isPrefixOf k.toList

def collectFile (path : Path) (c : Collect) : Io Collect :=
  let name := render path
  -- Acknowledged descendants are retired before the replacement is sent.
  if knownBelow known name then pure (c.transition name)
  else do
    let bytes ← readAt path
    let sha := hash bytes
    if known[name]? = some sha then
      if c.batch.verify.length ≥ inventoryLimit ∨ c.size + nameSize name > payloadLimit then
        fail "acknowledged evidence verification exceeds its bound"
      else pure (c.verify name sha)
    else if c.size + artifactSize name bytes > payloadLimit ∨
        c.batch.files.length ≥ fileCountLimit ∨ (known[name]? = none ∧ c.newRemaining = 0) then
      (c.defer name).bounded
    else (c.upload name sha known[name]? bytes).bounded

def countEntries (n : ℕ) (c : Collect) : Io Collect :=
  if c.entries + n > inventoryLimit then
    fail "aggregate evidence directory inventory exceeds its bound"
  else pure { c with entries := c.entries + n }

def walkAll (step : String → Collect → Io Collect) : List String → Collect → Io Collect
  | [], c => pure c
  | name::names, c => do
    let c ← step name c
    walkAll step names c

/-- Everything below a directory that was opened and is no checkout. -/
def collectDirectory (path : Path) (step : String → Collect → Io Collect) (c : Collect) :
    Io Collect := do
  let opened ← openDir path
  if ¬ opened then throw .io
  else do
    let git ← checkout path
    if git then (c.omit_ (render path)).bounded
    -- The acknowledged file identity has to be removed first.
    else if render path ∈ known then (c.defer (render path)).bounded
    else do
      let names ← list path
      let c ← countEntries names.length c
      let c ← walkAll step (names.insertionSort (· ≤ ·)) c
      c.bounded

/-- Gather a source path; the number bounds the depth that is left. -/
def walk : ℕ → Path → Collect → Io Collect
  | 0, _, _ => fail "evidence traversal depth exceeds its bound"
  | n+1, path, c => do
    let entry ← stat path
    match entry with
    | none => pure c
    | some kind =>
      if below cursor path then pure (c.defer (render path))
      else if path.any marker then (c.omit_ (render path)).bounded
      else match kind with
      | .directory => collectDirectory known path (fun name => walk n (path ++ [name])) c
      | .file size =>
        if size > fileLimit then (c.omit_ (render path)).bounded
        else collectFile hash known path c
      | .link | .special => (c.omit_ (render path)).bounded

/-- The outermost allowed roots, in order. -/
def uniqueRoots (allowed : List Path) : List Path :=
  (allowed.insertionSort fun p q => (compare p q).isLE).foldl
    (fun unique p => if unique.any (within · p) then unique else unique ++ [p]) []

def collectRoots : List Path → Collect → Io Collect
  | [], c => pure c
  | path::paths, c =>
    if c.entries + 1 > inventoryLimit then fail "aggregate evidence inventory exceeds its bound"
    else do
      let c := { c with entries := c.entries + 1 }
      let parent ← (receiverParent false false path).attempt
      match parent with
      | .error .blocked => collectRoots paths (c.omit_ (render path))
      | .error e => throw e
      | .ok false => collectRoots paths c
      | .ok true => do
        let c ← walk hash known cursor (depthLimit + 1 - path.length) path c
        collectRoots paths c

/-- What became of an acknowledged path at the source. -/
inductive Fate
  | kept
  | gone
  | excluded
  deriving DecidableEq, Repr

/-- The entry at the end of an acknowledged path; checkouts and links supply no authority
to delete. -/
def entryFate (path : Path) : Io Fate := do
  let entry ← stat path
  match entry with
  | none => pure .gone
  | some .link => pure .excluded
  | some .directory => do
    let opened ← openDir path
    if ¬ opened then throw .io
    else do
      let git ← checkout path
      pure (if git then .excluded else .gone)
  | some _ => pure .kept

def sourceFate (b : Batch) (path : Path) : Io Fate :=
  if b.prune.any fun root => within (components root) path && components root ≠ path then pure .gone
  else do
    let parent ← receiverParent false false path
    if parent then entryFate path else pure .gone

/-- Delete an acknowledged path that is gone, as far as the bounds allow. -/
def retireKnown (name sha : String) (c : Collect) : Io Collect :=
  if ¬ validDigest sha then fail "malformed acknowledged evidence identity"
  else if c.batch.files.length + c.batch.delete.length ≥ fileCountLimit ∨
      c.size + nameSize name > payloadLimit then (c.defer name).bounded
  else pure (c.delete name sha)

def collectKnown (unique deferredRoots : List Path) (observed : List String) :
    List (String × String) → Collect → Io Collect
  | [], c => pure c
  | (name,sha)::rest, c =>
    let path := components name
    if ¬ unique.any (within · path) then collectKnown unique deferredRoots observed rest c
    else do
      checked (relative unique path)
      if name ∈ observed ∨ below c.batch.omitted path then
        collectKnown unique deferredRoots observed rest c
      else if below cursor path then
        if deferredRoots.any (within · path) then
          collectKnown unique deferredRoots observed rest c
        else collectKnown unique deferredRoots observed rest (c.defer name)
      else do
        let fate ← sourceFate c.batch path
        match fate with
        | .kept => collectKnown unique deferredRoots observed rest c
        | .excluded => collectKnown unique deferredRoots observed rest (c.omit_ name)
        | .gone => do
          let c ← retireKnown name sha c
          collectKnown unique deferredRoots observed rest c

/-- Drop the later one of two neighbours with one path. -/
def dedupFiles : List Artifact → List Artifact
  | [] => []
  | a::as => match dedupFiles as with
    | [] => [a]
    | b::bs => if a.path = b.path then a::bs else a::b::bs

/-- For each directory below a transition, how many acknowledged descendants it has
and how many of them this batch removes. -/
abbrev Counts := Std.ExtTreeMap Path (ℕ × ℕ)

def countDirectories (removed : Bool) : List Path → Counts → Except Error Counts
  | [], counts => .ok counts
  | p::ps, counts =>
    if p ∉ counts ∧ counts.size ≥ inventoryLimit then
      invalid "directory retirement inventory exceeds its bound"
    else
      let (total,gone) := counts.getD p (0,0)
      countDirectories removed ps (counts.insert p (total + 1,gone + removed.toNat))

def countKnown (b : Batch) (root : Path) : List (String × String) → Counts → Except Error Counts
  | [], counts => .ok counts
  | (name,sha)::rest, counts => do
    let directories := (properAncestors (components name)).filter (within root)
    let counts ← if within root (components name) then
        countDirectories (⟨name,sha⟩ ∈ b.delete) directories counts
      else .ok counts
    countKnown b root rest counts

def countTransitions (b : Batch) : List String → Counts → Except Error Counts
  | [], counts => .ok counts
  | root::roots, counts => do
    let counts ← countKnown b (components root) known.toList counts
    countTransitions b roots counts

/-- The outermost fully drained directories. -/
def drainedRoots (counts : Counts) : List Path :=
  counts.toList.foldl (fun roots (p,total,gone) =>
    if total = gone ∧ ¬ (properAncestors p).any (· ∈ roots) then roots ++ [p] else roots) []

/-- The batch with its files in order and the directories it can retire. -/
def finishBatch (c : Collect) : Except Error Batch := do
  if c.batch.omitted.length + c.batch.deferred.length > inventoryLimit then
    invalid "evidence inventory exceeds its bound"
  else do
    let files := dedupFiles (c.batch.files.insertionSort fun a b => a.path ≤ b.path)
    let counts ← countTransitions known c.batch c.batch.prune ∅
    let b := { c.batch with files := files, prune := (drainedRoots counts).map render }
    if c.size + namesSize b.omitted + namesSize b.deferred + namesSize b.prune > payloadLimit then
      invalid "evidence inventory exceeds its payload bound"
    else do
      boundedEncoding b
      .ok b

/-- Collect declared authoritative paths against the acknowledged identities. -/
def collectWith (allowed : List Path) : Io Batch := do
  checked (allowed.forM fun p => relative [p] p)
  let git ← checkout []
  if git then throw .blocked
  else do
    let unique := uniqueRoots allowed
    let c ← collectRoots hash known cursor unique
      ⟨Batch.empty,0,0,inventoryLimit - known.size⟩
    let observed := c.batch.files.map (·.path) ++ c.batch.verify.map (·.path)
    let c ← collectKnown cursor unique (c.batch.deferred.map components) observed known.toList c
    checked (finishBatch known c)

end

/-! ## The exchange -/

/-- Prepare a bounded batch or keep the pending one for its retry; the nonce is what
was read from the system, if that was possible. -/
def Exchange.prepare (allowed : List Path) (nonce : Option (List UInt8)) (x : Exchange) :
    Io Exchange :=
  if allowed.length > inventoryLimit ∨ x.known.size > inventoryLimit ∨
      x.cursor.length > inventoryLimit then
    fail "exchange checkpoint inventory exceeds its bound"
  else do
    checked (x.cursor.forM fun name => relative allowed (components name))
    match x.pending with
    | some b => do
      let _ ← checked (validateBatch hash noProbe allowed b)
      checked (requireExchangeNonce b)
      pure x
    | none => do
      let b ← collectWith hash x.known x.cursor allowed
      match nonce with
      | none => throw .io
      | some bytes => do
        let b := { b with exchangeId := some (hash bytes) }
        let _ ← checked (validateBatch hash noProbe allowed b)
        checked (requireExchangeNonce b)
        pure { x with pending := some b }

/-- The identities a batch may have accepted. -/
def Batch.uploads (b : Batch) : List Identity :=
  b.files.map (fun item => ⟨item.path,item.sha256⟩) ++ b.verify

/-- The last identity of each path. -/
def identities (items : List Identity) : Dict :=
  Std.ExtTreeMap.ofList (items.map fun item => (item.path,item.sha256))

/-- Whether a retirement root above a path is in conflict. -/
def rootConflict (b : Batch) (conflicts : List String) (path : String) : Bool :=
  b.prune.any fun root => root ∈ conflicts && within (components root) (components path)

/-- Every path of the batch has exactly one outcome, and no other path has any. -/
def consistent (b : Batch) (r : Receipt) : Bool :=
  let accepted := identities b.uploads
  let removed := identities b.delete
  decide r.conflicts.Nodup && decide r.pruned.Nodup &&
  r.accepted.toList.all (fun (path,sha) => accepted[path]? = some sha && path ∉ r.conflicts) &&
  r.removed.toList.all (fun (path,sha) => removed[path]? = some sha && path ∉ r.conflicts) &&
  r.pruned.all (fun path => path ∈ b.prune && path ∉ r.conflicts) &&
  r.conflicts.all (fun path => path ∈ accepted || path ∈ removed || path ∈ b.prune) &&
  accepted.toList.all (fun (path,sha) => r.accepted[path]? = some sha || path ∈ r.conflicts) &&
  removed.toList.all (fun (path,sha) => r.removed[path]? = some sha || path ∈ r.conflicts ||
    rootConflict b r.conflicts path) &&
  b.prune.all (fun path => path ∈ r.pruned || path ∈ r.conflicts) &&
  b.prune.all (fun root => (descendants b (components root)).all fun item =>
    (root ∉ r.pruned || r.removed[item.path]? = some item.sha256) &&
      (root ∉ r.conflicts || item.path ∉ r.removed))

/-- Take the removed bindings out of the acknowledged identities. -/
def forget : List (String × String) → Dict → Except Error Dict
  | [], known => .ok known
  | (path,sha)::rest, known =>
    if known[path]? ≠ some sha then invalid "removal receipt differs from retained identity"
    else forget rest (known.erase path)

/-- The conflicts that lie below no earlier one. -/
def outermost (conflicts : List String) : List String :=
  (Std.ExtTreeSet.ofList conflicts).toList.foldl (fun cursor path =>
    if below cursor (components path) then cursor else cursor ++ [path]) []

/-- Adopt only a complete receipt bound to the pending batch. -/
def Exchange.acknowledge (x : Exchange) (r : Receipt) : Except Error Exchange :=
  match x.pending with
  | none => invalid "no pending evidence exchange"
  | some b => do
    requireExchangeNonce b
    let digest ← batchDigest hash b
    if r.batchSha256 ≠ digest then invalid "receipt differs from pending evidence batch"
    else if ¬ consistent b r then invalid "incomplete or inconsistent evidence receipt"
    else do
      let known ← forget r.removed.toList x.known
      let known := known.insertMany r.accepted.toList
      if known.size > inventoryLimit then
        invalid "acknowledged evidence inventory exceeds its bound"
      else if (outermost r.conflicts).length > inventoryLimit then
        invalid "conflict cursor exceeds its bound"
      else .ok ⟨known,outermost r.conflicts,none,some r⟩

end
end Evidence
end CanixToolbelt
