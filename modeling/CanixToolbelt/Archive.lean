import CanixToolbelt.LinkTree

/-! Source archives: the inventory of a tar without its extraction. -/
namespace CanixToolbelt
namespace Archive
open FileTree (Path components render properAncestors)

inductive Kind
  | global
  | directory
  | symlink
  | file
  | other
  deriving DecidableEq, Repr

/-- An entry as the tar reader gives it; the mode is missing where its field is
malformed, an extension where it cannot be read. -/
structure Entry where
  path : String
  mode : Option ℕ
  kind : Kind
  size : ℕ
  extensions : Option (List (Option (List UInt8 × List UInt8)))
  link : Option String
  bytes : List UInt8
  deriving DecidableEq, Repr

structure SourceFile where
  sha256 : String
  executable : Bool
  link : Option String
  deriving DecidableEq, Repr

inductive Error
  | io
  | invalid (message : String)
  deriving DecidableEq, Repr

def invalid {α : Type} (message : String) : Except Error α := .error (.invalid message)

abbrev Files := Std.ExtTreeMap String SourceFile
abbrev Links := Std.ExtTreeMap String String

/-! ## Names and links -/

def relative (path : String) : Except Error Unit :=
  if path = "" ∨ (components path).any fun c => c = "/" || c = ".." then
    invalid ("expected a root-relative path: " ++ path)
  else .ok ()

/-- Apply the components of a link text to those of its directory. -/
def turn (parts : Path) : Path → Except Error Path
  | [] => .ok parts
  | "."::cs => turn parts cs
  | ".."::cs => if parts = [] then invalid "archive link escapes root" else turn parts.dropLast cs
  | "/"::_ => invalid "invalid archive link"
  | c::cs => turn (parts ++ [c]) cs

def normalizedLink (name link : String) : Except Error String :=
  if LinkTree.absolute link then invalid "absolute archive link"
  else do
    let parts ← turn (components name).dropLast (components link)
    .ok (render parts)

/-! ## Entries -/

def hexDigit (b : UInt8) : Bool :=
  (48 ≤ b && b ≤ 57) || (97 ≤ b && b ≤ 102) || (65 ≤ b && b ≤ 70)

/-- The bytes of `comment`. -/
def commentKey : List UInt8 := [99,111,109,109,101,110,116]

def checkExtensions : List (Option (List UInt8 × List UInt8)) → Except Error Unit
  | [] => .ok ()
  | none::_ => .error .io
  | some (key,value)::rest =>
    if key ≠ commentKey ∨ (value.length ≠ 40 ∧ value.length ≠ 64) ∨ ¬ value.all hexDigit then
      invalid "unsupported global archive metadata"
    else checkExtensions rest

/-- A commit comment is all that may apply to every following file. -/
def checkGlobal (e : Entry) : Except Error Unit :=
  if e.size > 1024 then invalid "oversized Git archive metadata"
  else match e.extensions with
    | none => invalid "missing Git archive metadata"
    | some extensions => checkExtensions extensions

/-- What has been read: the inventory, the targets of links and all paths. -/
structure Scan where
  files : Files
  links : Links
  seen : List Path

section
variable (hash : List UInt8 → String) (version : ℕ)

def utf8 (s : String) : List UInt8 := s.toList.flatMap String.utf8EncodeChar

/-- The bytes whose hash the inventory retains for an entry. -/
def retained (e : Entry) (link : Option String) : List UInt8 :=
  match link with
  | some text => if version = 2 then utf8 text else []
  | none => e.bytes

def Scan.add (s : Scan) (e : Entry) (executable : Bool) (link : Option String) : Scan :=
  { s with files := s.files.insert e.path ⟨hash (retained version e link),executable,link⟩ }

def scanKind (s : Scan) (e : Entry) (executable : Bool) : Except Error Scan :=
  match e.kind with
  | .global => do
    checkGlobal e
    .ok s
  | .directory => .ok s
  | .symlink => match e.link with
    | none => invalid "missing archive link target"
    | some text => do
      let target ← normalizedLink e.path text
      .ok ({ s with links := s.links.insert e.path target }.add hash version e executable (some text))
  | .file => .ok (s.add hash version e executable none)
  | .other => invalid "archive contains unsupported entry type"

/-- What decides whether a path was seen before. -/
instance seenLawful : LawfulBEq Path := inferInstance

def scanEntry (s : Scan) (e : Entry) : Except Error Scan := do
  relative e.path
  if components e.path ∈ s.seen then invalid "duplicate archive path"
  else match e.mode with
    | none => .error .io
    | some mode =>
      scanKind hash version { s with seen := components e.path::s.seen } e (mode &&& 0o111 ≠ 0)

/-- Read the entries of an archive; one that cannot be read ends it. -/
def scan (s : Scan) : List (Option Entry) → Except Error Scan
  | [] => .ok s
  | none::_ => .error .io
  | some e::es => do
    let s ← scanEntry hash version s e
    scan s es

/-! ## Links of the inventory -/

/-- Follow a target through the links; the number bounds the iterations. -/
def chase (links : Links) : ℕ → List String → String → Option (Except Error String)
  | 0, _, _ => none
  | n+1, seen, target => match links[target]? with
    | none => some (.ok target)
    | some next =>
      if target ∈ seen then some (invalid "cyclic archive symlink")
      else chase links n (target::seen) next

def beneathLink (s : Scan) : Bool :=
  s.seen.any fun p => (properAncestors p).any fun q => render q ∈ s.links

/-- Whether one of these names is at or below the target. -/
def anyWithin (names : List String) (target : String) : Bool :=
  names.any fun name => (components target).isPrefixOf (components name)

def settleTarget (links : Links) (files : Files) (name target : String) : Except Error Files :=
  match files[target]? with
  | some file =>
    if version = 1 then match files[name]? with
      | none => invalid "archive symlink entry is absent"
      | some entry => .ok (files.insert name { entry with sha256 := file.sha256 })
    else .ok files
  | none =>
    if version ≠ 2 ∨ ¬ anyWithin files.keys target then invalid "archive symlink target is absent"
    -- Directory targets have to be free of links.
    else if anyWithin links.keys target then
      invalid "archive directory symlink target contains symlinks"
    else .ok files

def settle (links : Links) (files : Files) : List (String × String) → Except Error Files
  | [] => .ok files
  | (name,target)::rest => match chase links (links.size + 1) [] target with
    | none => .error .io
    | some r => do
      let target ← r
      let files ← settleTarget version links files name target
      settle links files rest

def archiveInventory (archive : List (Option Entry)) : Except Error Files := do
  let s ← scan hash version ⟨∅,∅,[]⟩ archive
  if beneathLink s then invalid "archive entry is beneath a symlink"
  else settle version s.links s.files s.links.toList

end

/-! ## Extraction -/

open LinkTree (Node Tree look)

/-- Where an entry is extracted to. -/
def place (name : String) : Path := (components name).filter (· ≠ ".")

def makeDirectory (t : Tree) (p : Path) : Tree := if (look t p).isSome then t else t.insert p .directory

/-- Extract an entry, after the directories above it. -/
def extractEntry (t : Tree) (e : Entry) : Tree :=
  let p := place e.path
  let t' := (properAncestors p).foldl makeDirectory t
  match e.kind with
  | .directory => makeDirectory t' p
  | .file => t'.insert p (.file e.bytes)
  | .symlink => t'.insert p (.link (e.link.getD ""))
  | .global | .other => t

def entries (archive : List (Option Entry)) : List Entry := archive.filterMap id

/-- The tree an archive extracts to under an empty root. -/
def extracted (archive : List (Option Entry)) : Tree := (entries archive).foldl extractEntry ∅

end Archive
end CanixToolbelt
