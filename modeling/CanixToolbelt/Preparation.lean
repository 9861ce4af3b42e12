import Mathlib.Data.List.Sort
import Mathlib.Data.List.Dedup
import Mathlib.Data.List.Lex
import CanixToolbelt.Codes
import CanixToolbelt.Fallible

/-! The digest of a prepared checkout: its tree is walked in the order of names, sealed on the way
where asked, and every path, kind, mode and content goes into one stream. -/
namespace CanixToolbelt
namespace Preparation
open Codes Fallible

/-- A name in a directory, as the system lists it. -/
abbrev Name := { n : List UInt8 // n ≠ [] ∧ 47 ∉ n ∧ n ≠ [46] ∧ n ≠ [46,46] }

abbrev Path := List Name

/-- The bytes of a relative path. -/
def pathBytes (p : Path) : List UInt8 := [47].intercalate (p.map Subtype.val)

/-- The permission bits, `st_mode & 0o7777`. -/
abbrev Mode := BitVec 12

structure Meta where
  uid : ℕ
  mode : Mode
  deriving DecidableEq

/-- What stands under a name; a file that is read may have more or fewer bytes than it states. -/
inductive Node where
  | file (m : Meta) (nlink size : ℕ) (bytes : List UInt8)
  | link (uid : ℕ) (target : List UInt8)
  | special (uid : ℕ)
  | dir (m : Meta) (entries : List (Name × Node))

def Node.uid : Node → ℕ
  | .file m _ _ _ => m.uid
  | .link uid _ => uid
  | .special uid => uid
  | .dir m _ => m.uid

structure Limits where
  entries : ℕ
  snapshotBytes : ℕ

/-- What a walk meets besides the tree: who runs it, the checks of the time and CPU budget, and the
order in which a directory is listed. -/
structure Env where
  euid : ℕ
  limits : Limits
  sealing : Bool
  opened : Except String Unit
  budget : ℕ → Option String
  order : Path → List Name → List Name
  listed : ∀ p ns, (order p ns).Perm ns

structure State where
  hashed : List UInt8
  entries : ℕ
  bytes : ℕ
  checks : ℕ

abbrev Walk (α : Type) := State → Except String (α × State)

namespace Walk

def pure {α : Type} (a : α) : Walk α := fun st => .ok (a,st)

def bind {α β : Type} (w : Walk α) (f : α → Walk β) : Walk β := fun st =>
  match w st with
  | .error e => .error e
  | .ok (a,st) => f a st

instance : Monad Walk where
  pure := pure
  bind := bind

end Walk

def fail {α : Type} (message : String) : Walk α := fun _ => .error message

def ensure (p : Prop) [Decidable p] (message : String) : Walk Unit :=
  if p then pure () else fail message

def get : Walk State := fun st => .ok (st,st)

def modify (f : State → State) : Walk Unit := fun st => .ok ((),f st)

def update (bytes : List UInt8) : Walk Unit :=
  modify fun st => { st with hashed := st.hashed ++ bytes }

/-- Bytes behind their length; there is none that memory could not hold. -/
def updateCounted (bytes : List UInt8) : Walk Unit := do
  ensure (bytes.length < 2^64) "capacity overflow"
  update (counted 8 bytes)

def sealedMode (mode : Mode) : Mode := if mode &&& 0o111#12 ≠ 0 then 0o500#12 else 0o400#12

def nameLe (a b : Name) : Prop := a.1.map UInt8.toNat ≤ b.1.map UInt8.toNat

instance : DecidableRel nameLe := fun a b =>
  inferInstanceAs (Decidable (a.1.map UInt8.toNat ≤ b.1.map UInt8.toNat))

section
variable (env : Env)

def check : Walk Unit := fun st =>
  match env.budget st.checks with
  | some message => .error message
  | none => .ok ((),{ st with checks := st.checks + 1 })

/-- Whether the owner of a file may, by this bit of its mode. -/
def may (bit mode : Mode) : Prop := env.euid = 0 ∨ mode &&& bit ≠ 0

instance (bit mode : Mode) : Decidable (may env bit mode) :=
  inferInstanceAs (Decidable (_ ∨ _))

def denied : String := "Permission denied (os error 13)"

/-- The names read so far are counted against the limit. -/
def listNames : ℕ → List Name → Walk Unit
  | _, [] => pure ()
  | n, _::ns => do
    check env
    ensure (n < env.limits.entries) "directory entry count exceeds preparation bound"
    listNames (n+1) ns

def names (relative : Path) (m : Meta) (entries : List (Name × Node)) : Walk (List Name) := do
  ensure (may env 0o400#12 m.mode) denied
  let found := env.order relative (entries.map Prod.fst).dedup
  listNames env 0 found
  pure (found.insertionSort nameLe)

/-- So many reads, each behind a check. -/
def reads : ℕ → Walk Unit
  | 0 => pure ()
  | n+1 => do
    check env
    reads n

def file (m : Meta) (nlink size : ℕ) (bytes : List UInt8) : Walk Node := do
  ensure (may env 0o400#12 m.mode) denied
  ensure (nlink = 1) "snapshot contains shared hardlinks"
  let mode := sealedMode m.mode
  let m' : Meta := if env.sealing then { m with mode := mode } else m
  ensure (m'.mode = mode) "snapshot file is not sealed"
  let st ← get
  ensure (st.bytes + size < 2^64) "snapshot size overflow"
  modify fun st => { st with bytes := st.bytes + size }
  ensure (st.bytes + size ≤ env.limits.snapshotBytes) "snapshot exceeds preparation byte bound"
  update [70]
  update (le 4 mode.toNat)
  update (le 8 size)
  -- buffers of 64 KiB, and the read that finds the end
  reads env ((bytes.length + 65535) / 65536 + 1)
  ensure (bytes.length ≤ size) "snapshot file grew during verification"
  update bytes
  ensure (bytes.length = size) "snapshot file changed during verification"
  pure (.file m' nlink size bytes)

/-- What stands under a name, by what walks a directory further down. -/
def content (recur : Path → Meta → List (Name × Node) → Walk Node) (child : Path) :
    Node → Walk Node
  | .link uid target => do
    update [76]
    updateCounted target
    pure (.link uid target)
  | .special _ => fail "snapshot contains a special file"
  | .dir m entries => do
    ensure (may env 0o400#12 m.mode) denied
    update [68]
    recur child m entries
  | .file m nlink size bytes => file env m nlink size bytes

/-- One entry of a directory of this mode. -/
def visit (recur : Path → Meta → List (Name × Node) → Walk Node) (mode : Mode) (relative : Path)
    (name : Name) (node : Node) : Walk Node := do
  modify fun st => { st with entries := st.entries + 1 }
  let st ← get
  ensure (st.entries ≤ env.limits.entries) "snapshot entry count exceeds preparation bound"
  ensure (may env 0o100#12 mode) denied
  ensure (node.uid = env.euid) "snapshot entry owner changed"
  let child := relative ++ [name]
  updateCounted (pathBytes child)
  content env recur child node

def visitAll (f : Name → Node → Walk Node) (entries : List (Name × Node)) :
    List Name → Walk (List (Name × Node))
  | [] => pure []
  | name::ns => do
    match entries.lookup name with
    | none => fail "No such file or directory (os error 2)"
    | some node => do
      let node ← f name node
      let rest ← visitAll f entries ns
      pure ((name,node)::rest)

/-- `walk`, with the levels that nesting leaves. -/
def walk : ℕ → Path → Meta → List (Name × Node) → Walk Node
  | 0, _, _, _ => fail "snapshot nesting exceeds preparation bound"
  | n+1, relative, m, entries => do
    ensure (m.uid = env.euid) "snapshot directory owner changed"
    let ns ← names env relative m entries
    let entries ← visitAll (visit env (walk n) m.mode relative) entries ns
    let m' : Meta := if env.sealing then { m with mode := 0o500#12 } else m
    ensure (m'.mode = 0o500#12) "snapshot directory is not sealed"
    check env
    pure (.dir m' entries)

/-- `canix-roborev-preparation-snapshot-v1` and a zero byte. -/
def header : List UInt8 :=
  ("canix-roborev-preparation-snapshot-v1".toList.map fun c => UInt8.ofNat c.toNat) ++ [0]

/-- The digest of a tree, and the tree behind the walk. -/
def snapshot (sha256 : List UInt8 → String) (root : Node) : Except String (String × Node) := do
  env.opened
  match root with
  | .dir m entries => do
    let (node,st) ← walk env 129 [] m entries ⟨header,0,0,0⟩
    .ok (sha256 st.hashed,node)
  | _ => .error "Not a directory (os error 20)"

end

/-! ## What walks do -/

section
variable {α β : Type} {st st' : State}

theorem bind_ok {w : Walk α} {f : α → Walk β} {b : β} : (w >>= f) st = .ok (b,st') ↔
    ∃ a st₁, w st = .ok (a,st₁) ∧ f a st₁ = .ok (b,st') := by
  show Walk.bind w f st = _ ↔ _
  unfold Walk.bind
  cases w st with
  | error e => simp
  | ok r =>
    obtain ⟨a,st₁⟩ := r
    constructor
    · exact fun h => ⟨a,st₁,rfl,h⟩
    · intro h
      obtain ⟨a',st₁',heq,hf⟩ := h
      cases heq
      exact hf

@[simp] theorem pure_ok {a b : α} : (pure a : Walk α) st = .ok (b,st') ↔ a = b ∧ st = st' := by
  show (.ok (a,st) : Except String (α × State)) = _ ↔ _
  simp

@[simp] theorem fail_ok {message : String} {b : α} :
    ¬ (fail message : Walk α) st = .ok (b,st') := by
  intro h
  cases h

@[simp] theorem get_ok {s : State} : get st = .ok (s,st') ↔ s = st ∧ st = st' := by
  simp [get,eq_comm]

@[simp] theorem modify_ok {f : State → State} {u : Unit} :
    modify f st = .ok (u,st') ↔ st' = f st := by
  simp [modify,eq_comm]

@[simp] theorem ensure_ok {p : Prop} [Decidable p] {message : String} {u : Unit} :
    ensure p message st = .ok (u,st') ↔ p ∧ st = st' := by
  unfold ensure
  split
  · rename_i hp
    simp [hp]
  · rename_i hp
    simp [hp]

@[simp] theorem update_ok {bytes : List UInt8} {u : Unit} :
    update bytes st = .ok (u,st') ↔ st' = { st with hashed := st.hashed ++ bytes } := modify_ok

@[simp] theorem updateCounted_ok {bytes : List UInt8} {u : Unit} :
    updateCounted bytes st = .ok (u,st') ↔ bytes.length < 2^64 ∧
      st' = { st with hashed := st.hashed ++ counted 8 bytes } := by
  unfold updateCounted
  simp only [bind_ok,ensure_ok,update_ok]
  constructor
  · intro h
    obtain ⟨_,_,⟨hlength,rfl⟩,hst⟩ := h
    exact ⟨hlength,hst⟩
  · exact fun h => ⟨(),st,⟨h.1,rfl⟩,h.2⟩

end

section
variable {env : Env} {st st' : State}

def State.checked (st : State) (n : ℕ) : State := { st with checks := st.checks + n }

/-- The budget lets so many checks pass. -/
def Passes (env : Env) (st : State) (n : ℕ) : Prop :=
  ∀ i < n, env.budget (st.checks + i) = none

theorem passes_succ {n : ℕ} :
    Passes env st (n+1) ↔ env.budget st.checks = none ∧ Passes env (st.checked 1) n := by
  constructor
  · intro h
    refine ⟨h 0 (by omega),fun i hi => ?_⟩
    have hi' := h (i+1) (by omega)
    simpa [State.checked,Nat.add_assoc,Nat.add_comm 1] using hi'
  · intro h i hi
    cases i with
    | zero => exact h.1
    | succ i =>
      have hi' := h.2 i (by omega)
      simpa [State.checked,Nat.add_assoc,Nat.add_comm 1] using hi'

theorem checked_checked (n m : ℕ) : (st.checked n).checked m = st.checked (n + m) := by
  simp [State.checked,Nat.add_assoc]

@[simp] theorem check_ok {u : Unit} : check env st = .ok (u,st') ↔
    env.budget st.checks = none ∧ st' = st.checked 1 := by
  unfold check State.checked
  cases env.budget st.checks <;> simp [eq_comm]

theorem reads_ok {n : ℕ} {u : Unit} : reads env n st = .ok (u,st') ↔
    Passes env st n ∧ st' = st.checked n := by
  induction n generalizing st with
  | zero =>
    have hpasses : Passes env st 0 := fun i hi => absurd hi (Nat.not_lt_zero i)
    simp only [reads,pure_ok,hpasses,true_and]
    exact eq_comm
  | succ n ih =>
    simp only [reads,bind_ok,check_ok,ih,passes_succ]
    constructor
    · intro h
      obtain ⟨_,_,⟨hfirst,rfl⟩,hrest,rfl⟩ := h
      exact ⟨⟨hfirst,hrest⟩,by rw [checked_checked,Nat.add_comm]⟩
    · intro h
      exact ⟨(),_,⟨h.1.1,rfl⟩,h.1.2,by rw [h.2,checked_checked,Nat.add_comm]⟩

theorem listNames_ok {k : ℕ} {ns : List Name} {u : Unit} :
    listNames env k ns st = .ok (u,st') ↔ Passes env st ns.length ∧
      (ns ≠ [] → k + ns.length ≤ env.limits.entries) ∧ st' = st.checked ns.length := by
  induction ns generalizing st k with
  | nil =>
    have hpasses : Passes env st 0 := fun i hi => absurd hi (Nat.not_lt_zero i)
    simp only [listNames,pure_ok,List.length_nil,hpasses,true_and,ne_eq,not_true_eq_false,
      false_implies]
    exact eq_comm
  | cons name ns ih =>
    simp only [listNames,bind_ok,check_ok,ensure_ok,ih,List.length_cons,passes_succ]
    constructor
    · intro h
      obtain ⟨_,_,⟨hfirst,rfl⟩,_,_,⟨hlimit,rfl⟩,hrest,hlimits,rfl⟩ := h
      refine ⟨⟨hfirst,hrest⟩,fun _ => ?_,by rw [checked_checked,Nat.add_comm]⟩
      cases ns with
      | nil => exact hlimit
      | cons next ns =>
        have hall := hlimits (List.cons_ne_nil _ _)
        omega
    · intro h
      have hlimit := h.2.1 (List.cons_ne_nil _ _)
      refine ⟨(),_,⟨h.1.1,rfl⟩,(),_,⟨by omega,rfl⟩,h.1.2,fun _ => by omega,?_⟩
      rw [h.2.2,checked_checked,Nat.add_comm]

/-- The names of a directory in the order in which they are walked. -/
def entryNames (entries : List (Name × Node)) : List Name :=
  (entries.map Prod.fst).dedup.insertionSort nameLe

instance : Std.Total nameLe := ⟨fun a b => le_total (a.1.map UInt8.toNat) (b.1.map UInt8.toNat)⟩

instance : IsTrans Name nameLe := ⟨fun _ _ _ hab hbc => le_trans hab hbc⟩

theorem nameLe_antisymm {a b : Name} (h : nameLe a b) (h' : nameLe b a) : a = b :=
  Subtype.ext (List.map_injective_iff.mpr (fun _ _ => UInt8.toNat_inj.mp) (le_antisymm h h'))

/-- Whatever the order of a listing, it is sorted to the same. -/
theorem sort_listing {ns ns' : List Name} (h : ns.Perm ns') :
    ns.insertionSort nameLe = ns'.insertionSort nameLe :=
  List.Perm.eq_of_pairwise (fun _ _ _ _ => nameLe_antisymm)
    (List.pairwise_insertionSort nameLe ns) (List.pairwise_insertionSort nameLe ns')
    (((List.perm_insertionSort nameLe ns).trans h).trans (List.perm_insertionSort nameLe ns').symm)

theorem names_ok {relative : Path} {m : Meta} {entries : List (Name × Node)} {ns : List Name} :
    names env relative m entries st = .ok (ns,st') ↔ may env 0o400#12 m.mode ∧
      Passes env st (entryNames entries).length ∧
      (entryNames entries).length ≤ env.limits.entries ∧ ns = entryNames entries ∧
        st' = st.checked (entryNames entries).length := by
  have hperm := env.listed relative (entries.map Prod.fst).dedup
  have hsort := sort_listing hperm
  have hlength : (env.order relative (entries.map Prod.fst).dedup).length =
      (entryNames entries).length := by
    rw [entryNames,← hsort,List.length_insertionSort]
  simp only [names,bind_ok,ensure_ok,listNames_ok,pure_ok,hlength,Nat.zero_add,hsort]
  constructor
  · intro h
    obtain ⟨_,_,⟨hmay,rfl⟩,_,_,⟨hpasses,hlimit,rfl⟩,rfl,rfl⟩ := h
    refine ⟨hmay,hpasses,?_,rfl,rfl⟩
    by_cases hnil : env.order relative (entries.map Prod.fst).dedup = []
    · rw [← hlength,hnil]
      exact Nat.zero_le _
    · exact hlimit hnil
  · intro h
    obtain ⟨hmay,hpasses,hlimit,rfl,rfl⟩ := h
    exact ⟨(),_,⟨hmay,rfl⟩,(),_,⟨hpasses,fun _ => hlimit,rfl⟩,rfl,rfl⟩

/-! ## What the stream says of an entry -/

/-- The kind of an entry and what belongs to it: the permission to execute a file and its bytes, or
the target of a link. -/
inductive Item where
  | file (executable : Bool) (bytes : List UInt8)
  | link (target : List UInt8)
  | special
  | dir
  deriving DecidableEq

def executable (mode : Mode) : Bool := mode &&& 0o111#12 ≠ 0

def Node.item : Node → Item
  | .file m _ _ bytes => .file (executable m.mode) bytes
  | .link _ target => .link target
  | .special _ => .special
  | .dir _ _ => .dir

def fileMode (executable : Bool) : Mode := if executable then 0o500#12 else 0o400#12

theorem sealedMode_eq (mode : Mode) : sealedMode mode = fileMode (executable mode) := by
  simp [sealedMode,fileMode,executable]

def payload : Item → List UInt8
  | .file executable bytes => 70 :: (le 4 (fileMode executable).toNat ++ counted 8 bytes)
  | .link target => 76 :: counted 8 target
  | .special => []
  | .dir => [68]

/-- The bytes of one entry. -/
def record (e : Path × Item) : List UInt8 := counted 8 (pathBytes e.1) ++ payload e.2

/-- A file that is sealed already, or is sealed now. -/
def Settles (env : Env) (mode sealed : Mode) : Prop := env.sealing ∨ mode = sealed

theorem settled (m : Meta) (sealed : Mode) :
    (if env.sealing then { m with mode := sealed } else m : Meta).mode = sealed ↔
      Settles env m.mode sealed := by
  unfold Settles
  split <;> simp_all

theorem settled_eq {m : Meta} {sealed : Mode} (h : Settles env m.mode sealed) :
    (if env.sealing then { m with mode := sealed } else m : Meta) = ⟨m.uid,sealed⟩ := by
  split
  · rfl
  · rename_i hnot
    rw [← h.resolve_left (by simpa using hnot)]

/-- How many checks the reads of so many bytes take. -/
def readCount (n : ℕ) : ℕ := (n + 65535) / 65536 + 1

/-- The state behind an entry: what was hashed, counted and checked for it. -/
def State.behind (st : State) (hashed : List UInt8) (entries bytes checks : ℕ) : State :=
  ⟨st.hashed ++ hashed,st.entries + entries,st.bytes + bytes,st.checks + checks⟩

theorem file_ok {m : Meta} {nlink size : ℕ} {bytes : List UInt8} {node : Node} :
    file env m nlink size bytes st = .ok (node,st') ↔ may env 0o400#12 m.mode ∧ nlink = 1 ∧
      Settles env m.mode (sealedMode m.mode) ∧ st.bytes + size < 2^64 ∧
      st.bytes + size ≤ env.limits.snapshotBytes ∧ Passes env st (readCount bytes.length) ∧
      bytes.length = size ∧ node = .file ⟨m.uid,sealedMode m.mode⟩ nlink size bytes ∧
      st' = st.behind (payload (.file (executable m.mode) bytes)) 0 size
        (readCount bytes.length) := by
  have hpayload : bytes.length = size → ((((st.hashed ++ [70]) ++ le 4 (sealedMode m.mode).toNat) ++
      le 8 size) ++ bytes) = st.hashed ++ payload (.file (executable m.mode) bytes) := by
    intro hsize
    simp [payload,sealedMode_eq,counted,hsize]
  simp only [file,bind_ok,ensure_ok,get_ok,modify_ok,update_ok,reads_ok,pure_ok,settled]
  constructor
  · intro h
    obtain ⟨_,_,⟨hmay,rfl⟩,_,_,⟨hlink,rfl⟩,_,_,⟨hsettles,rfl⟩,_,_,⟨rfl,rfl⟩,_,_,⟨hroom,rfl⟩,_,_,rfl,
      _,_,⟨hlimit,rfl⟩,_,_,rfl,_,_,rfl,_,_,rfl,_,_,⟨hpasses,rfl⟩,_,_,⟨-,rfl⟩,_,_,rfl,_,_,
      ⟨hsize,rfl⟩,hnode,rfl⟩ := h
    refine ⟨hmay,hlink,hsettles,hroom,hlimit,hpasses,hsize,?_,?_⟩
    · rw [← hnode,settled_eq hsettles]
    · simp only [State.checked,State.behind,hpayload hsize]
      rfl
  · intro h
    obtain ⟨hmay,hlink,hsettles,hroom,hlimit,hpasses,hsize,hnode,hst⟩ := h
    refine ⟨(),_,⟨hmay,rfl⟩,(),_,⟨hlink,rfl⟩,(),_,⟨hsettles,rfl⟩,_,_,⟨rfl,rfl⟩,(),_,⟨hroom,rfl⟩,
      (),_,rfl,(),_,⟨hlimit,rfl⟩,(),_,rfl,(),_,rfl,(),_,rfl,(),_,⟨hpasses,rfl⟩,(),_,⟨hsize.le,rfl⟩,
      (),_,rfl,(),_,⟨hsize,rfl⟩,?_,?_⟩
    · rw [hnode,settled_eq hsettles]
    · rw [hst]
      simp only [State.checked,State.behind,hpayload hsize]
      rfl

section
variable {recur : Path → Meta → List (Name × Node) → Walk Node} {relative child : Path}
variable {mode : Mode} {name : Name} {node node' : Node}

theorem visit_ok : visit env recur mode relative name node st = .ok (node',st') ↔
    st.entries + 1 ≤ env.limits.entries ∧ may env 0o100#12 mode ∧ node.uid = env.euid ∧
      (pathBytes (relative ++ [name])).length < 2^64 ∧
      content env recur (relative ++ [name]) node
        (st.behind (counted 8 (pathBytes (relative ++ [name]))) 1 0 0) = .ok (node',st') := by
  simp only [visit,bind_ok,ensure_ok,get_ok,modify_ok,updateCounted_ok]
  constructor
  · intro h
    obtain ⟨_,_,rfl,_,_,⟨rfl,rfl⟩,_,_,⟨hlimit,rfl⟩,_,_,⟨hmay,rfl⟩,_,_,⟨huid,rfl⟩,_,_,
      ⟨hlength,rfl⟩,hcontent⟩ := h
    exact ⟨hlimit,hmay,huid,hlength,hcontent⟩
  · intro h
    obtain ⟨hlimit,hmay,huid,hlength,hcontent⟩ := h
    exact ⟨(),_,rfl,_,_,⟨rfl,rfl⟩,(),_,⟨hlimit,rfl⟩,(),_,⟨hmay,rfl⟩,(),_,⟨huid,rfl⟩,(),_,
      ⟨hlength,rfl⟩,hcontent⟩

theorem link_ok {uid : ℕ} {target : List UInt8} :
    content env recur child (.link uid target) st = .ok (node',st') ↔ target.length < 2^64 ∧
      node' = .link uid target ∧ st' = st.behind (payload (.link target)) 0 0 0 := by
  simp only [content,bind_ok,update_ok,updateCounted_ok,pure_ok]
  constructor
  · intro h
    obtain ⟨_,_,rfl,_,_,⟨hlength,rfl⟩,rfl,rfl⟩ := h
    exact ⟨hlength,rfl,by simp [State.behind,payload]⟩
  · intro h
    obtain ⟨hlength,rfl,rfl⟩ := h
    exact ⟨(),_,rfl,(),_,⟨hlength,rfl⟩,rfl,by simp [State.behind,payload]⟩

theorem special_ok {uid : ℕ} : ¬ content env recur child (.special uid) st = .ok (node',st') := by
  intro h
  exact fail_ok (show (fail "snapshot contains a special file" : Walk Node) st = _ from h)

theorem dir_ok {m : Meta} {entries : List (Name × Node)} :
    content env recur child (.dir m entries) st = .ok (node',st') ↔ may env 0o400#12 m.mode ∧
      recur child m entries (st.behind (payload .dir) 0 0 0) = .ok (node',st') := by
  simp only [content,bind_ok,ensure_ok,update_ok]
  constructor
  · intro h
    obtain ⟨_,_,⟨hmay,rfl⟩,_,_,rfl,hrecur⟩ := h
    exact ⟨hmay,hrecur⟩
  · intro h
    exact ⟨(),_,⟨h.1,rfl⟩,(),_,rfl,h.2⟩

/-- The entries of some names are visited in turn. -/
inductive Visited (f : Name → Node → Walk Node) (entries : List (Name × Node)) :
    List Name → State → List (Name × Node) → State → Prop
  | nil {st : State} : Visited f entries [] st [] st
  | cons {name : Name} {ns : List Name} {node node' : Node} {rest : List (Name × Node)}
      {st st₁ st' : State} : entries.lookup name = some node → f name node st = .ok (node',st₁) →
      Visited f entries ns st₁ rest st' →
      Visited f entries (name::ns) st ((name,node')::rest) st'

theorem visitAll_ok {f : Name → Node → Walk Node} {entries out : List (Name × Node)}
    {ns : List Name} :
    visitAll f entries ns st = .ok (out,st') ↔ Visited f entries ns st out st' := by
  constructor
  · intro h
    induction ns generalizing st out with
    | nil =>
      obtain ⟨rfl,rfl⟩ := pure_ok.mp h
      exact .nil
    | cons name ns ih =>
      unfold visitAll at h
      cases hnode : entries.lookup name with
      | none => simp [hnode] at h
      | some node =>
        rw [hnode] at h
        simp only [bind_ok,pure_ok] at h
        obtain ⟨node',st₁,hf,rest,st₂,hrest,rfl,rfl⟩ := h
        exact .cons hnode hf (ih hrest)
  · intro h
    induction h with
    | nil => exact pure_ok.mpr ⟨rfl,rfl⟩
    | cons hnode hf _ ih =>
      unfold visitAll
      simp only [hnode,bind_ok,pure_ok]
      exact ⟨_,_,hf,_,_,ih,rfl,rfl⟩

theorem walk_ok {n : ℕ} {m : Meta} {entries : List (Name × Node)} :
    walk env (n+1) relative m entries st = .ok (node',st') ↔ m.uid = env.euid ∧
      may env 0o400#12 m.mode ∧ Passes env st (entryNames entries).length ∧
      (entryNames entries).length ≤ env.limits.entries ∧ Settles env m.mode 0o500#12 ∧
      ∃ entries' st₁, Visited (visit env (walk env n) m.mode relative) entries (entryNames entries)
        (st.checked (entryNames entries).length) entries' st₁ ∧
        env.budget st₁.checks = none ∧ node' = .dir ⟨m.uid,0o500#12⟩ entries' ∧
        st' = st₁.checked 1 := by
  simp only [walk,bind_ok,ensure_ok,names_ok,visitAll_ok,check_ok,pure_ok,settled]
  constructor
  · intro h
    obtain ⟨_,_,⟨huid,rfl⟩,_,_,⟨hmay,hpasses,hlimit,rfl,rfl⟩,entries',st₁,hvisited,_,_,
      ⟨hsettles,rfl⟩,_,_,⟨hbudget,rfl⟩,hnode,rfl⟩ := h
    exact ⟨huid,hmay,hpasses,hlimit,hsettles,entries',_,hvisited,hbudget,
      by rw [← hnode,settled_eq hsettles],rfl⟩
  · intro h
    obtain ⟨huid,hmay,hpasses,hlimit,hsettles,entries',st₁,hvisited,hbudget,rfl,rfl⟩ := h
    exact ⟨(),_,⟨huid,rfl⟩,_,_,⟨hmay,hpasses,hlimit,rfl,rfl⟩,entries',st₁,hvisited,(),_,
      ⟨hsettles,rfl⟩,(),_,⟨hbudget,rfl⟩,by rw [settled_eq hsettles],rfl⟩

end

/-! ## Trees by their paths -/

def Node.entries : Node → List (Name × Node)
  | .dir _ entries => entries
  | _ => []

def Node.find : Node → Path → Option Node
  | node, [] => some node
  | node, name::p => (node.entries.lookup name).bind fun child => child.find p

/-- What a tree has at a path. -/
def Node.view (node : Node) (p : Path) : Option Item := (node.find p).map Node.item

/-- The entries below a directory in the order of the stream, so many levels deep. -/
def records : ℕ → Path → List (Name × Node) → List (Path × Item)
  | 0, _, _ => []
  | n+1, relative, entries => (entryNames entries).flatMap fun name =>
    (entries.lookup name).elim [] fun node =>
      (relative ++ [name],node.item) :: records n (relative ++ [name]) node.entries

theorem mem_entryNames {entries : List (Name × Node)} {name : Name} :
    name ∈ entryNames entries ↔ name ∈ entries.map Prod.fst := by
  rw [entryNames,List.mem_insertionSort,List.mem_dedup]

theorem lookup_isSome_iff {entries : List (Name × Node)} {name : Name} :
    (entries.lookup name).isSome ↔ name ∈ entries.map Prod.fst := by
  induction entries with
  | nil => simp
  | cons e entries ih =>
    obtain ⟨key,node⟩ := e
    rw [List.lookup_cons]
    by_cases h : name = key
    · simp [h]
    · rw [beq_eq_false_iff_ne.mpr h]
      simp [h,ih]

/-- The records are the entries of the tree, as deep as they go. -/
theorem mem_records {n : ℕ} {relative : Path} {entries : List (Name × Node)} {q : Path}
    {it : Item} : (q,it) ∈ records n relative entries ↔ ∃ name p node, p.length < n ∧
      q = relative ++ name::p ∧ entries.lookup name = some node ∧ node.view p = some it := by
  induction n generalizing relative entries with
  | zero => simp [records]
  | succ n ih =>
    simp only [records,List.mem_flatMap]
    constructor
    · intro h
      obtain ⟨name,-,hin⟩ := h
      cases hnode : entries.lookup name with
      | none =>
        rw [hnode] at hin
        cases hin
      | some node =>
        rw [hnode] at hin
        rcases List.mem_cons.mp hin with heq | hin
        · obtain ⟨rfl,rfl⟩ := Prod.mk.inj heq
          exact ⟨name,[],node,by simp,rfl,hnode,rfl⟩
        · obtain ⟨next,p,child,hp,rfl,hchild,hview⟩ := ih.mp hin
          refine ⟨name,next::p,node,by simpa using hp,by simp,hnode,?_⟩
          simpa [Node.view,Node.find,hchild] using hview
    · intro h
      obtain ⟨name,p,node,hp,rfl,hnode,hview⟩ := h
      have hname : name ∈ entryNames entries := by
        rw [mem_entryNames,← lookup_isSome_iff,hnode]
        rfl
      refine ⟨name,hname,?_⟩
      rw [hnode]
      cases p with
      | nil =>
        obtain rfl := Option.some.inj hview
        exact List.mem_cons_self
      | cons next p =>
        refine List.mem_cons_of_mem _ (ih.mpr ?_)
        cases hchild : node.entries.lookup next with
        | none => simp [Node.view,Node.find,hchild] at hview
        | some child =>
          refine ⟨next,p,child,by simpa using hp,by simp,hchild,?_⟩
          simpa [Node.view,Node.find,hchild] using hview

/-! ## The stream of a walk -/

def Item.Fits : Item → Prop
  | .file _ bytes => bytes.length < 2^64
  | .link target => target.length < 2^64
  | .special => False
  | .dir => True

/-- An entry whose lengths have room. -/
def Fits (e : Path × Item) : Prop := (pathBytes e.1).length < 2^64 ∧ e.2.Fits

/-- What a walk adds to the stream: the records of some entries. -/
def Streams (st : State) (es : List (Path × Item)) (st' : State) : Prop :=
  st'.hashed = st.hashed ++ es.flatMap record ∧ ∀ e ∈ es, Fits e

theorem Streams.append {st st₁ st' : State} {es fs : List (Path × Item)} (h : Streams st es st₁)
    (h' : Streams st₁ fs st') : Streams st (es ++ fs) st' := by
  refine ⟨?_,fun e he => (List.mem_append.mp he).elim (h.2 e) (h'.2 e)⟩
  rw [h'.1,h.1,List.flatMap_append,List.append_assoc]

theorem Visited.streams {f : Name → Node → Walk Node} {entries out : List (Name × Node)}
    {ns : List Name} (h : Visited f entries ns st out st') {es : Name → Node → List (Path × Item)}
    (hf : ∀ name node st node' st', entries.lookup name = some node →
      f name node st = .ok (node',st') → Streams st (es name node) st') :
    Streams st (ns.flatMap fun name => (entries.lookup name).elim [] (es name)) st' := by
  induction h with
  | nil => exact ⟨by simp,fun e he => (nomatch he)⟩
  | cons hnode hvisit _ ih =>
    rw [List.flatMap_cons]
    refine Streams.append ?_ ih
    rw [hnode]
    exact hf _ _ _ _ _ hnode hvisit

theorem streams_nil (st : State) : Streams st [] st := ⟨by simp,fun e he => (nomatch he)⟩

theorem streams_entry {child : Path} {it : Item} {es : List (Path × Item)} {size checks : ℕ}
    (hlength : (pathBytes child).length < 2^64) (hfits : it.Fits)
    (h : Streams ((st.behind (counted 8 (pathBytes child)) 1 0 0).behind (payload it) 0 size checks)
      es st') : Streams st ((child,it)::es) st' := by
  refine ⟨?_,fun e he => ?_⟩
  · rw [h.1]
    simp [State.behind,record]
  · rcases List.mem_cons.mp he with rfl | he
    · exact ⟨hlength,hfits⟩
    · exact h.2 e he

theorem records_nil (n : ℕ) (relative : Path) : records n relative [] = [] := by
  cases n <;> simp [records,entryNames]

theorem walk_streams {n : ℕ} {relative : Path} {m : Meta} {entries : List (Name × Node)}
    {node' : Node} (h : walk env n relative m entries st = .ok (node',st')) :
    Streams st (records n relative entries) st' := by
  induction n generalizing relative m entries node' st st' with
  | zero => exact absurd h fail_ok
  | succ n ih =>
    obtain ⟨-,-,-,-,-,entries',st₁,hvisited,-,-,rfl⟩ := walk_ok.mp h
    have hstream := @Visited.streams _ _ _ _ _ _ hvisited (fun name node =>
      (relative ++ [name],node.item) :: records n (relative ++ [name]) node.entries) ?_
    · exact hstream
    · intro name node st node' st' _ hvisit
      obtain ⟨-,-,-,hlength,hcontent⟩ := visit_ok.mp hvisit
      cases node with
      | link uid target =>
        obtain ⟨htarget,-,rfl⟩ := link_ok.mp hcontent
        have hnil : records n (relative ++ [name]) (Node.link uid target).entries = [] :=
          records_nil n _
        rw [hnil]
        exact streams_entry hlength htarget (streams_nil _)
      | special uid => exact absurd hcontent special_ok
      | dir m entries =>
        obtain ⟨-,hwalk⟩ := dir_ok.mp hcontent
        exact streams_entry hlength trivial (ih hwalk)
      | file m nlink size bytes =>
        obtain ⟨-,-,-,hroom,-,-,hsize,-,rfl⟩ := file_ok.mp hcontent
        have hnil : records n (relative ++ [name]) (Node.file m nlink size bytes).entries = [] :=
          records_nil n _
        rw [hnil]
        have hfits : (Item.file (executable m.mode) bytes).Fits := by
          show bytes.length < 2^64
          omega
        exact streams_entry hlength hfits (streams_nil _)

/-! ## Trees of one digest -/

theorem pathBytes_inj {p q : Path} (h : pathBytes p = pathBytes q) : p = q := by
  have hbytes {p : Path} (hp : p ≠ []) : (pathBytes p).splitOn 47 = p.map Subtype.val := by
    refine List.splitOn_intercalate 47 (fun l hl => ?_) fun hm => hp (List.map_eq_nil_iff.mp hm)
    obtain ⟨name,-,rfl⟩ := List.mem_map.mp hl
    exact name.2.2.1
  have hnil {p : Path} (hp : pathBytes p = []) : p = [] := by
    by_contra hne
    have hsplit := hbytes hne
    rw [hp] at hsplit
    obtain ⟨name,p,rfl⟩ := List.exists_cons_of_ne_nil hne
    rw [List.splitOn_nil] at hsplit
    obtain ⟨hname,-⟩ := List.cons.inj hsplit
    exact name.2.1 hname.symm
  by_cases hp : p = []
  · rw [hp] at h ⊢
    exact (hnil h.symm).symm
  · have hq : q ≠ [] := fun hq => hp (hnil (by rw [h,hq]; rfl))
    have hsplit := hbytes hp
    rw [h,hbytes hq] at hsplit
    exact (List.map_injective_iff.mpr Subtype.val_injective hsplit).symm

theorem fileMode_inj {x y : Bool} (h : (fileMode x).toNat = (fileMode y).toNat) : x = y := by
  cases x <;> cases y <;> first | rfl | (revert h; decide)

theorem payload_separates : Separates payload Item.Fits := by
  intro a b x y ha hb h
  cases a with
  | special => exact absurd ha id
  | dir =>
    cases b with
    | special => exact absurd hb id
    | dir => exact ⟨rfl,(List.cons.inj h).2⟩
    | link target => exact absurd (List.cons.inj h).1 (by decide)
    | file executable bytes => exact absurd (List.cons.inj h).1 (by decide)
  | link target =>
    cases b with
    | special => exact absurd hb id
    | dir => exact absurd (List.cons.inj h).1 (by decide)
    | link target' =>
      obtain ⟨rfl,hend⟩ := counted_separates 8 _ _ _ _ ha hb (List.cons.inj h).2
      exact ⟨rfl,hend⟩
    | file executable bytes => exact absurd (List.cons.inj h).1 (by decide)
  | file executable bytes =>
    cases b with
    | special => exact absurd hb id
    | dir => exact absurd (List.cons.inj h).1 (by decide)
    | link target => exact absurd (List.cons.inj h).1 (by decide)
    | file executable' bytes' =>
      have hrest : (le 4 (fileMode executable).toNat ++ counted 8 bytes) ++ x =
          (le 4 (fileMode executable').toNat ++ counted 8 bytes') ++ y := (List.cons.inj h).2
      rw [List.append_assoc,List.append_assoc] at hrest
      have hmode (x : Bool) : (fileMode x).toNat < 256 ^ 4 := by cases x <;> decide
      obtain ⟨hsame,hbytes⟩ := le_separates 4 _ _ _ _ (hmode _) (hmode _) hrest
      obtain ⟨rfl,hend⟩ := counted_separates 8 _ _ _ _ ha hb hbytes
      exact ⟨by rw [fileMode_inj hsame],hend⟩

theorem record_separates : Separates record Fits := by
  intro a b x y ha hb h
  unfold record at h
  rw [List.append_assoc,List.append_assoc] at h
  obtain ⟨hpath,hrest⟩ := counted_separates 8 _ _ _ _ ha.1 hb.1 h
  obtain ⟨hitem,hend⟩ := payload_separates _ _ _ _ ha.2 hb.2 hrest
  exact ⟨Prod.ext (pathBytes_inj hpath) hitem,hend⟩

theorem record_ne_nil (e : Path × Item) : record e ≠ [] := by
  intro h
  have hlength := congrArg List.length h
  simp [record,counted] at hlength

/-! ## What a walk makes of a tree -/

theorem Visited.lookup {f : Name → Node → Walk Node} {entries out : List (Name × Node)}
    {ns : List Name} (h : Visited f entries ns st out st') (name : Name) :
    (name ∉ ns ∧ out.lookup name = none) ∨ ∃ node node' s s', entries.lookup name = some node ∧
      out.lookup name = some node' ∧ f name node s = .ok (node',s') := by
  induction h with
  | nil => exact .inl ⟨by simp,rfl⟩
  | @cons key ns node node' rest st st₁ st' hnode hvisit _ ih =>
    rw [List.lookup_cons]
    by_cases hkey : name = key
    · subst hkey
      exact .inr ⟨node,node',st,st₁,hnode,by simp,hvisit⟩
    · rw [beq_eq_false_iff_ne.mpr hkey]
      rcases ih with ⟨hout,hnone⟩ | hsome
      · exact .inl ⟨by simp [hkey,hout],hnone⟩
      · exact .inr hsome

/-- Below a walked directory every name leads to what its visit returned. -/
theorem Visited.children {f : Name → Node → Walk Node} {entries out : List (Name × Node)}
    (h : Visited f entries (entryNames entries) st out st') (name : Name) :
    (entries.lookup name = none ∧ out.lookup name = none) ∨ ∃ node node' s s',
      entries.lookup name = some node ∧ out.lookup name = some node' ∧
        f name node s = .ok (node',s') := by
  rcases h.lookup name with ⟨hout,hnone⟩ | hsome
  · rw [mem_entryNames,← lookup_isSome_iff,Bool.not_eq_true,Option.isSome_eq_false_iff,
      Option.isNone_iff_eq_none] at hout
    exact .inl ⟨hout,hnone⟩
  · exact .inr hsome

/-- What a tree has at a path, with its modes. -/
inductive Attr where
  | file (mode : Mode) (bytes : List UInt8)
  | link (target : List UInt8)
  | special
  | dir (mode : Mode)
  deriving DecidableEq

def Node.attr : Node → Attr
  | .file m _ _ bytes => .file m.mode bytes
  | .link _ target => .link target
  | .special _ => .special
  | .dir m _ => .dir m.mode

def Node.attrs (node : Node) (p : Path) : Option Attr := (node.find p).map Node.attr

/-- The modes that sealing leaves. -/
def Item.sealed : Item → Attr
  | .file executable bytes => .file (fileMode executable) bytes
  | .link target => .link target
  | .special => .special
  | .dir => .dir 0o500#12

/-- A tree of the entries of another, all sealed. -/
def Sealed (node node' : Node) : Prop := ∀ p, node'.attrs p = (node.view p).map Item.sealed

theorem sealed_leaf {node node' : Node} (h : node.entries = []) (h' : node'.entries = [])
    (hattr : node'.attr = node.item.sealed) : Sealed node node' := by
  intro p
  cases p with
  | nil => simp [Node.attrs,Node.view,Node.find,hattr]
  | cons name p => simp [Node.attrs,Node.view,Node.find,h,h']

theorem leaf_depth {node : Node} (h : node.entries = []) {p : Path} (hp : node.find p ≠ none)
    {n : ℕ} : p.length ≤ n := by
  cases p with
  | nil => exact Nat.zero_le n
  | cons name p => simp [Node.find,h] at hp

theorem walk_sealed {n : ℕ} {relative : Path} {m : Meta} {entries : List (Name × Node)}
    {node' : Node} (h : walk env n relative m entries st = .ok (node',st')) :
    Sealed (.dir m entries) node' := by
  induction n generalizing relative m entries node' st st' with
  | zero => exact absurd h fail_ok
  | succ n ih =>
    obtain ⟨-,-,-,-,-,entries',st₁,hvisited,-,rfl,-⟩ := walk_ok.mp h
    intro p
    cases p with
    | nil => rfl
    | cons name p =>
      simp only [Node.attrs,Node.view,Node.find,Node.entries]
      rcases hvisited.children name with ⟨hnone,hnone'⟩ | ⟨node,node',s,s',hnode,hnode',hvisit⟩
      · rw [hnone,hnone']
        rfl
      · rw [hnode,hnode',Option.bind_some,Option.bind_some]
        obtain ⟨-,-,-,-,hcontent⟩ := visit_ok.mp hvisit
        have hsealed : Sealed node node' := by
          cases node with
          | link uid target =>
            obtain ⟨-,rfl,-⟩ := link_ok.mp hcontent
            exact sealed_leaf rfl rfl rfl
          | special uid => exact absurd hcontent special_ok
          | dir m entries => exact ih (dir_ok.mp hcontent).2
          | file m nlink size bytes =>
            obtain ⟨-,-,-,-,-,-,-,rfl,-⟩ := file_ok.mp hcontent
            exact sealed_leaf rfl rfl (by simp [Node.attr,Node.item,Item.sealed,sealedMode_eq])
        exact hsealed p

/-- A walk that does not seal meets a sealed tree. -/
theorem walk_unsealed (hseal : env.sealing = false) {n : ℕ} {relative : Path} {m : Meta}
    {entries : List (Name × Node)} {node' : Node}
    (h : walk env n relative m entries st = .ok (node',st')) :
    Sealed (.dir m entries) (.dir m entries) := by
  induction n generalizing relative m entries node' st st' with
  | zero => exact absurd h fail_ok
  | succ n ih =>
    obtain ⟨-,-,-,-,hsettles,entries',st₁,hvisited,-,rfl,-⟩ := walk_ok.mp h
    have hmode : m.mode = 0o500#12 := hsettles.resolve_left (by simp [hseal])
    intro p
    cases p with
    | nil => simp [Node.attrs,Node.view,Node.find,Node.attr,Node.item,Item.sealed,hmode]
    | cons name p =>
      simp only [Node.attrs,Node.view,Node.find,Node.entries]
      rcases hvisited.children name with ⟨hnone,-⟩ | ⟨node,node',s,s',hnode,-,hvisit⟩
      · rw [hnone]
        rfl
      · rw [hnode,Option.bind_some]
        obtain ⟨-,-,-,-,hcontent⟩ := visit_ok.mp hvisit
        have hsealed : Sealed node node := by
          cases node with
          | link uid target => exact sealed_leaf rfl rfl rfl
          | special uid => exact absurd hcontent special_ok
          | dir m entries => exact ih (dir_ok.mp hcontent).2
          | file m nlink size bytes =>
            obtain ⟨-,-,hfile,-⟩ := file_ok.mp hcontent
            have hmode := hfile.resolve_left (by simp [hseal])
            refine sealed_leaf rfl rfl ?_
            simp only [Node.attr,Node.item,Item.sealed]
            rw [← sealedMode_eq,← hmode]
        exact hsealed p

/-- A walk goes as deep as the tree. -/
theorem walk_depth {n : ℕ} {relative : Path} {m : Meta} {entries : List (Name × Node)}
    {node' : Node} (h : walk env n relative m entries st = .ok (node',st')) {p : Path}
    (hp : (Node.dir m entries).find p ≠ none) : p.length ≤ n := by
  induction n generalizing relative m entries node' st st' p with
  | zero => exact absurd h fail_ok
  | succ n ih =>
    obtain ⟨-,-,-,-,-,entries',st₁,hvisited,-,rfl,-⟩ := walk_ok.mp h
    cases p with
    | nil => exact Nat.zero_le _
    | cons name p =>
      simp only [Node.find,Node.entries] at hp
      rcases hvisited.children name with ⟨hnone,-⟩ | ⟨node,node',s,s',hnode,-,hvisit⟩
      · rw [hnone] at hp
        exact absurd rfl hp
      · rw [hnode,Option.bind_some] at hp
        obtain ⟨-,-,-,-,hcontent⟩ := visit_ok.mp hvisit
        have hlength : p.length ≤ n := by
          cases node with
          | link uid target => exact leaf_depth rfl hp
          | special uid => exact leaf_depth rfl hp
          | dir m entries => exact ih (dir_ok.mp hcontent).2 hp
          | file m nlink size bytes => exact leaf_depth rfl hp
        simpa using hlength

/-! ## The walk again -/

/-- Another walk by the same user within the same limits, that does not seal and has time. -/
structure Again (env env' : Env) : Prop where
  unsealing : env'.sealing = false
  user : env'.euid = env.euid
  limits : env'.limits = env.limits
  time : ∀ k, env'.budget k = none

/-- States that differ in their checks only. -/
structure Alike (st st' : State) : Prop where
  hashed : st'.hashed = st.hashed
  entries : st'.entries = st.entries
  bytes : st'.bytes = st.bytes

theorem Alike.behind {st st' : State} (h : Alike st st') (hashed : List UInt8)
    (entries bytes checks checks' : ℕ) :
    Alike (st.behind hashed entries bytes checks) (st'.behind hashed entries bytes checks') where
  hashed := by simp [State.behind,h.hashed]
  entries := by simp [State.behind,h.entries]
  bytes := by simp [State.behind,h.bytes]

theorem Alike.checked {st st' : State} (h : Alike st st') (n m : ℕ) :
    Alike (st.checked n) (st'.checked m) := ⟨h.hashed,h.entries,h.bytes⟩

theorem lookup_of_mem {entries : List (Name × Node)} (h : (entries.map Prod.fst).Nodup)
    {e : Name × Node} (he : e ∈ entries) : entries.lookup e.1 = some e.2 := by
  induction entries with
  | nil => cases he
  | cons d entries ih =>
    obtain ⟨hd,hrest⟩ := List.nodup_cons.mp h
    obtain ⟨key,node⟩ := d
    rw [List.lookup_cons]
    rcases List.mem_cons.mp he with rfl | he
    · simp
    · have hne : e.1 ≠ key := fun heq => hd (heq ▸ List.mem_map.mpr ⟨e,he,rfl⟩)
      rw [beq_eq_false_iff_ne.mpr hne]
      exact ih hrest he

theorem Visited.names {f : Name → Node → Walk Node} {entries out : List (Name × Node)}
    {ns : List Name} (h : Visited f entries ns st out st') : out.map Prod.fst = ns := by
  induction h with
  | nil => rfl
  | cons _ _ _ ih => rw [List.map_cons,ih]

theorem entryNames_nodup (entries : List (Name × Node)) : (entryNames entries).Nodup :=
  (List.perm_insertionSort nameLe _).nodup_iff.mpr (List.nodup_dedup _)

theorem entryNames_again {entries entries' : List (Name × Node)}
    (h : entries'.map Prod.fst = entryNames entries) :
    entryNames entries' = entryNames entries := by
  have hnodup := entryNames_nodup entries
  rw [entryNames,h,hnodup.dedup]
  exact (List.pairwise_insertionSort nameLe _).insertionSort_eq

section
variable {env' : Env}

theorem passes_again (hagain : Again env env') (n : ℕ) : Passes env' st n :=
  fun _ _ => hagain.time _

theorem may_again (env : Env) {bit mode : Mode} (h : mode &&& bit ≠ 0) : may env bit mode := .inr h

theorem Visited.again {f f' : Name → Node → Walk Node} {entries entries' out : List (Name × Node)}
    {ns : List Name} (h : Visited f entries ns st out st')
    (hf : ∀ name node s node' s' s₂, f name node s = .ok (node',s') → Alike s s₂ →
      ∃ s₂', f' name node' s₂ = .ok (node',s₂') ∧ Alike s' s₂')
    (hout : ∀ e ∈ out, entries'.lookup e.1 = some e.2) {st₂ : State} (hst : Alike st st₂) :
    ∃ st₂', Visited f' entries' ns st₂ out st₂' ∧ Alike st' st₂' := by
  induction h generalizing st₂ with
  | nil => exact ⟨st₂,.nil,hst⟩
  | @cons name ns node node' rest st st₁ st' _ hvisit _ ih =>
    obtain ⟨st₃,hvisit',hst'⟩ := hf _ _ _ _ _ _ hvisit hst
    obtain ⟨st₄,hrest,hst''⟩ := ih (fun e he => hout e (List.mem_cons_of_mem _ he)) hst'
    exact ⟨st₄,.cons (hout (name,node') List.mem_cons_self) hvisit' hrest,hst''⟩

theorem file_again (hagain : Again env env') {m : Meta} {nlink size : ℕ} {bytes : List UInt8}
    {node' : Node} (h : file env m nlink size bytes st = .ok (node',st')) {st₂ : State}
    (hst : Alike st st₂) : ∃ st₂',
      file env' ⟨m.uid,sealedMode m.mode⟩ nlink size bytes st₂ = .ok (node',st₂') ∧
        Alike st' st₂' := by
  obtain ⟨-,hlink,-,hroom,hlimit,-,hsize,rfl,rfl⟩ := file_ok.mp h
  have hexecutable : executable (sealedMode m.mode) = executable m.mode := by
    rw [sealedMode_eq]
    cases executable m.mode <;> rfl
  have hsealed : sealedMode (sealedMode m.mode) = sealedMode m.mode := by
    rw [sealedMode_eq,hexecutable,← sealedMode_eq]
  have hread : sealedMode m.mode &&& 0o400#12 ≠ 0 := by
    rw [sealedMode_eq]
    cases executable m.mode <;> decide
  refine ⟨_,file_ok.mpr ⟨may_again env' hread,hlink,.inr hsealed.symm,?_,?_,passes_again hagain _,
    hsize,?_,rfl⟩,?_⟩
  · rw [hst.bytes]
    exact hroom
  · rw [hst.bytes,hagain.limits]
    exact hlimit
  · rw [hsealed]
  · rw [hexecutable]
    exact hst.behind _ _ _ _ _

/-- An entry as it was returned is visited again to the same end, if a directory is walked so. -/
theorem visit_again (hagain : Again env env')
    {recur recur' : Path → Meta → List (Name × Node) → Walk Node}
    (hrecur : ∀ (relative : Path) (m : Meta) (entries : List (Name × Node)) (node' : Node)
      (s s' s₂ : State), recur relative m entries s = .ok (node',s') → Alike s s₂ →
        ∃ entries', node' = .dir ⟨m.uid,0o500#12⟩ entries' ∧ ∃ s₂',
          recur' relative ⟨m.uid,0o500#12⟩ entries' s₂ = .ok (node',s₂') ∧ Alike s' s₂')
    {mode : Mode} {relative : Path} {name : Name} {node node' : Node}
    (h : visit env recur mode relative name node st = .ok (node',st')) {st₂ : State}
    (hst : Alike st st₂) : ∃ st₂',
      visit env' recur' 0o500#12 relative name node' st₂ = .ok (node',st₂') ∧ Alike st' st₂' := by
  obtain ⟨hcount,-,huid,hlength,hcontent⟩ := visit_ok.mp h
  have hbehind := hst.behind (counted 8 (pathBytes (relative ++ [name]))) 1 0 0 0
  have hentry : node'.uid = node.uid ∧ ∃ st₂', content env' recur' (relative ++ [name]) node'
      (st₂.behind (counted 8 (pathBytes (relative ++ [name]))) 1 0 0) = .ok (node',st₂') ∧
        Alike st' st₂' := by
    cases node with
    | link uid target =>
      obtain ⟨htarget,rfl,rfl⟩ := link_ok.mp hcontent
      exact ⟨rfl,_,link_ok.mpr ⟨htarget,rfl,rfl⟩,hbehind.behind _ _ _ _ _⟩
    | special uid => exact absurd hcontent special_ok
    | dir m entries =>
      have hread : (0o500#12 : Mode) &&& 0o400#12 ≠ 0 := by decide
      obtain ⟨below,rfl,st₂',hwalk,hend⟩ := hrecur _ _ _ _ _ _ _ (dir_ok.mp hcontent).2
        (hbehind.behind _ _ _ _ 0)
      exact ⟨rfl,st₂',dir_ok.mpr ⟨may_again env' hread,hwalk⟩,hend⟩
    | file m nlink size bytes =>
      obtain ⟨st₂',hfile,hend⟩ := file_again hagain hcontent hbehind
      obtain ⟨-,-,-,-,-,-,-,rfl,-⟩ := file_ok.mp hcontent
      exact ⟨rfl,st₂',hfile,hend⟩
  obtain ⟨hsame,st₂',hcontent',hend⟩ := hentry
  have hsearch : (0o500#12 : Mode) &&& 0o100#12 ≠ 0 := by decide
  refine ⟨st₂',visit_ok.mpr ⟨?_,may_again env' hsearch,?_,hlength,hcontent'⟩,hend⟩
  · rw [hst.entries,hagain.limits]
    exact hcount
  · rw [hsame,hagain.user]
    exact huid

/-- What a walk returned is walked again to the same end. -/
theorem walk_again (hagain : Again env env') {n : ℕ} {relative : Path} {m : Meta}
    {entries : List (Name × Node)} {node' : Node}
    (h : walk env n relative m entries st = .ok (node',st')) {st₂ : State} (hst : Alike st st₂) :
    ∃ entries', node' = .dir ⟨m.uid,0o500#12⟩ entries' ∧ ∃ st₂',
      walk env' n relative ⟨m.uid,0o500#12⟩ entries' st₂ = .ok (node',st₂') ∧ Alike st' st₂' := by
  induction n generalizing relative m entries node' st st' st₂ with
  | zero => exact absurd h fail_ok
  | succ n ih =>
    obtain ⟨huid,-,-,hlimit,-,entries',st₁,hvisited,-,rfl,rfl⟩ := walk_ok.mp h
    have hnames := entryNames_again hvisited.names
    have hlookup : ∀ e ∈ entries', entries'.lookup e.1 = some e.2 := fun e he =>
      lookup_of_mem (hvisited.names ▸ entryNames_nodup entries) he
    have hstart := hst.checked (entryNames entries).length (entryNames entries').length
    have hrecur : ∀ name node s node' s' s₂,
        visit env (walk env n) m.mode relative name node s = .ok (node',s') → Alike s s₂ →
          ∃ s₂', visit env' (walk env' n) 0o500#12 relative name node' s₂ = .ok (node',s₂') ∧
            Alike s' s₂' := by
      intro name node s node' s' s₂ hvisit hs
      have hbelow : ∀ (relative : Path) (m : Meta) (entries : List (Name × Node)) (node' : Node)
          (s s' s₂ : State), walk env n relative m entries s = .ok (node',s') → Alike s s₂ →
            ∃ entries', node' = .dir ⟨m.uid,0o500#12⟩ entries' ∧ ∃ s₂',
              walk env' n relative ⟨m.uid,0o500#12⟩ entries' s₂ = .ok (node',s₂') ∧
                Alike s' s₂' := by
        intro relative m entries node' s s' s₂ hwalk hs
        exact ih hwalk hs
      exact visit_again hagain hbelow hvisit hs
    obtain ⟨st₃,hvisited',hend⟩ := hvisited.again hrecur hlookup hstart
    have hread : (0o500#12 : Mode) &&& 0o400#12 ≠ 0 := by decide
    have huid' : m.uid = env'.euid := huid.trans hagain.user.symm
    have hlimit' : (entryNames entries').length ≤ env'.limits.entries := by
      rw [hnames,hagain.limits]
      exact hlimit
    have hvisited'' : Visited (visit env' (walk env' n) 0o500#12 relative) entries'
        (entryNames entries') (st₂.checked (entryNames entries').length) entries' st₃ := by
      rw [hnames] at hvisited' ⊢
      exact hvisited'
    have hwalk : walk env' (n+1) relative ⟨m.uid,0o500#12⟩ entries' st₂ =
        .ok (.dir ⟨m.uid,0o500#12⟩ entries',st₃.checked 1) :=
      walk_ok.mpr ⟨huid',may_again env' hread,passes_again hagain _,hlimit',.inr rfl,entries',st₃,
        hvisited'',hagain.time _,rfl,rfl⟩
    exact ⟨entries',rfl,st₃.checked 1,hwalk,hend.checked 1 1⟩

end

end

/-! ## Digests of trees -/

theorem snapshot_ok {env : Env} {sha256 : List UInt8 → String} {root node : Node} {d : String} :
    snapshot env sha256 root = .ok (d,node) ↔ env.opened = .ok () ∧ ∃ m entries st,
      root = .dir m entries ∧ walk env 129 [] m entries ⟨header,0,0,0⟩ = .ok (node,st) ∧
        d = sha256 st.hashed := by
  unfold snapshot
  rw [bind_ok_iff]
  constructor
  · intro h
    obtain ⟨u,hopened,hroot⟩ := h
    cases root with
    | dir m entries =>
      obtain ⟨⟨node',st⟩,hwalk,hend⟩ := bind_ok_iff.mp hroot
      obtain ⟨rfl,rfl⟩ := Prod.mk.inj (Except.ok.inj hend)
      exact ⟨hopened,m,entries,st,rfl,hwalk,rfl⟩
    | _ => cases hroot
  · intro h
    obtain ⟨hopened,m,entries,st,rfl,hwalk,rfl⟩ := h
    exact ⟨(),hopened,bind_ok_iff.mpr ⟨(node,st),hwalk,rfl⟩⟩

/-- Below the root, the records of a walk say what stands at every path. -/
theorem view_records {env : Env} {m : Meta} {entries : List (Name × Node)} {st st' : State}
    {node : Node} (h : walk env 129 [] m entries st = .ok (node,st')) (name : Name) (p : Path)
    (it : Item) : (Node.dir m entries).view (name::p) = some it ↔
      (name::p,it) ∈ records 129 [] entries := by
  rw [mem_records]
  constructor
  · intro hview
    have hfind : (Node.dir m entries).find (name::p) ≠ none := by
      intro hnone
      rw [Node.view,hnone] at hview
      cases hview
    have hdepth := walk_depth h hfind
    cases hnode : entries.lookup name with
    | none => simp [Node.view,Node.find,Node.entries,hnode] at hview
    | some node =>
      rw [List.length_cons] at hdepth
      refine ⟨name,p,node,by omega,rfl,hnode,?_⟩
      simpa [Node.view,Node.find,Node.entries,hnode] using hview
  · intro h
    obtain ⟨name',p',node,-,heq,hnode,hview⟩ := h
    obtain ⟨rfl,rfl⟩ := List.cons.inj heq
    simpa [Node.view,Node.find,Node.entries,hnode] using hview

section
variable {sha256 : List UInt8 → String} {env env' : Env} {root root' node node' : Node} {d : String}

/-- Trees of one digest have the same at every path. -/
theorem same_view (hsha : Function.Injective sha256) (h : snapshot env sha256 root = .ok (d,node))
    (h' : snapshot env' sha256 root' = .ok (d,node')) (p : Path) : root.view p = root'.view p := by
  obtain ⟨-,m,entries,st,rfl,hwalk,rfl⟩ := snapshot_ok.mp h
  obtain ⟨-,m',entries',st',rfl,hwalk',hd⟩ := snapshot_ok.mp h'
  cases p with
  | nil => rfl
  | cons name p =>
    have hstream := walk_streams hwalk
    have hstream' := walk_streams hwalk'
    have hhashed := hsha hd
    rw [hstream.1,hstream'.1] at hhashed
    have hrecords := record_separates.flatMap_inj record_ne_nil hstream.2 hstream'.2
      (List.append_cancel_left hhashed)
    refine Option.ext fun it => ?_
    rw [view_records hwalk,view_records hwalk',hrecords]

theorem snapshot_sealed (h : snapshot env sha256 root = .ok (d,node)) : Sealed root node := by
  obtain ⟨-,m,entries,st,rfl,hwalk,-⟩ := snapshot_ok.mp h
  exact walk_sealed hwalk

/-- A tree that was sealed has its digest again. -/
theorem sealed_again (h : snapshot env sha256 root = .ok (d,node)) (hagain : Again env env')
    (hopened : env'.opened = .ok ()) : snapshot env' sha256 node = .ok (d,node) := by
  obtain ⟨-,m,entries,st,rfl,hwalk,rfl⟩ := snapshot_ok.mp h
  obtain ⟨entries',rfl,st',hwalk',hend⟩ := walk_again hagain hwalk ⟨rfl,rfl,rfl⟩
  exact snapshot_ok.mpr ⟨hopened,_,_,st',rfl,hwalk',by rw [hend.hashed]⟩

/-- A tree that has the digest of a sealed one is that tree, its modes included. -/
theorem changed_tree (hsha : Function.Injective sha256)
    (h : snapshot env sha256 root = .ok (d,node)) (hseal : env'.sealing = false) (h' : snapshot env' sha256 root' = .ok (d,node')) (p : Path) :
    root'.attrs p = node.attrs p := by
  have hview := same_view hsha h h' p
  obtain ⟨-,m,entries,st,rfl,hwalk,-⟩ := snapshot_ok.mp h'
  rw [walk_unsealed hseal hwalk p,snapshot_sealed h p,hview]

end

/-- The digest binds the whole tree: the same digest has the same paths, kinds, permissions to
execute, bytes and targets; a sealed tree has its digest again; and a tree with any of these or a
mode changed has not. -/
theorem digest_binds (sha256 : List UInt8 → String) (hsha : Function.Injective sha256) :
    (∀ env env' root root' d node node', snapshot env sha256 root = .ok (d,node) →
      snapshot env' sha256 root' = .ok (d,node') → ∀ p, root.view p = root'.view p) ∧
    (∀ env env' root d node, env.sealing → snapshot env sha256 root = .ok (d,node) →
      Again env env' → env'.opened = .ok () → snapshot env' sha256 node = .ok (d,node)) ∧
    (∀ env env' root d node root' d' node', env.sealing →
      snapshot env sha256 root = .ok (d,node) → env'.sealing = false →
        (∃ p, root'.attrs p ≠ node.attrs p) →
          snapshot env' sha256 root' = .ok (d',node') → d' ≠ d) := by
  refine ⟨fun env env' root root' d node node' h h' => same_view hsha h h',
    fun env env' root d node _ h hagain hopened => sealed_again h hagain hopened,?_⟩
  intro env env' root d node root' d' node' _ h hseal hchanged h' heq
  obtain ⟨p,hp⟩ := hchanged
  rw [heq] at h'
  exact hp (changed_tree hsha h hseal h' p)

/-- A small checkout, before it is sealed. -/
def letter (n : UInt8) (h : n ≠ 47 ∧ n ≠ 46) : Name :=
  ⟨[n],by simp,by simpa using Ne.symm h.1,by simpa using h.2,by simp⟩

def checkout (byte : UInt8) (root file : Mode) : Node :=
  .dir ⟨1000,root⟩ [(letter 98 (by decide),.link 1000 [97]),
    (letter 97 (by decide),.file ⟨1000,file⟩ 1 1 [byte])]

def streamOf (byte : UInt8) : List UInt8 :=
  header ++ (le 8 1 ++ ([97,70] ++ (le 4 0o500 ++ (le 8 1 ++ (byte :: (le 8 1 ++ ([98,76] ++
    (le 8 1 ++ [97]))))))))

def preparing (sealing : Bool) : Env where
  euid := 1000
  limits := ⟨50000,512 * 1024 * 1024⟩
  sealing := sealing
  opened := .ok ()
  budget := fun _ => none
  order := fun _ ns => ns
  listed := fun _ _ => .refl _

def sealedCheckout (byte : UInt8) : Node :=
  .dir ⟨1000,0o500#12⟩ [(letter 97 (by decide),.file ⟨1000,0o500#12⟩ 1 1 [byte]),
    (letter 98 (by decide),.link 1000 [97])]

/-- The hash of the two streams; others stand for their own. -/
def checkoutHash (bytes : List UInt8) : String :=
  if bytes = streamOf 120 then "7d32e8be26bfcfac64cf335540dd2099e3aab9be94931ebf23cace040635ee9b"
  else if bytes = streamOf 121 then
    "2f19b87e486b14a0ca35a0cf34057c728871eae045ac372059a45024f98e0cbd"
  else String.ofList ('x' :: bytes.map fun b => Char.ofNat b.toNat)

theorem byteText_inj {a b : List UInt8}
    (h : a.map (fun b => Char.ofNat b.toNat) = b.map fun b => Char.ofNat b.toNat) : a = b := by
  refine List.map_injective_iff.mpr (fun x y hxy => ?_) h
  have hvalid (z : UInt8) : (Char.ofNat z.toNat).toNat = z.toNat := by
    have hlt := z.toNat_lt
    have hchar : z.toNat.isValidChar := .inl (by omega)
    rw [Char.ofNat,dif_pos hchar]
    rfl
  rw [← UInt8.toNat_inj,← hvalid x,← hvalid y,hxy]

theorem checkoutHash_injective : Function.Injective checkoutHash := by
  have hmark {s : String} (hs : s.toList.head? ≠ some 'x') (bytes : List UInt8) :
      s ≠ String.ofList ('x' :: bytes.map fun b => Char.ofNat b.toNat) := by
    intro heq
    rw [heq,String.toList_ofList] at hs
    exact hs rfl
  intro a b h
  unfold checkoutHash at h
  split_ifs at h with ha hb hb ha' hb hb hb hb
  · rw [ha,hb]
  · exact absurd h (by decide)
  · exact absurd h (hmark (by decide) b)
  · exact absurd h (by decide)
  · rw [ha',hb]
  · exact absurd h (hmark (by decide) b)
  · exact absurd h.symm (hmark (by decide) a)
  · exact absurd h.symm (hmark (by decide) a)
  · exact byteText_inj (List.cons.inj (String.ofList_injective h)).2

/-- The checkout is sealed, found again, and not found when its byte was changed. -/
theorem digest_binds_checkout :
    snapshot (preparing false) checkoutHash (sealedCheckout 120) =
      .ok ("7d32e8be26bfcfac64cf335540dd2099e3aab9be94931ebf23cace040635ee9b",sealedCheckout 120) ∧
    "2f19b87e486b14a0ca35a0cf34057c728871eae045ac372059a45024f98e0cbd" ≠
      "7d32e8be26bfcfac64cf335540dd2099e3aab9be94931ebf23cace040635ee9b" := by
  have hbinds := digest_binds checkoutHash checkoutHash_injective
  have hsealed : snapshot (preparing true) checkoutHash (checkout 120 0o755#12 0o755#12) =
      .ok ("7d32e8be26bfcfac64cf335540dd2099e3aab9be94931ebf23cace040635ee9b",sealedCheckout 120) :=
    rfl
  have hchanged : snapshot (preparing false) checkoutHash (sealedCheckout 121) =
      .ok ("2f19b87e486b14a0ca35a0cf34057c728871eae045ac372059a45024f98e0cbd",sealedCheckout 121) :=
    rfl
  have hdiffers : (sealedCheckout 121).attrs [letter 97 (by decide)] ≠
      (sealedCheckout 120).attrs [letter 97 (by decide)] := by decide
  exact ⟨hbinds.2.1 _ _ _ _ _ rfl hsealed ⟨rfl,rfl,rfl,fun _ => rfl⟩ rfl,
    hbinds.2.2 _ _ _ _ _ _ _ _ rfl hsealed rfl ⟨_,hdiffers⟩ hchanged⟩

end Preparation
end CanixToolbelt
