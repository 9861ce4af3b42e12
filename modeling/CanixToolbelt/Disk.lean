import CanixToolbelt.Fallible
import CanixToolbelt.LinkTree

/-! A disk with symbolic links. Paths are followed from a working directory, entries are created
where nothing is, and what has been found stays where it is while entries are added. -/
namespace CanixToolbelt
namespace Disk
open FileTree (Path components render)
open LinkTree (Node Tree look parts dot absolute)

inductive Error
  | notFound
  | notDirectory
  | isDirectory
  | exists
  | loop
  | invalid (message : String)
  deriving DecidableEq, Repr

def invalid {α : Type} (message : String) : Except Error α := .error (.invalid message)

/-- A refusal that has not been made. -/
theorem unless_ok {α : Type} {p : Prop} [Decidable p] {message : String} {r : Except Error α} {a : α} :
    (if p then invalid message else r) = .ok a ↔ ¬ p ∧ r = .ok a := by
  by_cases hp : p <;> simp [hp,invalid]

/-! ## Paths -/

/-- Names are followed from a directory; where a link is, `follow` goes on with its text. -/
def walk (t : Tree) (follow : Path → List String → Except Error Path) :
    Path → List String → Except Error Path
  | d, [] => .ok d
  | d, c::cs =>
    if dot c then walk t follow d cs
    else if c = ".." then walk t follow d.dropLast cs
    else match look t (d ++ [c]) with
    | none => .error .notFound
    | some .directory => walk t follow (d ++ [c]) cs
    | some (.file _) => if cs = [] then .ok (d ++ [c]) else .error .notDirectory
    | some (.link text) => follow (if absolute text then [] else d) (parts text ++ cs)

section
variable {t : Tree} {follow : Path → List String → Except Error Path} {d : Path} {c : String}
  {cs : List String}

theorem walk_dot (h : dot c = true) : walk t follow d (c::cs) = walk t follow d cs := by
  rw [walk,if_pos h]

theorem walk_up : walk t follow d ("..":: cs) = walk t follow d.dropLast cs := by
  rw [walk,if_neg (by decide),if_pos rfl]

theorem walk_name (hdot : dot c = false) (hup : c ≠ "..") : walk t follow d (c::cs) =
    match look t (d ++ [c]) with
    | none => .error .notFound
    | some .directory => walk t follow (d ++ [c]) cs
    | some (.file _) => if cs = [] then .ok (d ++ [c]) else .error .notDirectory
    | some (.link text) => follow (if absolute text then [] else d) (parts text ++ cs) := by
  rw [walk,if_neg (by simp [hdot]),if_neg hup]

end

/-- Names are followed through at most so many links. -/
def resolve (t : Tree) : ℕ → Path → List String → Except Error Path
  | 0 => walk t fun _ _ => .error .loop
  | n+1 => walk t (resolve t n)

/-- `MAXSYMLINKS`. -/
def maxLinks : ℕ := 40

def origin (cwd : Path) (p : String) : Path := if absolute p then [] else cwd

/-- Where a path leads, all links followed. -/
def find (t : Tree) (cwd : Path) (p : String) : Except Error Path :=
  if p = "" then .error .notFound else resolve t maxLinks (origin cwd p) (parts p)

def contents (t : Tree) (q : Path) : Except Error (List UInt8) :=
  match look t q with
  | some (.file bytes) => .ok bytes
  | some .directory => .error .isDirectory
  | some (.link _) | none => .error .notFound

def read (t : Tree) (cwd : Path) (p : String) : Except Error (List UInt8) := do
  let q ← find t cwd p
  contents t q

def isDirectory (t : Tree) (cwd : Path) (p : String) : Bool :=
  match find t cwd p with
  | .ok q => look t q = some .directory
  | .error _ => false

/-- `Path::join`. -/
def join (p q : String) : String :=
  if absolute q then q
  else if p = "" ∨ p.toList.getLast? = some '/' then p ++ q
  else p ++ "/" ++ q

/-! ## New entries -/

/-- The place of a new entry, which has to be free. -/
def slot (t : Tree) (start : Path) (names : List String) : Except Error Path :=
  match names.getLast? with
  | none => .error .exists
  | some name => do
    let d ← resolve t maxLinks start names.dropLast
    if look t d ≠ some .directory then .error .notDirectory
    else if dot name ∨ name = ".." ∨ look t (d ++ [name]) ≠ none then .error .exists
    else .ok (d ++ [name])

/-- The names of a path without the slashes at its end. -/
def trimmed (p : String) : List String := (parts p).reverse.dropWhile (· = "") |>.reverse

/-- What is done on a disk; a failure may leave a part of it. -/
abbrev Act := ExceptT Error (StateM Tree)

namespace Act

variable {α β σ : Type}

def run (m : Act α) (t : Tree) : Except Error α × Tree := ExceptT.run m t

/-- A question to the disk as it is. -/
def ask (query : Tree → Except Error α) : Act α := ExceptT.mk fun t => (query t,t)

/-- A change that is made whole or not at all. -/
def change (f : Tree → Except Error Tree) : Act Unit := ExceptT.mk fun t =>
  match f t with
  | .ok u => (.ok (),u)
  | .error e => (.error e,t)

def check (r : Except Error α) : Act α := ask fun _ => r

/-- What becomes of a failure is decided by the disk that it leaves. -/
def recover (m : Act α) (f : Error → Act α) : Act α := ExceptT.mk fun t =>
  match m.run t with
  | (.ok a,u) => (.ok a,u)
  | (.error e,u) => (f e).run u

end Act

def createDir (cwd : Path) (p : String) : Act Unit := .change fun t =>
  if p = "" then .error .notFound
  else do
    let q ← slot t (origin cwd p) (trimmed p)
    .ok (t.insert q .directory)

/-- `create_new`, with the bytes that are written. -/
def createFile (cwd : Path) (p : String) (bytes : List UInt8) : Act Unit := .change fun t =>
  if p = "" then .error .notFound
  else do
    let q ← slot t (origin cwd p) (parts p)
    .ok (t.insert q (.file bytes))

/-- Unless it is a directory by now, that it could not be made is a failure. -/
def unlessDirectory (cwd : Path) (p : String) (e : Error) : Act Unit :=
  .ask fun t => if isDirectory t cwd p then .ok () else .error e

/-- `create_dir_all`, for the components of a path from the last to the first. -/
def createDirAll (cwd : Path) : List String → Act Unit
  | [] => pure ()
  | c::cs =>
    let p := render (c::cs).reverse
    (createDir cwd p).recover fun e =>
      if e = .notFound then
        if c = "/" then .check (invalid "failed to create whole tree")
        else do
          createDirAll cwd cs
          (createDir cwd p).recover (unlessDirectory cwd p)
      else unlessDirectory cwd p e

/-! ## What an act does -/

namespace Act

variable {α β : Type}

theorem run_bind (m : Act α) (f : α → Act β) (t : Tree) :
    (m >>= f).run t = match m.run t with
      | (.ok a,u) => (f a).run u
      | (.error e,u) => (.error e,u) := by
  unfold run ExceptT.run
  simp only [bind,ExceptT.bind,ExceptT.mk,StateT.bind,ExceptT.bindCont]
  rcases m t with ⟨r,u⟩
  cases r <;> rfl

theorem bind_ok {m : Act α} {f : α → Act β} {t u : Tree} {b : β} :
    (m >>= f).run t = (.ok b,u) ↔ ∃ a v, m.run t = (.ok a,v) ∧ (f a).run v = (.ok b,u) := by
  rw [run_bind]
  rcases m.run t with ⟨r,v⟩
  cases r with
  | ok a =>
    constructor
    · intro h
      exact ⟨a,v,rfl,h⟩
    · rintro ⟨a',v',heq,h⟩
      obtain ⟨hr,rfl⟩ := Prod.mk.inj heq
      obtain rfl := Except.ok.inj hr
      exact h
  | error e =>
    constructor
    · intro h
      cases (Prod.mk.inj h).1
    · rintro ⟨a',v',heq,-⟩
      cases (Prod.mk.inj heq).1

@[simp] theorem run_pure (a : α) (t : Tree) : (pure a : Act α).run t = (.ok a,t) := rfl

@[simp] theorem run_ask (query : Tree → Except Error α) (t : Tree) :
    (ask query).run t = (query t,t) := rfl

theorem run_ok {m : Act α} {t : Tree} (h : (m.run t).1.toOption.isSome) :
    ∃ a, m.run t = (.ok a,(m.run t).2) := by
  generalize m.run t = x at h ⊢
  obtain ⟨r,u⟩ := x
  cases r with
  | ok a => exact ⟨a,rfl⟩
  | error e => cases h

theorem pure_ok {a b : α} {t u : Tree} : (pure a : Act α).run t = (.ok b,u) ↔ a = b ∧ t = u := by
  simp

theorem ask_ok {query : Tree → Except Error α} {t u : Tree} {a : α} :
    (ask query).run t = (.ok a,u) ↔ query t = .ok a ∧ t = u := by
  simp

theorem change_ok {f : Tree → Except Error Tree} {t u : Tree} {x : Unit} :
    (change f).run t = (.ok x,u) ↔ f t = .ok u := by
  have hrun : (change f).run t = match f t with
      | .ok u => (.ok (),u)
      | .error e => (.error e,t) := rfl
  rw [hrun]
  cases f t <;> simp

end Act

/-! ## What is found stays -/

/-- Entries are added, none is changed. -/
def Grows (t u : Tree) : Prop := ∀ p n, look t p = some n → look u p = some n

theorem Grows.refl (t : Tree) : Grows t t := fun _ _ h => h

theorem Grows.trans {t u v : Tree} (h : Grows t u) (h' : Grows u v) : Grows t v :=
  fun p n hp => h' p n (h p n hp)

theorem Grows.insert {t : Tree} {p : Path} (hp : p ≠ []) (h : look t p = none) (n : Node) :
    Grows t (t.insert p n) := by
  intro q m hq
  rw [LinkTree.look_insert hp,if_neg]
  · exact hq
  · rintro rfl
    rw [h] at hq
    cases hq

theorem Grows.walk {t u : Tree} (h : Grows t u) {follow follow' : Path → List String → Except Error Path}
    (hf : ∀ d cs q, follow d cs = .ok q → follow' d cs = .ok q) {d q : Path} {cs : List String}
    (hw : walk t follow d cs = .ok q) : walk u follow' d cs = .ok q := by
  induction cs generalizing d with
  | nil => exact hw
  | cons c cs ih =>
    by_cases hdot : dot c = true
    · rw [walk_dot hdot] at hw ⊢
      exact ih hw
    rw [Bool.not_eq_true] at hdot
    by_cases hup : c = ".."
    · subst hup
      rw [walk_up] at hw ⊢
      exact ih hw
    rw [walk_name hdot hup] at hw ⊢
    cases hl : look t (d ++ [c]) with
    | none =>
      rw [hl] at hw
      cases hw
    | some n =>
      rw [hl] at hw
      rw [h _ _ hl]
      cases n with
      | directory => exact ih hw
      | file bytes => exact hw
      | link text => exact hf _ _ _ hw

theorem Grows.resolve {t u : Tree} (h : Grows t u) {n : ℕ} {d q : Path} {cs : List String}
    (hr : resolve t n d cs = .ok q) : resolve u n d cs = .ok q := by
  induction n generalizing d q cs with
  | zero => exact h.walk (fun _ _ _ hf => hf) hr
  | succ n ih => exact h.walk (fun _ _ _ hf => ih hf) hr

theorem Grows.find {t u : Tree} (h : Grows t u) {cwd q : Path} {p : String}
    (hf : find t cwd p = .ok q) : find u cwd p = .ok q := by
  unfold Disk.find at hf ⊢
  split_ifs at hf ⊢
  exact h.resolve hf

theorem contents_ok {t : Tree} {q : Path} {bytes : List UInt8} :
    contents t q = .ok bytes ↔ look t q = some (.file bytes) := by
  unfold contents
  split <;> simp_all

theorem Grows.contents {t u : Tree} (h : Grows t u) {q : Path} {bytes : List UInt8}
    (hc : contents t q = .ok bytes) : contents u q = .ok bytes :=
  contents_ok.mpr (h _ _ (contents_ok.mp hc))

theorem read_ok {t : Tree} {cwd : Path} {p : String} {bytes : List UInt8} :
    read t cwd p = .ok bytes ↔ ∃ q, find t cwd p = .ok q ∧ look t q = some (.file bytes) := by
  unfold read
  rw [Fallible.bind_ok_iff]
  simp only [contents_ok]

theorem Grows.read {t u : Tree} (h : Grows t u) {cwd : Path} {p : String} {bytes : List UInt8}
    (hr : read t cwd p = .ok bytes) : read u cwd p = .ok bytes := by
  obtain ⟨q,hq,hl⟩ := read_ok.mp hr
  exact read_ok.mpr ⟨q,h.find hq,h _ _ hl⟩

/-! ## What is created is found -/

theorem slot_ok {t : Tree} {start q : Path} {names : List String} (h : slot t start names = .ok q) :
    ∃ d name, names = names.dropLast ++ [name] ∧ resolve t maxLinks start names.dropLast = .ok d ∧
      look t d = some .directory ∧ dot name = false ∧ name ≠ ".." ∧ look t q = none ∧
      q = d ++ [name] := by
  unfold slot at h
  split at h
  · cases h
  · rename_i name hname
    obtain ⟨d,hd,h⟩ := Fallible.bind_ok h
    split_ifs at h with hdir hbad
    simp only [not_or,not_not,Bool.not_eq_true] at hdir hbad
    obtain rfl := Except.ok.inj h
    obtain ⟨init,hinit⟩ := List.getLast?_eq_some_iff.mp hname
    exact ⟨d,name,by rw [hinit,List.dropLast_concat],hd,hdir,hbad.1,hbad.2.1,hbad.2.2,rfl⟩

/-- A path that leads to a directory leads on to a name in it that is no link. -/
theorem resolve_snoc {t : Tree} {n : ℕ} {d q : Path} {cs : List String} {c : String} {bytes : List UInt8}
    (hr : resolve t n d cs = .ok q) (hq : look t q = some .directory) (hdot : dot c = false)
    (hup : c ≠ "..") (hl : look t (q ++ [c]) = some (.file bytes)) :
    resolve t n d (cs ++ [c]) = .ok (q ++ [c]) := by
  have hwalk : ∀ (follow : Path → List String → Except Error Path),
      (∀ d cs, follow d cs = .ok q → follow d (cs ++ [c]) = .ok (q ++ [c])) →
      ∀ d cs, walk t follow d cs = .ok q → walk t follow d (cs ++ [c]) = .ok (q ++ [c]) := by
    intro follow hf d cs hw
    induction cs generalizing d with
    | nil =>
      obtain rfl := Except.ok.inj hw
      simp [walk,hdot,hup,hl]
    | cons b cs ih =>
      rw [List.cons_append]
      by_cases hb : dot b = true
      · rw [walk_dot hb] at hw ⊢
        exact ih _ hw
      rw [Bool.not_eq_true] at hb
      by_cases hbup : b = ".."
      · subst hbup
        rw [walk_up] at hw ⊢
        exact ih _ hw
      rw [walk_name hb hbup] at hw ⊢
      cases hlb : look t (d ++ [b]) with
      | none =>
        rw [hlb] at hw
        cases hw
      | some n =>
        rw [hlb] at hw
        cases n with
        | directory => exact ih _ hw
        | file bytes =>
          simp only [] at hw
          split_ifs at hw
          obtain rfl := Except.ok.inj hw
          rw [hlb] at hq
          cases hq
        | link text =>
          have h := hf _ _ hw
          rwa [List.append_assoc] at h
  induction n generalizing d cs with
  | zero => exact hwalk _ (fun _ _ h => by cases h) d cs hr
  | succ n ih => exact hwalk _ (fun _ _ h => ih h) d cs hr

theorem createFile_ok {cwd : Path} {p : String} {bytes : List UInt8} {t u : Tree} {x : Unit}
    (h : (createFile cwd p bytes).run t = (.ok x,u)) : Grows t u ∧ read u cwd p = .ok bytes := by
  have h := Act.change_ok.mp h
  split_ifs at h with hne
  obtain ⟨q,hq,h⟩ := Fallible.bind_ok h
  obtain rfl := Except.ok.inj h
  obtain ⟨d,name,hnames,hr,hdir,hdot,hup,hfree,hqd⟩ := slot_ok hq
  subst hqd
  have hgrows := Grows.insert (by simp) hfree (.file bytes)
  have hself : look (t.insert (d ++ [name]) (.file bytes)) (d ++ [name]) = some (.file bytes) := by
    rw [LinkTree.look_insert (by simp),if_pos rfl]
  refine ⟨hgrows,read_ok.mpr ⟨d ++ [name],?_,hself⟩⟩
  unfold find
  rw [if_neg hne,hnames]
  exact resolve_snoc (hgrows.resolve hr) (hgrows _ _ hdir) hdot hup hself

/-! ## Acts that only add -/

namespace Act

variable {α β σ : Type}

def Adds (m : Act α) : Prop := ∀ t, Grows t (m.run t).2

theorem adds_pure (a : α) : Adds (pure a : Act α) := fun t => .refl t

theorem adds_ask (query : Tree → Except Error α) : Adds (ask query) := fun t => .refl t

theorem adds_bind {m : Act α} {f : α → Act β} (hm : Adds m) (hf : ∀ a, Adds (f a)) :
    Adds (m >>= f) := by
  intro t
  rw [run_bind]
  have h := hm t
  rcases hr : m.run t with ⟨r,u⟩
  rw [hr] at h
  cases r with
  | ok a => exact h.trans (hf a u)
  | error e => exact h

theorem adds_change {f : Tree → Except Error Tree} (h : ∀ t u, f t = .ok u → Grows t u) :
    Adds (change f) := by
  intro t
  have hrun : (change f).run t = match f t with
      | .ok u => (.ok (),u)
      | .error e => (.error e,t) := rfl
  rw [hrun]
  cases hf : f t with
  | ok u => exact h t u hf
  | error e => exact .refl t

theorem adds_recover {m : Act α} {f : Error → Act α} (hm : Adds m) (hf : ∀ e, Adds (f e)) :
    Adds (m.recover f) := by
  intro t
  have hrun : (m.recover f).run t = match m.run t with
      | (.ok a,u) => (.ok a,u)
      | (.error e,u) => (f e).run u := rfl
  rw [hrun]
  have h := hm t
  rcases hr : m.run t with ⟨r,u⟩
  rw [hr] at h
  cases r with
  | ok a => exact h
  | error e => exact h.trans (hf e u)

theorem adds_foldlM {f : σ → α → Act σ} (hf : ∀ s a, Adds (f s a)) (as : List α) (s : σ) :
    Adds (as.foldlM f s) := by
  induction as generalizing s with
  | nil => exact adds_pure s
  | cons a as ih =>
    rw [List.foldlM_cons]
    exact adds_bind (hf s a) ih

theorem ok_grows {m : Act α} (hm : Adds m) {t u : Tree} {a : α} (h : m.run t = (.ok a,u)) :
    Grows t u := by
  have hgrows := hm t
  rwa [h] at hgrows

end Act

theorem slot_grows {t : Tree} {start : Path} {names : List String} {n : Node} {u : Tree}
    (h : (do
      let q ← slot t start names
      .ok (t.insert q n)) = .ok u) : Grows t u := by
  obtain ⟨q,hq,h⟩ := Fallible.bind_ok h
  obtain rfl := Except.ok.inj h
  obtain ⟨d,name,-,-,-,-,-,hfree,rfl⟩ := slot_ok hq
  exact .insert (by simp) hfree n

theorem adds_createDir (cwd : Path) (p : String) : (createDir cwd p).Adds := by
  refine Act.adds_change fun t u h => ?_
  split_ifs at h
  exact slot_grows h

theorem adds_createFile (cwd : Path) (p : String) (bytes : List UInt8) :
    (createFile cwd p bytes).Adds := by
  refine Act.adds_change fun t u h => ?_
  split_ifs at h
  exact slot_grows h

theorem adds_createDirAll (cwd : Path) (cs : List String) : (createDirAll cwd cs).Adds := by
  induction cs with
  | nil => exact Act.adds_pure ()
  | cons c cs ih =>
    have hmake := adds_createDir cwd (render (c::cs).reverse)
    unfold createDirAll
    refine Act.adds_recover hmake fun e => ?_
    split_ifs
    · exact Act.adds_ask _
    · exact Act.adds_bind ih fun _ => Act.adds_recover hmake fun e => Act.adds_ask _
    · exact Act.adds_ask _

/-! ## Answers that stay -/

section
variable {α β : Type}

/-- An answer that has been got is got again once entries have been added. -/
def Stable (query : Tree → Except Error α) : Prop :=
  ∀ t u a, Grows t u → query t = .ok a → query u = .ok a

theorem stable_const (r : Except Error α) : Stable fun _ => r := fun _ _ _ _ h => h

theorem stable_bind {query : Tree → Except Error α} {f : Tree → α → Except Error β}
    (hq : Stable query) (hf : ∀ a, Stable fun t => f t a) : Stable fun t => query t >>= f t := by
  intro t u b hgrows h
  obtain ⟨a,ha,hb⟩ := Fallible.bind_ok h
  exact Fallible.bind_ok_iff.mpr ⟨a,hq t u a hgrows ha,hf a t u b hgrows hb⟩

theorem stable_ite {p : Prop} [Decidable p] {f g : Tree → Except Error α} (hf : Stable f)
    (hg : Stable g) : Stable fun t => if p then f t else g t := by
  by_cases hp : p
  · simpa only [if_pos hp] using hf
  · simpa only [if_neg hp] using hg

theorem stable_forM {f : Tree → α → Except Error Unit} {as : List α}
    (hf : ∀ a ∈ as, Stable fun t => f t a) : Stable fun t => as.forM (f t) := by
  intro t u x hgrows h
  rw [Fallible.forM_ok_iff] at h ⊢
  exact fun a ha => hf a ha t u () hgrows (h a ha)

theorem stable_resolve (n : ℕ) (d : Path) (cs : List String) : Stable fun t => resolve t n d cs :=
  fun _ _ _ hgrows h => hgrows.resolve h

theorem stable_find (cwd : Path) (p : String) : Stable fun t => find t cwd p :=
  fun _ _ _ hgrows h => hgrows.find h

theorem stable_contents (q : Path) : Stable fun t => contents t q :=
  fun _ _ _ hgrows h => hgrows.contents h

theorem stable_read (cwd : Path) (p : String) : Stable fun t => read t cwd p :=
  fun _ _ _ hgrows h => hgrows.read h

end

/-! ## Joined paths -/

/-- A path behind a directory that does not end with a slash. -/
theorem join_named {p w q : String} (hne : w ≠ "") (hw : '/' ∉ w.toList) (hq : absolute q = false) :
    join (p ++ w) q = p ++ w ++ "/" ++ q := by
  have hlast : (p ++ w).toList.getLast? ≠ some '/' := by
    rw [String.toList_append,List.getLast?_append_of_ne_nil _ (by simpa using hne)]
    exact fun h => hw (List.mem_of_getLast? h)
  have hempty : p ++ w ≠ "" := by
    intro h
    have hlength := congrArg String.toList h
    rw [String.toList_append,String.toList_empty] at hlength
    exact hne (String.toList_eq_nil_iff.mp (List.append_eq_nil_iff.mp hlength).2)
  rw [join,if_neg (by simp [hq]),if_neg (not_or.mpr ⟨hempty,hlast⟩)]

/-- What stands before a relative path that is joined to a directory. -/
def before (p : String) : String :=
  if p = "" ∨ p.toList.getLast? = some '/' then p else p ++ "/"

theorem join_relative {p q : String} (hq : absolute q = false) : join p q = before p ++ q := by
  unfold join before
  rw [if_neg (by simp [hq])]
  split_ifs <;> rfl

end Disk
end CanixToolbelt
