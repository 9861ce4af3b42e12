import Mathlib.Data.List.Infix
import Mathlib.Data.String.Basic
import Std.Data.ExtTreeMap
import Std.Data.ExtTreeSet
import CanixToolbelt.Effect

/-! File trees below one root, and the requests by which programs look at them and
change them.  A path is the list of its components, and a directory is opened without
following links, so a request about a path meets exactly the entry at that path. -/
namespace CanixToolbelt
namespace FileTree
open Effect

/-! ## Paths -/

abbrev Path := List String

/-- `Path::components`: repeated slashes and inner dots do not count. -/
def components (s : String) : Path :=
  match (s.toList.splitOn '/').map String.ofList with
  | [] | [""] => []
  | ""::parts => "/" :: parts.filter fun c => c ≠ "" && c ≠ "."
  | first::parts => first :: parts.filter fun c => c ≠ "" && c ≠ "."

/-- A plain name, as opposed to a root, `.` or `..`. -/
def normal (c : String) : Bool := c ∉ ["/",".",".."]

/-- The proper ancestors of a path, the nearest first. -/
def properAncestors (p : Path) : List Path := p.inits.reverse.tail

theorem mem_properAncestors {p q : Path} : q ∈ properAncestors p ↔ q <+: p ∧ q ≠ p := by
  rcases List.eq_nil_or_concat p with rfl | ⟨p,c,rfl⟩
  · simp [properAncestors]
  · have h : properAncestors (p ++ [c]) = p.inits.reverse := by
      simp [properAncestors,List.inits_append]
    rw [List.concat_eq_append,h]
    simp only [List.mem_reverse,List.mem_inits]
    constructor
    · intro hq
      refine ⟨hq.trans (List.prefix_append p [c]),?_⟩
      rintro rfl
      have hl := hq.length_le
      simp only [List.length_append,List.length_singleton] at hl
      omega
    · rintro ⟨hq,hne⟩
      exact (List.prefix_concat_iff.1 hq).resolve_left hne

/-! ## Names -/

/-- The name of a path. -/
def render (p : Path) : String := String.ofList (['/'].intercalate (p.map String.toList))

/-- A component as paths are made of, apart from roots and parents. -/
def Plain (c : String) : Prop := c ≠ "" ∧ c ≠ "." ∧ '/' ∉ c.toList

/-- A name that spells its path as the exchange does. -/
def Canonical (name : String) : Prop := render (components name) = name

/-- A rendered path has its components; a dot may only stand first. -/
theorem components_render_of {p : Path} (h : ∀ c ∈ p, c ≠ "" ∧ '/' ∉ c.toList)
    (ht : "." ∉ p.tail) : components (render p) = p := by
  cases p with
  | nil => rfl
  | cons c cs =>
    have hsplit : ((render (c::cs)).toList.splitOn '/').map String.ofList = c::cs := by
      rw [render,String.toList_ofList,List.splitOn_intercalate]
      · simp [Function.comp_def]
      · intro l hl
        obtain ⟨c',hc',rfl⟩ := List.mem_map.1 hl
        exact (h c' hc').2
      · simp
    have hfilter : (cs.filter fun c => c ≠ "" && c ≠ ".") = cs := by
      apply List.filter_eq_self.2
      intro c' hc'
      have hdot : c' ≠ "." := by
        rintro rfl
        exact ht hc'
      simp [(h c' (List.mem_cons_of_mem _ hc')).1,hdot]
    have hne := (h c (by simp)).1
    rw [components,hsplit]
    split
    · rename_i he
      cases he
    · rename_i he
      exact absurd (List.cons.inj he).1 hne
    · rename_i he
      exact absurd (List.cons.inj he).1 hne
    · rename_i he
      cases he
      rw [hfilter]

theorem components_render {p : Path} (h : ∀ c ∈ p, Plain c) : components (render p) = p := by
  apply components_render_of
  · intro c hc
    exact ⟨(h c hc).1,(h c hc).2.2⟩
  · intro hdot
    exact (h "." (List.mem_of_mem_tail hdot)).2.1 rfl

theorem canonical_render {p : Path} (h : ∀ c ∈ p, Plain c) : Canonical (render p) := by
  rw [Canonical,components_render h]

theorem mem_splitOnP {α : Type} {sep : α → Bool} {xs part : List α} (h : part ∈ xs.splitOnP sep) :
    ∀ x ∈ part, sep x = false := by
  induction xs generalizing part with
  | nil =>
    obtain rfl : part = [] := by simpa using h
    simp
  | cons x xs ih =>
    rw [List.splitOnP_cons_eq_if_modifyHead] at h
    obtain ⟨first,parts,hs⟩ := List.exists_cons_of_ne_nil (List.splitOnP_ne_nil sep xs)
    rw [hs] at h ih
    split at h
    · rcases List.mem_cons.1 h with rfl | hmem
      · simp
      · exact ih hmem
    · rename_i hx
      rcases List.mem_cons.1 h with rfl | hmem
      · intro y hy
        rcases List.mem_cons.1 hy with rfl | hy
        · simpa using hx
        · exact ih (by simp) y hy
      · exact ih (List.mem_cons_of_mem _ hmem)

theorem notMem_part {s part : String} (h : part ∈ (s.toList.splitOn '/').map String.ofList) :
    '/' ∉ part.toList := by
  obtain ⟨cs,hcs,rfl⟩ := List.mem_map.1 h
  rw [String.toList_ofList]
  intro hmem
  simpa using mem_splitOnP hcs '/' hmem

/-- A path has its parts as components, but for a root or a leading dot. -/
theorem components_cases (s : String) : components s = [] ∨
    (∃ parts, components s = "/"::parts ∧ ∀ c ∈ parts, Plain c) ∨
    ∃ first parts, components s = first::parts ∧ (∀ c ∈ parts, Plain c) ∧ first ≠ "" ∧
      '/' ∉ first.toList := by
  have hparts : ∀ parts : List String, (∀ part ∈ parts, '/' ∉ part.toList) →
      ∀ c ∈ parts.filter fun c => c ≠ "" && c ≠ ".", Plain c := by
    intro parts hs c hc
    obtain ⟨hmem,hp⟩ := List.mem_filter.1 hc
    have hp' : c ≠ "" ∧ c ≠ "." := by simpa using hp
    exact ⟨hp'.1,hp'.2,hs c hmem⟩
  unfold components
  split
  · exact .inl rfl
  · exact .inl rfl
  · rename_i parts _ hs
    refine .inr (.inl ⟨_,rfl,hparts parts fun part hpart => ?_⟩)
    exact notMem_part (by rw [hs]; exact List.mem_cons_of_mem _ hpart)
  · rename_i first parts _ hne hs
    refine .inr (.inr ⟨first,_,rfl,hparts parts fun part hpart => ?_,?_,?_⟩)
    · exact notMem_part (by rw [hs]; exact List.mem_cons_of_mem _ hpart)
    · rintro rfl
      exact hne rfl
    · exact notMem_part (by rw [hs]; simp)

/-- The components of a relative path are plain. -/
theorem plain_components {s : String} (h : (components s).all normal) :
    ∀ c ∈ components s, Plain c := by
  have hn : ∀ c ∈ components s, c ≠ "/" ∧ c ≠ "." ∧ c ≠ ".." := by
    intro c hc
    simpa [normal] using List.all_eq_true.1 h c hc
  rcases components_cases s with he | ⟨parts,he,-⟩ | ⟨first,parts,he,hp,hne,hslash⟩
  · simp [he]
  · exact absurd rfl (hn "/" (by simp [he])).1
  · rw [he] at hn ⊢
    intro c hc
    rcases List.mem_cons.1 hc with rfl | hmem
    · exact ⟨hne,(hn c (by simp)).2.1,hslash⟩
    · exact hp c hmem

/-- Below a plain path all components are plain. -/
theorem plain_below {s : String} {root : Path} (hne : root ≠ []) (hroot : ∀ c ∈ root, Plain c)
    (h : root <+: components s) : ∀ c ∈ components s, Plain c := by
  obtain ⟨r,rs,rfl⟩ := List.exists_cons_of_ne_nil hne
  rcases components_cases s with he | ⟨parts,he,-⟩ | ⟨first,parts,he,hp,-,-⟩
  · simp [he]
  · rw [he] at h
    have hr : r = "/" := (List.cons_prefix_cons.1 h).1
    subst hr
    exact absurd (by decide) (hroot "/" (by simp)).2.2
  · rw [he] at h ⊢
    obtain ⟨rfl,-⟩ := List.cons_prefix_cons.1 h
    intro c hc
    rcases List.mem_cons.1 hc with rfl | hmem
    · exact hroot c (by simp)
    · exact hp c hmem

theorem intercalate_append {α : Type} (sep : List α) {xs ys : List (List α)} (hx : xs ≠ [])
    (hy : ys ≠ []) :
    sep.intercalate (xs ++ ys) = sep.intercalate xs ++ (sep ++ sep.intercalate ys) := by
  induction xs with
  | nil => exact absurd rfl hx
  | cons x xs ih =>
    obtain ⟨y,ys,rfl⟩ := List.exists_cons_of_ne_nil hy
    cases xs with
    | nil => simp [List.intercalate_cons_cons]
    | cons x' xs =>
      have h := ih (by simp)
      simp only [List.cons_append,List.intercalate_cons_cons] at h ⊢
      simp [h]

theorem lt_append_cons (xs : List Char) (y : Char) (ys : List Char) : xs < xs ++ y::ys := by
  induction xs with
  | nil => exact List.nil_lt_cons y ys
  | cons x xs ih => exact List.cons_lt_cons_iff.2 (.inr ⟨rfl,ih⟩)

/-- An ancestor's name comes before the names below it. -/
theorem render_lt {p q : Path} (hp : p ≠ []) (h : p ∈ properAncestors q) : render p < render q := by
  obtain ⟨⟨r,rfl⟩,hne⟩ := mem_properAncestors.1 h
  have hr : r ≠ [] := by
    rintro rfl
    simp at hne
  rw [String.lt_iff_toList_lt,render,render,String.toList_ofList,String.toList_ofList,
    List.map_append,intercalate_append _ (by simpa using hp) (by simpa using hr)]
  exact lt_append_cons _ _ _

theorem canonical_lt {m n : String} (hm : Canonical m) (hn : Canonical n)
    (hne : components m ≠ []) (h : components m ∈ properAncestors (components n)) : m < n := by
  have hlt := render_lt hne h
  rwa [hm,hn] at hlt

/-! ## The conflict cursor -/

/-! ## Trees -/

/-- What a path may hold; `special` stands for devices and the like. -/
inductive Entry
  | directory
  | file (bytes : List UInt8)
  | link
  | special
  deriving DecidableEq, Repr

abbrev Tree := Std.ExtTreeMap Path Entry

/-- The entry at a path; the root is a directory. -/
def look (t : Tree) (p : Path) : Option Entry := if p = [] then some .directory else t[p]?

@[simp] theorem look_nil (t : Tree) : look t [] = some .directory := rfl

theorem look_insert {t : Tree} {p : Path} (hp : p ≠ []) (e : Entry) (q : Path) :
    look (t.insert p e) q = if q = p then some e else look t q := by
  by_cases hq : q = p
  · subst hq
    simp [look,hp]
  · by_cases hn : q = []
    · simp [look,hn,Ne.symm hp]
    · simp [look,hn,hq,Std.ExtTreeMap.getElem?_insert,Ne.symm hq]

theorem look_erase {t : Tree} {p : Path} (hp : p ≠ []) (q : Path) :
    look (t.erase p) q = if q = p then none else look t q := by
  by_cases hq : q = p
  · subst hq
    simp [look,hp]
  · by_cases hn : q = []
    · simp [look,hn,Ne.symm hp]
    · simp [look,hn,hq,Std.ExtTreeMap.getElem?_erase,Ne.symm hq]

/-- The name of an entry directly below a directory. -/
def childName (p q : Path) : Option String :=
  match q.getLast? with
  | some c => if q.dropLast = p then some c else none
  | none => none

/-- The names in a directory. -/
def children (t : Tree) (p : Path) : List String := t.keys.filterMap (childName p)

/-! ## Requests -/

inductive Kind
  | directory
  | file (size : ℕ)
  | link
  | special
  deriving DecidableEq, Repr

def Entry.kind : Entry → Kind
  | .directory => .directory
  | .file bytes => .file bytes.length
  | .link => .link
  | .special => .special

/-- What opening a path for reading finds. -/
inductive Content
  | missing
  | link
  | irregular
  | bytes (bytes : List UInt8)
  deriving DecidableEq, Repr

/-- `blocked` is an ancestor that is not a directory to go through. -/
inductive Error
  | blocked
  | io
  | invalid (message : String)
  deriving DecidableEq, Repr

/-- `write` stages the bytes beside the path and renames them over it. -/
inductive Req
  | openDir (p : Path)
  | stat (p : Path)
  | list (p : Path)
  | read (p : Path)
  | mkdir (p : Path)
  | sync (p : Path)
  | write (p : Path) (bytes : List UInt8)
  | unlink (p : Path)
  | rmdir (p : Path)
  deriving DecidableEq

/-- Opening tells whether the directory is there, removing whether it was empty. -/
def Rep : Req → Type
  | .openDir _ | .rmdir _ => Bool
  | .stat _ => Option Kind
  | .list _ => List String
  | .read _ => Content
  | _ => Unit

abbrev Io := Script Req Rep Unit Error

def openDir (p : Path) : Io Bool := Script.ask (Req.openDir p)
def stat (p : Path) : Io (Option Kind) := Script.ask (Req.stat p)
def list (p : Path) : Io (List String) := Script.ask (Req.list p)
def read (p : Path) : Io Content := Script.ask (Req.read p)
def mkdir (p : Path) : Io Unit := Script.ask (Req.mkdir p)
def sync (p : Path) : Io Unit := Script.ask (Req.sync p)
def write (p : Path) (bytes : List UInt8) : Io Unit := Script.ask (Req.write p bytes)
def unlink (p : Path) : Io Unit := Script.ask (Req.unlink p)
def rmdir (p : Path) : Io Bool := Script.ask (Req.rmdir p)

def fail {α : Type} (message : String) : Io α := throw (.invalid message)

def checked {α : Type} (r : Except Error α) : Io α := ExceptT.mk (pure r)

@[simp] theorem checked_ok {α : Type} (a : α) : checked (.ok a) = pure a := rfl

/-! ## Their answers -/

/-- The answers a tree gives, and the tree they leave. -/
inductive Answer (t : Tree) : (q : Req) → Rep q → Tree → Prop
  | opened {p : Path} (h : look t p = some .directory) : Answer t (.openDir p) true t
  | absent {p : Path} (h : look t p = none) : Answer t (.openDir p) false t
  | stat {p : Path} : Answer t (.stat p) ((look t p).map Entry.kind) t
  | list {p : Path} {names : List String} (h : look t p = some .directory)
      (hn : names.Perm (children t p)) : Answer t (.list p) names t
  | bytes {p : Path} {bytes : List UInt8} (h : look t p = some (.file bytes)) :
      Answer t (.read p) (.bytes bytes) t
  | missing {p : Path} (h : look t p = none) : Answer t (.read p) .missing t
  | irregular {p : Path} (h : look t p = some .directory ∨ look t p = some .special) :
      Answer t (.read p) .irregular t
  | link {p : Path} (h : look t p = some .link) : Answer t (.read p) .link t
  | made {p : Path} (h : look t p = none) : Answer t (.mkdir p) () (t.insert p .directory)
  | present {p : Path} (h : look t p ≠ none) : Answer t (.mkdir p) () t
  | sync {p : Path} : Answer t (.sync p) () t
  | written {p : Path} {bytes : List UInt8} (h : look t p ≠ some .directory) :
      Answer t (.write p bytes) () (t.insert p (.file bytes))
  | unlinked {p : Path} (h : look t p ≠ none) (hd : look t p ≠ some .directory) :
      Answer t (.unlink p) () (t.erase p)
  | removed {p : Path} (hp : p ≠ []) (h : look t p = some .directory)
      (he : children t p = []) : Answer t (.rmdir p) true (t.erase p)
  | occupied {p : Path} (h : look t p = some .directory) (he : children t p ≠ []) :
      Answer t (.rmdir p) false t

/-- The errors a tree gives by itself. -/
inductive Refusal (t : Tree) : Req → Error → Prop
  | openDir {p : Path} (h : look t p ≠ none) (hd : look t p ≠ some .directory) :
      Refusal t (.openDir p) .blocked
  | list {p : Path} (h : look t p ≠ some .directory) : Refusal t (.list p) .io
  | write {p : Path} {bytes : List UInt8} (h : look t p = some .directory) :
      Refusal t (.write p bytes) .io
  | unlink {p : Path} (h : look t p = none ∨ look t p = some .directory) :
      Refusal t (.unlink p) .io
  | rmdir {p : Path} (h : p = [] ∨ look t p ≠ some .directory) : Refusal t (.rmdir p) .io

/-- One tree under one program; with `faults`, any request may fail and change nothing. -/
def disk (faults : Bool) : World Req (fun q => Except Error (Rep q)) Tree where
  step := fun q t r t' => match r with
    | .ok a => Answer t q a t'
    | .error e => t' = t ∧ (faults ∨ Refusal t q e)

/-- The answers of a disk that never fails by itself. -/
def serve : (q : Req) → Tree → Except Error (Rep q) × Tree
  | .openDir p, t => match look t p with
    | some .directory => (.ok true,t)
    | none => (.ok false,t)
    | some _ => (.error .blocked,t)
  | .stat p, t => (.ok ((look t p).map Entry.kind),t)
  | .list p, t =>
    if look t p = some .directory then (.ok (children t p),t) else (.error .io,t)
  | .read p, t => match look t p with
    | some (.file bytes) => (.ok (Content.bytes bytes),t)
    | none => (.ok Content.missing,t)
    | some .directory => (.ok Content.irregular,t)
    | some .special => (.ok Content.irregular,t)
    | some .link => (.ok Content.link,t)
  | .mkdir p, t =>
    if look t p = none then (.ok (),t.insert p .directory) else (.ok (),t)
  | .sync _, t => (.ok (),t)
  | .write p bytes, t =>
    if look t p = some .directory then (.error .io,t) else (.ok (),t.insert p (.file bytes))
  | .unlink p, t =>
    if look t p = none ∨ look t p = some .directory then (.error .io,t) else (.ok (),t.erase p)
  | .rmdir p, t =>
    if p = [] ∨ look t p ≠ some .directory then (.error .io,t)
    else if children t p = [] then (.ok true,t.erase p)
    else (.ok false,t)

theorem serve_step (faults : Bool) (q : Req) (t : Tree) :
    (disk faults).step q t (serve q t).1 (serve q t).2 := by
  cases q with
  | openDir p =>
    simp only [serve]
    split
    · exact Answer.opened ‹_›
    · exact Answer.absent ‹_›
    · rename_i e hne h
      refine ⟨rfl,.inr (.openDir (by simp [h]) ?_)⟩
      rw [h]
      exact fun he => hne (Option.some.inj he)
  | stat p => exact Answer.stat
  | list p =>
    simp only [serve]
    split
    · exact Answer.list ‹_› (.refl _)
    · exact ⟨rfl,.inr (.list ‹_›)⟩
  | read p =>
    simp only [serve]
    split
    · exact Answer.bytes ‹_›
    · exact Answer.missing ‹_›
    · exact Answer.irregular (.inl ‹_›)
    · exact Answer.irregular (.inr ‹_›)
    · exact Answer.link ‹_›
  | mkdir p =>
    simp only [serve]
    split
    · exact Answer.made ‹_›
    · exact Answer.present ‹_›
  | sync p => exact Answer.sync
  | write p bytes =>
    simp only [serve]
    split
    · exact ⟨rfl,.inr (.write ‹_›)⟩
    · exact Answer.written ‹_›
  | unlink p =>
    simp only [serve]
    split
    · exact ⟨rfl,.inr (.unlink ‹_›)⟩
    · rename_i h
      simp only [not_or] at h
      exact Answer.unlinked h.1 h.2
  | rmdir p =>
    simp only [serve]
    split
    · exact ⟨rfl,.inr (.rmdir ‹_›)⟩
    · rename_i h
      simp only [not_or,not_not] at h
      split
      · exact Answer.removed h.1 h.2 ‹_›
      · exact Answer.occupied h.2 ‹_›

/-- The requests that change nothing. -/
def Req.reads : Req → Bool
  | .mkdir _ | .write _ _ | .unlink _ | .rmdir _ => false
  | _ => true

theorem disk_reads {faults : Bool} {q : Req} {t t' : Tree} {r : Except Error (Rep q)}
    (h : (disk faults).step q t r t') (hq : q.reads) : t' = t := by
  cases r with
  | error e => exact h.1
  | ok a =>
    have ha : Answer t q a t' := h
    cases ha <;> first | rfl | simp [Req.reads] at hq

/-! ## Rules -/

section
variable {faults : Bool} {G : Tree → Req → Prop} {s : Unit} {t : Tree} {p : Path}

theorem wp_openDir {P : Except Error Bool → Unit → Tree → Prop} (hG : G t (.openDir p))
    (there : look t p = some .directory → P (.ok true) s t)
    (absent : look t p = none → P (.ok false) s t) (err : ∀ e, P (.error e) s t) :
    Script.wp (disk faults) G (openDir p) P s t := by
  rintro _ rfl
  refine ⟨hG,?_⟩
  rintro (e | a) t' hs
  · obtain rfl := hs.1
    exact err e
  · have ha : Answer t (.openDir p) a t' := hs
    cases ha with
    | opened h => exact there h
    | absent h => exact absent h

theorem wp_stat {P : Except Error (Option Kind) → Unit → Tree → Prop} (hG : G t (.stat p))
    (found : P (.ok ((look t p).map Entry.kind)) s t) (err : ∀ e, P (.error e) s t) :
    Script.wp (disk faults) G (stat p) P s t := by
  rintro _ rfl
  refine ⟨hG,?_⟩
  rintro (e | a) t' hs
  · obtain rfl := hs.1
    exact err e
  · have ha : Answer t (.stat p) a t' := hs
    cases ha
    exact found

theorem wp_read {P : Except Error Content → Unit → Tree → Prop} (hG : G t (.read p))
    (bytes : ∀ bytes, look t p = some (.file bytes) → P (.ok (.bytes bytes)) s t)
    (missing : look t p = none → P (.ok .missing) s t)
    (irregular : P (.ok .irregular) s t) (link : P (.ok .link) s t)
    (err : ∀ e, P (.error e) s t) : Script.wp (disk faults) G (read p) P s t := by
  rintro _ rfl
  refine ⟨hG,?_⟩
  rintro (e | a) t' hs
  · obtain rfl := hs.1
    exact err e
  · have ha : Answer t (.read p) a t' := hs
    cases ha with
    | bytes h => exact bytes _ h
    | missing h => exact missing h
    | irregular h => exact irregular
    | link h => exact link

theorem wp_sync {P : Except Error Unit → Unit → Tree → Prop} (hG : G t (.sync p))
    (done : P (.ok ()) s t) (err : ∀ e, P (.error e) s t) :
    Script.wp (disk faults) G (sync p) P s t := by
  rintro _ rfl
  refine ⟨hG,?_⟩
  rintro (e | a) t' hs
  · obtain rfl := hs.1
    exact err e
  · have ha : Answer t (.sync p) a t' := hs
    cases ha
    exact done

theorem wp_mkdir {P : Except Error Unit → Unit → Tree → Prop} (hG : G t (.mkdir p))
    (made : look t p = none → P (.ok ()) s (t.insert p .directory))
    (there : look t p ≠ none → P (.ok ()) s t) (err : ∀ e, P (.error e) s t) :
    Script.wp (disk faults) G (mkdir p) P s t := by
  rintro _ rfl
  refine ⟨hG,?_⟩
  rintro (e | a) t' hs
  · obtain rfl := hs.1
    exact err e
  · have ha : Answer t (.mkdir p) a t' := hs
    cases ha with
    | made h => exact made h
    | present h => exact there h

theorem wp_write {bytes : List UInt8} {P : Except Error Unit → Unit → Tree → Prop}
    (hG : G t (.write p bytes))
    (written : look t p ≠ some .directory → P (.ok ()) s (t.insert p (.file bytes)))
    (err : ∀ e, P (.error e) s t) : Script.wp (disk faults) G (write p bytes) P s t := by
  rintro _ rfl
  refine ⟨hG,?_⟩
  rintro (e | a) t' hs
  · obtain rfl := hs.1
    exact err e
  · have ha : Answer t (.write p bytes) a t' := hs
    cases ha with
    | written h => exact written h

theorem wp_unlink {P : Except Error Unit → Unit → Tree → Prop} (hG : G t (.unlink p))
    (unlinked : look t p ≠ none → look t p ≠ some .directory → P (.ok ()) s (t.erase p))
    (err : ∀ e, P (.error e) s t) : Script.wp (disk faults) G (unlink p) P s t := by
  rintro _ rfl
  refine ⟨hG,?_⟩
  rintro (e | a) t' hs
  · obtain rfl := hs.1
    exact err e
  · have ha : Answer t (.unlink p) a t' := hs
    cases ha with
    | unlinked h hd => exact unlinked h hd

theorem wp_rmdir {P : Except Error Bool → Unit → Tree → Prop} (hG : G t (.rmdir p))
    (removed : p ≠ [] → look t p = some .directory → children t p = [] →
      P (.ok true) s (t.erase p))
    (occupied : look t p = some .directory → children t p ≠ [] → P (.ok false) s t)
    (err : ∀ e, P (.error e) s t) : Script.wp (disk faults) G (rmdir p) P s t := by
  rintro _ rfl
  refine ⟨hG,?_⟩
  rintro (e | a) t' hs
  · obtain rfl := hs.1
    exact err e
  · have ha : Answer t (.rmdir p) a t' := hs
    cases ha with
    | removed hp h he => exact removed hp h he
    | occupied h he => exact occupied h he

end

/-- A script that only reads leaves the tree as it is, and its run ends at its result. -/
theorem wp_reading {faults : Bool} {G : Tree → Req → Prop} {α : Type} {m : Io α} {s : Unit}
    {t : Tree} (hG : ∀ q, q.reads → G t q) (h : m.Uses fun q => q.reads) :
    Script.wp (disk faults) G m (fun r s' t' => t' = t ∧
      Reach (disk faults) (m.start s) t (.ret (r,s')) t) s t := by
  have hi := wp_invariant (M := disk faults) (I := fun t' => t' = t)
    (by rintro w _ rfl rfl; rfl)
    (by rintro w q r w' rfl hq hs; exact disk_reads hs hq) rfl (wp_uses (h s) t)
  have hr := wp_and hi (wp_reached (M := disk faults) (m.start s) t)
  apply Effect.wp_mono (wp_guard hr _)
  · rintro a w ⟨⟨rfl,-⟩,hr⟩
    exact ⟨rfl,hr⟩
  · rintro w q ⟨⟨rfl,hq⟩,-⟩
    exact hG q hq

end FileTree
end CanixToolbelt
