import Mathlib
import CanixToolbelt.FileTree

/-! File trees with symbolic links, and path resolution as POSIX has it: component by
component, a link is replaced by its text before the rest of the path is read. -/
namespace CanixToolbelt
namespace LinkTree
open FileTree (Path)

inductive Node
  | directory
  | file (bytes : List UInt8)
  | link (text : String)
  deriving DecidableEq, Repr

abbrev Tree := Std.ExtTreeMap Path Node

/-- The node at a path; the root is a directory. -/
def look (t : Tree) (p : Path) : Option Node := if p = [] then some .directory else t[p]?

@[simp] theorem look_nil (t : Tree) : look t [] = some .directory := rfl

theorem look_insert {t : Tree} {p : Path} (hp : p ≠ []) (n : Node) (q : Path) :
    look (t.insert p n) q = if q = p then some n else look t q := by
  by_cases hq : q = p
  · subst hq
    simp [look,hp]
  · by_cases hn : q = []
    · simp [look,hn,Ne.symm hp]
    · simp [look,hn,hq,Std.ExtTreeMap.getElem?_insert,Ne.symm hq]

/-- What stands between the slashes of a path text. -/
def parts (s : String) : List String := (s.toList.splitOn '/').map String.ofList

def dot (c : String) : Bool := c = "" || c = "."

def absolute (s : String) : Bool := s.toList.head? = some '/'

/-- A path, read from a directory, ends at this node, and never leaves the root. -/
inductive Resolves (t : Tree) : Path → List String → Path → Prop
  | done {d : Path} : Resolves t d [] d
  | stay {d q : Path} {c : String} {cs : List String} (hc : dot c = true)
      (h : Resolves t d cs q) : Resolves t d (c::cs) q
  | up {d q : Path} {cs : List String} (hd : d ≠ []) (h : Resolves t d.dropLast cs q) :
      Resolves t d ("..":: cs) q
  | enter {d q : Path} {c : String} {cs : List String} (hc : dot c = false) (hu : c ≠ "..")
      (hl : look t (d ++ [c]) = some .directory) (h : Resolves t (d ++ [c]) cs q) :
      Resolves t d (c::cs) q
  | file {d : Path} {c : String} {bytes : List UInt8} (hc : dot c = false) (hu : c ≠ "..")
      (hl : look t (d ++ [c]) = some (.file bytes)) : Resolves t d [c] (d ++ [c])
  | follow {d q : Path} {c text : String} {cs : List String} (hc : dot c = false) (hu : c ≠ "..")
      (hl : look t (d ++ [c]) = some (.link text)) (hr : absolute text = false)
      (h : Resolves t d (parts text ++ cs) q) : Resolves t d (c::cs) q

/-- Resolution with bounded work: nothing is known, it fails, or it ends. -/
def resolve (t : Tree) : ℕ → Path → List String → Option (Option Path)
  | 0, _, _ => none
  | _+1, d, [] => some (some d)
  | n+1, d, c::cs =>
    if dot c then resolve t n d cs
    else if c = ".." then if d = [] then some none else resolve t n d.dropLast cs
    else match look t (d ++ [c]) with
      | none => some none
      | some .directory => resolve t n (d ++ [c]) cs
      | some (.file _) => if cs = [] then some (some (d ++ [c])) else some none
      | some (.link text) => if absolute text then some none else resolve t n d (parts text ++ cs)

section
variable {t : Tree} {d q : Path} {c : String} {cs : List String}

theorem resolves_nil : Resolves t d [] q ↔ d = q := by
  constructor
  · intro h
    cases h
    rfl
  · rintro rfl
    exact .done

theorem resolves_dot (hc : dot c = true) : Resolves t d (c::cs) q ↔ Resolves t d cs q := by
  constructor
  · intro h
    cases h with
    | stay _ h => exact h
    | up => simp [dot] at hc
    | enter hc' => simp [hc] at hc'
    | file hc' => simp [hc] at hc'
    | follow hc' => simp [hc] at hc'
  · exact .stay hc

theorem resolves_up : Resolves t d ("..":: cs) q ↔ d ≠ [] ∧ Resolves t d.dropLast cs q := by
  constructor
  · intro h
    cases h with
    | stay hc => simp [dot] at hc
    | up hd h => exact ⟨hd,h⟩
    | enter _ hu => exact absurd rfl hu
    | file _ hu => exact absurd rfl hu
    | follow _ hu => exact absurd rfl hu
  · intro h
    exact .up h.1 h.2

/-- A name is entered, is the file at the end, or is replaced by what it links to. -/
theorem resolves_name (hc : dot c = false) (hu : c ≠ "..") : Resolves t d (c::cs) q ↔
    (look t (d ++ [c]) = some .directory ∧ Resolves t (d ++ [c]) cs q) ∨
    (∃ bytes, look t (d ++ [c]) = some (.file bytes) ∧ cs = [] ∧ d ++ [c] = q) ∨
    ∃ text, look t (d ++ [c]) = some (.link text) ∧ absolute text = false ∧
      Resolves t d (parts text ++ cs) q := by
  constructor
  · intro h
    cases h with
    | stay hc' => simp [hc] at hc'
    | up => exact absurd rfl hu
    | enter _ _ hl h => exact .inl ⟨hl,h⟩
    | file _ _ hl => exact .inr (.inl ⟨_,hl,rfl,rfl⟩)
    | follow _ _ hl hr h => exact .inr (.inr ⟨_,hl,hr,h⟩)
  · intro h
    rcases h with ⟨hl,h⟩ | ⟨bytes,hl,hcs,hq⟩ | ⟨text,hl,hr,h⟩
    · exact .enter hc hu hl h
    · subst hcs
      subst hq
      exact .file hc hu hl
    · exact .follow hc hu hl hr h

/-- A bounded resolution that comes to an end tells where the path leads, if anywhere. -/
theorem resolve_iff {n : ℕ} {r : Option Path} (h : resolve t n d cs = some r) (q : Path) :
    Resolves t d cs q ↔ r = some q := by
  induction n generalizing d cs with
  | zero => simp [resolve] at h
  | succ n ih =>
    cases cs with
    | nil =>
      have hr : some d = r := by simpa [resolve] using h
      simp [resolves_nil,← hr]
    | cons c cs =>
      unfold resolve at h
      split at h
      · rename_i hc
        rw [resolves_dot hc,ih h]
      rename_i hc
      rw [Bool.not_eq_true] at hc
      split at h
      · rename_i hu
        subst hu
        rw [resolves_up]
        split at h
        · rename_i hd
          have hr : none = r := Option.some.inj h
          simp [hd,← hr]
        · rename_i hd
          simp [hd,ih h]
      rename_i hu
      rw [resolves_name hc hu]
      split at h <;> rename_i hl
      · have hr : none = r := Option.some.inj h
        simp [hl,← hr]
      · simp only [hl,true_and,ih h]
        simp
      · split at h <;> rename_i hcs
        · have hr : some (d ++ [c]) = r := Option.some.inj h
          simp [hl,hcs,← hr]
        · have hr : none = r := Option.some.inj h
          simp [hl,hcs,← hr]
      · split at h <;> rename_i hr
        · have hn : none = r := Option.some.inj h
          simp [hl,hr,← hn]
        · simp [hl,hr,ih h]

end

end LinkTree
end CanixToolbelt
