import Mathlib.Data.List.Forall2
import Mathlib.Logic.Nonempty

/-! Patterns with a wildcard for any word and one for any letter. Two of them have a word in
common exactly when they can be laid over each other, token by token. -/
namespace CanixToolbelt
namespace Glob

variable {α : Type}

inductive Token (α : Type) where
  /-- Any word. -/
  | any
  /-- Any letter. -/
  | one
  | lit (a : α)
  deriving DecidableEq

inductive Matches : List (Token α) → List α → Prop
  | nil : Matches [] []
  | nothing {p : List (Token α)} {s : List α} : Matches p s → Matches (.any::p) s
  | letter {p : List (Token α)} {a : α} {s : List α} :
      Matches (.any::p) s → Matches (.any::p) (a::s)
  | one {p : List (Token α)} {a : α} {s : List α} : Matches p s → Matches (.one::p) (a::s)
  | lit {p : List (Token α)} {a : α} {s : List α} : Matches p s → Matches (.lit a::p) (a::s)

def accepts [DecidableEq α] : List (Token α) → List α → Bool
  | [], s => s.isEmpty
  | .any::p, s => s.tails.any (accepts p)
  | .one::p, s => match s with
    | [] => false
    | _::s => accepts p s
  | .lit a::p, s => match s with
    | [] => false
    | b::s => a = b && accepts p s

theorem matches_any_iff {p : List (Token α)} {s : List α} :
    Matches (.any::p) s ↔ ∃ t ∈ s.tails, Matches p t := by
  induction s with
  | nil =>
    simp only [List.tails,List.mem_singleton,exists_eq_left]
    refine ⟨fun h => ?_,.nothing⟩
    cases h with
    | nothing h => exact h
  | cons a s ih =>
    simp only [List.tails,List.mem_cons,exists_eq_or_imp,← ih]
    refine ⟨fun h => ?_,fun h => h.elim .nothing .letter⟩
    cases h with
    | nothing h => exact .inl h
    | letter h => exact .inr h

theorem accepts_iff [DecidableEq α] {p : List (Token α)} {s : List α} :
    accepts p s ↔ Matches p s := by
  induction p generalizing s with
  | nil =>
    cases s with
    | nil => simp [accepts,Matches.nil]
    | cons a s => exact ⟨fun h => (by cases h),fun h => (by cases h)⟩
  | cons t p ih =>
    cases t with
    | any => simp [accepts,matches_any_iff,ih]
    | one =>
      cases s with
      | nil => exact ⟨fun h => (by cases h),fun h => (by cases h)⟩
      | cons a s =>
        refine ⟨fun h => .one (ih.mp h),fun h => ?_⟩
        cases h with
        | one h => exact ih.mpr h
    | lit a =>
      cases s with
      | nil => exact ⟨fun h => (by cases h),fun h => (by cases h)⟩
      | cons b s =>
        simp only [accepts,Bool.and_eq_true,decide_eq_true_eq,ih]
        constructor
        · rintro ⟨rfl,h⟩
          exact .lit h
        · intro h
          cases h with
          | lit h => exact ⟨rfl,h⟩

instance [DecidableEq α] (p : List (Token α)) (s : List α) : Decidable (Matches p s) :=
  decidable_of_iff _ accepts_iff

/-- Tokens that some letter satisfies. -/
def Fits : Token α → Token α → Prop
  | .lit a, .lit b => a = b
  | .one, .lit _ => True
  | .lit _, .one => True
  | .one, .one => True
  | _, _ => False

/-- A wildcard lies over any number of tokens of the other pattern. -/
inductive Aligned : List (Token α) → List (Token α) → Prop
  | nil : Aligned [] []
  | skipLeft {p q : List (Token α)} : Aligned p q → Aligned (.any::p) q
  | overLeft {p q : List (Token α)} {t : Token α} :
      Aligned (.any::p) q → Aligned (.any::p) (t::q)
  | skipRight {p q : List (Token α)} : Aligned p q → Aligned p (.any::q)
  | overRight {p q : List (Token α)} {t : Token α} :
      Aligned p (.any::q) → Aligned (t::p) (.any::q)
  | both {p q : List (Token α)} {t u : Token α} : Fits t u → Aligned p q → Aligned (t::p) (u::q)

theorem Aligned.refl (p : List (Token α)) : Aligned p p := by
  induction p with
  | nil => exact .nil
  | cons t p ih =>
    cases t with
    | any => exact .skipLeft (.skipRight ih)
    | one => exact .both trivial ih
    | lit a => exact .both rfl ih

theorem Aligned.head_eq {a b : α} {p q : List (Token α)} (h : Aligned (.lit a::p) (.lit b::q)) :
    a = b := by
  cases h with
  | both h _ => exact h

theorem Matches.cons_of_ne [Nonempty α] {t : Token α} {p : List (Token α)} {s : List α}
    (ht : t ≠ .any) (h : Matches p s) : ∃ a, Matches (t::p) (a::s) := by
  cases t with
  | any => exact absurd rfl ht
  | one => exact ⟨Classical.arbitrary α,.one h⟩
  | lit a => exact ⟨a,.lit h⟩

/-- What an any-word wildcard matches, more letters in front can match as well. -/
theorem Matches.over [Nonempty α] {t : Token α} {p q : List (Token α)} {s : List α}
    (hp : Matches (.any::p) s) (hq : Matches q s) :
    ∃ s', Matches (.any::p) s' ∧ Matches (t::q) s' := by
  by_cases ht : t = .any
  · subst ht
    exact ⟨s,hp,.nothing hq⟩
  · obtain ⟨a,ha⟩ := hq.cons_of_ne ht
    exact ⟨a::s,.letter hp,ha⟩

theorem Aligned.common [Nonempty α] {p q : List (Token α)} (h : Aligned p q) :
    ∃ s, Matches p s ∧ Matches q s := by
  induction h with
  | nil => exact ⟨[],.nil,.nil⟩
  | skipLeft _ ih =>
    obtain ⟨s,hp,hq⟩ := ih
    exact ⟨s,.nothing hp,hq⟩
  | overLeft _ ih =>
    obtain ⟨s,hp,hq⟩ := ih
    exact hp.over hq
  | skipRight _ ih =>
    obtain ⟨s,hp,hq⟩ := ih
    exact ⟨s,hp,.nothing hq⟩
  | overRight _ ih =>
    obtain ⟨s,hp,hq⟩ := ih
    obtain ⟨s',hq',hp'⟩ := hq.over hp
    exact ⟨s',hp',hq'⟩
  | @both p q t u hfits _ ih =>
    obtain ⟨s,hp,hq⟩ := ih
    cases t with
    | any => exact hfits.elim
    | one =>
      cases u with
      | any => exact hfits.elim
      | one => exact ⟨Classical.arbitrary α::s,.one hp,.one hq⟩
      | lit b => exact ⟨b::s,.one hp,.lit hq⟩
    | lit a =>
      cases u with
      | any => exact hfits.elim
      | one => exact ⟨a::s,.lit hp,.one hq⟩
      | lit b =>
        obtain rfl : a = b := hfits
        exact ⟨a::s,.lit hp,.lit hq⟩

/-- How a pattern matches a letter and the rest: wildcards in front match nothing, and then a
token takes the letter. -/
theorem Matches.align_cons {q : List (Token α)} {a : α} {s : List α} (h : Matches q (a::s))
    {p : List (Token α)} (hany : ∀ q, Matches (.any::q) s → Aligned p (.any::q))
    (hone : ∀ q, Matches q s → Aligned p (.one::q))
    (hlit : ∀ q, Matches q s → Aligned p (.lit a::q)) : Aligned p q := by
  generalize hs : a::s = s' at h
  induction h with
  | nil => cases hs
  | nothing _ ih => exact .skipRight (ih hs)
  | letter h _ =>
    obtain ⟨-,rfl⟩ := List.cons.inj hs
    exact hany _ h
  | one h _ =>
    obtain ⟨-,rfl⟩ := List.cons.inj hs
    exact hone _ h
  | lit h _ =>
    obtain ⟨rfl,rfl⟩ := List.cons.inj hs
    exact hlit _ h

theorem Matches.align_nil {q : List (Token α)} {s : List α} (h : Matches q s) (hs : s = []) :
    Aligned [] q := by
  induction h with
  | nil => exact .nil
  | nothing _ ih => exact .skipRight (ih hs)
  | letter _ _ => cases hs
  | one _ _ => cases hs
  | lit _ _ => cases hs

theorem Matches.aligned {p q : List (Token α)} {s : List α} (hp : Matches p s)
    (hq : Matches q s) : Aligned p q := by
  induction hp generalizing q with
  | nil => exact hq.align_nil rfl
  | nothing _ ih => exact .skipLeft (ih hq)
  | letter _ ih =>
    exact hq.align_cons (fun q h => ih h) (fun q h => .overLeft (ih h)) fun q h => .overLeft (ih h)
  | one _ ih =>
    exact hq.align_cons (fun q h => .overRight (ih h)) (fun q h => .both trivial (ih h))
      fun q h => .both trivial (ih h)
  | lit _ ih =>
    exact hq.align_cons (fun q h => .overRight (ih h)) (fun q h => .both trivial (ih h))
      fun q h => .both rfl (ih h)

/-- Patterns have a word in common exactly when they can be aligned. -/
theorem aligned_iff [Nonempty α] {p q : List (Token α)} :
    Aligned p q ↔ ∃ s, Matches p s ∧ Matches q s :=
  ⟨Aligned.common,fun ⟨_,hp,hq⟩ => hp.aligned hq⟩

/-- Tokens of one letter each take as many letters. -/
theorem Matches.length_le {p r : List (Token α)} {s : List α} (h : Matches (p ++ r) s)
    (hp : .any ∉ p) : p.length ≤ s.length := by
  induction p generalizing s with
  | nil => simp
  | cons t p ih =>
    have hrest : .any ∉ p := fun hin => hp (by simp [hin])
    cases h with
    | nothing _ => simp at hp
    | letter _ => simp at hp
    | one h => simpa using ih h hrest
    | lit h => simpa using ih h hrest

theorem Matches.length_eq {p : List (Token α)} {s : List α} (h : Matches p s) (hp : .any ∉ p) :
    p.length = s.length := by
  induction h with
  | nil => rfl
  | nothing _ _ => simp at hp
  | letter _ _ => simp at hp
  | one _ ih => simp [ih fun hin => hp (by simp [hin])]
  | lit _ ih => simp [ih fun hin => hp (by simp [hin])]

/-- Letters of a pattern are the text's own. -/
theorem matches_lits {w : List α} {p : List (Token α)} {s : List α} :
    Matches (w.map .lit ++ p) s ↔ ∃ t, s = w ++ t ∧ Matches p t := by
  induction w generalizing s with
  | nil => simp
  | cons a w ih =>
    constructor
    · intro h
      cases h with
      | lit h =>
        obtain ⟨t,rfl,ht⟩ := ih.mp h
        exact ⟨t,rfl,ht⟩
    · rintro ⟨t,rfl,ht⟩
      exact .lit (ih.mpr ⟨t,rfl,ht⟩)

theorem matches_any (s : List α) : Matches [.any] s := by
  induction s with
  | nil => exact .nothing .nil
  | cons a s ih => exact .letter ih

end Glob
end CanixToolbelt
