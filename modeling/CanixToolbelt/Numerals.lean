import Mathlib.Data.List.Basic
import Mathlib.Data.Nat.Notation

/-! Digits, and the unsigned numbers that texts of digits spell. -/
namespace CanixToolbelt
namespace Numerals

def digit (radix : ℕ) (c : Char) : Option ℕ :=
  let d := if c.isDigit then some (c.toNat - 48)
    else if 'a' ≤ c ∧ c ≤ 'f' then some (c.toNat - 87)
    else if 'A' ≤ c ∧ c ≤ 'F' then some (c.toNat - 55)
    else none
  d.filter (· < radix)

def hexDigit (c : Char) : Bool := (digit 16 c).isSome

/-- The value of more digits behind a value. -/
def addDigit (radix bound value : ℕ) (c : Char) : Except String ℕ :=
  match digit radix c with
  | none => .error "invalid digit found in string"
  | some d =>
    if value * radix + d < bound then .ok (value * radix + d)
    else .error "number too large to fit in target type"

/-- `from_str_radix` of an unsigned type of the given bound, a plus sign allowed. -/
def fromStrRadix (radix bound : ℕ) (cs : List Char) : Except String ℕ :=
  if cs = [] then .error "cannot parse integer from empty string"
  else if cs = ['+'] ∨ cs = ['-'] then .error "invalid digit found in string"
  else (if cs.head? = some '+' then cs.tail else cs).foldlM (addDigit radix bound) 0

/-! ## What is spelled -/

/-- The value of more digits behind a value, whatever its size. -/
def valueFrom (radix : ℕ) : ℕ → List Char → Option ℕ
  | v, [] => some v
  | v, c::cs => (digit radix c).bind fun d => valueFrom radix (v * radix + d) cs

/-- Digits, one at least, and the number that they spell. -/
def Numeral (radix : ℕ) (cs : List Char) (n : ℕ) : Prop := cs ≠ [] ∧ valueFrom radix 0 cs = some n

variable {radix bound : ℕ}

theorem le_of_valueFrom (hradix : 0 < radix) {v n : ℕ} {cs : List Char}
    (h : valueFrom radix v cs = some n) : v ≤ n := by
  induction cs generalizing v with
  | nil => exact Nat.le_of_eq (Option.some.inj h)
  | cons c cs ih =>
    obtain ⟨d,-,hrest⟩ := Option.bind_eq_some_iff.mp h
    have hv : v ≤ v * radix := Nat.le_mul_of_pos_right v hradix
    have hn := ih hrest
    omega

theorem digit_of_mem {v n : ℕ} {cs : List Char} {c : Char} (h : valueFrom radix v cs = some n)
    (hc : c ∈ cs) : digit radix c ≠ none := by
  induction cs generalizing v with
  | nil => cases hc
  | cons c' cs ih =>
    obtain ⟨d,hd,hrest⟩ := Option.bind_eq_some_iff.mp h
    rcases List.mem_cons.mp hc with rfl | hc
    · rw [hd]
      exact Option.some_ne_none d
    · exact ih hrest hc

theorem addDigits_iff (hradix : 0 < radix) {v n : ℕ} (hv : v < bound) {cs : List Char} :
    cs.foldlM (addDigit radix bound) v = .ok n ↔ valueFrom radix v cs = some n ∧ n < bound := by
  induction cs generalizing v with
  | nil =>
    simp only [List.foldlM_nil,valueFrom,Option.some.injEq]
    constructor
    · intro h
      cases h
      exact ⟨rfl,hv⟩
    · intro h
      rw [h.1]
      rfl
  | cons c cs ih =>
    rw [List.foldlM_cons,valueFrom]
    cases hd : digit radix c with
    | none =>
      have hadd : addDigit radix bound v c = .error "invalid digit found in string" := by
        simp [addDigit,hd]
      rw [hadd]
      exact ⟨fun h => (nomatch h),fun h => (nomatch h.1)⟩
    | some d =>
      by_cases hsmall : v * radix + d < bound
      · have hadd : addDigit radix bound v c = .ok (v * radix + d) := by simp [addDigit,hd,hsmall]
        rw [hadd]
        exact ih hsmall
      · have hadd : addDigit radix bound v c = .error "number too large to fit in target type" := by
          simp [addDigit,hd,hsmall]
        rw [hadd]
        refine ⟨fun h => (nomatch h),fun h => ?_⟩
        have hle := le_of_valueFrom hradix h.1
        omega

/-- A numeral is read as the number it spells, if that has room. -/
theorem fromStrRadix_numeral (hradix : 0 < radix) (hbound : 0 < bound) {cs : List Char} {n m : ℕ}
    (h : Numeral radix cs n) : fromStrRadix radix bound cs = .ok m ↔ m = n ∧ n < bound := by
  have hplus : digit radix '+' = none := rfl
  have hminus : digit radix '-' = none := rfl
  have hhead : cs.head? ≠ some '+' := fun hhead =>
    digit_of_mem h.2 (List.mem_of_mem_head? hhead) hplus
  have hsign : ¬ (cs = ['+'] ∨ cs = ['-']) := by
    intro hsign
    rcases hsign with rfl | rfl
    · exact hhead rfl
    · exact digit_of_mem h.2 (by simp) hminus
  unfold fromStrRadix
  rw [if_neg h.1,if_neg hsign,if_neg hhead,addDigits_iff hradix hbound,h.2]
  constructor
  · intro hm
    obtain rfl := Option.some.inj hm.1
    exact ⟨rfl,hm.2⟩
  · intro hm
    exact ⟨congrArg some hm.1.symm,hm.1 ▸ hm.2⟩

end Numerals
end CanixToolbelt
