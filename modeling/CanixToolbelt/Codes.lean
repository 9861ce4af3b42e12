import Mathlib

/-! Codes whose words can be told apart in a stream, whatever follows. -/
namespace CanixToolbelt
namespace Codes

variable {α β : Type}

/-- The words of elements in `P` are told apart, and from what follows them. -/
def Separates (code : α → List β) (P : α → Prop) : Prop :=
  ∀ a b x y, P a → P b → code a ++ x = code b ++ y → a = b ∧ x = y

variable {code : α → List β} {P : α → Prop}

/-- Words of one length are told apart where they differ. -/
theorem Separates.of_length {k : ℕ} (hlength : ∀ a, P a → (code a).length = k)
    (hinj : ∀ a b, P a → P b → code a = code b → a = b) : Separates code P := by
  intro a b x y ha hb h
  obtain ⟨hcode,hrest⟩ := List.append_inj h ((hlength a ha).trans (hlength b hb).symm)
  exact ⟨hinj a b ha hb hcode,hrest⟩

/-- A stream of words is the stream of one list only. -/
theorem Separates.flatMap_inj (h : Separates code P) (hne : ∀ a, code a ≠ []) {xs ys : List α}
    (hxs : ∀ a ∈ xs, P a) (hys : ∀ a ∈ ys, P a) (heq : xs.flatMap code = ys.flatMap code) :
    xs = ys := by
  induction xs generalizing ys with
  | nil =>
    cases ys with
    | nil => rfl
    | cons b ys =>
      rw [List.flatMap_cons] at heq
      exact absurd (List.append_eq_nil_iff.mp heq.symm).1 (hne b)
  | cons a xs ih =>
    cases ys with
    | nil =>
      rw [List.flatMap_cons] at heq
      exact absurd (List.append_eq_nil_iff.mp heq).1 (hne a)
    | cons b ys =>
      rw [List.flatMap_cons,List.flatMap_cons] at heq
      obtain ⟨rfl,hrest⟩ := h _ _ _ _ (hxs a (by simp)) (hys b (by simp)) heq
      rw [ih (fun x hx => hxs x (by simp [hx])) (fun x hx => hys x (by simp [hx])) hrest]

/-! ## Numbers of a fixed width -/

/-- The little-endian bytes of a number, so many of them. -/
def le : ℕ → ℕ → List UInt8
  | 0, _ => []
  | k+1, n => UInt8.ofNat (n % 256) :: le k (n / 256)

@[simp] theorem le_length (k n : ℕ) : (le k n).length = k := by
  induction k generalizing n with
  | zero => rfl
  | succ k ih => simp [le,ih]

theorem le_inj {k n m : ℕ} (hn : n < 256 ^ k) (hm : m < 256 ^ k) (h : le k n = le k m) : n = m := by
  induction k generalizing n m with
  | zero => omega
  | succ k ih =>
    obtain ⟨hdigit,hrest⟩ := List.cons.inj h
    have hlow : n % 256 = m % 256 := by
      have hbyte := congrArg UInt8.toNat hdigit
      simpa using hbyte
    rw [Nat.pow_succ] at hn hm
    have hhigh := ih (Nat.div_lt_of_lt_mul (by omega)) (Nat.div_lt_of_lt_mul (by omega)) hrest
    omega

theorem le_separates (k : ℕ) : Separates (le k) (· < 256 ^ k) :=
  .of_length (fun n _ => le_length k n) fun _ _ hn hm h => le_inj hn hm h

/-- Bytes behind their length. -/
def counted (k : ℕ) (bytes : List UInt8) : List UInt8 := le k bytes.length ++ bytes

theorem counted_separates (k : ℕ) : Separates (counted k) (·.length < 256 ^ k) := by
  intro a b x y ha hb h
  unfold counted at h
  rw [List.append_assoc,List.append_assoc] at h
  obtain ⟨hlength,hrest⟩ := le_separates k _ _ _ _ ha hb h
  exact List.append_inj hrest hlength

end Codes
end CanixToolbelt
