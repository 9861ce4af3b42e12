import Mathlib.Data.Finset.Card
import Mathlib.Data.Finset.Insert

/-! Closure of a finite set under the rules of a list. One pass applies every rule in turn to
the set as it stands, and passes repeat until one adds nothing or a bound is reached. -/
namespace CanixToolbelt
namespace Closure

variable {α β : Type} [DecidableEq α]

/-- Elements reached from those of a kind by so many steps of a relation. -/
inductive Chain (R : α → α → Prop) (P : α → Prop) : ℕ → α → Prop
  | base {a : α} : P a → Chain R P 0 a
  | step {n : ℕ} {a b : α} : Chain R P n a → R a b → Chain R P (n+1) b

section
variable (rule : Finset α → β → Option α)

def apply (s : Finset α) (item : β) : Finset α :=
  match rule s item with
  | some a => insert a s
  | none => s

def pass (items : List β) (s : Finset α) : Finset α := items.foldl (apply rule) s

/-- At most so many passes, the last of them the first that adds nothing. -/
def rounds (items : List β) : ℕ → Finset α → Finset α
  | 0, s => s
  | n+1, s =>
    if s.card = (pass rule items s).card then pass rule items s
    else rounds items n (pass rule items s)

end

section
variable {rule : Finset α → β → Option α} {items : List β} {R : α → α → Prop}

theorem mem_apply {s : Finset α} {item : β} {a : α} :
    a ∈ apply rule s item ↔ a ∈ s ∨ rule s item = some a := by
  unfold apply
  cases h : rule s item with
  | none => simp
  | some b => simp [eq_comm,or_comm]

theorem subset_apply (s : Finset α) (item : β) : s ⊆ apply rule s item :=
  fun _ h => mem_apply.mpr (.inl h)

theorem subset_pass (items : List β) (s : Finset α) : s ⊆ pass rule items s := by
  induction items generalizing s with
  | nil => exact fun _ h => h
  | cons item items ih => exact (subset_apply s item).trans (ih (apply rule s item))

theorem pass_closed {P : α → Prop} {s : Finset α}
    (hrule : ∀ s, (∀ a ∈ s, P a) → ∀ item ∈ items, ∀ a, rule s item = some a → P a)
    (hs : ∀ a ∈ s, P a) : ∀ a ∈ pass rule items s, P a := by
  induction items generalizing s with
  | nil => exact hs
  | cons item items ih =>
    refine ih (fun s hs item hitem => hrule s hs item (by simp [hitem])) ?_
    intro a ha
    rcases mem_apply.mp ha with ha | ha
    · exact hs a ha
    · exact hrule s hs item (by simp) a ha

/-- A rule that grows with the set fires in a pass if it fires on the set before it. -/
theorem pass_fires (hmono : ∀ s t : Finset α, s ⊆ t → ∀ item ∈ items, ∀ a,
    rule s item = some a → rule t item = some a) {s : Finset α} {item : β} (hitem : item ∈ items)
    {a : α} (h : rule s item = some a) : a ∈ pass rule items s := by
  induction items generalizing s with
  | nil => cases hitem
  | cons first items ih =>
    rcases List.mem_cons.mp hitem with rfl | hitem
    · exact subset_pass items _ (mem_apply.mpr (.inr h))
    · refine ih (fun s t hst item hitem => hmono s t hst item (by simp [hitem])) hitem ?_
      exact hmono s _ (subset_apply s first) item (by simp [hitem]) a h

theorem rounds_closed {P : α → Prop}
    (hrule : ∀ s, (∀ a ∈ s, P a) → ∀ item ∈ items, ∀ a, rule s item = some a → P a) (n : ℕ)
    {s : Finset α} (hs : ∀ a ∈ s, P a) : ∀ a ∈ rounds rule items n s, P a := by
  induction n generalizing s with
  | zero => exact hs
  | succ n ih =>
    unfold rounds
    split
    · exact pass_closed hrule hs
    · exact ih (pass_closed hrule hs)

theorem Chain.mono {P Q : α → Prop} (hPQ : ∀ a, P a → Q a) {n : ℕ} {a : α} (h : Chain R P n a) :
    Chain R Q n a := by
  induction h with
  | base h => exact .base (hPQ _ h)
  | step _ hab ih => exact ih.step hab

theorem Chain.closed {P : α → Prop} (hP : ∀ a, P a → ∀ b, R a b → P b) {n : ℕ} {a : α}
    (h : Chain R P n a) : P a := by
  induction h with
  | base h => exact h
  | step _ hab ih => exact hP _ ih _ hab

/-- A first step taken beforehand. -/
theorem Chain.advance {P Q : α → Prop} (hPQ : ∀ a, P a → ∀ b, R a b → Q b) {n : ℕ} {a : α}
    (h : Chain R P (n+1) a) : Chain R Q n a := by
  induction n generalizing a with
  | zero =>
    cases h with
    | step h hab =>
      cases h with
      | base h => exact .base (hPQ _ h _ hab)
  | succ n ih =>
    cases h with
    | step h hab => exact (ih h).step hab

/-- Chains no longer than the bound end in the set. -/
theorem rounds_complete (hstep : ∀ s, ∀ a ∈ s, ∀ b, R a b → b ∈ pass rule items s) {n : ℕ}
    {s : Finset α} {k : ℕ} {a : α} (hk : k ≤ n) (h : Chain R (· ∈ s) k a) :
    a ∈ rounds rule items n s := by
  induction n generalizing s k with
  | zero =>
    obtain rfl : k = 0 := by omega
    cases h with
    | base h => exact h
  | succ n ih =>
    unfold rounds
    split
    · rename_i hcard
      -- nothing was added, so the set is closed
      have hsame : s = pass rule items s :=
        Finset.eq_of_subset_of_card_le (subset_pass items s) hcard.ge
      rw [← hsame]
      refine h.closed fun a ha b hab => ?_
      rw [hsame]
      exact hstep s a ha b hab
    · cases k with
      | zero => exact ih (Nat.zero_le n) (h.mono fun _ ha => subset_pass items s ha)
      | succ k => exact ih (by omega) (h.advance (hstep s))

end
end Closure
end CanixToolbelt
