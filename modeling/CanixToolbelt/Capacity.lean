import Mathlib.Data.List.Sort
import Mathlib.Logic.Function.Basic

/-! Greedy admission into bins of bounded capacity: one pass over a list in order of
precedence, each wanted item taken while its bin has room. -/
namespace CanixToolbelt
namespace Capacity

variable {α β : Type} [DecidableEq β] (bin : α → β) (limit : β → ℕ) (want : α → Bool)

/-- The items taken when the bins already hold `held`. -/
def fill (held : β → ℕ) : List α → List α
  | [] => []
  | a::as =>
    if want a && held (bin a) < limit (bin a) then
      a :: fill (Function.update held (bin a) (held (bin a) + 1)) as
    else fill held as

/-- How many of these are of one bin. -/
def load (as : List α) (b : β) : ℕ := as.countP fun a => bin a = b

variable {bin limit want} {held : β → ℕ}

@[simp] theorem load_nil (b : β) : load bin [] b = 0 := rfl

theorem load_cons (a : α) (as : List α) (b : β) :
    load bin (a::as) b = load bin as b + if bin a = b then 1 else 0 := by
  simp [load,List.countP_cons]

theorem load_perm {as as' : List α} (h : as.Perm as') (b : β) : load bin as b = load bin as' b :=
  h.countP_eq _

theorem load_mono {as as' : List α} (h : as.Sublist as') (b : β) :
    load bin as b ≤ load bin as' b := h.countP_le

theorem fill_take {a : α} (hw : want a = true) (hroom : held (bin a) < limit (bin a)) (as : List α) :
    fill bin limit want held (a::as) =
      a :: fill bin limit want (Function.update held (bin a) (held (bin a) + 1)) as := by
  simp [fill,hw,hroom]

theorem fill_skip {a : α} (h : want a = true → limit (bin a) ≤ held (bin a)) (as : List α) :
    fill bin limit want held (a::as) = fill bin limit want held as := by
  rw [fill,if_neg]
  simpa using h

/-- One item is taken, into the bin that it counts for, or skipped. -/
theorem fill_cases {P : List α → Prop} {a : α} {as : List α}
    (take : want a = true → held (bin a) < limit (bin a) →
      P (a :: fill bin limit want (Function.update held (bin a) (held (bin a) + 1)) as))
    (skip : (want a = true → limit (bin a) ≤ held (bin a)) → P (fill bin limit want held as)) :
    P (fill bin limit want held (a::as)) := by
  by_cases hw : want a = true
  · by_cases hroom : held (bin a) < limit (bin a)
    · rw [fill_take hw hroom]
      exact take hw hroom
    · have hskip : want a = true → limit (bin a) ≤ held (bin a) := fun _ => not_lt.mp hroom
      rw [fill_skip hskip]
      exact skip hskip
  · have hskip : want a = true → limit (bin a) ≤ held (bin a) := fun h => absurd h hw
    rw [fill_skip hskip]
    exact skip hskip

theorem fill_sublist (as : List α) : (fill bin limit want held as).Sublist as := by
  induction as generalizing held with
  | nil => exact List.Sublist.refl _
  | cons a as ih =>
    refine fill_cases (P := fun t => t.Sublist (a::as)) (fun _ _ => ?_) fun _ => ?_
    · exact ih.cons_cons a
    · exact ih.cons a

theorem fill_wanted {a : α} {as : List α} (h : a ∈ fill bin limit want held as) : want a = true := by
  induction as generalizing held with
  | nil => cases h
  | cons b as ih =>
    revert h
    refine fill_cases (P := fun t => a ∈ t → want a = true) (fun hw _ h => ?_) fun _ h => ih h
    rcases List.mem_cons.mp h with rfl | h
    · exact hw
    · exact ih h

/-- No bin is filled beyond its limit, and one beyond it before takes nothing. -/
theorem fill_capacity (as : List α) (b : β) :
    held b + load bin (fill bin limit want held as) b ≤ max (limit b) (held b) := by
  induction as generalizing held with
  | nil => exact le_max_right _ _
  | cons a as ih =>
    refine fill_cases (P := fun t => held b + load bin t b ≤ max (limit b) (held b))
      (fun _ hroom => ?_) fun _ => ih
    have h := @ih (Function.update held (bin a) (held (bin a) + 1))
    rw [load_cons]
    by_cases hb : bin a = b
    · subst hb
      rw [Function.update_self] at h
      rw [if_pos rfl]
      omega
    · rw [Function.update_of_ne (Ne.symm hb)] at h
      rw [if_neg hb]
      exact h

/-- A wanted item that was left out found its bin full of what it held and of items that
stand before it. -/
theorem fill_full {a : α} {as bs : List α} (hw : want a = true)
    (h : a ∉ fill bin limit want held (as ++ a::bs)) :
    limit (bin a) ≤ held (bin a) + load bin (fill bin limit want held as) (bin a) := by
  induction as generalizing held with
  | nil =>
    by_contra hroom
    have hroom : held (bin a) < limit (bin a) := by simpa [fill] using hroom
    rw [List.nil_append,fill_take hw hroom] at h
    exact h List.mem_cons_self
  | cons c as ih =>
    by_cases hc : want c = true ∧ held (bin c) < limit (bin c)
    · rw [fill_take hc.1 hc.2]
      rw [List.cons_append,fill_take hc.1 hc.2] at h
      have hfull := ih fun hmem => h (List.mem_cons_of_mem _ hmem)
      rw [load_cons]
      by_cases hb : bin c = bin a
      · rw [hb,Function.update_self] at hfull
        rw [if_pos hb]
        rw [hb]
        omega
      · rw [Function.update_of_ne (Ne.symm hb)] at hfull
        rw [if_neg hb]
        exact hfull
    · have hskip : want c = true → limit (bin c) ≤ held (bin c) := by
        intro hw
        exact not_lt.mp fun hlt => hc ⟨hw,hlt⟩
      rw [fill_skip hskip]
      rw [List.cons_append,fill_skip hskip] at h
      exact ih h

/-- What is taken of a list starts with what is taken of its beginning. -/
theorem fill_prefix (as bs : List α) :
    fill bin limit want held as <+: fill bin limit want held (as ++ bs) := by
  induction as generalizing held with
  | nil => exact List.nil_prefix
  | cons a as ih =>
    by_cases hc : want a = true ∧ held (bin a) < limit (bin a)
    · rw [List.cons_append,fill_take hc.1 hc.2,fill_take hc.1 hc.2]
      exact List.cons_prefix_cons.mpr ⟨rfl,ih⟩
    · have hskip : want a = true → limit (bin a) ≤ held (bin a) := by
        intro hw
        exact not_lt.mp fun hlt => hc ⟨hw,hlt⟩
      rw [List.cons_append,fill_skip hskip,fill_skip hskip]
      exact ih

/-! ## Sorting by a key -/

variable {κ : Type} [LinearOrder κ] (key : α → κ)

/-- Stable sorting by a key. -/
def sortByKey (as : List α) : List α := as.insertionSort fun a b => key a ≤ key b

theorem sortByKey_perm (as : List α) : (sortByKey key as).Perm as := List.perm_insertionSort _ _

theorem sortByKey_sorted (as : List α) : (sortByKey key as).Pairwise fun a b => key a ≤ key b := by
  have htotal : Std.Total fun a b : α => key a ≤ key b := ⟨fun a b => le_total (key a) (key b)⟩
  have htrans : IsTrans α fun a b => key a ≤ key b := ⟨fun _ _ _ => le_trans⟩
  exact List.pairwise_insertionSort _ _

/-- Lists of the same items with different keys sort to the same list. -/
theorem sortByKey_congr {as as' : List α} (h : as.Perm as')
    (hkey : ∀ a ∈ as, ∀ b ∈ as, key a = key b → a = b) : sortByKey key as = sortByKey key as' := by
  refine List.Perm.eq_of_pairwise (fun a b ha hb hab hba => ?_) (sortByKey_sorted key as)
    (sortByKey_sorted key as') ?_
  · have ha := (sortByKey_perm key as).mem_iff.mp ha
    have hb := h.mem_iff.mpr ((sortByKey_perm key as').mem_iff.mp hb)
    exact hkey a ha b hb (le_antisymm hab hba)
  · exact (sortByKey_perm key as).trans (h.trans (sortByKey_perm key as').symm)

/-- In a sorted list without equal keys, what stands before an item has a smaller key. -/
theorem sortByKey_before {as ls rs : List α} {a : α} (hnodup : as.Nodup)
    (hkey : ∀ a ∈ as, ∀ b ∈ as, key a = key b → a = b) (h : sortByKey key as = ls ++ a::rs) {b : α}
    (hb : b ∈ ls) : key b < key a := by
  have hsorted := sortByKey_sorted key as
  have hperm := sortByKey_perm key as
  rw [h] at hsorted hperm
  have hdistinct := hperm.nodup_iff.mpr hnodup
  refine lt_of_le_of_ne ((List.pairwise_append.mp hsorted).2.2 b hb a List.mem_cons_self) fun heq => ?_
  have hab := hkey b (hperm.mem_iff.mp (List.mem_append_left _ hb)) a
    (hperm.mem_iff.mp (List.mem_append_right _ List.mem_cons_self)) heq
  subst hab
  exact (List.nodup_append.mp hdistinct).2.2 b hb b List.mem_cons_self rfl

end Capacity
end CanixToolbelt
