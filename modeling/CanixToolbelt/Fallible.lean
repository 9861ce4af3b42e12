import Mathlib.Data.List.Basic
import Mathlib.Data.List.Forall2

/-! Computations that may fail, and folds of them: what a success says of its parts. -/
namespace CanixToolbelt
namespace Fallible

variable {ε α β σ : Type}

theorem bind_ok {x : Except ε α} {f : α → Except ε β} {b : β} (h : (x >>= f) = .ok b) :
    ∃ a, x = .ok a ∧ f a = .ok b := by
  cases x with
  | error e => cases h
  | ok a => exact ⟨a,rfl,h⟩

theorem bind_ok_iff {x : Except ε α} {f : α → Except ε β} {b : β} :
    (x >>= f) = .ok b ↔ ∃ a, x = .ok a ∧ f a = .ok b := by
  refine ⟨bind_ok,?_⟩
  rintro ⟨a,rfl,h⟩
  exact h

/-- The failure `e` unless the condition holds. -/
def require (p : Prop) [Decidable p] (e : ε) : Except ε Unit := if p then .ok () else .error e

theorem require_ok {p : Prop} [Decidable p] {e : ε} {u : Unit}
    (h : (require p e : Except ε Unit) = .ok u) : p := by
  by_contra hp
  simp [require,hp] at h

theorem require_ok_iff {p : Prop} [Decidable p] {e : ε} {u : Unit} :
    (require p e : Except ε Unit) = .ok u ↔ p :=
  ⟨require_ok,fun hp => by simp [require,hp]⟩

/-- A map that succeeded succeeded on each item. -/
theorem mapM_ok_iff {f : α → Except ε β} {as : List α} {bs : List β} :
    as.mapM f = .ok bs ↔ List.Forall₂ (fun a b => f a = .ok b) as bs := by
  induction as generalizing bs with
  | nil =>
    rw [List.mapM_nil,List.forall₂_nil_left_iff]
    exact ⟨fun h => (Except.ok.inj h).symm,fun h => h ▸ rfl⟩
  | cons a as ih =>
    rw [List.mapM_cons,bind_ok_iff]
    constructor
    · rintro ⟨b,hb,h⟩
      obtain ⟨cs,hcs,h⟩ := bind_ok h
      obtain rfl := Except.ok.inj h
      exact .cons hb (ih.mp hcs)
    · intro h
      cases h with
      | cons hb hbs => exact ⟨_,hb,bind_ok_iff.mpr ⟨_,ih.mpr hbs,rfl⟩⟩

theorem forM_ok_iff {f : α → Except ε Unit} {as : List α} {u : Unit} :
    as.forM f = .ok u ↔ ∀ a ∈ as, f a = .ok () := by
  induction as with
  | nil => simp [pure,Except.pure]
  | cons a as ih =>
    have hcons : (a::as).forM f = f a >>= fun _ => as.forM f := rfl
    rw [hcons,bind_ok_iff]
    simp only [List.mem_cons,forall_eq_or_imp,← ih]
    exact ⟨fun ⟨_,h,h'⟩ => ⟨h,h'⟩,fun ⟨h,h'⟩ => ⟨(),h,h'⟩⟩

variable {f : σ → α → Except ε σ}

theorem foldlM_cons_ok {a : α} {as : List α} {s t : σ} (h : (a::as).foldlM f s = .ok t) :
    ∃ u, f s a = .ok u ∧ as.foldlM f u = .ok t := by
  rw [List.foldlM_cons] at h
  exact bind_ok h

theorem foldlM_nil_ok {s t : σ} (h : ([] : List α).foldlM f s = .ok t) : s = t := by
  simpa [pure,Except.pure] using h

/-- What one step keeps, the whole fold keeps. -/
theorem foldlM_keeps {P : σ → Prop} {as : List α} {s t : σ} (hs : P s)
    (hstep : ∀ s t, ∀ a ∈ as, P s → f s a = .ok t → P t) (h : as.foldlM f s = .ok t) : P t := by
  induction as generalizing s with
  | nil => rwa [← foldlM_nil_ok h]
  | cons a as ih =>
    obtain ⟨u,hu,h⟩ := foldlM_cons_ok h
    exact ih (hstep s u a (by simp) hs hu) (fun s t b hb => hstep s t b (by simp [hb])) h

/-- A fold that succeeded ran the step of each of its items. -/
theorem foldlM_mem {as : List α} {s t : σ} (h : as.foldlM f s = .ok t) {a : α} (ha : a ∈ as) :
    ∃ ls rs u v, as = ls ++ a::rs ∧ ls.foldlM f s = .ok u ∧ f u a = .ok v ∧
      rs.foldlM f v = .ok t := by
  induction as generalizing s with
  | nil => cases ha
  | cons b as ih =>
    obtain ⟨u,hu,hrest⟩ := foldlM_cons_ok h
    rcases List.mem_cons.mp ha with rfl | ha
    · exact ⟨[],as,s,u,rfl,rfl,hu,hrest⟩
    · obtain ⟨ls,rs,v,w,hsplit,hl,hv,hr⟩ := ih hrest ha
      refine ⟨b::ls,rs,v,w,by simp [hsplit],?_,hv,hr⟩
      rw [List.foldlM_cons,hu]
      exact hl

/-- A fold that succeeded succeeds from every related state, when each step does. -/
theorem foldlM_simulates {R : List α → σ → σ → Prop} (hstep : ∀ a as s s' t, R (a::as) s s' →
    f s a = .ok t → ∃ t', f s' a = .ok t' ∧ R as t t') {as : List α} {s s' t : σ} (hs : R as s s')
    (h : as.foldlM f s = .ok t) : ∃ t', as.foldlM f s' = .ok t' ∧ R [] t t' := by
  induction as generalizing s s' with
  | nil =>
    rw [← foldlM_nil_ok h]
    exact ⟨s',rfl,hs⟩
  | cons a as ih =>
    obtain ⟨u,hu,h⟩ := foldlM_cons_ok h
    obtain ⟨u',hu',hrest⟩ := hstep a as s s' u hs hu
    rw [List.foldlM_cons,hu']
    exact ih hrest h

/-- A fold of steps that never fail never fails. -/
theorem foldlM_total {as : List α} (hstep : ∀ a ∈ as, ∀ s, ∃ t, f s a = .ok t) (s : σ) :
    ∃ t, as.foldlM f s = .ok t := by
  induction as generalizing s with
  | nil => exact ⟨s,rfl⟩
  | cons a as ih =>
    obtain ⟨t,ht⟩ := hstep a (by simp) s
    rw [List.foldlM_cons,ht]
    exact ih (fun b hb => hstep b (by simp [hb])) t

/-- What each step establishes for its item, and no other step spoils, holds of all items. -/
theorem foldlM_establishes {I : σ → Prop} {R : α → σ → Prop} {as : List α} {s t : σ} (hs : I s)
    (hstep : ∀ s t, ∀ a ∈ as, I s → f s a = .ok t → I t ∧ R a t)
    (hkeep : ∀ s t, ∀ a ∈ as, ∀ b ∈ as, I s → R b s → f s a = .ok t → R b t)
    (h : as.foldlM f s = .ok t) : I t ∧ ∀ a ∈ as, R a t := by
  induction as generalizing s with
  | nil =>
    rw [← foldlM_nil_ok h]
    exact ⟨hs,by simp⟩
  | cons a as ih =>
    obtain ⟨u,hu,hrest⟩ := foldlM_cons_ok h
    obtain ⟨hi,ha⟩ := hstep s u a (by simp) hs hu
    obtain ⟨hI,hR⟩ := ih hi (fun s t b hb => hstep s t b (by simp [hb]))
      (fun s t b hb c hc => hkeep s t b (by simp [hb]) c (by simp [hc])) hrest
    refine ⟨hI,fun b hb => ?_⟩
    rcases List.mem_cons.mp hb with rfl | hb
    · refine (foldlM_keeps (P := fun s => I s ∧ R b s) ⟨hi,ha⟩ (fun s t c hc hIR ht => ?_) hrest).2
      exact ⟨(hstep s t c (by simp [hc]) hIR.1 ht).1,hkeep s t c (by simp [hc]) b (by simp) hIR.1 hIR.2 ht⟩
    · exact hR b hb

/-- A fold of steps that leave a state alone leaves it alone. -/
theorem foldlM_fixed {as : List α} {s : σ} (h : ∀ a ∈ as, f s a = .ok s) :
    as.foldlM f s = .ok s := by
  induction as with
  | nil => rfl
  | cons a as ih =>
    rw [List.foldlM_cons,h a (by simp)]
    exact ih fun b hb => h b (by simp [hb])

theorem foldlM_congr {g : σ → α → Except ε σ} {as : List α}
    (h : ∀ a ∈ as, ∀ s, f s a = g s a) (s : σ) : as.foldlM f s = as.foldlM g s := by
  induction as generalizing s with
  | nil => rfl
  | cons a as ih =>
    rw [List.foldlM_cons,List.foldlM_cons,h a (by simp) s]
    exact congrArg (g s a >>= ·) (funext fun t => ih (fun b hb => h b (by simp [hb])) t)

end Fallible
end CanixToolbelt
