import CanixToolbelt.Effect

/-! Runs of a script read off their transcripts: a sequence ran in consecutive parts, and a
fold over a list ran its step once for every item. -/
namespace CanixToolbelt
namespace Effect

namespace Prog
variable {Q : Type} {A : Q → Type} {α β : Type}

/-- A sequence was run in two parts. -/
theorem Runs.bind {p : Prog Q A α} {f : α → Prog Q A β} {es : List (Σ q, A q)} {b : β}
    (h : (p >>= f).Runs es b) :
    ∃ a es₁ es₂, es = es₁ ++ es₂ ∧ p.Runs es₁ a ∧ (f a).Runs es₂ b := by
  induction p generalizing es with
  | ret a => exact ⟨a,[],es,rfl,.ret a,h⟩
  | call q k ih =>
    cases h with
    | @call _ _ r es _ h =>
      obtain ⟨a,es₁,es₂,rfl,h₁,h₂⟩ := ih r h
      exact ⟨a,⟨q,r⟩::es₁,es₂,rfl,.call h₁,h₂⟩

theorem Runs.seq {p : Prog Q A α} {f : α → Prog Q A β} {es₁ es₂ : List (Σ q, A q)} {a : α} {b : β}
    (h₁ : p.Runs es₁ a) (h₂ : (f a).Runs es₂ b) : (p >>= f).Runs (es₁ ++ es₂) b := by
  induction h₁ with
  | ret a => exact h₂
  | call h ih => exact .call (ih h₂)

/-- The value a program returns when every request is answered in a fixed way. -/
def respond (answer : (q : Q) → A q) : Prog Q A α → α
  | .ret a => a
  | .call q k => (k (answer q)).respond answer

/-- The replies it got. -/
def replies (answer : (q : Q) → A q) : Prog Q A α → List (Σ q, A q)
  | .ret _ => []
  | .call q k => ⟨q,answer q⟩::(k (answer q)).replies answer

theorem runs_respond (answer : (q : Q) → A q) (p : Prog Q A α) :
    p.Runs (p.replies answer) (p.respond answer) := by
  induction p with
  | ret a => exact .ret a
  | call q k ih => exact .call (ih (answer q))

theorem respond_bind (answer : (q : Q) → A q) (p : Prog Q A α) (f : α → Prog Q A β) :
    (p >>= f).respond answer = (f (p.respond answer)).respond answer := by
  induction p with
  | ret a => rfl
  | call q k ih => exact ih (answer q)

end Prog

namespace Script
variable {Q : Type} {B : Q → Type} {σ ε α β τ : Type}

/-- The replies that a script got. -/
abbrev Replies (Q : Type) (B : Q → Type) (ε : Type) := List (Σ q, Except ε (B q))

/-- The script returned `a` after these replies. -/
def Ran (m : Script Q B σ ε α) (es : Replies Q B ε) (a : α) : Prop :=
  ∃ s s', (m.start s).Runs es (.ok a,s')

variable {m : Script Q B σ ε α} {f : α → Script Q B σ ε β} {es : Replies Q B ε}

theorem ran_pure {a b : α} (h : Ran (pure a : Script Q B σ ε α) es b) : es = [] ∧ a = b := by
  obtain ⟨s,s',h⟩ := h
  cases h
  exact ⟨rfl,rfl⟩

theorem ran_throw {e : ε} {a : α} (h : Ran (throw e : Script Q B σ ε α) es a) : False := by
  obtain ⟨s,s',h⟩ := h
  cases h

/-- A returned sequence was run in two parts. -/
theorem ran_bind {b : β} (h : Ran (m >>= f) es b) :
    ∃ a es₁ es₂, es = es₁ ++ es₂ ∧ Ran m es₁ a ∧ Ran (f a) es₂ b := by
  obtain ⟨s,s',h⟩ := h
  obtain ⟨⟨e | a,s₁⟩,es₁,es₂,rfl,hm,hf⟩ := Prog.Runs.bind (p := m.start s) h
  · cases hf
  · exact ⟨a,es₁,es₂,rfl,⟨s,s₁,hm⟩,s₁,s',hf⟩

/-- What holds of no items and is kept by the step for one more holds of all of them. -/
theorem ran_foldlM {f : τ → α → Script Q B σ ε τ} {P : List α → τ → Replies Q B ε → Prop}
    (hstep : ∀ done a s es t es', P done s es → Ran (f s a) es' t → P (done ++ [a]) t (es ++ es'))
    {as done : List α} {s t : τ} {before : Replies Q B ε} (hs : P done s before)
    (h : Ran (as.foldlM f s) es t) : P (done ++ as) t (before ++ es) := by
  induction as generalizing done s before es with
  | nil =>
    obtain ⟨rfl,rfl⟩ := ran_pure h
    simpa using hs
  | cons a as ih =>
    rw [List.foldlM_cons] at h
    obtain ⟨u,es₁,es₂,rfl,h₁,h₂⟩ := ran_bind h
    have hu := ih (hstep done a s before u es₁ hs h₁) h₂
    simpa using hu

/-- The value and the memory of a script when every request is answered in a fixed way. -/
def result (answer : (q : Q) → Except ε (B q)) (m : Script Q B σ ε α) (s : σ) : Except ε α × σ :=
  (m.start s).respond answer

theorem result_bind (answer : (q : Q) → Except ε (B q)) {s s₁ : σ} {a : α}
    (h : result answer m s = (.ok a,s₁)) : result answer (m >>= f) s = result answer (f a) s₁ := by
  have hm : (m.start s).respond answer = (.ok a,s₁) := h
  have hbind := Prog.respond_bind answer (m.start s) fun r => (ExceptT.bindCont f r.1).run r.2
  rw [hm] at hbind
  exact hbind

/-- A sequence returned exactly if both of its parts did. -/
theorem result_bind_ok (answer : (q : Q) → Except ε (B q)) {s s' : σ} {b : β} :
    result answer (m >>= f) s = (.ok b,s') ↔
      ∃ a s₁, result answer m s = (.ok a,s₁) ∧ result answer (f a) s₁ = (.ok b,s') := by
  constructor
  · intro h
    cases hm : result answer m s with
    | mk r s₁ =>
      cases r with
      | ok a => exact ⟨a,s₁,rfl,(result_bind answer hm).symm.trans h⟩
      | error e =>
        have hbind := Prog.respond_bind answer (m.start s) fun r => (ExceptT.bindCont f r.1).run r.2
        rw [show (m.start s).respond answer = (.error e,s₁) from hm] at hbind
        cases h.symm.trans hbind
  · rintro ⟨a,s₁,hm,hf⟩
    rw [result_bind answer hm,hf]

theorem runs_result (answer : (q : Q) → Except ε (B q)) {s s' : σ} {a : α}
    (h : result answer m s = (.ok a,s')) :
    (m.start s).Runs ((m.start s).replies answer) (.ok a,s') := by
  have hruns := Prog.runs_respond answer (m.start s)
  rw [show (m.start s).respond answer = (.ok a,s') from h] at hruns
  exact hruns

theorem uses_foldlM {P : Q → Prop} {f : τ → α → Script Q B σ ε τ} (h : ∀ t a, Uses P (f t a))
    (as : List α) (t : τ) : Uses P (as.foldlM f t) := by
  induction as generalizing t with
  | nil => exact uses_pure t
  | cons a as ih =>
    rw [List.foldlM_cons]
    exact uses_bind (h t a) ih

end Script
end Effect
end CanixToolbelt
