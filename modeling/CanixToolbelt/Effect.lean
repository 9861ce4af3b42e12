import Mathlib.Data.Nat.Notation
import Mathlib.Logic.Relation

/-! Effectful programs that may stop between any two requests.
A program is a tree of requests; its environment answers them nondeterministically,
may interfere between them, and a crash is nothing but a configuration at which
the run stops.  `wp` is the rule by which every run is reasoned about. -/
namespace CanixToolbelt
namespace Effect

/-- A program over the requests `Q`, each answered by a value of `A q`. -/
inductive Prog (Q : Type) (A : Q → Type) (α : Type) : Type where
  | ret (a : α)
  | call (q : Q) (k : A q → Prog Q A α)

namespace Prog

variable {Q : Type} {A : Q → Type} {α β : Type}

def bind : Prog Q A α → (α → Prog Q A β) → Prog Q A β
  | .ret a, f => f a
  | .call q k, f => .call q fun r => (k r).bind f

instance : Monad (Prog Q A) where
  pure := .ret
  bind := .bind

/-- The program that issues one request and returns its reply. -/
def perform (q : Q) : Prog Q A (A q) := .call q .ret

@[simp] theorem pure_eq (a : α) : (pure a : Prog Q A α) = .ret a := rfl
@[simp] theorem ret_bind (a : α) (f : α → Prog Q A β) : (Prog.ret a >>= f) = f a := rfl
@[simp] theorem call_bind (q : Q) (k : A q → Prog Q A α) (f : α → Prog Q A β) :
    (Prog.call q k >>= f) = .call q fun r => k r >>= f := rfl
@[simp] theorem perform_bind (q : Q) (f : A q → Prog Q A β) :
    (perform q >>= f) = .call q f := rfl

@[simp] theorem bind_ret (p : Prog Q A α) : (p >>= Prog.ret) = p := by
  induction p with
  | ret a => rfl
  | call q k ih => rw [call_bind]; congr 1; funext r; exact ih r

theorem bind_assoc {γ : Type} (p : Prog Q A α) (f : α → Prog Q A β) (g : β → Prog Q A γ) :
    ((p >>= f) >>= g) = (p >>= fun a => f a >>= g) := by
  induction p with
  | ret a => rfl
  | call q k ih => simp only [call_bind]; congr 1; funext r; exact ih r

/-- The request a program is waiting on, if it has not returned. -/
def pending : Prog Q A α → Option Q
  | .ret _ => none
  | .call q _ => some q

def returned : Prog Q A α → Option α
  | .ret a => some a
  | .call _ _ => none

end Prog

/-- What the outside does: how a request may be answered, which steps other
parties may take at any moment, and what a crash inside a request may leave. -/
structure World (Q : Type) (A : Q → Type) (W : Type) where
  step : (q : Q) → W → A q → W → Prop
  rely : W → W → Prop := Eq
  torn : Q → W → W → Prop := fun _ _ _ => False
  rely_refl : ∀ w, rely w w := by intro w; rfl
  rely_trans : ∀ w₁ w₂ w₃, rely w₁ w₂ → rely w₂ w₃ → rely w₁ w₃ := by
    intro _ _ _ h h'; exact h.trans h'

section Semantics
variable {Q : Type} {A : Q → Type} {W α β : Type} (M : World Q A W)

/-- One program's configurations: interference and answered requests. -/
inductive Reach : Prog Q A α → W → Prog Q A α → W → Prop
  | refl (p : Prog Q A α) (w : W) : Reach p w p w
  | rely {q : Q} {k : A q → Prog Q A α} {p' : Prog Q A α} {w w₁ w' : W}
      (h : M.rely w w₁) (hr : Reach (.call q k) w₁ p' w') : Reach (.call q k) w p' w'
  | step {q : Q} {k : A q → Prog Q A α} {p' : Prog Q A α} {r : A q} {w w₁ w' : W}
      (h : M.step q w r w₁) (hr : Reach (k r) w₁ p' w') : Reach (.call q k) w p' w'

variable {M} in
theorem Reach.trans {p₁ p₂ p₃ : Prog Q A α} {w₁ w₂ w₃ : W} (h : Reach M p₁ w₁ p₂ w₂)
    (h' : Reach M p₂ w₂ p₃ w₃) : Reach M p₁ w₁ p₃ w₃ := by
  induction h with
  | refl => exact h'
  | rely hr _ ih => exact .rely hr (ih h')
  | step hs _ ih => exact .step hs (ih h')

/-- `P` holds of every return, and `G` of every request at the moment it is issued. -/
def wp (G : W → Q → Prop) : Prog Q A α → (α → W → Prop) → W → Prop
  | .ret a, P, w => P a w
  | .call q k, P, w => ∀ w₁, M.rely w w₁ →
      G w₁ q ∧ ∀ r w₂, M.step q w₁ r w₂ → wp G (k r) P w₂

variable {M} {G : W → Q → Prop}

theorem wp_rely {p : Prog Q A α} {P : α → W → Prop} {w w' : W}
    (hP : ∀ a, P a w → P a w') (h : wp M G p P w) (hr : M.rely w w') : wp M G p P w' := by
  cases p with
  | ret a => exact hP a h
  | call q k => exact fun w'' h' => h w'' (M.rely_trans _ _ _ hr h')

theorem wp_bind {p : Prog Q A α} {f : α → Prog Q A β} {P : β → W → Prop} {w : W} :
    wp M G (p >>= f) P w ↔ wp M G p (fun a w => wp M G (f a) P w) w := by
  induction p generalizing w with
  | ret a => rfl
  | call q k ih =>
    simp only [Prog.call_bind,wp]
    exact forall₂_congr fun w₁ _ => and_congr_right fun _ => forall₃_congr fun r w₂ _ => ih r

theorem wp_mono {p : Prog Q A α} {P P' : α → W → Prop} {w : W}
    (h : wp M G p P w) (hP : ∀ a w, P a w → P' a w) : wp M G p P' w := by
  induction p generalizing w with
  | ret a => exact hP a w h
  | call q k ih =>
    intro w₁ hr
    obtain ⟨hG,hk⟩ := h w₁ hr
    exact ⟨hG,fun r w₂ hs => ih r (hk r w₂ hs)⟩

theorem wp_guard {G' : W → Q → Prop} {p : Prog Q A α} {P : α → W → Prop} {w : W}
    (h : wp M G p P w) (hG : ∀ w q, G w q → G' w q) : wp M G' p P w := by
  induction p generalizing w with
  | ret a => exact h
  | call q k ih =>
    intro w₁ hr
    obtain ⟨hg,hk⟩ := h w₁ hr
    exact ⟨hG w₁ q hg,fun r w₂ hs => ih r (hk r w₂ hs)⟩

theorem wp_reach {p p' : Prog Q A α} {P : α → W → Prop} {w w' : W}
    (h : wp M G p P w) (hr : Reach M p w p' w') : wp M G p' P w' := by
  induction hr with
  | refl => exact h
  | rely hr _ ih => exact ih fun w'' h' => h w'' (M.rely_trans _ _ _ hr h')
  | step hs _ ih => exact ih ((h _ (M.rely_refl _)).2 _ _ hs)

theorem wp_pending {p : Prog Q A α} {P : α → W → Prop} {w : W} {q : Q}
    (h : wp M G p P w) (hq : p.pending = some q) : G w q := by
  cases p with
  | ret a => cases hq
  | call q' k => cases hq; exact (h w (M.rely_refl w)).1

theorem wp_returned {p : Prog Q A α} {P : α → W → Prop} {w : W} {a : α}
    (h : wp M G p P w) (ha : p.returned = some a) : P a w := by
  cases p with
  | ret a' => cases ha; exact h
  | call q' k => cases ha

/-- The world when its invariant `I` may be taken for granted at every answer. -/
def World.assume (M : World Q A W) (I : W → Prop) : World Q A W where
  step := fun q w r w' => I w ∧ M.step q w r w'
  rely := M.rely
  rely_refl := M.rely_refl
  rely_trans := M.rely_trans

/-- An invariant of the guarded requests may be assumed while the guard is proved. -/
theorem wp_assume {I : W → Prop} (hr : ∀ w w', I w → M.rely w w' → I w')
    (hs : ∀ w q r w', I w → G w q → M.step q w r w' → I w') {p : Prog Q A α}
    {P : α → W → Prop} {w : W} (hw : I w) (h : wp (M.assume I) G p P w) :
    wp M (fun w q => I w ∧ G w q) p (fun a w => I w ∧ P a w) w := by
  induction p generalizing w with
  | ret a => exact ⟨hw,h⟩
  | call q k ih =>
    intro w₁ hr₁
    obtain ⟨hg,hk⟩ := h w₁ hr₁
    have hw₁ := hr w w₁ hw hr₁
    exact ⟨⟨hw₁,hg⟩,fun r w₂ h₂ => ih r (hs w₁ q r w₂ hw₁ hg h₂) (hk r w₂ ⟨hw₁,h₂⟩)⟩

/-- A rule about one world holds in every world that a projection maps into it. -/
theorem wp_project {V : Type} {N : World Q A V} (π : V → W)
    (hr : ∀ v v', N.rely v v' → M.rely (π v) (π v'))
    (hs : ∀ q v r v', N.step q v r v' → M.step q (π v) r (π v')) {p : Prog Q A α}
    {P : α → W → Prop} {v : V} (h : wp M G p P (π v)) :
    wp N (fun v => G (π v)) p (fun a v => P a (π v)) v := by
  induction p generalizing v with
  | ret a => exact h
  | call q k ih =>
    intro v₁ hr₁
    obtain ⟨hg,hk⟩ := h (π v₁) (hr v v₁ hr₁)
    exact ⟨hg,fun r v₂ h₂ => ih r (hk r (π v₂) (hs q v₁ r v₂ h₂))⟩

/-- A rule about one world holds in every world with fewer behaviours. -/
theorem wp_world {M' : World Q A W} (hr : ∀ w w', M'.rely w w' → M.rely w w')
    (hs : ∀ q w r w', M'.step q w r w' → M.step q w r w') {p : Prog Q A α}
    {P : α → W → Prop} {w : W} (h : wp M G p P w) : wp M' G p P w :=
  wp_project id hr hs h

theorem wp_any (p : Prog Q A α) (w : W) : wp M (fun _ _ => True) p (fun _ _ => True) w := by
  induction p generalizing w with
  | ret a => exact trivial
  | call q k ih => exact fun w₁ _ => ⟨trivial,fun r w₂ _ => ih r w₂⟩

/-- A program reaches what it returns. -/
theorem wp_reached (p : Prog Q A α) (w : W) :
    wp M (fun _ _ => True) p (fun a w' => Reach M p w (.ret a) w') w := by
  induction p generalizing w with
  | ret a => exact .refl _ w
  | call q k ih =>
    intro w₁ hr
    refine ⟨trivial,fun r w₂ hs => ?_⟩
    exact wp_mono (ih r w₂) fun a w₃ h => .rely hr (.step hs h)

theorem wp_and {G' : W → Q → Prop} {p : Prog Q A α} {P P' : α → W → Prop} {w : W}
    (h : wp M G p P w) (h' : wp M G' p P' w) :
    wp M (fun w q => G w q ∧ G' w q) p (fun a w => P a w ∧ P' a w) w := by
  induction p generalizing w with
  | ret a => exact ⟨h,h'⟩
  | call q k ih =>
    intro w₁ hr
    obtain ⟨⟨hg,hk⟩,hg',hk'⟩ := h w₁ hr,h' w₁ hr
    exact ⟨⟨hg,hg'⟩,fun r w₂ hs => ih r (hk r w₂ hs) (hk' r w₂ hs)⟩

/-- What every guarded request preserves holds throughout. -/
theorem wp_invariant {I : W → Prop} (hr : ∀ w w', I w → M.rely w w' → I w')
    (hs : ∀ w q r w', I w → G w q → M.step q w r w' → I w') {p : Prog Q A α}
    {P : α → W → Prop} {w : W} (hw : I w) (h : wp M G p P w) :
    wp M (fun w q => I w ∧ G w q) p (fun a w => I w ∧ P a w) w := by
  refine wp_assume hr hs hw (wp_world ?_ ?_ h)
  · exact fun _ _ h => h
  · exact fun _ _ _ _ h => h.2

/-- A rule that assumed `I` may be used where `I` is known to hold throughout. -/
theorem wp_discharge {I : W → Prop} {p : Prog Q A α} {P P' : α → W → Prop} {w : W}
    (h : wp (M.assume I) G p P w) (h' : wp M (fun w _ => I w) p P' w) : wp M G p P w := by
  induction p generalizing w with
  | ret a => exact h
  | call q k ih =>
    intro w₁ hr
    obtain ⟨hg,hk⟩ := h w₁ hr
    obtain ⟨hi,hk'⟩ := h' w₁ hr
    exact ⟨hg,fun r w₂ hs => ih r (hk r w₂ ⟨hi,hs⟩) (hk' r w₂ hs)⟩

/-- Run at most `n` requests of a program against a given way to answer them. -/
def advance (answer : (q : Q) → W → A q × W) : ℕ → Prog Q A α → W → Prog Q A α × W
  | 0, p, w => (p,w)
  | _+1, .ret a, w => (.ret a,w)
  | n+1, .call q k, w => advance answer n (k (answer q w).1) (answer q w).2

theorem reach_advance {answer : (q : Q) → W → A q × W}
    (h : ∀ q w, M.step q w (answer q w).1 (answer q w).2) (n : ℕ) (p : Prog Q A α) (w : W) :
    Reach M p w (advance answer n p w).1 (advance answer n p w).2 := by
  induction n generalizing p w with
  | zero => exact .refl p w
  | succ n ih =>
    cases p with
    | ret a => exact .refl _ w
    | call q k => exact .step (h q w) (ih _ _)

end Semantics

/-! ## Programs with memory and errors -/

/-- A program with working memory `σ`, whose changes survive an error `ε`; any
request may be answered by an error, which is then the program's own. -/
abbrev Script (Q : Type) (B : Q → Type) (σ ε α : Type) :=
  ExceptT ε (StateT σ (Prog Q fun q => Except ε (B q))) α

namespace Script
variable {Q : Type} {B : Q → Type} {W σ ε α β : Type}

/-- The program of a script on given memory. -/
def start (m : Script Q B σ ε α) (s : σ) : Prog Q (fun q => Except ε (B q)) (Except ε α × σ) :=
  m.run.run s

/-- Issue a request; a failed one ends the script. -/
def ask (q : Q) : Script Q B σ ε (B q) :=
  fun s => .call q fun r => .ret (r,s)

/-- Run a script to its end and hand its result back, errors included. -/
def attempt (m : Script Q B σ ε α) : Script Q B σ ε (Except ε α) := ExceptT.lift m.run

variable (M : World Q (fun q => Except ε (B q)) W) (G : W → Q → Prop)

def wp (m : Script Q B σ ε α) (P : Except ε α → σ → W → Prop) (s : σ) (w : W) : Prop :=
  Effect.wp M G (m.start s) (fun r w' => P r.1 r.2 w') w

variable {M G} {P : Except ε α → σ → W → Prop} {s : σ} {w : W}

theorem wp_pure (a : α) :
    wp M G (pure a : Script Q B σ ε α) P s w ↔ P (.ok a) s w := Iff.rfl

theorem wp_throw (e : ε) :
    wp M G (throw e : Script Q B σ ε α) P s w ↔ P (.error e) s w := Iff.rfl

theorem wp_get {P : Except ε σ → σ → W → Prop} :
    wp M G (get : Script Q B σ ε σ) P s w ↔ P (.ok s) s w := Iff.rfl

theorem wp_set (s' : σ) {P : Except ε PUnit → σ → W → Prop} :
    wp M G (set s' : Script Q B σ ε PUnit) P s w ↔ P (.ok ⟨⟩) s' w := Iff.rfl

theorem wp_modify (f : σ → σ) {P : Except ε PUnit → σ → W → Prop} :
    wp M G (modify f : Script Q B σ ε PUnit) P s w ↔ P (.ok ⟨⟩) (f s) w := Iff.rfl

theorem wp_ask (q : Q) {P : Except ε (B q) → σ → W → Prop} :
    wp M G (ask q : Script Q B σ ε (B q)) P s w ↔
      ∀ w₁, M.rely w w₁ → G w₁ q ∧ ∀ r w₂, M.step q w₁ r w₂ → P r s w₂ := Iff.rfl

theorem wp_bind {m : Script Q B σ ε α} {f : α → Script Q B σ ε β}
    {P : Except ε β → σ → W → Prop} :
    wp M G (m >>= f) P s w ↔
      wp M G m (fun r s w => match r with
        | .ok a => wp M G (f a) P s w
        | .error e => P (.error e) s w) s w := by
  change Effect.wp M G (m.start s >>= fun r => (ExceptT.bindCont f r.1).run r.2) _ _ ↔ _
  rw [Effect.wp_bind]
  have he : ∀ (r : Except ε α × σ) (w : W),
      Effect.wp M G ((ExceptT.bindCont f r.1).run r.2) (fun r w' => P r.1 r.2 w') w ↔
        match r.1 with
        | .ok a => wp M G (f a) P r.2 w
        | .error e => P (.error e) r.2 w := by
    rintro ⟨_ | _,_⟩ w <;> rfl
  simp only [he]
  exact Iff.rfl

theorem wp_attempt {m : Script Q B σ ε α} {P : Except ε (Except ε α) → σ → W → Prop} :
    wp M G m.attempt P s w ↔ wp M G m (fun r s w => P (.ok r) s w) s w := by
  have he : m.attempt.start s = (m.start s >>= fun r => .ret (Except.ok r.1,r.2)) := rfl
  rw [wp,he,Effect.wp_bind]
  exact Iff.rfl

theorem wp_mono {m : Script Q B σ ε α} {P' : Except ε α → σ → W → Prop}
    (h : wp M G m P s w) (hP : ∀ r s w, P r s w → P' r s w) : wp M G m P' s w :=
  Effect.wp_mono h fun r w => hP r.1 r.2 w

theorem wp_get_then {f : σ → Script Q B σ ε α} :
    wp M G (get >>= f) P s w ↔ wp M G (f s) P s w := Iff.rfl

theorem wp_modify_then {g : σ → σ} {f : PUnit → Script Q B σ ε α} :
    wp M G (modify g >>= f) P s w ↔ wp M G (f ⟨⟩) P (g s) w := Iff.rfl

theorem wp_pure_then {a : β} {f : β → Script Q B σ ε α} :
    wp M G (pure a >>= f) P s w ↔ wp M G (f a) P s w := Iff.rfl

/-- An end in `post`, or in `err` when the script fails. -/
def Ends (post : α → σ → W → Prop) (err : ε → σ → W → Prop) : Except ε α → σ → W → Prop
  | .ok a => post a
  | .error e => err e

variable {R : α → σ → W → Prop} {err err' : ε → σ → W → Prop}

theorem wp_seq {m : Script Q B σ ε α} {f : α → Script Q B σ ε β}
    {P : Except ε β → σ → W → Prop} (h : wp M G m (Ends R err) s w)
    (hok : ∀ a s w, R a s w → wp M G (f a) P s w)
    (herr : ∀ e s w, err e s w → P (.error e) s w) : wp M G (m >>= f) P s w := by
  refine wp_bind.2 (wp_mono h ?_)
  rintro (e | a) s w h
  · exact herr e s w h
  · exact hok a s w h

/-- A script followed by another one that fails in the same way. -/
theorem wp_then {m : Script Q B σ ε α} {f : α → Script Q B σ ε β}
    {R' : β → σ → W → Prop} (h : wp M G m (Ends R err) s w)
    (hok : ∀ a s w, R a s w → wp M G (f a) (Ends R' err) s w) :
    wp M G (m >>= f) (Ends R' err) s w := wp_seq h hok fun _ _ _ he => he

theorem wp_ends {m : Script Q B σ ε α} {R' : α → σ → W → Prop}
    (h : wp M G m (Ends R err) s w) (hok : ∀ a s w, R a s w → R' a s w)
    (herr : ∀ e s w, err e s w → err' e s w) : wp M G m (Ends R' err') s w := by
  refine wp_mono h ?_
  rintro (e | a) s w h
  · exact herr e s w h
  · exact hok a s w h

theorem wp_attempt_ends {m : Script Q B σ ε α} {F : ε → σ → W → Prop}
    (h : wp M G m (Ends R err) s w) : wp M G m.attempt (Ends (Ends R err) F) s w :=
  wp_attempt.2 h

end Script

/-! ## Programs that work on a part of the world -/

/-- A part of a larger state. -/
structure Part (V W : Type) where
  get : V → W
  put : V → W → V
  get_put : ∀ v w, get (put v w) = w
  put_put : ∀ v w w', put (put v w) w' = put v w'
  put_get : ∀ v, put v (get v) = v

/-- A rule about a part of the world leaves the rest of it alone. -/
theorem wp_part {Q : Type} {A : Q → Type} {V W α : Type} {M : World Q A W} {N : World Q A V}
    {G : W → Q → Prop} (π : Part V W)
    (hr : ∀ v v', N.rely v v' → ∃ w, M.rely (π.get v) w ∧ v' = π.put v w)
    (hs : ∀ q v r v', N.step q v r v' → ∃ w, M.step q (π.get v) r w ∧ v' = π.put v w)
    {p : Prog Q A α} {P : α → W → Prop} {v : V} (h : wp M G p P (π.get v)) :
    wp N (fun v q => G (π.get v) q) p (fun a v' => ∃ w, v' = π.put v w ∧ P a w) v := by
  induction p generalizing v with
  | ret a => exact ⟨π.get v,(π.put_get v).symm,h⟩
  | call q k ih =>
    intro v₁ hv₁
    obtain ⟨w,hw,rfl⟩ := hr v v₁ hv₁
    obtain ⟨hg,hk⟩ := h w hw
    refine ⟨by simpa only [π.get_put] using hg,fun r v₂ hv₂ => ?_⟩
    obtain ⟨w₂,hw₂,rfl⟩ := hs q _ r v₂ hv₂
    rw [π.get_put] at hw₂
    rw [π.put_put]
    have hrest := ih r (v := π.put v w₂) (by rw [π.get_put]; exact hk r w₂ hw₂)
    refine wp_mono hrest ?_
    rintro a v' ⟨w',rfl,hP⟩
    exact ⟨w',π.put_put v w₂ w',hP⟩

/-! ## Programs over some of the requests -/

/-- A program as one over more requests, whose replies are read as its own. -/
def Prog.embed {Q Q' : Type} {A : Q → Type} {A' : Q' → Type} {α : Type} (ι : Q → Q')
    (reply : ∀ q, A' (ι q) → A q) : Prog Q A α → Prog Q' A' α
  | .ret a => .ret a
  | .call q k => .call (ι q) fun r => (k (reply q r)).embed ι reply

section
variable {Q Q' : Type} {A : Q → Type} {A' : Q' → Type} {W α : Type}

/-- What the outside does to an embedded program. -/
def World.along (M : World Q' A' W) (ι : Q → Q') (reply : ∀ q, A' (ι q) → A q) : World Q A W where
  step := fun q w r w' => ∃ r', reply q r' = r ∧ M.step (ι q) w r' w'
  rely := M.rely
  rely_refl := M.rely_refl
  rely_trans := M.rely_trans

theorem wp_embed {M : World Q' A' W} {G : W → Q' → Prop} {ι : Q → Q'}
    {reply : ∀ q, A' (ι q) → A q} {p : Prog Q A α} {P : α → W → Prop} {w : W} :
    wp M G (p.embed ι reply) P w ↔ wp (M.along ι reply) (fun w q => G w (ι q)) p P w := by
  induction p generalizing w with
  | ret a => exact Iff.rfl
  | call q k ih =>
    simp only [Prog.embed,wp]
    refine forall₂_congr fun w₁ _ => and_congr_right fun _ => ?_
    constructor
    · rintro h _ w₂ ⟨r',rfl,hs⟩
      exact (ih _).mp (h r' w₂ hs)
    · intro h r' w₂ hs
      exact (ih _).mpr (h _ w₂ ⟨r',rfl,hs⟩)

end

namespace Script
variable {Q Q' : Type} {B : Q → Type} {B' : Q' → Type} {W σ ε α : Type}

/-- A script over the first of two kinds of requests. -/
def left (m : Script Q B σ ε α) : Script (Q ⊕ Q') (Sum.elim B B') σ ε α :=
  fun s => (m s).embed Sum.inl fun _ r => r

/-- A script over the second of two kinds of requests. -/
def right (m : Script Q' B' σ ε α) : Script (Q ⊕ Q') (Sum.elim B B') σ ε α :=
  fun s => (m s).embed Sum.inr fun _ r => r

variable {M : World (Q ⊕ Q') (fun q => Except ε (Sum.elim B B' q)) W} {G : W → Q ⊕ Q' → Prop}
  {P : Except ε α → σ → W → Prop} {s : σ} {w : W}

theorem wp_left {m : Script Q B σ ε α} : wp M G (left m) P s w ↔
    wp (M.along Sum.inl fun _ r => r) (fun w q => G w (.inl q)) m P s w := Effect.wp_embed

theorem wp_right {m : Script Q' B' σ ε α} : wp M G (right m) P s w ↔
    wp (M.along Sum.inr fun _ r => r) (fun w q => G w (.inr q)) m P s w := Effect.wp_embed

end Script

/-! ## What a program asks, and what it was told -/

namespace Prog
variable {Q : Type} {A : Q → Type} {α β : Type}

/-- Every request a program can ever issue satisfies `P`. -/
def Uses (P : Q → Prop) : Prog Q A α → Prop
  | .ret _ => True
  | .call q k => P q ∧ ∀ r, (k r).Uses P

theorem uses_bind {P : Q → Prop} {p : Prog Q A α} {f : α → Prog Q A β} (h : p.Uses P)
    (hf : ∀ a, (f a).Uses P) : (p >>= f).Uses P := by
  induction p with
  | ret a => exact hf a
  | call q k ih => exact ⟨h.1,fun r => ih r (h.2 r)⟩

/-- A program run from its start to a value, with all the replies it got. -/
inductive Runs : Prog Q A α → List (Σ q, A q) → α → Prop
  | ret (a : α) : Runs (.ret a) [] a
  | call {q : Q} {k : A q → Prog Q A α} {r : A q} {es : List (Σ q, A q)} {a : α}
      (h : Runs (k r) es a) : Runs (.call q k) (⟨q,r⟩::es) a

end Prog

theorem wp_uses {Q : Type} {A : Q → Type} {W α : Type} {M : World Q A W} {P : Q → Prop}
    {p : Prog Q A α} (h : p.Uses P) (w : W) :
    wp M (fun _ q => P q) p (fun _ _ => True) w := by
  induction p generalizing w with
  | ret a => exact trivial
  | call q k ih => exact fun w₁ _ => ⟨h.1,fun r w₂ _ => ih r (h.2 r) w₂⟩

/-- The world that answers at will and keeps a transcript. -/
def transcript (Q : Type) (A : Q → Type) : World Q A (List (Σ q, A q)) where
  step := fun q w r w' => w' = w ++ [⟨q,r⟩]

/-- A program leaves the transcript of its own run. -/
theorem wp_transcript {Q : Type} {A : Q → Type} {α : Type} {P : Q → Prop} {p : Prog Q A α}
    (h : p.Uses P) (w : List (Σ q, A q)) :
    wp (transcript Q A) (fun _ q => P q) p (fun a w' => ∃ es, w' = w ++ es ∧ p.Runs es a) w := by
  induction p generalizing w with
  | ret a => exact ⟨[],(List.append_nil w).symm,.ret a⟩
  | call q k ih =>
    rintro _ rfl
    refine ⟨h.1,fun r w' hw => ?_⟩
    have hk := ih r (h.2 r) w'
    refine wp_mono hk ?_
    rintro a _ ⟨es,rfl,hr⟩
    refine ⟨⟨q,r⟩::es,?_,.call hr⟩
    rw [show w' = w ++ [⟨q,r⟩] from hw,List.append_assoc]
    rfl

namespace Script
variable {Q : Type} {B : Q → Type} {σ ε α β : Type} {P : Q → Prop}

def Uses (P : Q → Prop) (m : Script Q B σ ε α) : Prop := ∀ s, (m.start s).Uses P

theorem uses_pure (a : α) : Uses P (pure a : Script Q B σ ε α) := fun _ => trivial
theorem uses_throw (e : ε) : Uses P (throw e : Script Q B σ ε α) := fun _ => trivial
theorem uses_set (s : σ) : Uses P (set s : Script Q B σ ε PUnit) := fun _ => trivial

theorem uses_ask {q : Q} (h : P q) : Uses P (ask q : Script Q B σ ε (B q)) :=
  fun _ => ⟨h,fun _ => trivial⟩

theorem uses_bind {m : Script Q B σ ε α} {f : α → Script Q B σ ε β} (h : Uses P m)
    (hf : ∀ a, Uses P (f a)) : Uses P (m >>= f) := by
  intro s
  refine Prog.uses_bind (h s) ?_
  rintro ⟨e | a,s'⟩
  · exact trivial
  · exact hf a s'

theorem uses_attempt {m : Script Q B σ ε α} (h : Uses P m) : Uses P m.attempt := fun s =>
  Prog.uses_bind (h s) fun _ => trivial

end Script

/-! ## What a script may return -/

section
variable {Q : Type} {A : Q → Type} {W α β : Type} {M : World Q A W}

/-- A returned sequence was run in two parts. -/
theorem Reach.bind {p : Prog Q A α} {f : α → Prog Q A β} {w w' : W} {b : β}
    (h : Reach M (p >>= f) w (.ret b) w') :
    ∃ a w₁, Reach M p w (.ret a) w₁ ∧ Reach M (f a) w₁ (.ret b) w' := by
  generalize hx : p >>= f = x at h
  generalize hy : (Prog.ret b : Prog Q A β) = y at h
  induction h generalizing p with
  | refl x w =>
    cases p with
    | ret a => exact ⟨a,w,.refl _ _,by rw [show f a = x from hx]; exact .refl _ _⟩
    | call q k => subst hy; cases hx
  | rely hr h ih =>
    cases p with
    | ret a => exact ⟨a,_,.refl _ _,by rw [show f a = _ from hx]; exact .rely hr (hy ▸ h)⟩
    | call q k =>
      obtain ⟨a,w₁,h₁,h₂⟩ := ih hx hy
      cases hx
      exact ⟨a,w₁,.rely hr h₁,h₂⟩
  | step hs h ih =>
    cases p with
    | ret a => exact ⟨a,_,.refl _ _,by rw [show f a = _ from hx]; exact .step hs (hy ▸ h)⟩
    | call q k =>
      cases hx
      obtain ⟨a,w₁,h₁,h₂⟩ := ih rfl hy
      exact ⟨a,w₁,.step hs h₁,h₂⟩

end

namespace Script
variable {Q : Type} {B : Q → Type} {W σ ε α β : Type} (M : World Q (fun q => Except ε (B q)) W)

/-- Some run of the script ends in this value. -/
def Yields (m : Script Q B σ ε α) (a : α) : Prop :=
  ∃ s w s' w', Reach M (m.start s) w (.ret (.ok a,s')) w'

variable {M}

theorem yields_pure {a b : α} (h : Yields M (pure a : Script Q B σ ε α) b) : a = b := by
  obtain ⟨s,w,s',w',h⟩ := h
  cases h
  rfl

theorem yields_throw {e : ε} {a : α} (h : Yields M (throw e : Script Q B σ ε α) a) : False := by
  obtain ⟨s,w,s',w',h⟩ := h
  cases h

theorem yields_bind {m : Script Q B σ ε α} {f : α → Script Q B σ ε β} {b : β}
    (h : Yields M (m >>= f) b) : ∃ a, Yields M m a ∧ Yields M (f a) b := by
  obtain ⟨s,w,s',w',h⟩ := h
  obtain ⟨⟨e | a,s₁⟩,w₁,hm,hf⟩ := Reach.bind (p := m.start s) h
  · cases hf
  · exact ⟨a,⟨s,w,s₁,w₁,hm⟩,s₁,w₁,s',w',hf⟩

end Script

/-! ## Systems: invocations one after another -/

/-- A world in which invocations run one at a time.  `start w w' p` says that an
invocation of program `p` may begin, and `idle` what others do between two. -/
structure System (Q : Type) (A : Q → Type) (W α : Type) extends World Q A W where
  start : W → W → Prog Q A α → Prop
  idle : W → W → Prop := rely

namespace System
variable {Q : Type} {A : Q → Type} {W α : Type} (S : System Q A W α)

/-- A world together with the rest of the invocation under way, if there is one. -/
abbrev Conf (_ : System Q A W α) := W × Option (Prog Q A α)

inductive Step : S.Conf → S.Conf → Prop
  | start {w w' : W} {p : Prog Q A α} (h : S.start w w' p) : Step (w,none) (w',some p)
  | idle {w w' : W} (h : S.idle w w') : Step (w,none) (w',none)
  | rely {w w' : W} {p : Prog Q A α} (h : S.rely w w') : Step (w,some p) (w',some p)
  | call {w w' : W} {q : Q} {k : A q → Prog Q A α} {r : A q} (h : S.step q w r w') :
      Step (w,some (.call q k)) (w',some (k r))
  | finish {w : W} {a : α} : Step (w,some (.ret a)) (w,none)
  | crash {w : W} {p : Prog Q A α} : Step (w,some p) (w,none)
  | torn {w w' : W} {q : Q} {k : A q → Prog Q A α} (h : S.torn q w w') :
      Step (w,some (.call q k)) (w',none)

/-- Every configuration of every run from `w₀`. -/
def Reachable (w₀ : W) (c : S.Conf) : Prop := Relation.ReflTransGen S.Step (w₀,none) c

/-- What a configuration satisfies when idle worlds satisfy `I`. -/
def Holds (G : W → Q → Prop) (I : W → Prop) : S.Conf → Prop
  | (w,none) => I w
  | (w,some p) => wp S.toWorld G p (fun _ => I) w

variable {S} {G : W → Q → Prop} {I : W → Prop}

/-- What makes `I` an invariant between invocations, and `G` one at every request. -/
structure Invariant (S : System Q A W α) (G : W → Q → Prop) (I : W → Prop) : Prop where
  start : ∀ w w' p, I w → S.start w w' p → wp S.toWorld G p (fun _ => I) w'
  idle : ∀ w w', I w → S.idle w w' → I w'
  rely : ∀ w w', I w → S.rely w w' → I w'
  guard : ∀ w q, G w q → I w
  torn : ∀ w q w', G w q → S.torn q w w' → I w'

theorem Invariant.step (h : Invariant S G I) {c c' : S.Conf} (hs : S.Step c c')
    (hc : S.Holds G I c) : S.Holds G I c' := by
  cases hs with
  | start hst => exact h.start _ _ _ hc hst
  | idle hi => exact h.idle _ _ hc hi
  | rely hr => exact wp_rely (fun _ hI => h.rely _ _ hI hr) hc hr
  | call hst => exact (hc _ (S.rely_refl _)).2 _ _ hst
  | finish => exact hc
  | crash =>
    rename_i w p
    cases p with
    | ret a => exact hc
    | call q k => exact h.guard _ _ (hc w (S.rely_refl w)).1
  | torn ht => exact h.torn _ _ _ (hc _ (S.rely_refl _)).1 ht

theorem Invariant.holds (h : Invariant S G I) {w₀ : W} (h₀ : I w₀) {c : S.Conf}
    (hc : S.Reachable w₀ c) : S.Holds G I c := by
  induction hc with
  | refl => exact h₀
  | tail _ hs ih => exact h.step hs ih

/-- Every request issued in any run meets the guard. -/
theorem Invariant.request (h : Invariant S G I) {w₀ w : W} (h₀ : I w₀) {p : Prog Q A α}
    {q : Q} (hc : S.Reachable w₀ (w,some p)) (hq : p.pending = some q) : G w q :=
  wp_pending (h.holds h₀ hc) hq

theorem Invariant.world (h : Invariant S G I) {w₀ : W} (h₀ : I w₀) {c : S.Conf}
    (hc : S.Reachable w₀ c) : I c.1 := by
  have hh := h.holds h₀ hc
  rcases c with ⟨w,_ | _ | ⟨q,k⟩⟩
  · exact hh
  · exact hh
  · exact h.guard w q (hh w (S.rely_refl w)).1

/-- What every guarded request preserves besides, once it holds, holds ever after. -/
theorem Invariant.keeps (h : Invariant S G I) {w₀ : W} (h₀ : I w₀) {J : W → Prop}
    (start : ∀ w w' p, J w → S.start w w' p → J w') (idle : ∀ w w', J w → S.idle w w' → J w')
    (rely : ∀ w w', J w → S.rely w w' → J w')
    (call : ∀ w q r w', G w q → J w → S.step q w r w' → J w')
    (torn : ∀ w q w', G w q → J w → S.torn q w w' → J w') {c c' : S.Conf}
    (hc : S.Reachable w₀ c) (hj : J c.1) (hs : Relation.ReflTransGen S.Step c c') : J c'.1 := by
  induction hs with
  | refl => exact hj
  | tail hr hs ih =>
    cases hs with
    | start hst => exact start _ _ _ ih hst
    | idle hi => exact idle _ _ ih hi
    | rely hr' => exact rely _ _ ih hr'
    | call hst => exact call _ _ _ _ (h.request h₀ (hc.trans hr) rfl) ih hst
    | finish => exact ih
    | crash => exact ih
    | torn ht => exact torn _ _ _ (h.request h₀ (hc.trans hr) rfl) ih ht

/-- What every guarded request preserves besides holds in every run. -/
theorem Invariant.carries (h : Invariant S G I) {w₀ : W} (h₀ : I w₀) {J : W → Prop} (j₀ : J w₀)
    (start : ∀ w w' p, J w → S.start w w' p → J w') (idle : ∀ w w', J w → S.idle w w' → J w')
    (rely : ∀ w w', J w → S.rely w w' → J w')
    (call : ∀ w q r w', G w q → J w → S.step q w r w' → J w')
    (torn : ∀ w q w', G w q → J w → S.torn q w w' → J w') {c : S.Conf}
    (hc : S.Reachable w₀ c) : J c.1 :=
  h.keeps h₀ start idle rely call torn .refl j₀ hc

theorem Invariant.between (h : Invariant S G I) {w₀ w : W} (h₀ : I w₀)
    (hc : S.Reachable w₀ (w,none)) : I w := h.holds h₀ hc

/-- A run of one program is part of a run of the system. -/
theorem Reachable.reach {w₀ w w' : W} {p p' : Prog Q A α}
    (hc : S.Reachable w₀ (w,some p)) (hr : Reach S.toWorld p w p' w') :
    S.Reachable w₀ (w',some p') := by
  induction hr with
  | refl => exact hc
  | rely h _ ih => exact ih (hc.tail (.rely h))
  | step h _ ih => exact ih (hc.tail (.call h))

/-- A program under way was started, and has been running since. -/
theorem Reachable.started {w₀ w : W} {p : Prog Q A α} (hc : S.Reachable w₀ (w,some p)) :
    ∃ w₁ w₂ w₃ p₀, S.Reachable w₀ (w₁,none) ∧ S.start w₁ w₂ p₀ ∧
      Reach S.toWorld p₀ w₂ p w₃ ∧ S.rely w₃ w := by
  generalize he : (w,some p) = c at hc
  induction hc generalizing w p with
  | refl => cases he
  | @tail b _ hr hs ih =>
    subst he
    cases hs with
    | start hst => exact ⟨_,_,_,_,hr,hst,.refl _ _,S.rely_refl _⟩
    | rely h =>
      obtain ⟨w₁,w₂,w₃,p₀,h₁,hst,hp,h₃⟩ := ih rfl
      exact ⟨w₁,w₂,w₃,p₀,h₁,hst,hp,S.rely_trans _ _ _ h₃ h⟩
    | call h =>
      obtain ⟨w₁,w₂,w₃,p₀,h₁,hst,hp,h₃⟩ := ih rfl
      exact ⟨w₁,w₂,_,p₀,h₁,hst,hp.trans (.rely h₃ (.step h (.refl _ _))),S.rely_refl _⟩

/-- What every started program returns, every run returns. -/
theorem Invariant.returned (h : Invariant S G I) {w₀ w : W} (h₀ : I w₀) {P : α → W → Prop}
    (hP : ∀ w w' p, I w → S.start w w' p → wp S.toWorld G p P w')
    (hr : ∀ a w w', P a w → S.rely w w' → P a w') {p : Prog Q A α} {a : α}
    (hc : S.Reachable w₀ (w,some p)) (ha : p.returned = some a) : P a w := by
  obtain ⟨w₁,w₂,w₃,p₀,h₁,hst,hp,h₃⟩ := Reachable.started hc
  exact hr a w₃ w (wp_returned (wp_reach (hP w₁ w₂ p₀ (h.between h₀ h₁) hst) hp) ha) h₃

end System

end Effect
end CanixToolbelt
