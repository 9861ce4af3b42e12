import CanixToolbelt.Transcript

/-! Rules for scripts that lift a result, keep their memory, or walk over a list, and for those
whose world is the transcript of what they were told. -/
namespace CanixToolbelt
namespace Effect
namespace Script

variable {Q : Type} {B : Q → Type} {W σ ε α β τ : Type}

/-- A result, as a script that asks nothing. -/
def lift (r : Except ε α) : Script Q B σ ε α := ExceptT.mk (pure r)

/-- A script without memory, as one that leaves the memory as it is. -/
def still (m : Script Q B Unit ε α) : Script Q B σ ε α :=
  fun s => m.start () >>= fun r => .ret (r.1,s)

section
variable {M : World Q (fun q => Except ε (B q)) W} {G : W → Q → Prop} {s : σ} {w : W}
  {R : α → σ → W → Prop} {err : ε → σ → W → Prop}

theorem wp_lift {r : Except ε α} {P : Except ε α → σ → W → Prop} :
    wp M G (lift r : Script Q B σ ε α) P s w ↔ P r s w := Iff.rfl

theorem wp_lift_then {r : Except ε α} {f : α → Script Q B σ ε β} {R' : β → σ → W → Prop}
    (hok : ∀ a, r = .ok a → wp M G (f a) (Ends R' err) s w)
    (herr : ∀ e, r = .error e → err e s w) :
    wp M G (lift r >>= f) (Ends R' err) s w := by
  refine wp_bind.2 (wp_lift.2 ?_)
  cases r with
  | error e => exact herr e rfl
  | ok a => exact hok a rfl

theorem wp_still {m : Script Q B Unit ε α} {P : Except ε α → σ → W → Prop} :
    wp M G (still m) P s w ↔ wp M G m (fun r _ w => P r s w) () w := by
  change Effect.wp M G (m.start () >>= fun r => .ret (r.1,s)) (fun r w' => P r.1 r.2 w') w ↔ _
  rw [Effect.wp_bind]
  exact Iff.rfl

/-- What the step for an item carries on to the items after it holds at the end of a fold. -/
theorem wp_foldlM {f : τ → α → Script Q B σ ε τ} {I : List α → τ → σ → W → Prop}
    (hstep : ∀ a as t s w, I (a::as) t s w → wp M G (f t a) (Ends (I as) err) s w)
    {as : List α} {t : τ} (h : I as t s w) : wp M G (as.foldlM f t) (Ends (I []) err) s w := by
  induction as generalizing t s w with
  | nil => exact h
  | cons a as ih =>
    rw [List.foldlM_cons]
    exact wp_then (hstep a as t s w h) fun t s w ht => ih ht

/-- A request of a recorded script is met by any reply. -/
theorem wp_told {G : List (Σ q, Except ε (B q)) → Q → Prop} {w : List (Σ q, Except ε (B q))} {q : Q}
    {P : Except ε (B q) → σ → List (Σ q, Except ε (B q)) → Prop} (hG : G w q)
    (hP : ∀ r, P r s (w ++ [⟨q,r⟩])) :
    wp (transcript Q fun q => Except ε (B q)) G (ask q : Script Q B σ ε (B q)) P s w := by
  refine (wp_ask q).2 ?_
  rintro _ rfl
  refine ⟨hG,fun r w' hw => ?_⟩
  rw [show w' = w ++ [⟨q,r⟩] from hw]
  exact hP r

theorem wp_told_then {G : List (Σ q, Except ε (B q)) → Q → Prop}
    {w : List (Σ q, Except ε (B q))} {q : Q} {f : B q → Script Q B σ ε α}
    {R : α → σ → List (Σ q, Except ε (B q)) → Prop}
    {err : ε → σ → List (Σ q, Except ε (B q)) → Prop} (hG : G w q)
    (hok : ∀ a, wp (transcript Q fun q => Except ε (B q)) G (f a) (Ends R err) s (w ++ [⟨q,.ok a⟩]))
    (herr : ∀ e, err e s (w ++ [⟨q,.error e⟩])) :
    wp (transcript Q fun q => Except ε (B q)) G (ask q >>= f) (Ends R err) s w := by
  refine wp_bind.2 (wp_told hG ?_)
  rintro (e | a)
  · exact herr e
  · exact hok a

end

/-! ## Requests -/

section
variable {P : Q → Prop}

theorem uses_lift (r : Except ε α) : Uses P (lift r : Script Q B σ ε α) := fun _ => trivial

theorem uses_forM {f : α → Script Q B σ ε Unit} (h : ∀ a, Uses P (f a)) (as : List α) :
    Uses P (as.forM f) := by
  induction as with
  | nil => exact uses_pure _
  | cons a as ih => exact uses_bind (h a) fun _ => ih

end

/-! ## Runs -/

section
variable {es : Replies Q B ε}

theorem ran_lift {r : Except ε α} {a : α} (h : Ran (lift r : Script Q B σ ε α) es a) :
    es = [] ∧ r = .ok a := by
  obtain ⟨s,s',h⟩ := h
  cases h
  exact ⟨rfl,rfl⟩

theorem ran_lift_then {r : Except ε α} {f : α → Script Q B σ ε β} {b : β}
    (h : Ran (lift r >>= f) es b) : ∃ a, r = .ok a ∧ Ran (f a) es b := by
  obtain ⟨a,es₁,es₂,rfl,h₁,h₂⟩ := ran_bind h
  obtain ⟨rfl,ha⟩ := ran_lift h₁
  exact ⟨a,ha,h₂⟩

theorem ran_ask {q : Q} {a : B q} (h : Ran (ask q : Script Q B σ ε (B q)) es a) :
    es = [⟨q,.ok a⟩] := by
  obtain ⟨s,s',h⟩ := h
  cases h with
  | call h =>
    cases h
    rfl

theorem ran_ask_then {q : Q} {a : B q} {f : B q → Script Q B σ ε β} {b : β} (h : Ran (f a) es b) :
    Ran (ask q >>= f) (⟨q,.ok a⟩::es) b := by
  obtain ⟨s,s',h⟩ := h
  exact ⟨s,s',.call h⟩

theorem ran_lift_iff {r : Except ε α} {a : α} :
    Ran (lift r : Script Q B Unit ε α) es a ↔ es = [] ∧ r = .ok a := by
  refine ⟨ran_lift,?_⟩
  rintro ⟨rfl,rfl⟩
  exact ⟨(),(),.ret _⟩

theorem ran_pure_iff {a b : α} : Ran (pure a : Script Q B Unit ε α) es b ↔ es = [] ∧ a = b := by
  refine ⟨ran_pure,?_⟩
  rintro ⟨rfl,rfl⟩
  exact ⟨(),(),.ret _⟩

/-- Without memory, two parts make a run. -/
theorem ran_seq {m : Script Q B Unit ε α} {f : α → Script Q B Unit ε β} {es₁ es₂ : Replies Q B ε}
    {a : α} {b : β} (hm : Ran m es₁ a) (hf : Ran (f a) es₂ b) : Ran (m >>= f) (es₁ ++ es₂) b := by
  obtain ⟨s,s₁,hm⟩ := hm
  obtain ⟨s₂,s₃,hf⟩ := hf
  exact ⟨s,s₃,Prog.Runs.seq hm hf⟩

theorem ran_lift_seq {r : Except ε α} {f : α → Script Q B Unit ε β} {a : α} {b : β}
    (hr : r = .ok a) (hf : Ran (f a) es b) : Ran (lift r >>= f) es b :=
  ran_seq (ran_lift_iff.mpr ⟨rfl,hr⟩) hf

/-- A walk over a list ran its step for every item. -/
theorem ran_forM {f : α → Script Q B σ ε Unit} {as : List α} (h : Ran (as.forM f) es ()) :
    ∀ a ∈ as, ∃ es', es' <:+: es ∧ Ran (f a) es' () := by
  induction as generalizing es with
  | nil => nofun
  | cons a as ih =>
    obtain ⟨⟨⟩,es₁,es₂,rfl,h₁,h₂⟩ := ran_bind h
    intro b hb
    rcases List.mem_cons.mp hb with rfl | hb
    · exact ⟨es₁,(List.prefix_append _ _).isInfix,h₁⟩
    · obtain ⟨es',hsub,h'⟩ := ih h₂ b hb
      exact ⟨es',hsub.trans (List.suffix_append _ _).isInfix,h'⟩

/-! ## Fixed answers -/

theorem result_ask_then (answer : (q : Q) → Except ε (B q)) {q : Q} {a : B q}
    {f : B q → Script Q B σ ε β} {s : σ} (h : answer q = .ok a) :
    result answer (ask q >>= f) s = result answer (f a) s :=
  result_bind answer (show (answer q,s) = (.ok a,s) by rw [h])

theorem result_lift_then (answer : (q : Q) → Except ε (B q)) {r : Except ε α} {a : α}
    {f : α → Script Q B σ ε β} {s : σ} (h : r = .ok a) :
    result answer (lift r >>= f) s = result answer (f a) s := by
  rw [h]
  exact result_bind answer rfl

/-- A sequence fails as its first part does. -/
theorem result_bind_error (answer : (q : Q) → Except ε (B q)) {m : Script Q B σ ε α}
    {f : α → Script Q B σ ε β} {s s₁ : σ} {e : ε} (h : result answer m s = (.error e,s₁)) :
    result answer (m >>= f) s = (.error e,s₁) := by
  have hm : (m.start s).respond answer = (.error e,s₁) := h
  have hbind := Prog.respond_bind answer (m.start s) fun r => (ExceptT.bindCont f r.1).run r.2
  rw [hm] at hbind
  exact hbind

/-- A run asks only what the program can ask. -/
theorem uses_runs {P : Q → Prop} {A : Q → Type} {p : Prog Q A α} (h : p.Uses P)
    {es : List (Σ q, A q)} {a : α} (hr : p.Runs es a) : ∀ e ∈ es, P e.1 := by
  induction hr with
  | ret a => simp
  | call hr ih => exact List.forall_mem_cons.mpr ⟨h.1,ih (h.2 _)⟩

/-- A script that asks only some requests leaves the transcript of its run. -/
theorem wp_recorded {P : Q → Prop} {m : Script Q B σ ε α} (h : Uses P m) (s : σ)
    (w : Replies Q B ε) : wp (transcript Q fun q => Except ε (B q)) (fun _ q => P q) m
      (Ends (fun a _ w' => ∃ es, w' = w ++ es ∧ (∀ e ∈ es, P e.1) ∧ Ran m es a)
        fun _ _ w' => ∃ es, w' = w ++ es ∧ ∀ e ∈ es, P e.1) s w := by
  refine Effect.wp_mono (wp_transcript (h s) w) ?_
  rintro ⟨_ | a,s'⟩ w' ⟨es,rfl,hruns⟩
  · exact ⟨es,rfl,uses_runs (h s) hruns⟩
  · exact ⟨es,rfl,uses_runs (h s) hruns,s,s',hruns⟩

end

end Script
end Effect
end CanixToolbelt
