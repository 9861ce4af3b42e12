import CanixToolbelt.ReviewSafety

/-! What a tick's outcome certifies, and when the next submission may come: the engine
watched by a clock and by the replies it got. -/
namespace CanixToolbelt
namespace Review
open Effect

variable {platform : Platform} {key : String} {j : Journal} {c : Comparison} {r : Run}
  {i : Intent}

/-! ## The watched engine -/

/-- What may go wrong with time: the wall clock is set back, or a comparison has moved
when the tick whose submission was rejected reads it again. -/
structure Faults where
  setBack : Prop
  moves : Prop

def Faults.all : Faults := ⟨True,True⟩

/-- Neither happens. -/
def Faults.Steady (faults : Faults) : Prop := ¬ faults.setBack ∧ ¬ faults.moves

/-- The clock, the retry times of definitive rejections, and what the tick under way was
told: its policy, its first and latest comparison, its evidence and its checks. -/
structure Watch where
  time : ℕ
  retry : Comparison → Option ℕ
  dispatched : Option Intent
  limited : Bool
  policy : Option Policy
  first : Option Candidate
  last : Option Candidate
  evidence : Option Evidence
  checks : Option (List String)

structure Watched where
  store : Store
  watch : Watch

namespace Watch

def begin (v : Watch) (policy : Policy) : Watch :=
  ⟨v.time,v.retry,none,false,some policy,none,none,none,none⟩

def read (v : Watch) (candidate : Candidate) : Watch :=
  { v with first := v.first.or (some candidate), last := some candidate }

/-- A retry time after a rejected submission holds for its comparison. -/
def limit (v : Watch) (rejected : Bool) (retry : Option ℕ) : Watch :=
  match v.dispatched, retry with
  | some i, some t =>
    if rejected then { v with
      retry := Function.update v.retry i.comparison (some t), limited := true } else v
  | _, _ => v

end Watch

/-- The comparison of a rejected submission is found again as it was. -/
def Stays (v : Watch) (candidate : Candidate) : Prop :=
  v.limited = true → ∀ i, v.dispatched = some i →
    candidate.comparison i.policyDigest = i.comparison ∧ candidate.isOpen = true

/-- How the watch follows a request and its reply. -/
def watches (faults : Faults) (rejected : Bool) : (q : Req) → Watch → Except Error (Rep q) →
    Watch → Prop
  | .now, v, r, v' => v' = v ∧ r = .ok v.time
  | .forgeCandidate _, v, r, v' => match r with
    | .ok candidate => (faults.moves ∨ Stays v candidate) ∧ v' = v.read candidate
    | .error _ => v' = v
  | .forgeChecks _ _, v, r, v' => match r with
    | .ok blockers => v' = { v with checks := some blockers }
    | .error _ => v' = v
  | .inspect _ _ _, v, r, v' => match r with
    | .ok evidence => v' = { v with evidence := some evidence }
    | .error _ => v' = v
  | .submit i, v, _, v' => v' = { v with dispatched := some i, limited := false }
  | .providerPollAt, v, r, v' => ∃ t, r = .ok t ∧ v' = v.limit rejected t
  | _, v, _, v' => v' = v

/-- Time passes, and journals get lost. -/
structure Passes (faults : Faults) (w w' : Watched) : Prop where
  lost : Lost w.store w'.store
  time : w.watch.time ≤ w'.watch.time ∨ faults.setBack
  rest : w'.watch = { w.watch with time := w'.watch.time }

theorem Passes.trans {faults : Faults} {w₁ w₂ w₃ : Watched} (h : Passes faults w₁ w₂)
    (h' : Passes faults w₂ w₃) : Passes faults w₁ w₃ := by
  refine ⟨h.lost.trans h'.lost,?_,?_⟩
  · rcases h.time with ht | ht
    · rcases h'.time with ht' | ht'
      · exact .inl (ht.trans ht')
      · exact .inr ht'
    · exact .inr ht
  · rw [h'.rest,h.rest]

/-- The engine's system, watched. -/
def watched (platform : Platform) (faults : Faults) :
    System Req (fun q => Except Error (Rep q)) Watched (Except Error Outcome × Unit) where
  step := fun q w r w' => (system platform).step q w.store r w'.store ∧
    watches faults w.store.rejected q w.watch r w'.watch
  rely := Passes faults
  torn := fun q w w' => (system platform).torn q w.store w'.store ∧
    ∃ r, watches faults w.store.rejected q w.watch r w'.watch
  rely_refl := fun w => ⟨Lost.refl w.store,.inl (le_refl _),rfl⟩
  rely_trans := fun _ _ _ => Passes.trans
  start := fun w w' p => ∃ policy url allowSubmit,
    w' = ⟨w.store,w.watch.begin policy⟩ ∧
    p = (ensureOnce platform policy url allowSubmit).start ()

/-! ## What the journals keep of time and verdicts -/

/-- A retained run whose outcome forbids a submission before `t`. -/
def Waits (r : Run) (t : ℕ) : Prop := ∃ o at_, r.outcome = some o ∧ o.nextPollAt = some at_ ∧ t ≤ at_

/-- The deferred runs of a comparison wait for its retry time. -/
def Patient (runs : List Run) (c : Comparison) (v : Watch) : Prop :=
  ∀ t, v.retry c = some t → v.time < t → ∀ r ∈ runs, r.intent.concerns c →
    r.submission = .deferred → Waits r t

/-- A comparison that was ever rejected is remembered. -/
def Remembers (runs : List Run) (c : Comparison) (v : Watch) : Prop :=
  v.retry c ≠ none → ∃ r ∈ runs, r.intent.concerns c

/-- No outcome is both ready and waiting. -/
def Settled (o : Option Outcome) : Prop := ∀ o', o = some o' → o'.verdict = .ready → o'.nextPollAt = none

/-- A journal fit to be written under a key. -/
structure Fit (platform : Platform) (faults : Faults) (key : String) (runs : List Run)
    (v : Watch) : Prop where
  patient : faults.Steady → ∀ c, c.file platform = key → Patient runs c v
  remembers : faults.Steady → ∀ c, c.file platform = key → Remembers runs c v
  settled : ∀ r ∈ runs, Settled r.outcome

/-- What holds of every stored journal, legacy ones included. -/
structure Timely (platform : Platform) (faults : Faults) (w : Watched) : Prop where
  patient : faults.Steady → ∀ c stored, w.store.journal (c.file platform) = some stored →
    Patient stored.runs c w.watch
  remembers : faults.Steady → ∀ c, w.watch.retry c ≠ none → (w.store.lock (c.file platform)).isSome ∧
    ∀ stored, w.store.journal (c.file platform) = some stored → stored ≠ .unreadable →
      ∃ r ∈ stored.runs, r.intent.concerns c
  settled : ∀ key stored, w.store.journal key = some stored → ∀ r ∈ stored.runs, Settled r.outcome

/-- What the engine makes sure of before it issues a request. -/
def Prudent (platform : Platform) (faults : Faults) (w : Watched) : Req → Prop
  | .submit i => faults.Steady → ∀ t, w.watch.retry i.comparison = some t → t ≤ w.watch.time
  | .writeJournal key j => Fit platform faults key j.runs w.watch
  | .providerPollAt => faults.Steady → w.store.rejected = true → ∀ i, w.watch.dispatched = some i →
      latest i.comparison w.store.submits = some false
  | _ => True

/-! ## What one request changes -/

variable {faults : Faults} {w w' : Watched}

theorem answers_files {q : Req} {a : Except Error (Rep q)} {w w' : Store}
    (h : answers q w a w') :
    (w'.journal = w.journal ∨ ∃ key j, q = .writeJournal key j ∧ w' = w.write key j) ∧
      ∀ key, (w.lock key).isSome → (w'.lock key).isSome := by
  cases q with
  | capabilities | now | nonce | pid | forgePollAt =>
    rw [h.1]
    exact ⟨.inl rfl,fun _ hk => hk⟩
  | forgeCandidate | forgeChecks | createDir | tryLock | inspect | submit =>
    rw [show w' = _ from h]
    exact ⟨.inl rfl,fun _ hk => hk⟩
  | providerPollAt =>
    obtain ⟨t,_,rfl⟩ := h
    obtain ⟨hl,hj,_⟩ := polled_eq w t
    exact ⟨.inl hj,fun key hk => by rw [hl]; exact hk⟩
  | openLock key =>
    have ho : ∀ fresh, (opened w key fresh).journal = w.journal ∧
        ∀ key', (w.lock key').isSome → ((opened w key fresh).lock key').isSome := by
      rintro (_ | _)
      · exact ⟨rfl,fun _ hk => hk⟩
      · exact ⟨rfl,fun _ => isSome_locked w key ""⟩
    rcases a with e | fresh
    · rcases h with rfl | rfl
      · exact ⟨.inl rfl,fun _ hk => hk⟩
      · exact ⟨.inl (ho _).1,(ho _).2⟩
    · rw [h.2]
      exact ⟨.inl (ho _).1,(ho _).2⟩
  | readAnchor | readJournal =>
    rcases a with e | x
    · rw [show w' = w from h]
      exact ⟨.inl rfl,fun _ hk => hk⟩
    · rw [h.2]
      exact ⟨.inl rfl,fun _ hk => hk⟩
  | writeJournal key j =>
    rcases h with rfl | ⟨rfl,_⟩
    · exact ⟨.inr ⟨key,j,rfl,rfl⟩,fun _ hk => hk⟩
    · exact ⟨.inl rfl,fun _ hk => hk⟩
  | writeAnchor key =>
    rcases a with e | x
    · rcases h with rfl | ⟨n,rfl⟩
      · exact ⟨.inl rfl,fun _ hk => hk⟩
      · exact ⟨.inl rfl,fun _ => isSome_locked w key _⟩
    · rw [show w' = _ from h]
      exact ⟨.inl rfl,fun _ => isSome_locked w key _⟩

@[simp] theorem limit_none (v : Watch) (rejected : Bool) : v.limit rejected none = v := by
  cases hd : v.dispatched <;> simp [Watch.limit,hd]

@[simp] theorem limit_false (v : Watch) (t : Option ℕ) : v.limit false t = v := by
  cases hd : v.dispatched <;> cases t <;> simp [Watch.limit,hd]

theorem limit_eq (v : Watch) (rejected : Bool) (t : Option ℕ) :
    (v.limit rejected t).time = v.time ∧ ((v.limit rejected t).retry = v.retry ∨
      ∃ i t', rejected = true ∧ v.dispatched = some i ∧
        (v.limit rejected t).retry = Function.update v.retry i.comparison (some t')) := by
  rcases hd : v.dispatched with _ | i
  · simp [Watch.limit,hd]
  · rcases t with _ | t
    · simp [Watch.limit,hd]
    · cases rejected
      · simp [Watch.limit,hd]
      · simp only [Watch.limit,hd,if_true]
        exact ⟨trivial,.inr ⟨i,t,trivial,rfl,rfl⟩⟩

theorem watches_retry {q : Req} {a : Except Error (Rep q)} {v v' : Watch} {rejected : Bool}
    (h : watches faults rejected q v a v') : v'.time = v.time ∧ (v'.retry = v.retry ∨
      (q = .providerPollAt ∧ ∃ i t, rejected = true ∧ v.dispatched = some i ∧
        v'.retry = Function.update v.retry i.comparison (some t))) := by
  cases q with
  | now =>
    rw [h.1]
    exact ⟨rfl,.inl rfl⟩
  | forgeCandidate =>
    rcases a with e | x
    · rw [show v' = v from h]
      exact ⟨rfl,.inl rfl⟩
    · rw [h.2]
      exact ⟨rfl,.inl rfl⟩
  | forgeChecks | inspect =>
    rcases a with e | x <;> rw [show v' = _ from h] <;> exact ⟨rfl,.inl rfl⟩
  | providerPollAt =>
    obtain ⟨t,_,rfl⟩ := h
    obtain ⟨ht,hr⟩ := limit_eq v rejected t
    exact ⟨ht,hr.imp_right fun h => ⟨rfl,h⟩⟩
  | _ =>
    rw [show v' = _ from h]
    exact ⟨rfl,.inl rfl⟩

theorem Patient.mono {runs runs' : List Run} {v v' : Watch} (h : Patient runs c v)
    (hr : v'.retry c = v.retry c) (ht : v.time ≤ v'.time) (hs : ∀ r ∈ runs', r ∈ runs) :
    Patient runs' c v' := by
  intro t hc hlt r hm
  rw [hr] at hc
  exact h t hc (ht.trans_lt hlt) r (hs r hm)

/-- What is stored after a write: the new journal under its key, and the rest as before. -/
theorem write_journal {w : Store} {key' : String} {stored : Stored}
    (h : (w.write key j).journal key' = some stored) :
    (key' = key ∧ stored = .journal j) ∨ w.journal key' = some stored := by
  by_cases hk : key' = key
  · subst hk
    simp only [Store.write,Function.update_self,Option.some.injEq] at h
    exact .inl ⟨rfl,h.symm⟩
  · simp only [Store.write,Function.update_of_ne hk] at h
    exact .inr h

theorem Lost.stored {w w' : Store} {stored : Stored} (h : Lost w w')
    (hj : w'.journal key = some stored) : w.journal key = some stored ∨ stored.runs = [] := by
  rcases h.journal key with hk | hk | hk <;> rw [hk] at hj
  · exact .inl hj
  · cases hj
  · cases hj
    exact .inr rfl

theorem Timely.passes (h : Timely platform faults w) (hp : Passes faults w w') :
    Timely platform faults w' where
  patient := by
    intro hst c stored hj
    have ht := hp.time.resolve_right hst.1
    rcases hp.lost.stored hj with hj | hn
    · refine (h.patient hst c stored hj).mono ?_ ht fun _ hr => hr
      rw [hp.rest]
    · intro t _ _ r hr
      rw [hn] at hr
      cases hr
  remembers := by
    intro hst c hc
    rw [hp.rest] at hc
    obtain ⟨hl,hk⟩ := h.remembers hst c hc
    refine ⟨by rw [hp.lost.eq.1]; exact hl,fun stored hj hu => ?_⟩
    rcases hp.lost.journal (c.file platform) with hk' | hk' | hk' <;> rw [hk'] at hj
    · exact hk stored hj hu
    · cases hj
    · cases hj
      exact absurd rfl hu
  settled := by
    intro key stored hj r hr
    rcases hp.lost.stored hj with hj | hn
    · exact h.settled key stored hj r hr
    · rw [hn] at hr
      cases hr

/-- Neither the journals nor the retry times change. -/
theorem Timely.keep (h : Timely platform faults w)
    (hj : w'.store.journal = w.store.journal)
    (hl : ∀ key, (w.store.lock key).isSome → (w'.store.lock key).isSome)
    (ht : w'.watch.time = w.watch.time) (hr : w'.watch.retry = w.watch.retry) :
    Timely platform faults w' where
  patient := by
    intro hst c stored hs
    rw [hj] at hs
    exact (h.patient hst c stored hs).mono (by rw [hr]) (by rw [ht]) fun _ hr => hr
  remembers := by
    intro hst c hc
    rw [hr] at hc
    obtain ⟨hlock,hk⟩ := h.remembers hst c hc
    refine ⟨hl _ hlock,fun stored hs hu => ?_⟩
    rw [hj] at hs
    exact hk stored hs hu
  settled := by
    intro key stored hs
    rw [hj] at hs
    exact h.settled key stored hs

theorem Timely.write (h : Timely platform faults w) (hf : Fit platform faults key j.runs w.watch)
    (hw : w'.store = w.store.write key j) (ht : w'.watch.time = w.watch.time)
    (hr : w'.watch.retry = w.watch.retry) : Timely platform faults w' where
  patient := by
    intro hst c stored hj
    rw [hw] at hj
    have hp : Patient stored.runs c w.watch := by
      rcases write_journal hj with ⟨hk,rfl⟩ | hj
      · exact hf.patient hst c hk
      · exact h.patient hst c stored hj
    exact hp.mono (by rw [hr]) (by rw [ht]) fun _ hr => hr
  remembers := by
    intro hst c hc
    rw [hr] at hc
    obtain ⟨hlock,hk⟩ := h.remembers hst c hc
    refine ⟨by rw [hw]; exact hlock,fun stored hj hu => ?_⟩
    rw [hw] at hj
    rcases write_journal hj with ⟨hkey,rfl⟩ | hj
    · exact hf.remembers hst c hkey hc
    · exact hk stored hj hu
  settled := by
    intro key' stored hj
    rw [hw] at hj
    rcases write_journal hj with ⟨_,rfl⟩ | hj
    · exact hf.settled
    · exact h.settled key' stored hj

/-- Among distinct runs a comparison has one run only. -/
theorem Distinct.unique {runs : List Run} {s : Run} (h : Distinct runs) (hr : r ∈ runs)
    (hs : s ∈ runs) (hrc : r.intent.concerns c) (hsc : s.intent.concerns c) : r = s := by
  induction runs with
  | nil => cases hr
  | cons t runs ih =>
    rw [Distinct,List.map_cons,List.pairwise_cons] at h
    have hn : ∀ {s}, s ∈ runs → t.intent.concerns c → ¬ s.intent.concerns c := fun hs htc =>
      h.1 _ (List.mem_map_of_mem hs) c htc
    rcases List.mem_cons.1 hr with he | hr'
    · subst he
      rcases List.mem_cons.1 hs with he | hs'
      · exact he.symm
      · exact absurd hsc (hn hs' hrc)
    · rcases List.mem_cons.1 hs with he | hs'
      · subst he
        exact absurd hrc (hn hr' hsc)
      · exact ih h.2 hr' hs'

theorem not_deferred_of_kept {stored : Stored} {s : Run} (hs : Distinct stored.runs)
    (hk : Kept c (some stored)) (hm : s ∈ stored.runs) (hc : s.intent.concerns c) :
    s.submission ≠ .deferred := by
  cases stored with
  | journal j =>
    obtain ⟨r,hr,hrc,hd⟩ := hk
    exact hs.unique hr hm hrc hc ▸ hd
  | run r => exact hk.elim
  | unreadable => cases hm

/-- A definitive rejection: the run it is about was saved as unknown. -/
theorem Timely.limit {t : ℕ} (h : Timely platform faults w)
    (hs : faults.Steady → Sound platform w.store)
    (hi : faults.Steady → latest i.comparison w.store.submits = some false)
    (hj : w'.store.journal = w.store.journal)
    (hl : ∀ key, (w.store.lock key).isSome → (w'.store.lock key).isSome)
    (ht : w'.watch.time = w.watch.time)
    (hr : w'.watch.retry = Function.update w.watch.retry i.comparison (some t)) :
    Timely platform faults w' where
  patient := by
    intro hst c stored hstored
    rw [hj] at hstored
    by_cases hc : c = i.comparison
    · subst hc
      intro t' _ _ r hm hrc hd
      have hk := ((hs hst).kept _ (hi hst)).2
      rw [hstored] at hk
      have hdistinct : Distinct stored.runs := by
        cases stored with
        | journal j => exact (hs hst).distinct _ j hstored
        | run r => exact List.pairwise_singleton _ _
        | unreadable => exact List.Pairwise.nil
      exact absurd hd (not_deferred_of_kept hdistinct hk hm hrc)
    · refine (h.patient hst c stored hstored).mono ?_ (by rw [ht]) fun _ hr => hr
      rw [hr,Function.update_of_ne hc]
  remembers := by
    intro hst c hc
    by_cases hci : c = i.comparison
    · subst hci
      obtain ⟨hlock,hk⟩ := (hs hst).kept _ (hi hst)
      refine ⟨hl _ hlock,fun stored hstored hu => ?_⟩
      rw [hj] at hstored
      rw [hstored] at hk
      obtain ⟨r,hr,hrc,_⟩ := Retains.of_kept hk hu
      exact ⟨r,hr,hrc⟩
    · rw [hr,Function.update_of_ne hci] at hc
      obtain ⟨hlock,hk⟩ := h.remembers hst c hc
      refine ⟨hl _ hlock,fun stored hstored hu => ?_⟩
      rw [hj] at hstored
      exact hk stored hstored hu
  settled := by
    intro key stored hstored
    rw [hj] at hstored
    exact h.settled key stored hstored

/-- Every prudent request keeps the journals timely. -/
theorem Timely.answer {q : Req} {a b : Except Error (Rep q)} (h : Timely platform faults w)
    (hs : faults.Steady → Sound platform w.store) (hp : Prudent platform faults w q)
    (ha : answers q w.store a w'.store)
    (hb : watches faults w.store.rejected q w.watch b w'.watch) : Timely platform faults w' := by
  obtain ⟨hfile,hlock⟩ := answers_files ha
  obtain ⟨ht,hr⟩ := watches_retry hb
  rcases hfile with hj | ⟨key,j,rfl,hw⟩
  · rcases hr with hr | ⟨rfl,i,t,hrej,hd,hr⟩
    · exact h.keep hj hlock ht hr
    · exact h.limit hs (fun hst => hp hst hrej i hd) hj hlock ht hr
  · rcases hr with hr | ⟨hq,_⟩
    · exact h.write hp hw ht hr
    · cases hq

/-! ## The tick under way -/

/-- What holds of the watched world between two requests. -/
def Kempt (platform : Platform) (faults : Faults) (w : Watched) : Prop :=
  (faults.Steady → Sound platform w.store) ∧ Timely platform faults w

abbrev watching (platform : Platform) (faults : Faults) :=
  (watched platform faults).toWorld.assume (Kempt platform faults)

/-- A part of a watched tick that ends in `post`, unless it fails. -/
def Knows (platform : Platform) (faults : Faults) {α : Type} (m : Tick α)
    (post : α → Watched → Prop) (w : Watched) : Prop :=
  Script.wp (watching platform faults) (Prudent platform faults) m
    (Script.Ends (fun a _ => post a) fun _ _ _ => True) () w

section
variable {α β : Type} {m : Tick α} {f : α → Tick β} {post : α → Watched → Prop}
  {post' : β → Watched → Prop} {q : Req}

theorem Knows.seq (h : Knows platform faults m post w)
    (hf : ∀ a w', post a w' → Knows platform faults (f a) post' w') :
    Knows platform faults (m >>= f) post' w :=
  Script.wp_then h fun a _ w' => hf a w'

theorem Knows.imp {post' : α → Watched → Prop} (h : Knows platform faults m post w)
    (hp : ∀ a w', post a w' → post' a w') : Knows platform faults m post' w :=
  Script.wp_ends h (fun a _ w' => hp a w') fun _ _ _ he => he

theorem Knows.attempt {post : Except Error (Rep q) → Watched → Prop}
    (hq : ∀ w₁, Passes faults w w₁ → Prudent platform faults w₁ q)
    (ha : ∀ w₁ a w₂, Passes faults w w₁ → Kempt platform faults w₁ → answers q w₁.store a w₂.store →
      watches faults w₁.store.rejected q w₁.watch a w₂.watch → post a w₂) :
    Knows platform faults (Script.ask q).attempt post w := by
  refine Script.wp_attempt.2 ((Script.wp_ask q).2 fun w₁ hl => ⟨hq w₁ hl,?_⟩)
  rintro a w₂ ⟨hk,⟨_,hw⟩,hv⟩
  exact ha w₁ a w₂ hl hk hw hv

theorem Knows.ask {post : Rep q → Watched → Prop}
    (hq : ∀ w₁, Passes faults w w₁ → Prudent platform faults w₁ q)
    (ha : ∀ w₁ b w₂, Passes faults w w₁ → Kempt platform faults w₁ →
      answers q w₁.store (.ok b) w₂.store →
      watches faults w₁.store.rejected q w₁.watch (.ok b) w₂.watch → post b w₂) :
    Knows platform faults (Script.ask q) post w := by
  refine (Script.wp_ask q).2 fun w₁ hl => ⟨hq w₁ hl,?_⟩
  rintro (e | b) w₂ ⟨hk,⟨_,hw⟩,hv⟩
  · exact trivial
  · exact ha w₁ b w₂ hl hk hw hv

end

/-- Time passes, and nothing else is told. -/
structure Elapsed (faults : Faults) (v v' : Watch) : Prop where
  time : faults.Steady → v.time ≤ v'.time
  rest : v' = { v with time := v'.time }

theorem Elapsed.refl (v : Watch) : Elapsed faults v v := ⟨fun _ => le_refl _,rfl⟩

theorem Elapsed.trans {v₁ v₂ v₃ : Watch} (h : Elapsed faults v₁ v₂) (h' : Elapsed faults v₂ v₃) :
    Elapsed faults v₁ v₃ := by
  refine ⟨fun hs => (h.time hs).trans (h'.time hs),?_⟩
  rw [h'.rest,h.rest]

theorem Passes.elapsed (h : Passes faults w w') : Elapsed faults w.watch w'.watch :=
  ⟨fun hs => h.time.resolve_right hs.1,h.rest⟩

/-- Requests whose replies the watch does not keep. -/
def Req.untold : Req → Prop
  | .forgePollAt | .capabilities | .now | .nonce | .pid | .createDir | .openLock _ | .tryLock _
  | .readAnchor _ | .readJournal _ | .writeAnchor _ => True
  | _ => False

theorem watches_untold {q : Req} {a : Except Error (Rep q)} {v v' : Watch} {rejected : Bool}
    (hq : q.untold) (h : watches faults rejected q v a v') : v' = v := by
  cases q with
  | now => exact h.1
  | forgePollAt | capabilities | nonce | pid | createDir | openLock | tryLock | readAnchor
  | readJournal | writeAnchor => exact h
  | _ => exact hq.elim

theorem ask_elapsed {q : Req} (hq : q.untold) (w : Watched) :
    Knows platform faults (Script.ask q) (fun _ w' => Elapsed faults w.watch w'.watch) w := by
  refine Knows.ask (fun w₁ _ => ?_) fun w₁ b w₂ hp _ _ hv => ?_
  · cases q <;> trivial
  · rw [watches_untold hq hv]
    exact hp.elapsed

theorem Fit.elapsed {runs : List Run} {v v' : Watch} (h : Fit platform faults key runs v)
    (he : Elapsed faults v v') : Fit platform faults key runs v' where
  patient := fun hs c hc => (h.patient hs c hc).mono (by rw [he.rest]) (he.time hs) fun _ hr => hr
  remembers := by
    intro hs c hc hr
    rw [he.rest] at hr
    exact h.remembers hs c hc hr
  settled := h.settled

theorem outcome_told {candidate : Candidate} {intent : Option Intent} {verdict : Verdict}
    {blockers : List String} {review : Option Evaluation} :
    Knows platform faults (outcome candidate intent verdict blockers review) (fun o w' =>
      Elapsed faults w.watch w'.watch ∧ o.verdict = verdict ∧ o.nextPollAt = none ∧
        o.review = review ∧ Lost w.store w'.store) w := by
  have hnow : Knows platform faults nowSeconds
      (fun _ w' => Elapsed faults w.watch w'.watch ∧ Lost w.store w'.store) w := by
    refine Knows.ask (fun _ _ => trivial) fun w₁ _ w₂ hp _ hw hv => ?_
    rw [hv.1,hw.1]
    exact ⟨hp.elapsed,hp.lost⟩
  exact Knows.seq hnow fun _ _ h => ⟨h.1,rfl,rfl,rfl,h.2⟩

/-- A tick that goes on has passed the poll time of the retained outcome. -/
theorem waiting_told (o : Option Run) (w : Watched) :
    Knows platform faults (waiting o) (fun x w' => Elapsed faults w.watch w'.watch ∧ match x with
      | some previous => o.bind Run.outcome = some previous ∧ previous.nextPollAt ≠ none
      | none => ∀ r t, o = some r → Waits r t → t ≤ w'.watch.time) w := by
  unfold waiting
  split
  · next hn =>
    refine ⟨.refl _,?_⟩
    rintro r t rfl ⟨o,at_,ho,_⟩
    rw [Option.bind_some,ho] at hn
    cases hn
  · next previous hp =>
    split
    · next hn =>
      refine ⟨.refl _,?_⟩
      rintro r t rfl ⟨o,at_,ho,hat,_⟩
      rw [Option.bind_some,ho] at hp
      cases hp
      rw [hn] at hat
      cases hat
    · next t ht =>
      have hnow : Knows platform faults nowSeconds
          (fun now w' => Elapsed faults w.watch w'.watch ∧ now = w'.watch.time) w := by
        refine Knows.ask (fun _ _ => trivial) ?_
        rintro w₁ now w₂ hp _ _ ⟨hv,hnow⟩
        cases hnow
        rw [hv]
        exact ⟨hp.elapsed,rfl⟩
      refine Knows.seq hnow ?_
      rintro _ w₁ ⟨he,rfl⟩
      by_cases hlt : w₁.watch.time < t
      · rw [if_pos hlt]
        refine ⟨he,hp,?_⟩
        rw [ht]
        exact Option.some_ne_none t
      · rw [if_neg hlt]
        refine ⟨he,?_⟩
        rintro r t' rfl ⟨o,at_,ho,hat,hle⟩
        rw [Option.bind_some,ho] at hp
        cases hp
        rw [ht] at hat
        cases hat
        exact hle.trans (not_lt.1 hlt)

/-! ## Saving and loading -/

/-- A tick's journal in memory. -/
structure Memory (platform : Platform) (faults : Faults) (key : String) (j : Journal)
    (v : Watch) : Prop where
  distinct : faults.Steady → Distinct j.runs
  fit : Fit platform faults key j.runs v

theorem Memory.elapsed {v v' : Watch} (h : Memory platform faults key j v)
    (he : Elapsed faults v v') : Memory platform faults key j v' := ⟨h.distinct,h.fit.elapsed he⟩

theorem of_mem_replaceRun {s : Run} {rs : List Run} (h : s ∈ replaceRun r rs) :
    s ∈ rs ∨ s = r := by
  induction rs with
  | nil => exact .inr (List.mem_singleton.1 h)
  | cons t rs ih =>
    rw [replaceRun] at h
    split at h
    · rcases List.mem_cons.1 h with h | h
      · exact .inr h
      · exact .inl (List.mem_cons_of_mem t h)
    · rcases List.mem_cons.1 h with h | h
      · exact .inl (h ▸ List.mem_cons_self)
      · exact (ih h).imp_left (List.mem_cons_of_mem t)

/-- A run that may be saved: of its comparison, waiting where it is deferred. -/
structure Savable (faults : Faults) (j : Journal) (c : Comparison) (r : Run) (v : Watch) :
    Prop where
  concerns : r.intent.concerns c
  known : Known j c r
  waits : faults.Steady → r.submission = .deferred → ∀ t, v.retry c = some t → v.time < t →
    Waits r t
  settled : Settled r.outcome

theorem Savable.elapsed {v v' : Watch} (h : Savable faults j c r v) (he : Elapsed faults v v') :
    Savable faults j c r v' where
  concerns := h.concerns
  known := h.known
  waits := by
    intro hs hd t ht hlt
    rw [he.rest] at ht
    exact h.waits hs hd t ht ((he.time hs).trans_lt hlt)
  settled := h.settled

theorem Memory.replaceRun {v : Watch} (h : Memory platform faults key j v)
    (hr : Savable faults j c r v) (ha : Agrees r j.runs) :
    Memory platform faults key { j with runs := replaceRun r j.runs } v where
  distinct := fun hs => (h.distinct hs).replaceRun hr.concerns hr.known ha
  fit := by
    refine ⟨fun hs c' hc' t ht hlt s hm hsc hd => ?_,fun hs c' hc' hne => ?_,fun s hm => ?_⟩
    · rcases of_mem_replaceRun hm with hm | rfl
      · exact h.fit.patient hs c' hc' t ht hlt s hm hsc hd
      · have hcc : c' = c := hsc.2.symm.trans hr.concerns.2
        subst hcc
        exact hr.waits hs hd t ht hlt
    · obtain ⟨s,hm,hsc⟩ := h.fit.remembers hs c' hc' hne
      rcases replaceRun_keeps ha hm with hk | hk
      · exact ⟨s,hk,hsc⟩
      · exact ⟨r,mem_replaceRun r _,hk ▸ hsc⟩
    · rcases of_mem_replaceRun hm with hm | rfl
      · exact h.fit.settled s hm
      · exact hr.settled

theorem saveRun_told (h : Memory platform faults key j w.watch)
    (hr : Savable faults j c r w.watch) :
    Knows platform faults (saveRun key j r) (fun j' w' => Elapsed faults w.watch w'.watch ∧
      Memory platform faults key j' w'.watch ∧ r ∈ j'.runs) w := by
  rw [saveRun]
  by_cases ha : (j.runs.find? (·.intent.id = r.intent.id)).any (·.intent ≠ r.intent) = true
  · rw [if_pos ha]
    exact trivial
  rw [if_neg ha]
  have hwrite : Knows platform faults (writeJournal key { j with runs := replaceRun r j.runs })
      (fun _ w' => Elapsed faults w.watch w'.watch) w := by
    refine Knows.ask (fun w₁ hp => ?_) fun w₁ b w₂ hp _ _ hv => ?_
    · exact ((h.elapsed hp.elapsed).replaceRun (hr.elapsed hp.elapsed) ha).fit
    · rw [show w₂.watch = w₁.watch from hv]
      exact hp.elapsed
  refine Knows.seq hwrite fun _ w₁ he => ?_
  exact ⟨he,(h.elapsed he).replaceRun (hr.elapsed he) ha,mem_replaceRun r _⟩

theorem arm_told (h : Memory platform faults key j w.watch) :
    Knows platform faults (arm key j) (fun j' w' => Elapsed faults w.watch w'.watch ∧
      Memory platform faults key j' w'.watch) w := by
  have hwrite : Knows platform faults (writeJournal key j)
      (fun _ w' => Elapsed faults w.watch w'.watch) w := by
    refine Knows.ask (fun w₁ hp => (h.elapsed hp.elapsed).fit) fun w₁ b w₂ hp _ _ hv => ?_
    rw [show w₂.watch = w₁.watch from hv]
    exact hp.elapsed
  refine Knows.seq hwrite fun _ w₁ h₁ => ?_
  refine Knows.seq (ask_elapsed (q := Req.writeAnchor key) trivial w₁) fun _ w₂ h₂ => ?_
  exact ⟨h₁.trans h₂,h.elapsed (h₁.trans h₂)⟩

/-- A stored journal or run is fit for memory. -/
theorem Kempt.memory {stored : Stored} (h : Kempt platform faults w) (hj : w.store.journal key = some stored)
    (hu : stored ≠ .unreadable) (complete : Bool) :
    Memory platform faults key ⟨2,complete,stored.runs⟩ w.watch where
  distinct := by
    intro hst
    cases stored with
    | journal j => exact (h.1 hst).distinct key j hj
    | run r => exact List.pairwise_singleton _ _
    | unreadable => exact List.Pairwise.nil
  fit := by
    refine ⟨fun hst c hc => ?_,fun hst c hc hne => ?_,h.2.settled key stored hj⟩
    · subst hc
      exact h.2.patient hst c stored hj
    · subst hc
      exact (h.2.remembers hst c hne).2 stored hj hu

theorem loadJournal_told {fresh : Bool}
    (hf : faults.Steady → fresh = true → ∀ c, c.file platform = key →
      w.watch.retry c = none) :
    Knows platform faults (loadJournal key fresh) (fun j w' => Elapsed faults w.watch w'.watch ∧
      Memory platform faults key j w'.watch) w := by
  refine Knows.seq (ask_elapsed (q := Req.readAnchor key) trivial w) fun anchor w₁ h₁ => ?_
  have hread : Knows platform faults (readJournal key) (fun stored w' =>
      Elapsed faults w.watch w'.watch ∧ ∀ s, stored = some s → s ≠ .unreadable → ∀ complete,
        Memory platform faults key ⟨2,complete,s.runs⟩ w'.watch) w₁ := by
    refine Knows.ask (fun _ _ => trivial) ?_
    rintro w₂ stored w₃ hp hk ⟨rfl,_⟩ hv
    rw [show w₃.watch = w₂.watch from hv]
    exact ⟨h₁.trans hp.elapsed,fun s hj hu => hk.memory hj hu⟩
  refine Knows.seq hread ?_
  rintro stored w₂ ⟨h₂,hm⟩
  have harm : ∀ j, Memory platform faults key j w₂.watch → Knows platform faults (arm key j)
      (fun j' w' => Elapsed faults w.watch w'.watch ∧
        Memory platform faults key j' w'.watch) w₂ := fun j hj =>
    (arm_told hj).imp fun _ _ h => ⟨h₂.trans h.1,h.2⟩
  by_cases ha : anchor = historyAnchor
  · rw [if_pos ha]
    rcases stored with _ | stored | r | _
    · exact trivial
    · by_cases hv : stored.schemaVersion ≠ 2
      · simp only [if_pos hv]
        exact trivial
      · simp only [if_neg hv]
        have hmem := hm _ rfl nofun true
        exact ⟨h₂,hmem.distinct,hmem.fit⟩
    · exact trivial
    · exact trivial
  rw [if_neg ha]
  by_cases he : anchor = ""
  · rw [if_pos he]
    rcases stored with _ | stored
    · cases fresh with
      | true =>
        have hempty : Fit platform faults key [] w₂.watch := by
          refine ⟨fun _ _ _ _ _ _ r hr => ?_,fun hs c hc hne => ?_,fun r hr => ?_⟩
          · exact absurd hr List.not_mem_nil
          · rw [h₂.rest] at hne
            exact absurd (hf hs rfl c hc) hne
          · exact absurd hr List.not_mem_nil
        exact harm ⟨2,true,[]⟩ ⟨fun _ => List.Pairwise.nil,hempty⟩
      | false => exact trivial
    · cases fresh with
      | true => exact trivial
      | false =>
        rcases stored with j | r | _
        · by_cases hv : j.schemaVersion = 2
          · have hj : ({ j with historyComplete := false } : Journal) = ⟨2,false,j.runs⟩ := by
              rw [hv]
            simp only [Bool.false_eq_true,if_false,if_pos hv,hj]
            exact harm _ (hm (.journal j) rfl nofun false)
          · simp only [Bool.false_eq_true,if_false,if_neg hv]
            exact trivial
        · exact harm _ (hm (.run r) rfl nofun false)
        · exact trivial
  · rw [if_neg he]
    exact trivial

/-! ## What readiness takes -/

/-- Evidence that certifies a comparison under a policy. -/
structure Attests (platform : Platform) (policy : Policy) (candidate : Candidate)
    (review : Evaluation) : Prop where
  completed : review.completed = true
  head : review.reviewedHead = some candidate.head
  base : review.requestedBase = some candidate.base
  policyDigest : policy.digest platform = .ok review.policyDigest
  complete : review.completeFindings = true
  findings : review.findings = []

theorem attests_of_ready {policy : Policy} {candidate : Candidate} {review : Evaluation}
    (h : policy.evaluate platform candidate review = .ready) :
    Attests platform policy candidate review := by
  rw [Policy.evaluate] at h
  split at h
  · cases h
  split at h
  · cases h
  next hc =>
  split at h
  · cases h
  · cases h
  next head base hh hb =>
  split at h
  · cases h
  next hm =>
  split at h
  · cases h
  next hf =>
  split at h
  · cases h
  split at h
  · cases h
  next hn =>
  simp only [not_or,not_not] at hm hc hf hn
  obtain ⟨rfl,rfl,hd⟩ := hm
  refine ⟨hc,hh,hb,?_,hf,hn⟩
  cases hp : policy.digest platform with
  | error e =>
    rw [hp] at hd
    cases hd
  | ok d =>
    rw [hp] at hd
    exact congrArg Except.ok (Option.some.inj hd)

/-- What a ready outcome rests on: the evidence inspected, the checks read, and the
comparison as it was read first and last. -/
structure Certified (platform : Platform) (o : Outcome) (v : Watch) (policy : Policy)
    (review : Evaluation) (first last : Candidate) : Prop where
  governed : v.policy = some policy
  opening : v.first = some first
  closing : v.last = some last
  inspected : ∃ evidence, v.evidence = some evidence ∧ evidence.review = some review
  reported : o.review = some review
  attests : Attests platform policy last review
  checks : v.checks = some []
  isOpen : last.isOpen = true
  same : ∀ digest, last.comparison digest = first.comparison digest

/-- A ready outcome is certified. -/
def Sure (platform : Platform) (o : Outcome) (v : Watch) : Prop :=
  o.verdict = .ready → ∃ policy review first last,
    Certified platform o v policy review first last

/-! ## The tick's parts, watched -/

section
variable {policy : Policy} {candidate : Candidate} {digest : String} {o : Outcome}

/-- The tick's run before anything is submitted: due where it is deferred. -/
structure Tracking (platform : Platform) (faults : Faults) (key : String) (c : Comparison)
    (policy : Policy) (candidate : Candidate) (j : Journal) (r : Run) (v : Watch) : Prop where
  memory : Memory platform faults key j v
  concerns : r.intent.concerns c
  known : Known j c r
  governed : v.policy = some policy
  opening : v.first = some candidate
  due : faults.Steady → r.submission = .deferred → ∀ t, v.retry c = some t → t ≤ v.time
  settled : Settled r.outcome

/-- A run and the outcome to be saved with it. -/
structure Concluding (platform : Platform) (faults : Faults) (key : String) (c : Comparison)
    (policy : Policy) (candidate : Candidate) (j : Journal) (r : Run) (o : Outcome) (v : Watch) :
    Prop where
  memory : Memory platform faults key j v
  concerns : r.intent.concerns c
  known : Known j c r
  governed : v.policy = some policy
  opening : v.first = some candidate
  pace : faults.Steady → r.submission = .deferred → ∀ t, v.retry c = some t → v.time < t →
    v.limited = true ∧ v.dispatched = some r.intent ∧ ∃ at_, o.nextPollAt = some at_ ∧ t ≤ at_
  ready : o.verdict = .ready → o.nextPollAt = none ∧ ∃ review, o.review = some review ∧
    (∃ evidence, v.evidence = some evidence ∧ evidence.review = some review) ∧
    policy.evaluate platform candidate review = .ready ∧ v.checks = some []

theorem Tracking.elapsed {v v' : Watch}
    (h : Tracking platform faults key c policy candidate j r v) (he : Elapsed faults v v') :
    Tracking platform faults key c policy candidate j r v' where
  memory := h.memory.elapsed he
  concerns := h.concerns
  known := h.known
  governed := by rw [he.rest]; exact h.governed
  opening := by rw [he.rest]; exact h.opening
  due := by
    intro hs hd t ht
    rw [he.rest] at ht
    exact (h.due hs hd t ht).trans (he.time hs)
  settled := h.settled

theorem Concluding.elapsed {v v' : Watch}
    (h : Concluding platform faults key c policy candidate j r o v) (he : Elapsed faults v v') :
    Concluding platform faults key c policy candidate j r o v' where
  memory := h.memory.elapsed he
  concerns := h.concerns
  known := h.known
  governed := by rw [he.rest]; exact h.governed
  opening := by rw [he.rest]; exact h.opening
  pace := by
    intro hs hd t ht hlt
    have hold := h.pace hs hd t (by rw [he.rest] at ht; exact ht) ((he.time hs).trans_lt hlt)
    rw [he.rest]
    exact hold
  ready := by
    rw [he.rest]
    exact h.ready

/-- Another reading of the comparison. -/
theorem Tracking.read (fresh : Candidate) {v : Watch}
    (h : Tracking platform faults key c policy candidate j r v) :
    Tracking platform faults key c policy candidate j r (v.read fresh) where
  memory := ⟨h.memory.distinct,h.memory.fit.patient,h.memory.fit.remembers,h.memory.fit.settled⟩
  concerns := h.concerns
  known := h.known
  governed := h.governed
  opening := by simp [Watch.read,h.opening]
  due := h.due
  settled := h.settled

theorem Concluding.read (fresh : Candidate) {v : Watch}
    (h : Concluding platform faults key c policy candidate j r o v) :
    Concluding platform faults key c policy candidate j r o (v.read fresh) where
  memory := ⟨h.memory.distinct,h.memory.fit.patient,h.memory.fit.remembers,h.memory.fit.settled⟩
  concerns := h.concerns
  known := h.known
  governed := h.governed
  opening := by simp [Watch.read,h.opening]
  pace := h.pace
  ready := h.ready

theorem Tracking.receive {v : Watch} (h : Tracking platform faults key c policy candidate j r v)
    (receipt : Option String) :
    Tracking platform faults key c policy candidate j (r.receive receipt) v := by
  cases receipt with
  | none => exact h
  | some receipt =>
    exact ⟨h.memory,h.concerns,h.known,h.governed,h.opening,fun _ => nofun,h.settled⟩

theorem Tracking.concluding {v : Watch} (h : Tracking platform faults key c policy candidate j r v)
    (ho : o.verdict ≠ .ready) :
    Concluding platform faults key c policy candidate j r o v where
  memory := h.memory
  concerns := h.concerns
  known := h.known
  governed := h.governed
  opening := h.opening
  pace := fun hs hd t ht hlt => absurd (h.due hs hd t ht) (not_le.2 hlt)
  ready := fun hr => absurd hr ho

theorem forgeCandidate_told (url : String) (w : Watched) :
    Knows platform faults (forgeCandidate url) (fun fresh w' => ∃ v,
      Elapsed faults w.watch v ∧ (faults.moves ∨ Stays v fresh) ∧ w'.watch = v.read fresh) w := by
  refine Knows.ask (fun _ _ => trivial) ?_
  rintro w₁ fresh w₂ hp _ _ ⟨hm,hv⟩
  exact ⟨w₁.watch,hp.elapsed,hm,hv⟩

theorem judge_told {review : Evaluation} {evidence : Evidence}
    (h : Tracking platform faults key c policy candidate j r w.watch)
    (he : w.watch.evidence = some evidence) (hr : evidence.review = some review) :
    Knows platform faults (judge platform policy candidate r review)
      (fun o w' => Concluding platform faults key c policy candidate j r o w'.watch) w := by
  refine Knows.seq outcome_told ?_
  rintro o w₁ ⟨he₁,hv,hn,ho,_⟩
  have h₁ := h.elapsed he₁
  have hev : w₁.watch.evidence = some evidence := by rw [he₁.rest]; exact he
  by_cases hready : policy.evaluate platform candidate review = .ready
  · rw [if_pos hready]
    have hchecks : Knows platform faults (forgeChecks candidate policy).attempt (fun a w' =>
        Tracking platform faults key c policy candidate j r w'.watch ∧
          w'.watch.evidence = some evidence ∧ ∀ bs, a = .ok bs → w'.watch.checks = some bs) w₁ := by
      refine Knows.attempt (fun _ _ => trivial) ?_
      rintro w₂ (e | bs) w₃ hp _ _ hw
      · rw [show w₃.watch = w₂.watch from hw]
        refine ⟨h₁.elapsed hp.elapsed,?_,?_⟩
        · rw [hp.rest]
          exact hev
        · rintro _ ⟨⟩
      · have h₂ := h₁.elapsed hp.elapsed
        rw [show w₃.watch = _ from hw]
        refine ⟨⟨⟨h₂.memory.distinct,h₂.memory.fit.patient,h₂.memory.fit.remembers,
          h₂.memory.fit.settled⟩,h₂.concerns,h₂.known,h₂.governed,h₂.opening,h₂.due,h₂.settled⟩,
          ?_,?_⟩
        · rw [hp.rest]
          exact hev
        · rintro _ ⟨⟩
          rfl
    refine Knows.seq hchecks ?_
    rintro (e | _ | ⟨b,bs⟩) w₂ ⟨h₂,he₂,hc₂⟩
    · refine Knows.seq (ask_elapsed (q := Req.forgePollAt) trivial w₂) fun at_ w₃ h₃ => ?_
      exact (h₂.elapsed h₃).concluding nofun
    · refine ⟨h₂.memory,h₂.concerns,h₂.known,h₂.governed,h₂.opening,?_,fun _ => ?_⟩
      · exact fun hs hd t ht hlt => absurd (h₂.due hs hd t ht) (not_le.2 hlt)
      · exact ⟨hn,review,ho,⟨evidence,he₂,hr⟩,hready,hc₂ [] rfl⟩
    · exact h₂.concluding nofun
  · rw [if_neg hready]
    refine h₁.concluding ?_
    rw [hv]
    exact hready

/-- The run was saved as unknown, and is permitted to be submitted. -/
structure Sending (platform : Platform) (faults : Faults) (key : String) (c : Comparison)
    (policy : Policy) (candidate : Candidate) (j : Journal) (r : Run) (v : Watch) : Prop where
  tracking : Tracking platform faults key c policy candidate j r v
  retained : r ∈ j.runs
  unknown : r.submission = .unknown
  permitted : faults.Steady → ∀ t, v.retry c = some t → t ≤ v.time

theorem Sending.elapsed {v v' : Watch}
    (h : Sending platform faults key c policy candidate j r v) (he : Elapsed faults v v') :
    Sending platform faults key c policy candidate j r v' where
  tracking := h.tracking.elapsed he
  retained := h.retained
  unknown := h.unknown
  permitted := by
    intro hs t ht
    rw [he.rest] at ht
    exact (h.permitted hs t ht).trans (he.time hs)

/-- The rejection of a saved run: nothing deferred is retained for its comparison. -/
theorem Sending.limit {t : ℕ} {v : Watch}
    (h : Sending platform faults key c policy candidate j r v)
    (hd : v.dispatched = some r.intent) (ho : o.verdict ≠ .ready)
    (hn : o.nextPollAt = some t) :
    Concluding platform faults key c policy candidate j { r with submission := .deferred } o
      (v.limit true (some t)) := by
  have hv : v.limit true (some t) =
      { v with retry := Function.update v.retry c (some t), limited := true } := by
    simp [Watch.limit,hd,h.tracking.concerns.2]
  have hm := h.tracking.memory
  rw [hv]
  refine ⟨⟨hm.distinct,?_,?_,hm.fit.settled⟩,h.tracking.concerns,h.tracking.known,
    h.tracking.governed,h.tracking.opening,?_,fun hr => absurd hr ho⟩
  · intro hs c' hc' t' ht' hlt s hsm hsc hsd
    by_cases hcc : c' = c
    · subst hcc
      have hrs := (hm.distinct hs).unique h.retained hsm h.tracking.concerns hsc
      rw [← hrs,h.unknown] at hsd
      cases hsd
    · change Function.update v.retry c (some t) c' = some t' at ht'
      rw [Function.update_of_ne hcc] at ht'
      exact hm.fit.patient hs c' hc' t' ht' hlt s hsm hsc hsd
  · intro hs c' hc' hne
    by_cases hcc : c' = c
    · subst hcc
      exact ⟨r,h.retained,h.tracking.concerns⟩
    · simp only [ne_eq,Function.update_of_ne hcc] at hne
      exact hm.fit.remembers hs c' hc' hne
  · intro _ _ t' ht' _
    change Function.update v.retry c (some t) c = some t' at ht'
    rw [Function.update_self] at ht'
    cases ht'
    exact ⟨rfl,hd,t,hn,le_refl t⟩

theorem submitted_told (h : Sending platform faults key c policy candidate j r w.watch) :
    Knows platform faults (submitted candidate r) (fun x w' =>
      Concluding platform faults key c policy candidate j x.1 x.2 w'.watch) w := by
  have hsubmit : Knows platform faults (submit r.intent).attempt (fun _ w' =>
      Sending platform faults key c policy candidate j r w'.watch ∧
        w'.watch.dispatched = some r.intent ∧
        latest r.intent.comparison w'.store.submits = some false) w := by
    refine Knows.attempt (fun w₁ hp hs t ht => ?_) ?_
    · rw [h.tracking.concerns.2] at ht
      exact (h.elapsed hp.elapsed).permitted hs t ht
    · rintro w₁ a w₂ hp _ hw hv
      have h₁ := h.elapsed hp.elapsed
      have ht := h₁.tracking
      rw [show w₂.watch = _ from hv,show w₂.store = _ from hw]
      refine ⟨⟨⟨⟨ht.memory.distinct,ht.memory.fit.patient,ht.memory.fit.remembers,
        ht.memory.fit.settled⟩,ht.concerns,ht.known,ht.governed,ht.opening,ht.due,ht.settled⟩,
        h₁.retained,h₁.unknown,h₁.permitted⟩,rfl,?_⟩
      exact latest_cons_self false _
  refine Knows.seq hsubmit ?_
  rintro (e | receipt) w₁ ⟨h₁,hd₁,hl₁⟩
  · refine Knows.seq outcome_told ?_
    rintro o w₂ ⟨he₂,hv,hn,_,hlost⟩
    have h₂ := h₁.elapsed he₂
    have hd₂ : w₂.watch.dispatched = some r.intent := by rw [he₂.rest]; exact hd₁
    have hready : o.verdict ≠ .ready := by
      rw [hv]
      decide
    have hpoll : Knows platform faults providerPollAt (fun t w' =>
        t.elim (Concluding platform faults key c policy candidate j r o w'.watch) fun t =>
          ∀ o', o'.verdict ≠ .ready → o'.nextPollAt = some t →
            Concluding platform faults key c policy candidate j
              { r with submission := .deferred } o' w'.watch) w₂ := by
      refine Knows.ask (fun w₃ hp _ _ i hi => ?_) ?_
      · rw [hp.rest,hd₂] at hi
        cases hi
        rw [hp.lost.eq.2.2.1,hlost.eq.2.2.1]
        exact hl₁
      · rintro w₃ t w₄ hp _ _ ⟨_,⟨⟩,hv₄⟩
        have h₃ := h₂.elapsed hp.elapsed
        have hd₃ : w₃.watch.dispatched = some r.intent := by rw [hp.rest]; exact hd₂
        cases t with
        | none =>
          rw [hv₄,limit_none]
          exact h₃.tracking.concluding hready
        | some t =>
          rw [Option.elim_some]
          intro o' ho' hn'
          rw [hv₄]
          cases w₃.store.rejected with
          | true => exact h₃.limit hd₃ ho' hn'
          | false =>
            rw [limit_false]
            have hc := h₃.tracking.concluding ho'
            refine ⟨hc.memory,hc.concerns,hc.known,hc.governed,hc.opening,?_,hc.ready⟩
            exact fun hs _ t ht hlt => absurd (h₃.permitted hs t ht) (not_le.2 hlt)
    refine Knows.seq hpoll ?_
    rintro (_ | t) w₃ h₃
    · exact h₃
    · exact h₃ _ hready rfl
  · refine Knows.seq outcome_told ?_
    rintro o w₂ ⟨he₂,hv,_⟩
    have h₂ := (h₁.elapsed he₂).tracking
    have hsent : Tracking platform faults key c policy candidate j
        { r with requestReceipt := some receipt, submission := .submitted } w₂.watch :=
      ⟨h₂.memory,h₂.concerns,h₂.known,h₂.governed,h₂.opening,fun _ hs => (by cases hs),h₂.settled⟩
    refine hsent.concluding ?_
    rw [hv]
    decide

/-- What a dispatch or an assessment leaves, unless it ended the tick. -/
def Appraised (platform : Platform) (faults : Faults) (key : String) (c : Comparison)
    (policy : Policy) (candidate : Candidate) :
    Outcome ⊕ (Journal × Run × Outcome) → Watched → Prop
  | .inl o, _ => o.verdict ≠ .ready
  | .inr (j,r,o), w => Concluding platform faults key c policy candidate j r o w.watch

theorem dispatch_told (hr : Tracking platform faults key c policy candidate j r w.watch)
    (hd : r.submission = .deferred) :
    Knows platform faults (dispatch platform key policy candidate j r)
      (Appraised platform faults key c policy candidate) w := by
  refine Knows.seq (forgeCandidate_told candidate.url w) ?_
  rintro before w₁ ⟨v,he,_,hv⟩
  have h₁ : Tracking platform faults key c policy candidate j r w₁.watch := by
    rw [hv]
    exact (hr.elapsed he).read before
  by_cases hb : (r.intent.matches_ platform before policy && before.isOpen) = true
  · rw [if_pos hb]
    have hu : Savable faults j c { r with submission := .unknown } w₁.watch :=
      ⟨h₁.concerns,h₁.known,fun _ => nofun,h₁.settled⟩
    refine Knows.seq (saveRun_told h₁.memory hu) ?_
    rintro j' w₂ ⟨he₂,hm₂,hr₂⟩
    have h₂ := h₁.elapsed he₂
    have hsend : Sending platform faults key c policy candidate j'
        { r with submission := .unknown } w₂.watch :=
      ⟨⟨hm₂,h₂.concerns,.inl ⟨_,hr₂,rfl⟩,h₂.governed,h₂.opening,fun _ => nofun,h₂.settled⟩,
        hr₂,rfl,fun hs => h₂.due hs hd⟩
    exact Knows.seq (submitted_told hsend) fun _ _ h => h
  · rw [if_neg hb]
    refine Knows.seq outcome_told ?_
    rintro o w₂ ⟨_,ho,_⟩
    change o.verdict ≠ .ready
    rw [ho]
    exact nofun

theorem assess_told {evidence : Evidence} (allowSubmit : Bool)
    (hr : Tracking platform faults key c policy candidate j r w.watch)
    (he : w.watch.evidence = some evidence) :
    Knows platform faults (assess platform key policy candidate allowSubmit j r evidence)
      (Appraised platform faults key c policy candidate) w := by
  have hr' := hr.receive evidence.requestReceipt
  rw [assess]
  generalize r.receive evidence.requestReceipt = r' at hr' ⊢
  have hend : ∀ {verdict blockers}, verdict ≠ Verdict.ready → Knows platform faults
      (outcome candidate (some r'.intent) verdict blockers none >>= fun result =>
        pure (.inr (j,r',result))) (Appraised platform faults key c policy candidate) w := by
    intro verdict blockers hv
    refine Knows.seq outcome_told ?_
    rintro o w₁ ⟨he₁,ho,_⟩
    refine (hr'.elapsed he₁).concluding ?_
    rw [ho]
    exact hv
  cases hrev : evidence.review with
  | some review => exact Knows.seq (judge_told hr' he hrev) fun _ _ h => h
  | none =>
    by_cases hm : r.submission = .submitted ∧ evidence.requestReceipt = none
    · simp only [if_pos hm]
      exact hend (by decide)
    simp only [if_neg hm]
    by_cases hu : r'.submission = .unknown
    · rw [if_pos hu]
      exact hend (by decide)
    rw [if_neg hu]
    by_cases hd : (decide (r'.submission = .deferred) && allowSubmit) = true
    · rw [if_pos hd]
      rw [Bool.and_eq_true,decide_eq_true_eq] at hd
      exact dispatch_told hr' hd.1
    · rw [if_neg hd]
      exact hend (by decide)

/-- An outcome that may be saved with its run. -/
theorem Concluding.savable {v : Watch}
    (h : Concluding platform faults key c policy candidate j r o v) :
    Savable faults j c { r with outcome := some o } v where
  concerns := h.concerns
  known := h.known
  waits := by
    intro hs hd t ht hlt
    obtain ⟨_,_,at_,hat,hle⟩ := h.pace hs hd t ht hlt
    exact ⟨o,at_,rfl,hat,hle⟩
  settled := by
    rintro _ ⟨⟩ hr
    exact (h.ready hr).1

/-- A comparison that moved makes the outcome stale, and that only when nothing was
rejected in this tick. -/
theorem Concluding.stale {o' : Outcome} {fresh : Candidate} {v : Watch}
    (h : Concluding platform faults key c policy candidate j r o v)
    (hd : policy.digest platform = .ok digest) (hc : c = candidate.comparison digest)
    (hm : faults.moves ∨ Stays v fresh)
    (hn : ¬ (r.intent.matches_ platform fresh policy && fresh.isOpen) = true)
    (ho : o'.verdict ≠ .ready) :
    Concluding platform faults key c policy candidate j r o' v where
  memory := h.memory
  concerns := h.concerns
  known := h.known
  governed := h.governed
  opening := h.opening
  pace := by
    intro hs hdef t ht hlt
    obtain ⟨hl,hdisp,_⟩ := h.pace hs hdef t ht hlt
    obtain ⟨hcmp,hopen⟩ := hm.resolve_left hs.2 hl r.intent hdisp
    have hdig : r.intent.policyDigest = digest := by
      have := congrArg Comparison.policyDigest (h.concerns.2.trans hc)
      exact this
    rw [hdig] at hcmp
    have hmatch := (concerns_of_matches hd).2 ⟨h.concerns.1,hcmp.symm⟩
    rw [hmatch,hopen] at hn
    exact absurd rfl hn
  ready := fun hr => absurd hr ho

/-- A ready outcome is certified where the comparison is found again. -/
theorem Concluding.certified {fresh : Candidate} {v : Watch}
    (h : Concluding platform faults key c policy candidate j r o v)
    (hd : policy.digest platform = .ok digest) (hc : c = candidate.comparison digest)
    (hm : (r.intent.matches_ platform fresh policy && fresh.isOpen) = true)
    (hl : v.last = some fresh) : Sure platform o v := by
  intro hready
  obtain ⟨_,review,ho,hev,heval,hchecks⟩ := h.ready hready
  rw [Bool.and_eq_true] at hm
  obtain ⟨hmatch,hopen⟩ := hm
  have hsame : fresh.comparison digest = candidate.comparison digest := by
    rw [← ((concerns_of_matches hd).1 hmatch).2,h.concerns.2,hc]
  have hat := attests_of_ready heval
  simp only [Candidate.comparison,Comparison.mk.injEq] at hsame
  obtain ⟨hurl,hsr,hsb,htb,hhead,hbase,_⟩ := hsame
  refine ⟨policy,review,candidate,fresh,h.governed,h.opening,hl,hev,ho,?_,hchecks,hopen,?_⟩
  · refine ⟨hat.completed,?_,?_,hat.policyDigest,hat.complete,hat.findings⟩
    · rw [hhead]
      exact hat.head
    · rw [hbase]
      exact hat.base
  · intro d
    simp only [Candidate.comparison,hurl,hsr,hsb,htb,hhead,hbase]

theorem Sure.elapsed {v v' : Watch} (h : Sure platform o v) (he : Elapsed faults v v') :
    Sure platform o v' := by
  intro hr
  obtain ⟨policy,review,first,last,hc⟩ := h hr
  rw [he.rest]
  exact ⟨policy,review,first,last,hc.governed,hc.opening,hc.closing,hc.inspected,hc.reported,
    hc.attests,hc.checks,hc.isOpen,hc.same⟩

theorem conclude_told (hd : policy.digest platform = .ok digest)
    (hc : c = candidate.comparison digest)
    (h : Concluding platform faults key c policy candidate j r o w.watch) :
    Knows platform faults (conclude platform key policy candidate j r o)
      (fun o' w' => Sure platform o' w'.watch) w := by
  refine Knows.seq (forgeCandidate_told candidate.url w) ?_
  rintro fresh w₁ ⟨v,he,hm,hv⟩
  have h₁ : Concluding platform faults key c policy candidate j r o w₁.watch := by
    rw [hv]
    exact (h.elapsed he).read fresh
  have hm₁ : faults.moves ∨ Stays w₁.watch fresh := by
    rw [hv]
    exact hm
  have hl₁ : w₁.watch.last = some fresh := by
    rw [hv]
    rfl
  have hre : Knows platform faults (recheck platform policy fresh r o) (fun o' w' =>
      Concluding platform faults key c policy candidate j r o' w'.watch ∧
        Sure platform o' w'.watch) w₁ := by
    unfold recheck
    by_cases hmatch : (r.intent.matches_ platform fresh policy && fresh.isOpen) = true
    · rw [if_pos hmatch]
      exact ⟨h₁,h₁.certified hd hc hmatch hl₁⟩
    · rw [if_neg hmatch]
      refine outcome_told.imp ?_
      rintro o' w₂ ⟨he₂,ho',_⟩
      have hready : o'.verdict ≠ .ready := by
        rw [ho']
        exact nofun
      exact ⟨(h₁.stale hd hc hm₁ hmatch hready).elapsed he₂,fun hr => absurd hr hready⟩
  refine Knows.seq hre ?_
  rintro o₂ w₂ ⟨h₂,hs₂⟩
  refine Knows.seq outcome_told ?_
  rintro advice w₃ ⟨he₃,_⟩
  have h₃ := h₂.elapsed he₃
  have hadvised : Concluding platform faults key c policy candidate j r
      { o₂ with nextAction := advice.nextAction } w₃.watch :=
    ⟨h₃.memory,h₃.concerns,h₃.known,h₃.governed,h₃.opening,h₃.pace,h₃.ready⟩
  refine Knows.seq (saveRun_told h₃.memory hadvised.savable) ?_
  rintro _ w₄ ⟨he₄,_⟩
  have hs₄ := (hs₂.elapsed he₃).elapsed he₄
  intro hr
  obtain ⟨policy,review,first,last,hcert⟩ := hs₄ hr
  exact ⟨policy,review,first,last,hcert.governed,hcert.opening,hcert.closing,hcert.inspected,
    hcert.reported,hcert.attests,hcert.checks,hcert.isOpen,hcert.same⟩

/-- The run a tick found for its comparison, due where it is deferred, or that there is
none. -/
structure Found (platform : Platform) (faults : Faults) (key : String) (c : Comparison)
    (policy : Policy) (candidate : Candidate) (j : Journal) (x : Option Run) (v : Watch) :
    Prop where
  memory : Memory platform faults key j v
  governed : v.policy = some policy
  opening : v.first = some candidate
  run : ∀ r, x = some r → r ∈ j.runs ∧ r.intent.concerns c
  due : ∀ r, x = some r → faults.Steady → r.submission = .deferred →
    ∀ t, v.retry c = some t → t ≤ v.time
  absent : x = none → ∀ s ∈ j.runs, ¬ s.intent.concerns c

variable {x : Option Run}

theorem Found.elapsed {v v' : Watch} (h : Found platform faults key c policy candidate j x v)
    (he : Elapsed faults v v') : Found platform faults key c policy candidate j x v' where
  memory := h.memory.elapsed he
  governed := by rw [he.rest]; exact h.governed
  opening := by rw [he.rest]; exact h.opening
  run := h.run
  due := by
    intro r hr hs hd t ht
    rw [he.rest] at ht
    exact (h.due r hr hs hd t ht).trans (he.time hs)
  absent := h.absent

theorem Found.tracking {v : Watch} (h : Found platform faults key c policy candidate j (some r) v) :
    Tracking platform faults key c policy candidate j r v where
  memory := h.memory
  concerns := (h.run r rfl).2
  known := .inl ⟨r,(h.run r rfl).1,rfl⟩
  governed := h.governed
  opening := h.opening
  due := h.due r rfl
  settled := h.memory.fit.settled r (h.run r rfl).1

/-- A run without history: its comparison was never rejected before. -/
theorem Found.fresh {v : Watch} (h : Found platform faults key c policy candidate j none v)
    (hk : c.file platform = key) (hr : r.intent.concerns c) (ho : r.outcome = none) :
    Tracking platform faults key c policy candidate j r v where
  memory := h.memory
  concerns := hr
  known := .inr (h.absent rfl)
  governed := h.governed
  opening := h.opening
  due := by
    intro hst _ t ht
    have hne : v.retry c ≠ none := by
      rw [ht]
      exact Option.some_ne_none t
    obtain ⟨s,hs,hsc⟩ := h.memory.fit.remembers hst c hk hne
    exact absurd hsc (h.absent rfl s hs)
  settled := by
    intro o ho'
    rw [ho] at ho'
    cases ho'

/-- The run after an adoption, if there is one now. -/
theorem Found.adopt {v : Watch} (evidence : Evidence) (hd : policy.digest platform = .ok digest)
    (hk : (candidate.comparison digest).file platform = key)
    (h : Found platform faults key (candidate.comparison digest) policy candidate j x v) :
    (∀ r, adopt platform candidate policy evidence x = some r →
      Tracking platform faults key (candidate.comparison digest) policy candidate j r v) ∧
    (adopt platform candidate policy evidence x = none →
      Found platform faults key (candidate.comparison digest) policy candidate j none v) := by
  cases x with
  | some r =>
    refine ⟨?_,nofun⟩
    rintro _ ⟨⟩
    exact h.tracking
  | none =>
    refine ⟨fun r hr => ?_,fun _ => h⟩
    cases hi : evidence.recoveredIntent with
    | none => simp [Review.adopt,hi] at hr
    | some i =>
      by_cases hm : i.matches_ platform candidate policy = true
      · simp only [Review.adopt,hi,if_pos hm,Option.some.injEq] at hr
        subst hr
        exact h.fresh hk ((concerns_of_matches hd).1 hm) rfl
      · simp [Review.adopt,hi,hm] at hr

theorem newRun_told (evidence : Evidence) (w : Watched) :
    Knows platform faults (newRun platform key candidate digest evidence) (fun r w' =>
      r.intent.concerns (candidate.comparison digest) ∧ r.outcome = none ∧
        Elapsed faults w.watch w'.watch) w := by
  refine Knows.seq (ask_elapsed (q := Req.nonce) trivial w) fun n w₁ h₁ => ?_
  refine Knows.seq (ask_elapsed (q := Req.pid) trivial w₁) fun p w₂ h₂ => ?_
  exact ⟨⟨rfl,rfl⟩,rfl,h₁.trans h₂⟩

theorem blocked_sure {blockers : List String} {intent : Option Intent} :
    Knows platform faults (outcome candidate intent .blocked blockers none)
      (fun o w' => Sure platform o w'.watch) w := by
  refine outcome_told.imp ?_
  rintro o w₁ ⟨_,ho,_⟩ hr
  rw [ho] at hr
  cases hr

theorem checked_told {α β : Type} {a : Except Error α} {f : α → Tick β}
    {post : β → Watched → Prop} (hf : ∀ b, a = .ok b → Knows platform faults (f b) post w) :
    Knows platform faults (checked a >>= f) post w := by
  cases a with
  | error e => exact trivial
  | ok b => exact hf b rfl

theorem observed_told {evidence : Evidence} (allowSubmit : Bool)
    (hd : policy.digest platform = .ok digest)
    (hk : (candidate.comparison digest).file platform = key)
    (h : Found platform faults key (candidate.comparison digest) policy candidate j x w.watch)
    (he : w.watch.evidence = some evidence) :
    Knows platform faults (observed platform key policy candidate allowSubmit j x evidence)
      (fun o w' => Sure platform o w'.watch) w := by
  obtain ⟨hsome,hnone⟩ := h.adopt evidence hd hk
  rw [observed]
  generalize adopt platform candidate policy evidence x = y at hsome hnone ⊢
  by_cases ha : (y.isNone && !allowSubmit) = true
  · rw [if_pos ha]
    exact blocked_sure
  rw [if_neg ha]
  by_cases hc : (y.isNone && !j.historyComplete) = true
  · rw [if_pos hc]
    exact blocked_sure
  rw [if_neg hc]
  have hrun : Knows platform faults (y.elim (newRun platform key candidate digest evidence) pure)
      (fun r w' => Tracking platform faults key (candidate.comparison digest) policy candidate
        j r w'.watch ∧ w'.watch.evidence = some evidence) w := by
    cases y with
    | some r => exact ⟨hsome r rfl,he⟩
    | none =>
      refine (newRun_told evidence w).imp ?_
      rintro r w₁ ⟨hr,ho,he₁⟩
      refine ⟨((hnone rfl).elapsed he₁).fresh hk hr ho,?_⟩
      rw [he₁.rest]
      exact he
  refine checked_told fun d hd' => ?_
  obtain rfl : digest = d := by simpa [hd] using hd'
  refine Knows.seq hrun ?_
  rintro r w₁ ⟨h₁,he₁⟩
  refine Knows.seq (assess_told allowSubmit h₁ he₁) ?_
  rintro (o | ⟨j',r',o⟩) w₂ h₂
  · exact fun hr => absurd hr h₂
  · exact conclude_told hd rfl h₂

theorem unobserved_told (e : Error)
    (h : Found platform faults key c policy candidate j x w.watch)
    (hrej : w.store.rejected = false) :
    Knows platform faults (unobserved key candidate j x e)
      (fun o w' => Sure platform o w'.watch) w := by
  refine Knows.seq outcome_told ?_
  rintro o w₁ ⟨he₁,ho,_,_,hlost⟩
  have hrej₁ : w₁.store.rejected = false := by rw [hlost.eq.2.2.2]; exact hrej
  have hpoll : Knows platform faults providerPollAt
      (fun _ w' => Elapsed faults w₁.watch w'.watch) w₁ := by
    refine Knows.ask (fun w₂ hp _ hr => ?_) ?_
    · rw [hp.lost.eq.2.2.2,hrej₁] at hr
      cases hr
    · rintro w₂ _ w₃ hp _ _ ⟨t,_,hv⟩
      have hl : w₂.watch.limit false t = w₂.watch := limit_false _ _
      rw [hv,hp.lost.eq.2.2.2,hrej₁,hl]
      exact hp.elapsed
  refine Knows.seq hpoll fun at_ w₂ he₂ => ?_
  have h₂ := h.elapsed (he₁.trans he₂)
  have hready : o.verdict ≠ .ready := by
    rw [ho]
    exact nofun
  cases x with
  | none => exact fun hr => absurd hr hready
  | some r =>
    have hs : Savable faults j c { r with outcome := some { o with nextPollAt := at_ } } w₂.watch := by
      refine ⟨h₂.tracking.concerns,h₂.tracking.known,fun hs hd t ht hlt => ?_,?_⟩
      · exact absurd (h₂.due r rfl hs hd t ht) (not_le.2 hlt)
      · rintro _ ⟨⟩ hr
        exact absurd hr hready
    exact Knows.seq (saveRun_told h₂.memory hs) fun _ _ _ hr => absurd hr hready

theorem tick_told (allowSubmit : Bool) (hd : policy.digest platform = .ok digest)
    (hk : (candidate.comparison digest).file platform = key)
    (hm : Memory platform faults key j w.watch) (hp : w.watch.policy = some policy)
    (hf : w.watch.first = some candidate)
    (hrun : ∀ r, x = some r → r ∈ j.runs ∧ r.intent.concerns (candidate.comparison digest))
    (hnone : x = none → ∀ s ∈ j.runs, ¬ s.intent.concerns (candidate.comparison digest)) :
    Knows platform faults (tick platform key policy candidate allowSubmit j x)
      (fun o w' => Sure platform o w'.watch) w := by
  refine Knows.seq (waiting_told x w) ?_
  rintro (_ | previous) w₁ ⟨he₁,hw₁⟩
  · have h₁ : Found platform faults key (candidate.comparison digest) policy candidate j x
        w₁.watch := by
      refine ⟨hm.elapsed he₁,?_,?_,hrun,fun r hr hs hdef t ht => ?_,hnone⟩
      · rw [he₁.rest]
        exact hp
      · rw [he₁.rest]
        exact hf
      · by_contra hlt
        obtain ⟨hmem,hconc⟩ := hrun r hr
        have hwait := (hm.elapsed he₁).fit.patient hs _ hk t ht (not_le.1 hlt) r hmem hconc hdef
        exact hlt (hw₁ r t hr hwait)
    have hinspect : Knows platform faults (inspect candidate policy (x.map Run.intent)).attempt
        (fun a w' => Found platform faults key (candidate.comparison digest) policy candidate j x
          w'.watch ∧ w'.store.rejected = false ∧
            ∀ evidence, a = .ok evidence → w'.watch.evidence = some evidence) w₁ := by
      refine Knows.attempt (fun _ _ => trivial) ?_
      rintro w₂ (e | evidence) w₃ hp₂ _ hw hv <;>
        rw [show w₃.watch = _ from hv,show w₃.store = _ from hw]
      · refine ⟨h₁.elapsed hp₂.elapsed,rfl,?_⟩
        rintro _ ⟨⟩
      · have h₂ := h₁.elapsed hp₂.elapsed
        refine ⟨⟨⟨h₂.memory.distinct,h₂.memory.fit.patient,h₂.memory.fit.remembers,
          h₂.memory.fit.settled⟩,h₂.governed,h₂.opening,h₂.run,h₂.due,h₂.absent⟩,rfl,?_⟩
        rintro _ ⟨⟩
        rfl
    refine Knows.seq hinspect ?_
    rintro (e | evidence) w₂ ⟨h₂,hrej,hev⟩
    · exact unobserved_told e h₂ hrej
    · exact observed_told allowSubmit hd hk h₂ (hev evidence rfl)
  · obtain ⟨hprev,hpoll⟩ := hw₁
    intro hr
    cases x with
    | none => cases hprev
    | some r => exact absurd (hm.fit.settled r (hrun r rfl).1 previous hprev hr) hpoll

theorem openLock_told (w : Watched) :
    Knows platform faults (openLock key) (fun fresh w' => Elapsed faults w.watch w'.watch ∧
      (faults.Steady → fresh = true → ∀ c, c.file platform = key →
        w'.watch.retry c = none)) w := by
  refine Knows.ask (fun _ _ => trivial) ?_
  rintro w₁ fresh w₂ hp hkempt ⟨hfresh,_⟩ hv
  rw [show w₂.watch = w₁.watch from hv]
  refine ⟨hp.elapsed,fun hst hf c hc => ?_⟩
  by_contra hne
  have hlock := (hkempt.2.remembers hst c hne).1
  rw [hc] at hlock
  rw [hf] at hfresh
  cases hl : w₁.store.lock key with
  | none => simp [hl] at hlock
  | some a => simp [hl] at hfresh

theorem ensureOnce_told (url : String) (allowSubmit : Bool) (hp : w.watch.policy = some policy)
    (hf : w.watch.first = none) :
    Knows platform faults (ensureOnce platform policy url allowSubmit)
      (fun o w' => Sure platform o w'.watch) w := by
  refine checked_told fun _ hv => ?_
  have hd : policy.digest platform = _ := digest_of_validate hv
  refine Knows.seq (forgeCandidate_told url w) ?_
  rintro candidate w₁ ⟨v,he,_,hw₁⟩
  have hp₁ : w₁.watch.policy = some policy := by
    rw [hw₁,he.rest]
    exact hp
  have hf₁ : w₁.watch.first = some candidate := by
    rw [hw₁,he.rest]
    simp [Watch.read,hf]
  refine checked_told fun _ _ => ?_
  refine Knows.seq (ask_elapsed (q := Req.createDir) trivial w₁) fun _ w₂ h₂ => ?_
  refine Knows.seq (openLock_told w₂) ?_
  rintro fresh w₃ ⟨h₃,hfresh⟩
  refine Knows.seq (ask_elapsed (q := Req.tryLock _) trivial w₃) fun _ w₄ h₄ => ?_
  have hfresh₄ : faults.Steady → fresh = true → ∀ c,
      c.file platform = platform.hexDigest candidate.url.toList → w₄.watch.retry c = none := by
    rw [h₄.rest]
    exact hfresh
  refine Knows.seq (loadJournal_told hfresh₄) ?_
  rintro j w₅ ⟨h₅,hm₅⟩
  refine Knows.seq (ask_elapsed (q := Req.capabilities) trivial w₅) fun caps w₆ h₆ => ?_
  have hm₆ := hm₅.elapsed h₆
  have he₆ := ((((h₂.trans h₃).trans h₄).trans h₅).trans h₆)
  have hp₆ : w₆.watch.policy = some policy := by
    rw [he₆.rest]
    exact hp₁
  have hf₆ : w₆.watch.first = some candidate := by
    rw [he₆.rest]
    exact hf₁
  by_cases hu : unsuited policy candidate caps = true
  · rw [if_pos hu]
    exact blocked_sure
  rw [if_neg hu]
  have hk : ∀ d, (candidate.comparison d).file platform =
      platform.hexDigest candidate.url.toList := fun _ => rfl
  have hmem : ∀ s, s ∈ j.runs.filter (·.intent.matches_ platform candidate policy) ↔
      s ∈ j.runs ∧ s.intent.concerns
        (candidate.comparison (platform.hexDigest policy.json.render)) := by
    intro s
    rw [List.mem_filter,concerns_of_matches hd]
  generalize j.runs.filter (·.intent.matches_ platform candidate policy) = l at hmem ⊢
  rcases l with _ | ⟨r,_ | ⟨s,l⟩⟩
  · refine tick_told allowSubmit hd (hk _) hm₆ hp₆ hf₆ ?_ fun _ s hs hc => ?_
    · rintro _ ⟨⟩
    · exact List.not_mem_nil ((hmem s).2 ⟨hs,hc⟩)
  · refine tick_told allowSubmit hd (hk _) hm₆ hp₆ hf₆ ?_ ?_
    · rintro _ ⟨⟩
      exact (hmem r).1 List.mem_cons_self
    · rintro ⟨⟩
  · exact trivial

end

/-! ## Every run -/

/-- What holds of the world, and of every request at the moment it is issued. -/
def Careful (platform : Platform) (faults : Faults) (w : Watched) (q : Req) : Prop :=
  Kempt platform faults w ∧ Prudent platform faults w q ∧
    (faults.Steady → Allowed platform w.store q)

theorem Kempt.passes (h : Kempt platform faults w) (hp : Passes faults w w') :
    Kempt platform faults w' := ⟨fun hs => (h.1 hs).lost hp.lost,h.2.passes hp⟩

theorem Kempt.begin (h : Kempt platform faults w) (policy : Policy) :
    Kempt platform faults ⟨w.store,w.watch.begin policy⟩ :=
  ⟨h.1,h.2.patient,h.2.remembers,h.2.settled⟩

theorem Kempt.answer {q : Req} {a b : Except Error (Rep q)} (h : Careful platform faults w q)
    (ha : answers q w.store a w'.store)
    (hb : watches faults w.store.rejected q w.watch b w'.watch) : Kempt platform faults w' := by
  obtain ⟨hk,hprudent,hallowed⟩ := h
  exact ⟨fun hs => (hk.1 hs).answer (hallowed hs) ha,hk.2.answer hk.1 hprudent ha hb⟩

theorem Sure.passes {o : Outcome} (h : Sure platform o w.watch) (hp : Passes faults w w') :
    Sure platform o w'.watch := h.elapsed hp.elapsed

/-- A tick that returns an outcome is sure of it. -/
def Returns (platform : Platform) (a : Except Error Outcome × Unit) (w : Watched) : Prop :=
  ∀ o, a.1 = .ok o → Sure platform o w.watch

/-- What the unwatched engine is allowed to do, the watched one does in steady times. -/
theorem tick_allowed (policy : Policy) (url : String) (allowSubmit : Bool) (w : Watched) :
    wp (watching platform faults) (fun w q => faults.Steady → Allowed platform w.store q)
      ((ensureOnce platform policy url allowSubmit).start ()) (fun _ _ => True) w := by
  by_cases hst : faults.Steady
  · have hdone : Does platform _ _ w.store := ensureOnce_done policy url allowSubmit w.store
    have hp := wp_project (M := trusting platform) (N := watching platform faults) Watched.store
      (fun _ _ hr => hr.lost) (fun _ _ _ _ hs => ⟨hs.1.1 hst,hs.2.1⟩) hdone
    exact wp_mono (wp_guard hp fun _ _ h _ => h) fun _ _ _ => trivial
  · exact wp_guard (wp_any _ _) fun _ _ _ h => absurd h hst

theorem tick_watched {p : Prog Req (fun q => Except Error (Rep q)) (Except Error Outcome × Unit)}
    (hs : Kempt platform faults w) (h : (watched platform faults).start w w' p) :
    wp (watched platform faults).toWorld (Careful platform faults) p
      (fun a w => Kempt platform faults w ∧ Returns platform a w) w' := by
  obtain ⟨policy,url,allowSubmit,rfl,rfl⟩ := h
  have htold : Knows platform faults (ensureOnce platform policy url allowSubmit)
      (fun o w' => Sure platform o w'.watch) ⟨w.store,w.watch.begin policy⟩ :=
    ensureOnce_told url allowSubmit rfl rfl
  have hboth := wp_and htold (tick_allowed policy url allowSubmit _)
  refine wp_mono (wp_assume (M := (watched platform faults).toWorld) ?_ ?_ (hs.begin policy)
    hboth) ?_
  · exact fun w w' hs hr => hs.passes hr
  · exact fun w q a w' hs hq ha => Kempt.answer ⟨hs,hq⟩ ha.1.2 ha.2
  · rintro ⟨e | o,u⟩ w ⟨hk,ht,_⟩
    · refine ⟨hk,?_⟩
      rintro _ ⟨⟩
    · refine ⟨hk,?_⟩
      rintro _ ⟨⟩
      exact ht

theorem watched_invariant (platform : Platform) (faults : Faults) :
    (watched platform faults).Invariant (Careful platform faults) (Kempt platform faults) where
  start := fun _ _ _ hs h => wp_mono (tick_watched hs h) fun _ _ h => h.1
  idle := fun _ _ hs hp => hs.passes hp
  rely := fun _ _ hs hp => hs.passes hp
  guard := fun _ _ h => h.1
  torn := fun _ _ _ h ⟨⟨_,ha⟩,_,hb⟩ => Kempt.answer h ha hb

/-- Every retained outcome is settled: none is both ready and waiting. -/
def Untroubled (w : Watched) : Prop := ∀ key stored, w.store.journal key = some stored →
  ∀ r ∈ stored.runs, Settled r.outcome

/-- Nothing submitted or rejected yet, and every retained outcome settled. -/
structure Unhurried (w : Watched) : Prop where
  initial : Initial w.store
  retry : ∀ c, w.watch.retry c = none
  settled : Untroubled w

theorem Unhurried.kempt (h : Unhurried w) : Kempt platform faults w := by
  refine ⟨fun _ => h.initial.sound,fun _ c _ _ t ht => ?_,fun _ c hc => ?_,h.settled⟩
  · rw [h.retry c] at ht
    cases ht
  · exact absurd (h.retry c) hc

/-- Where anything may go wrong, only the retained outcomes matter. -/
theorem Untroubled.kempt (h : Untroubled w) : Kempt platform .all w := by
  have hst : ¬ Faults.all.Steady := fun hs => hs.1 trivial
  exact ⟨fun hs => absurd hs hst,fun hs => absurd hs hst,fun hs => absurd hs hst,h⟩

/-- While no comparison moves away from its rejection and the clock is not set back, no
submission comes before its retry time. -/
theorem submits_after_retry (platform : Platform) (faults : Faults) (hf : faults.Steady)
    (w₀ : Watched) (h₀ : Unhurried w₀)
    (p : Prog Req (fun q => Except Error (Rep q)) (Except Error Outcome × Unit)) (w : Watched)
    (hc : (watched platform faults).Reachable w₀ (w,some p)) (i : Intent)
    (hp : p.pending = some (.submit i)) (t : ℕ) (ht : w.watch.retry i.comparison = some t) :
    t ≤ w.watch.time :=
  ((watched_invariant platform faults).request h₀.kempt hc hp).2.1 hf t ht

/-! ## A submission that does not wait -/

def movedCandidate : Candidate :=
  { sampleCandidate with head := "abcdefabcdefabcdefabcdefabcdefabcdefabcd" }

/-- A provider that rejects every submission until 100, and a comparison that moves
after the rejection. -/
def hasty : (q : Req) → Watched → Except Error (Rep q) × Watched
  | .now, w => (.ok w.watch.time,w)
  | .forgeCandidate _, w =>
    if w.watch.limited then (.ok movedCandidate,⟨w.store,w.watch.read movedCandidate⟩)
    else (.ok sampleCandidate,⟨w.store,w.watch.read sampleCandidate⟩)
  | .forgeChecks _ _, w => (.ok [],⟨w.store,{ w.watch with checks := some [] }⟩)
  | .inspect _ _ _, w => (.ok ⟨[],none,none,none⟩,
      ⟨{ w.store with rejected := false },{ w.watch with evidence := some ⟨[],none,none,none⟩ }⟩)
  | .submit i, w => (.error (.other "rate limited"),
      ⟨w.store.submit i true,{ w.watch with dispatched := some i, limited := false }⟩)
  | .providerPollAt, w =>
    (.ok (some 100),⟨w.store.polled (some 100),w.watch.limit w.store.rejected (some 100)⟩)
  | q, w => ((smooth q w.store).1,⟨(smooth q w.store).2,w.watch⟩)

theorem hasty_answers (q : Req) (w : Watched) :
    (watched platform .all).step q w (hasty q w).1 (hasty q w).2 := by
  cases q with
  | now => exact ⟨⟨by rintro ⟨⟩,rfl,_,rfl⟩,rfl,rfl⟩
  | forgeCandidate url =>
    rw [hasty]
    split
    · exact ⟨⟨by rintro ⟨⟩,rfl⟩,.inl trivial,rfl⟩
    · exact ⟨⟨by rintro ⟨⟩,rfl⟩,.inl trivial,rfl⟩
  | forgeChecks | inspect | submit => exact ⟨⟨by rintro ⟨⟩,rfl⟩,rfl⟩
  | providerPollAt => exact ⟨⟨by rintro ⟨⟩,some 100,rfl,rfl⟩,some 100,rfl,rfl⟩
  | _ => exact ⟨smooth_answers _ w.store,rfl⟩

def Watched.empty : Watched :=
  ⟨.empty,⟨1,fun _ => none,none,false,none,none,none,none,none⟩⟩

theorem unhurried_empty : Unhurried .empty := by
  refine ⟨initial_empty,fun _ => rfl,?_⟩
  rintro _ _ ⟨⟩

/-- The first `n` requests of a tick of the sample from a given world. -/
def watchedTick (answer : (q : Req) → Watched → Except Error (Rep q) × Watched) (n : ℕ)
    (w : Watched) := advance answer n
  ((ensureOnce samplePlatform samplePolicy sampleUrl true).start ())
  ⟨w.store,w.watch.begin samplePolicy⟩

theorem watchedTick_reachable
    {answer : (q : Req) → Watched → Except Error (Rep q) × Watched} {w₀ : Watched}
    (ha : ∀ q w, (watched samplePlatform faults).step q w (answer q w).1 (answer q w).2)
    (n : ℕ) (h : (watched samplePlatform faults).Reachable w₀ (w,none)) :
    (watched samplePlatform faults).Reachable w₀
      ((watchedTick answer n w).2,some (watchedTick answer n w).1) := by
  have hstart : (watched samplePlatform faults).Reachable w₀ (_,some _) :=
    h.tail (.start ⟨samplePolicy,sampleUrl,true,rfl,rfl⟩)
  exact hstart.reach (reach_advance (M := (watched samplePlatform faults).toWorld) ha n _ _)

/-- A tick that is submitting, the retry time of its comparison, and the clock. -/
def hurry : Prog Req (fun q => Except Error (Rep q)) (Except Error Outcome × Unit) × Watched →
    Option (Option ℕ × ℕ)
  | (.call (.submit i) _,w) => some (w.watch.retry i.comparison,w.watch.time)
  | _ => none

theorem hurry_eq
    {c : Prog Req (fun q => Except Error (Rep q)) (Except Error Outcome × Unit) × Watched}
    {retry : Option ℕ} {now : ℕ} (h : hurry c = some (retry,now)) :
    ∃ i, c.1.pending = some (.submit i) ∧ c.2.watch.retry i.comparison = retry ∧
      c.2.watch.time = now := by
  obtain ⟨_ | ⟨q,k⟩,w⟩ := c
  · cases h
  · cases q <;> cases h
    exact ⟨_,rfl,rfl,rfl⟩

/-- The first tick, whose submission is rejected until 100 while its comparison moves. -/
def rejectedTick := watchedTick hasty 21 .empty

theorem finished_reachable {w₀ w : Watched}
    {p : Prog Req (fun q => Except Error (Rep q)) (Except Error Outcome × Unit)}
    (h : (watched platform faults).Reachable w₀ (w,some p)) (hp : p.returned.isSome) :
    (watched platform faults).Reachable w₀ (w,none) := by
  cases p with
  | ret a => exact h.tail .finish
  | call q k => cases hp

theorem rejectedTick_reachable :
    (watched samplePlatform .all).Reachable .empty (rejectedTick.2,none) := by
  refine finished_reachable (watchedTick_reachable hasty_answers 21 .refl) ?_
  decide +kernel

-- a tick that has not read anything yet submits nothing
example : hurry (watchedTick hasty 0 .empty) = none := by decide +kernel

/-- A comparison that moved away and came back is submitted again at once. -/
theorem moved_submits_again :
    ¬ ∀ (platform : Platform) (faults : Faults) (w₀ : Watched), Unhurried w₀ →
      ∀ (p : Prog Req (fun q => Except Error (Rep q)) (Except Error Outcome × Unit))
        (w : Watched), (watched platform faults).Reachable w₀ (w,some p) →
        ∀ i, p.pending = some (.submit i) → ∀ t, w.watch.retry i.comparison = some t →
          t ≤ w.watch.time := by
  intro h
  obtain ⟨i,hp,hr,ht⟩ := hurry_eq (show hurry (watchedTick hasty 10 rejectedTick.2) =
    some (some 100,1) by decide +kernel)
  have hle := h samplePlatform .all .empty unhurried_empty _ _
    (watchedTick_reachable hasty_answers 10 rejectedTick_reachable) i hp 100 hr
  rw [ht] at hle
  exact absurd hle (by decide)

def Faults.none : Faults := ⟨False,False⟩

theorem none_steady : Faults.none.Steady := ⟨id,id⟩

/-- The comparison stays, as far as the watch can tell. -/
def Watch.stays (v : Watch) (candidate : Candidate) : Bool :=
  !v.limited || v.dispatched.all fun i =>
    candidate.comparison i.policyDigest = i.comparison && candidate.isOpen

theorem stays_of {v : Watch} (h : v.stays candidate = true) : Stays v candidate := by
  intro hl i hi
  simpa [Watch.stays,hl,hi] using h

/-- The same provider, with a comparison that stays and a clock that goes on. -/
def patient : (q : Req) → Watched → Except Error (Rep q) × Watched
  | .forgeCandidate _, w =>
    if w.watch.stays sampleCandidate then
      (.ok sampleCandidate,⟨w.store,w.watch.read sampleCandidate⟩)
    else (.error (.other "unavailable"),w)
  | q, w => hasty q w

theorem patient_answers (q : Req) (w : Watched) :
    (watched platform .none).step q w (patient q w).1 (patient q w).2 := by
  cases q with
  | forgeCandidate url =>
    rw [patient]
    split
    · next h => exact ⟨⟨by rintro ⟨⟩,rfl⟩,.inr (stays_of h),rfl⟩
    · exact ⟨⟨by rintro ⟨⟩,rfl⟩,rfl⟩
  | now => exact ⟨⟨by rintro ⟨⟩,rfl,_,rfl⟩,rfl,rfl⟩
  | forgeChecks | inspect | submit => exact ⟨⟨by rintro ⟨⟩,rfl⟩,rfl⟩
  | providerPollAt => exact ⟨⟨by rintro ⟨⟩,some 100,rfl,rfl⟩,some 100,rfl,rfl⟩
  | _ => exact ⟨smooth_answers _ w.store,rfl⟩

/-- The first tick's rejection, and the world at its retry time. -/
def patientTick := watchedTick patient 20 .empty

def laterWorld : Watched :=
  ⟨patientTick.2.store,{ patientTick.2.watch with time := 100 }⟩

theorem laterWorld_reachable :
    (watched samplePlatform .none).Reachable .empty (laterWorld,none) := by
  have hfin : patientTick.1.returned.isSome ∧ patientTick.2.watch.time ≤ 100 := by decide +kernel
  have hend := finished_reachable (watchedTick_reachable patient_answers 20 .refl) hfin.1
  exact hend.tail (.idle ⟨Lost.refl _,.inl hfin.2,rfl⟩)

/-- The sample is submitted again once its retry time has come. -/
theorem sample_waits : ∃ i, (watchedTick patient 11 laterWorld).1.pending = some (.submit i) ∧
    (watchedTick patient 11 laterWorld).2.watch.retry i.comparison = some 100 ∧
      100 ≤ (watchedTick patient 11 laterWorld).2.watch.time := by
  obtain ⟨i,hp,hr,_⟩ := hurry_eq (show hurry (watchedTick patient 11 laterWorld) =
    some (some 100,100) by decide +kernel)
  exact ⟨i,hp,hr,submits_after_retry samplePlatform .none none_steady .empty unhurried_empty _ _
    (watchedTick_reachable patient_answers 11 laterWorld_reachable) i hp 100 hr⟩

-- the clock alone does not hurry it
example : hurry (watchedTick patient 0 laterWorld) = none := by decide +kernel

/-! ## Ready outcomes -/

/-- A ready outcome rests on complete evidence for the comparison as it was read last, and
no tick leaves a ready outcome that is still waiting. -/
theorem ready_certified (platform : Platform) :
    (∀ policy candidate review, Policy.evaluate platform policy candidate review = .ready →
      Attests platform policy candidate review) ∧
    ∀ w₀, Untroubled w₀ →
      (∀ p w o u, (watched platform .all).Reachable w₀ (w,some p) →
        p.returned = some (.ok o,u) → o.verdict = .ready →
        ∃ policy review first last, Certified platform o w.watch policy review first last) ∧
      ∀ c, (watched platform .all).Reachable w₀ c → Untroubled c.1 := by
  have hi := watched_invariant platform .all
  refine ⟨fun _ _ _ h => attests_of_ready h,fun w₀ h₀ => ⟨fun p w o u hc hp hr => ?_,
    fun c hc => (hi.world h₀.kempt hc).2.settled⟩⟩
  refine hi.returned (P := Returns platform) h₀.kempt ?_ ?_ hc hp o rfl hr
  · exact fun _ _ _ hs h => wp_mono (tick_watched hs h) fun _ _ h => h.2
  · exact fun _ _ _ h hp o ho => (h o ho).passes hp

def sampleReview : Evaluation :=
  ⟨"review",none,none,"greptile",some sampleCandidate.head,some sampleCandidate.base,none,
    samplePlatform.hexDigest samplePolicy.json.render,true,true,[],sampleUrl⟩

/-- A provider that has reviewed the comparison. -/
def reviewed : (q : Req) → Watched → Except Error (Rep q) × Watched
  | .inspect _ _ _, w => (.ok ⟨[],none,none,some sampleReview⟩,
      ⟨{ w.store with rejected := false },
        { w.watch with evidence := some ⟨[],none,none,some sampleReview⟩ }⟩)
  | q, w => hasty q w

theorem reviewed_answers (q : Req) (w : Watched) :
    (watched platform .all).step q w (reviewed q w).1 (reviewed q w).2 := by
  by_cases hq : ∃ c p i, q = .inspect c p i
  · obtain ⟨c,p,i,rfl⟩ := hq
    exact ⟨⟨by rintro ⟨⟩,rfl⟩,rfl⟩
  · have hr : reviewed q w = hasty q w := by
      cases q <;> first | rfl | exact absurd ⟨_,_,_,rfl⟩ hq
    rw [hr]
    exact hasty_answers q w

/-- The verdict a tick returned. -/
def verdict (c : Prog Req (fun q => Except Error (Rep q)) (Except Error Outcome × Unit) × Watched) :
    Option Verdict :=
  match c.1.returned with
  | some (.ok o,_) => some o.verdict
  | _ => none

theorem verdict_eq
    {c : Prog Req (fun q => Except Error (Rep q)) (Except Error Outcome × Unit) × Watched}
    {v : Verdict} (h : verdict c = some v) : ∃ o u, c.1.returned = some (.ok o,u) ∧
      o.verdict = v := by
  rw [verdict] at h
  split at h
  · next o u he => exact ⟨o,u,he,Option.some.inj h⟩
  · cases h

theorem sample_ready : ∃ o policy review first last,
    Certified samplePlatform o (watchedTick reviewed 18 .empty).2.watch policy review first last := by
  obtain ⟨o,u,hr,hv⟩ := verdict_eq (show verdict (watchedTick reviewed 18 .empty) = some .ready by
    decide +kernel)
  exact ⟨o,((ready_certified samplePlatform).2 .empty unhurried_empty.settled).1 _ _ o u
    (watchedTick_reachable reviewed_answers 18 .refl) hr hv⟩

/-- A journal whose run holds a ready outcome that is still waiting. -/
def waitingRun : Run :=
  ⟨⟨1,"run",sampleCandidate,samplePlatform.hexDigest samplePolicy.json.render,[]⟩,.submitted,
    some "receipt",some ⟨1,.ready,sampleCandidate,some "run",none,[],nextAction .ready,some 10,0⟩⟩

def waitingWorld : Watched :=
  ⟨⟨fun _ => some historyAnchor,fun _ => some (.journal ⟨2,true,[waitingRun]⟩),⟨false,"",none⟩,[],
    false⟩,⟨1,fun _ => none,none,false,none,none,none,none,none⟩⟩

/-- A journal that already holds such an outcome gets it returned without any evidence. -/
theorem waiting_ready_returned :
    ¬ ∀ (platform : Platform) (w₀ : Watched)
      (p : Prog Req (fun q => Except Error (Rep q)) (Except Error Outcome × Unit)) (w : Watched),
      (watched platform .all).Reachable w₀ (w,some p) → ∀ o u, p.returned = some (.ok o,u) →
        o.verdict = .ready → ∃ policy review first last,
          Certified platform o w.watch policy review first last := by
  intro h
  have hrun : verdict (watchedTick reviewed 8 waitingWorld) = some .ready ∧
      (watchedTick reviewed 8 waitingWorld).2.watch.evidence = none := by decide +kernel
  obtain ⟨o,u,hr,hv⟩ := verdict_eq hrun.1
  obtain ⟨_,_,_,_,hc⟩ := h samplePlatform waitingWorld _ _
    (watchedTick_reachable reviewed_answers 8 .refl) o u hr hv
  obtain ⟨_,he,_⟩ := hc.inspected
  rw [hrun.2] at he
  cases he

end Review
end CanixToolbelt
