import CanixToolbelt.Review

/-! At most one submission a comparison, over every sequence of ticks: whatever the forge
and the provider answer, whenever a tick crashes, and whichever journals get lost. -/
namespace CanixToolbelt
namespace Review
open Effect

variable {platform : Platform} {w w' : Store} {key : String} {j : Journal} {c : Comparison}
  {r : Run} {i : Intent} {u : Unit}

/-! ## Comparisons -/

/-- The intent of a comparison: the relation by which the engine attributes a run. -/
def Intent.concerns (i : Intent) (c : Comparison) : Prop :=
  i.schemaVersion = 1 ∧ i.comparison = c

theorem concerns_of_matches {candidate : Candidate} {policy : Policy} {digest : String}
    (hd : policy.digest platform = .ok digest) :
    i.matches_ platform candidate policy = true ↔ i.concerns (candidate.comparison digest) := by
  simp only [Intent.matches_,Intent.concerns,Intent.comparison,Candidate.comparison,hd,
    Except.toOption,Bool.and_eq_true,decide_eq_true_eq,Comparison.mk.injEq,Option.some.injEq]
  constructor
  · rintro ⟨⟨⟨⟨⟨⟨⟨hs,hh⟩,hb⟩,hu⟩,hr⟩,hsb⟩,ht⟩,hp⟩
    exact ⟨hs,hu,hr,hsb,ht,hh,hb,hp.symm⟩
  · rintro ⟨hs,hu,hr,hsb,ht,hh,hb,hp⟩
    exact ⟨⟨⟨⟨⟨⟨⟨hs,hh⟩,hb⟩,hu⟩,hr⟩,hsb⟩,ht⟩,hp.symm⟩

/-- No two runs of one comparison. -/
def Distinct (runs : List Run) : Prop :=
  (runs.map Run.intent).Pairwise fun i i' => ∀ c, i.concerns c → ¬ i'.concerns c

/-- Whether the latest submission of a comparison was definitively rejected. -/
def latest (c : Comparison) (submits : List (Comparison × Bool)) : Option Bool :=
  (submits.find? (·.1 = c)).map Prod.snd

@[simp] theorem latest_cons_self (b : Bool) (cs : List (Comparison × Bool)) :
    latest c ((c,b) :: cs) = some b := by simp [latest]

theorem latest_cons_ne {c' : Comparison} (h : c' ≠ c) (b : Bool) (cs : List (Comparison × Bool)) :
    latest c ((c',b) :: cs) = latest c cs := by simp [latest,h]

theorem latest_reject {cs : List (Comparison × Bool)} (h : latest c (reject cs) = some false) :
    latest c cs = some false := by
  rcases cs with _ | ⟨⟨c',b⟩,cs⟩
  · exact h
  · by_cases hc : c' = c
    · subst hc
      simp [reject] at h
    · rw [reject,latest_cons_ne hc] at h
      rw [latest_cons_ne hc,h]

/-- A retained run that forbids another submission. -/
def Retains (runs : List Run) (c : Comparison) : Prop :=
  ∃ r ∈ runs, r.intent.concerns c ∧ r.submission ≠ .deferred

/-- The key of the files of a comparison. -/
def Comparison.file (platform : Platform) (c : Comparison) : String :=
  platform.hexDigest c.url.toList

/-- A journal file that forbids another submission: what it retains, or its damage. -/
def Kept (c : Comparison) : Option Stored → Prop
  | none | some .unreadable => True
  | some (.run _) => False
  | some (.journal j) => Retains j.runs c

/-- What holds between two ticks. -/
structure Sound (platform : Platform) (w : Store) : Prop where
  distinct : ∀ key j, w.journal key = some (.journal j) → Distinct j.runs
  kept : ∀ c, latest c w.submits = some false →
    (w.lock (c.file platform)).isSome ∧ Kept c (w.journal (c.file platform))

/-- The runs a stored file holds, the legacy one included. -/
def Stored.runs : Stored → List Run
  | .journal j => j.runs
  | .run r => [r]
  | .unreadable => []

/-- What a tick must have found to submit: no earlier file at all, a complete history,
or a run of this very comparison. -/
def Authorised (e : Entry) (c : Comparison) : Prop :=
  (e.fresh ∧ e.anchor = "" ∧ e.stored = none) ∨
  (e.anchor = historyAnchor ∧ ∃ j, e.stored = some (.journal j) ∧ j.historyComplete) ∨
  ((e.anchor = historyAnchor ∨ e.anchor = "" ∧ e.fresh = false) ∧
    ∃ stored, e.stored = some stored ∧ ∃ r ∈ stored.runs, r.intent.concerns c)

structure Submittable (platform : Platform) (w : Store) (c : Comparison) : Prop where
  once : latest c w.submits ≠ some false
  authorised : Authorised w.entry c
  locked : (w.lock (c.file platform)).isSome
  kept : Kept c (w.journal (c.file platform))

/-- What the engine makes sure of before it issues a request. -/
def Allowed (platform : Platform) (w : Store) : Req → Prop
  | .submit i => Submittable platform w i.comparison
  | .writeJournal key j => (w.lock key).isSome ∧ Distinct j.runs ∧
      ∀ c, c.file platform = key → latest c w.submits = some false → Retains j.runs c
  | _ => True

/-! ## What one request changes -/

theorem Lost.eq (h : Lost w w') : w'.lock = w.lock ∧ w'.entry = w.entry ∧
    w'.submits = w.submits ∧ w'.rejected = w.rejected := by
  rw [h.rest]
  exact ⟨rfl,rfl,rfl,rfl⟩

theorem Kept.lost (h : Kept c (w.journal key)) (hl : Lost w w') : Kept c (w'.journal key) := by
  rcases hl.journal key with hk | hk | hk <;> rw [hk]
  · exact h
  · trivial
  · trivial

theorem Sound.lost (h : Sound platform w) (hl : Lost w w') : Sound platform w' where
  distinct := by
    intro key j hj
    rcases hl.journal key with hk | hk | hk <;> rw [hk] at hj
    · exact h.distinct key j hj
    · cases hj
    · cases hj
  kept := by
    intro c hc
    obtain ⟨hlock,_,hsub,_⟩ := hl.eq
    rw [hsub] at hc
    rw [hlock]
    exact ⟨(h.kept c hc).1,(h.kept c hc).2.lost hl⟩

/-- A world in which at most a lock was made or filled, or a rejection recorded. -/
theorem Sound.grow (h : Sound platform w) (hj : w'.journal = w.journal)
    (hl : ∀ key, (w.lock key).isSome → (w'.lock key).isSome)
    (hs : ∀ c, latest c w'.submits = some false → latest c w.submits = some false) :
    Sound platform w' := by
  refine ⟨?_,fun c hc => ?_⟩ <;> rw [hj]
  · exact h.distinct
  · have hk := h.kept c (hs c hc)
    exact ⟨hl _ hk.1,hk.2⟩

theorem isSome_locked (w : Store) (key content : String) {key' : String}
    (h : (w.lock key').isSome) : ((w.locked key content).lock key').isSome := by
  by_cases hk : key' = key
  · simp [Store.locked,hk]
  · simpa [Store.locked,hk] using h

theorem Sound.locked (h : Sound platform w) (key content : String) :
    Sound platform (w.locked key content) :=
  h.grow rfl (fun _ => isSome_locked w key content) fun _ hc => hc

theorem Sound.opened (h : Sound platform w) (key : String) (fresh : Bool) :
    Sound platform (opened w key fresh) := by
  cases fresh
  · exact h.grow rfl (fun _ hk => hk) fun _ hc => hc
  · exact h.grow rfl (fun _ => isSome_locked w key "") fun _ hc => hc

theorem Sound.submit (h : Sound platform w) (hs : Submittable platform w i.comparison)
    (failed : Bool) : Sound platform (w.submit i failed) where
  distinct := h.distinct
  kept := by
    intro c hc
    by_cases hi : i.comparison = c
    · subst hi
      exact ⟨hs.locked,hs.kept⟩
    · rw [Store.submit,latest_cons_ne hi] at hc
      exact h.kept c hc

theorem Sound.write (h : Sound platform w) (ha : Allowed platform w (.writeJournal key j)) :
    Sound platform (w.write key j) := by
  obtain ⟨hlock,hdistinct,hretains⟩ := ha
  constructor
  · intro key' j' hj
    by_cases hk : key' = key
    · simp only [Store.write,hk,Function.update_self,Option.some.injEq,Stored.journal.injEq] at hj
      exact hj ▸ hdistinct
    · simp only [Store.write,Function.update_of_ne hk] at hj
      exact h.distinct key' j' hj
  · intro c hc
    have hk := h.kept c hc
    refine ⟨hk.1,?_⟩
    by_cases hck : c.file platform = key
    · simp only [Store.write,hck,Function.update_self]
      exact hretains c hck hc
    · simp only [Store.write,Function.update_of_ne hck]
      exact hk.2

theorem polled_eq (w : Store) (t : Option ℕ) : (w.polled t).lock = w.lock ∧
    (w.polled t).journal = w.journal ∧ (w.polled t).entry = w.entry ∧
    ∀ c, latest c (w.polled t).submits = some false → latest c w.submits = some false := by
  rw [Store.polled]
  split
  · exact ⟨rfl,rfl,rfl,fun _ => latest_reject⟩
  · exact ⟨rfl,rfl,rfl,fun _ hc => hc⟩

theorem Sound.answer {q : Req} {a : Except Error (Rep q)} (h : Sound platform w)
    (hq : Allowed platform w q) (ha : answers q w a w') : Sound platform w' := by
  cases q with
  | capabilities | now | nonce | pid | forgePollAt =>
    rw [ha.1]
    exact h
  | forgeCandidate | forgeChecks | createDir | tryLock =>
    rw [show w' = w from ha]
    exact h
  | inspect =>
    rw [show w' = _ from ha]
    exact h.grow rfl (fun _ hk => hk) fun _ hc => hc
  | submit i =>
    rw [show w' = _ from ha]
    exact h.submit hq _
  | providerPollAt =>
    obtain ⟨t,_,rfl⟩ := ha
    obtain ⟨hl,hj,_,hs⟩ := polled_eq w t
    exact h.grow hj (fun key hk => by rw [hl]; exact hk) hs
  | openLock key =>
    rcases a with e | fresh
    · rcases ha with rfl | rfl
      · exact h
      · exact h.opened key _
    · rw [ha.2]
      exact h.opened key _
  | readAnchor | readJournal =>
    rcases a with e | x
    · rw [show w' = w from ha]
      exact h
    · rw [ha.2]
      exact h.grow rfl (fun _ hk => hk) fun _ hc => hc
  | writeJournal key j =>
    rcases ha with rfl | ⟨rfl,_⟩
    · exact h.write hq
    · exact h
  | writeAnchor key =>
    rcases a with e | x
    · rcases ha with rfl | ⟨n,rfl⟩
      · exact h
      · exact h.locked key _
    · rw [show w' = _ from ha]
      exact h.locked key _

/-! ## The tick under way -/

abbrev trusting (platform : Platform) := (system platform).toWorld.assume (Sound platform)

/-- A part of a tick that ends in `post`, unless it fails with an error of its own. -/
def Does (platform : Platform) {α : Type} (m : Tick α) (post : α → Store → Prop)
    (w : Store) : Prop :=
  Script.wp (trusting platform) (Allowed platform) m
    (Script.Ends (fun a _ => post a) fun e _ _ => e ≠ .ambiguous) () w

section
variable {α β : Type} {m : Tick α} {f : α → Tick β} {post : α → Store → Prop}
  {post' : β → Store → Prop} {q : Req}

theorem Does.seq (h : Does platform m post w)
    (hf : ∀ a w', post a w' → Does platform (f a) post' w') : Does platform (m >>= f) post' w :=
  Script.wp_then h fun a _ w' => hf a w'

theorem Does.imp {post' : α → Store → Prop} (h : Does platform m post w)
    (hp : ∀ a w', post a w' → post' a w') : Does platform m post' w :=
  Script.wp_ends h (fun a _ w' => hp a w') fun _ _ _ he => he

theorem Does.ask {post : Rep q → Store → Prop}
    (hq : ∀ w₁, Lost w w₁ → Allowed platform w₁ q)
    (ha : ∀ w₁ b w₂, Lost w w₁ → Sound platform w₁ → answers q w₁ (.ok b) w₂ → post b w₂) :
    Does platform (Script.ask q) post w := by
  refine (Script.wp_ask q).2 fun w₁ hl => ⟨hq w₁ hl,?_⟩
  rintro (e | b) w₂ ⟨hs,he,hw⟩
  · exact fun h => he (congrArg Except.error h)
  · exact ha w₁ b w₂ hl hs hw

theorem Does.attempt {post : Except Error (Rep q) → Store → Prop}
    (hq : ∀ w₁, Lost w w₁ → Allowed platform w₁ q)
    (ha : ∀ w₁ a w₂, Lost w w₁ → Sound platform w₁ → answers q w₁ a w₂ → post a w₂) :
    Does platform (Script.ask q).attempt post w := by
  refine Script.wp_attempt.2 ((Script.wp_ask q).2 fun w₁ hl => ⟨hq w₁ hl,?_⟩)
  rintro a w₂ ⟨hs,_,hw⟩
  exact ha w₁ a w₂ hl hs hw

end

/-- What may happen outside while the journal is left alone: losses and rejections. -/
structure Later (w w' : Store) : Prop where
  journal : ∀ key, w'.journal key = w.journal key ∨ w'.journal key = none ∨
    w'.journal key = some .unreadable
  lock : w'.lock = w.lock
  entry : w'.entry = w.entry
  submits : ∀ c, latest c w'.submits = some false → latest c w.submits = some false

theorem Lost.later (h : Lost w w') : Later w w' := by
  obtain ⟨hl,he,hs,_⟩ := h.eq
  exact ⟨h.journal,hl,he,fun c hc => by rwa [hs] at hc⟩

theorem Later.refl (w : Store) : Later w w := (Lost.refl w).later

theorem Later.trans {w₁ w₂ w₃ : Store} (h : Later w₁ w₂) (h' : Later w₂ w₃) : Later w₁ w₃ := by
  refine ⟨fun key => ?_,h'.lock.trans h.lock,h'.entry.trans h.entry,
    fun c hc => h.submits c (h'.submits c hc)⟩
  rcases h'.journal key with hk | hk
  · rw [hk]
    exact h.journal key
  · exact .inr hk

/-- The journal in memory and what the outside shows of it. -/
structure Held (platform : Platform) (key : String) (j : Journal) (w : Store) : Prop where
  locked : (w.lock key).isSome
  durable : w.journal key = some (.journal j) ∨ w.journal key = none ∨
    w.journal key = some .unreadable
  distinct : Distinct j.runs
  retains : ∀ c, c.file platform = key → latest c w.submits = some false → Retains j.runs c

/-- The run in memory: of this comparison, never deferred after a submission without
rejection, and deferred only where a submission is authorised. -/
structure Backed (j : Journal) (c : Comparison) (r : Run) (w : Store) : Prop where
  concerns : r.intent.concerns c
  spent : latest c w.submits = some false → r.submission ≠ .deferred
  known : (∃ s ∈ j.runs, s.intent = r.intent) ∨ ∀ s ∈ j.runs, ¬ s.intent.concerns c
  authorised : r.submission = .deferred → Authorised w.entry c

theorem Held.later (h : Held platform key j w) (hl : Later w w') : Held platform key j w' where
  locked := by
    rw [hl.lock]
    exact h.locked
  durable := by
    rcases hl.journal key with hk | hk
    · rw [hk]
      exact h.durable
    · exact .inr hk
  distinct := h.distinct
  retains := fun c hc hs => h.retains c hc (hl.submits c hs)

theorem Backed.later (h : Backed j c r w) (hl : Later w w') : Backed j c r w' where
  concerns := h.concerns
  spent := fun hs => h.spent (hl.submits c hs)
  known := h.known
  authorised := by
    rw [hl.entry]
    exact h.authorised

/-! ## Saving a run -/

theorem mem_replaceRun (r : Run) (rs : List Run) : r ∈ replaceRun r rs := by
  induction rs with
  | nil => exact List.mem_singleton_self r
  | cons s rs ih =>
    rw [replaceRun]
    split
    · exact List.mem_cons_self
    · exact List.mem_cons_of_mem _ ih

/-- What `saveRun` requires of the runs it replaces. -/
def Agrees (r : Run) (rs : List Run) : Prop :=
  ¬ (rs.find? (·.intent.id = r.intent.id)).any (·.intent ≠ r.intent) = true

theorem Agrees.cases {s : Run} {rs : List Run} (h : Agrees r (s :: rs)) :
    (s.intent.id = r.intent.id ∧ s.intent = r.intent) ∨
      (s.intent.id ≠ r.intent.id ∧ Agrees r rs) := by
  by_cases hs : s.intent.id = r.intent.id
  · refine .inl ⟨hs,?_⟩
    simpa [Agrees,hs] using h
  · refine .inr ⟨hs,?_⟩
    simpa [Agrees,hs] using h

/-- Every run stays, but for one of the same intent that is replaced. -/
theorem replaceRun_keeps {s : Run} {rs : List Run} (h : Agrees r rs) (hs : s ∈ rs) :
    s ∈ replaceRun r rs ∨ s.intent = r.intent := by
  induction rs with
  | nil => cases hs
  | cons s' rs ih =>
    rw [replaceRun]
    rcases h.cases with ⟨hi,he⟩ | ⟨hi,hr⟩
    · rw [if_pos hi]
      rcases List.mem_cons.1 hs with rfl | hs
      · exact .inr he
      · exact .inl (List.mem_cons_of_mem _ hs)
    · rw [if_neg hi]
      rcases List.mem_cons.1 hs with rfl | hs
      · exact .inl List.mem_cons_self
      · exact (ih hr hs).imp_left (List.mem_cons_of_mem _)

theorem replaceRun_intents {rs : List Run} (h : Agrees r rs) :
    (replaceRun r rs).map Run.intent = rs.map Run.intent ∨
      ((∀ s ∈ rs, s.intent ≠ r.intent) ∧
        (replaceRun r rs).map Run.intent = rs.map Run.intent ++ [r.intent]) := by
  induction rs with
  | nil => exact .inr ⟨fun _ hs => absurd hs List.not_mem_nil,rfl⟩
  | cons s rs ih =>
    rw [replaceRun]
    rcases h.cases with ⟨hi,he⟩ | ⟨hi,hr⟩
    · rw [if_pos hi]
      exact .inl (by simp [he])
    · rw [if_neg hi]
      refine (ih hr).imp (fun h => by simp [h]) fun ⟨hn,h⟩ => ⟨?_,by simp [h]⟩
      intro s' hs'
      rcases List.mem_cons.1 hs' with rfl | hs'
      · exact fun he => hi (congrArg Intent.id he)
      · exact hn s' hs'

/-- A run of a comparison that the journal knows by it, or has no run of. -/
def Known (j : Journal) (c : Comparison) (r : Run) : Prop :=
  (∃ s ∈ j.runs, s.intent = r.intent) ∨ ∀ s ∈ j.runs, ¬ s.intent.concerns c

theorem Distinct.replaceRun (h : Distinct j.runs) (hc : r.intent.concerns c) (hk : Known j c r)
    (ha : Agrees r j.runs) : Distinct (replaceRun r j.runs) := by
  rcases replaceRun_intents ha with he | ⟨hn,he⟩
  · rw [Distinct,he]
    exact h
  · have hnone := hk.resolve_left fun ⟨s,hs,hi⟩ => hn s hs hi
    rw [Distinct,he,List.pairwise_append]
    refine ⟨h,List.pairwise_singleton _ _,?_⟩
    intro i hi i' hi' c' hc' hc''
    obtain ⟨s,hs,rfl⟩ := List.mem_map.1 hi
    rw [List.mem_singleton.1 hi'] at hc''
    have hcc : c' = c := hc''.2.symm.trans hc.2
    exact hnone s hs (hcc ▸ hc')

theorem Retains.replaceRun {c' : Comparison} (h : Retains j.runs c') (hr : Backed j c r w)
    (ha : Agrees r j.runs) (hs : latest c' w.submits = some false) :
    Retains (replaceRun r j.runs) c' := by
  obtain ⟨s,hs',hc,hd⟩ := h
  rcases replaceRun_keeps ha hs' with hk | hk
  · exact ⟨s,hk,hc,hd⟩
  · rw [hk] at hc
    have hcc : c' = c := hc.2.symm.trans hr.concerns.2
    exact ⟨r,mem_replaceRun r _,hc,hr.spent (hcc ▸ hs)⟩

theorem saveRun_held (hj : Held platform key j w) (hr : Backed j c r w) :
    Does platform (saveRun key j r) (fun j' w' => Held platform key j' w' ∧ r ∈ j'.runs ∧
      w'.submits = w.submits ∧ w'.entry = w.entry) w := by
  rw [saveRun]
  by_cases ha : (j.runs.find? (·.intent.id = r.intent.id)).any (·.intent ≠ r.intent) = true
  · rw [if_pos ha]
    exact nofun
  rw [if_neg ha]
  have hd := hj.distinct.replaceRun hr.concerns hr.known ha
  have hwrite : Does platform (writeJournal key { j with runs := replaceRun r j.runs })
      (fun _ w' => (w'.lock key).isSome ∧
        w'.journal key = some (.journal { j with runs := replaceRun r j.runs }) ∧
        w'.submits = w.submits ∧ w'.entry = w.entry) w := by
    refine Does.ask (fun w₁ hl => ?_) ?_
    · refine ⟨(hj.later hl.later).locked,hd,fun c' hc' hs => ?_⟩
      rw [hl.eq.2.2.1] at hs
      exact (hj.retains c' hc' hs).replaceRun hr ha hs
    · rintro w₁ b w₂ hl _ (rfl | ⟨_,_,⟨⟩⟩)
      obtain ⟨_,he,hs,_⟩ := hl.eq
      exact ⟨(hj.later hl.later).locked,by simp [Store.write],hs,he⟩
  refine Does.seq hwrite ?_
  rintro _ w₁ ⟨hlock,hw,hs,he⟩
  refine ⟨⟨hlock,.inl hw,hd,fun c' hc' hs' => ?_⟩,mem_replaceRun r _,hs,he⟩
  rw [hs] at hs'
  exact (hj.retains c' hc' hs').replaceRun hr ha hs'

/-! ## Loading the journal -/

/-- What the loaded journal says about a comparison is a reason to submit for it. -/
def Qualified (j : Journal) (e : Entry) : Prop :=
  ∀ c, (j.historyComplete = true ∨ ∃ r ∈ j.runs, r.intent.concerns c) → Authorised e c

/-- A lock file that is open: nothing was submitted for it where it is fresh. -/
structure Opened (platform : Platform) (key : String) (fresh : Bool) (w : Store) : Prop where
  locked : (w.lock key).isSome
  entry : w.entry.fresh = fresh
  unused : fresh = true → ∀ c, c.file platform = key → latest c w.submits ≠ some false

theorem Opened.lost {fresh : Bool} (h : Opened platform key fresh w) (hl : Lost w w') :
    Opened platform key fresh w' := by
  obtain ⟨hlock,he,hs,_⟩ := hl.eq
  refine ⟨?_,?_,fun hf c hc => ?_⟩
  · rw [hlock]
    exact h.locked
  · rw [he]
    exact h.entry
  · rw [hs]
    exact h.unused hf c hc

theorem openLock_opened (w : Store) :
    Does platform (openLock key) (fun fresh w' => Opened platform key fresh w') w := by
  refine Does.ask (fun _ _ => trivial) ?_
  rintro w₁ _ _ _ hs ⟨rfl,rfl⟩
  cases hk : w₁.lock key with
  | none =>
    refine ⟨by simp [opened,Store.found,Store.locked],rfl,fun _ c hc hsub => ?_⟩
    have h := (hs.kept c hsub).1
    rw [hc,hk] at h
    cases h
  | some a => exact ⟨by simp [opened,Store.found,hk],rfl,nofun⟩

/-- A journal to be armed: whatever was submitted, its runs retain. -/
structure Armable (platform : Platform) (key : String) (j : Journal) (w : Store) : Prop where
  locked : (w.lock key).isSome
  distinct : Distinct j.runs
  retains : ∀ c, c.file platform = key → latest c w.submits = some false → Retains j.runs c

theorem Armable.lost (h : Armable platform key j w) (hl : Lost w w') :
    Armable platform key j w' := by
  obtain ⟨hlock,_,hs,_⟩ := hl.eq
  refine ⟨?_,h.distinct,fun c hc hsub => ?_⟩
  · rw [hlock]
    exact h.locked
  · rw [hs] at hsub
    exact h.retains c hc hsub

theorem arm_held (h : Armable platform key j w) :
    Does platform (arm key j) (fun j' w' => j' = j ∧ Held platform key j w' ∧
      w'.entry = w.entry) w := by
  have hwrite : Does platform (writeJournal key j)
      (fun _ w' => Held platform key j w' ∧ w'.entry = w.entry) w := by
    refine Does.ask (fun w₁ hl => ?_) ?_
    · have h := h.lost hl
      exact ⟨h.locked,h.distinct,h.retains⟩
    · rintro w₁ b w₂ hl _ (rfl | ⟨_,_,⟨⟩⟩)
      have h := h.lost hl
      exact ⟨⟨h.locked,.inl (by simp [Store.write]),h.distinct,h.retains⟩,hl.eq.2.1⟩
  refine Does.seq hwrite ?_
  rintro _ w₁ ⟨h₁,he₁⟩
  have hanchor : Does platform (writeAnchor key)
      (fun _ w' => Held platform key j w' ∧ w'.entry = w.entry) w₁ := by
    refine Does.ask (fun _ _ => trivial) ?_
    rintro w₂ b _ hl _ rfl
    have h₂ := h₁.later hl.later
    refine ⟨⟨isSome_locked w₂ key _ h₂.locked,h₂.durable,h₂.distinct,h₂.retains⟩,?_⟩
    exact hl.eq.2.1.trans he₁
  refine Does.seq hanchor ?_
  rintro _ w₂ ⟨h₂,he₂⟩
  exact ⟨rfl,h₂,he₂⟩

theorem Retains.of_kept {stored : Stored} (h : Kept c (some stored)) (hs : stored ≠ .unreadable) :
    Retains stored.runs c := by
  cases stored with
  | journal j => exact h
  | run r => exact h.elim
  | unreadable => exact absurd rfl hs

/-- A stored journal or run is fit to be armed, or to be held at once. -/
theorem armable_of_sound {fresh : Bool} {stored : Stored} (hs : Sound platform w)
    (h : Opened platform key fresh w) (hj : w.journal key = some stored)
    (hu : stored ≠ .unreadable) (complete : Bool) :
    Armable platform key ⟨2,complete,stored.runs⟩ w where
  locked := h.locked
  distinct := by
    cases stored with
    | journal j => exact hs.distinct key j hj
    | run r => exact List.pairwise_singleton _ _
    | unreadable => exact absurd rfl hu
  retains := by
    rintro c rfl hc
    have hk := (hs.kept c hc).2
    rw [hj] at hk
    exact .of_kept hk hu

/-- The files as a tick read them. -/
structure Loaded (platform : Platform) (key : String) (fresh : Bool) (anchor : String)
    (stored : Option Stored) (w : Store) : Prop where
  opened : Opened platform key fresh w
  entry : w.entry = ⟨fresh,anchor,stored⟩
  durable : w.journal key = stored
  sound : Sound platform w

theorem Loaded.rearm {fresh : Bool} {anchor : String} {stored : Stored}
    (h : Loaded platform key fresh anchor (some stored) w) (hf : fresh = false)
    (ha : anchor = "") (hu : stored ≠ .unreadable) :
    Does platform (arm key ⟨2,false,stored.runs⟩)
      (fun j w' => Held platform key j w' ∧ Qualified j w'.entry) w := by
  refine (arm_held (armable_of_sound h.sound h.opened h.durable hu false)).imp ?_
  rintro _ w₁ ⟨rfl,h₁,he₁⟩
  refine ⟨h₁,fun c hc => ?_⟩
  rw [he₁,h.entry]
  exact .inr (.inr ⟨.inr ⟨ha,hf⟩,stored,rfl,hc.resolve_left nofun⟩)

theorem Loaded.fresh {fresh : Bool} {anchor : String}
    (h : Loaded platform key fresh anchor none w) (hf : fresh = true) (ha : anchor = "") :
    Does platform (arm key ⟨2,true,[]⟩)
      (fun j w' => Held platform key j w' ∧ Qualified j w'.entry) w := by
  have harm : Armable platform key ⟨2,true,[]⟩ w :=
    ⟨h.opened.locked,List.Pairwise.nil,fun c hc hs => absurd hs (h.opened.unused hf c hc)⟩
  refine (arm_held harm).imp ?_
  rintro _ w₁ ⟨rfl,h₁,he₁⟩
  refine ⟨h₁,fun c _ => ?_⟩
  rw [he₁,h.entry]
  exact .inl ⟨hf,ha,rfl⟩

theorem Loaded.held {fresh : Bool} {anchor : String}
    (h : Loaded platform key fresh anchor (some (.journal j)) w) (ha : anchor = historyAnchor) :
    Held platform key j w ∧ Qualified j w.entry := by
  have harm := armable_of_sound h.sound h.opened h.durable nofun true
  refine ⟨⟨harm.locked,.inl h.durable,harm.distinct,harm.retains⟩,fun c hc => ?_⟩
  rw [h.entry]
  rcases hc with hc | hc
  · exact .inr (.inl ⟨ha,j,rfl,hc⟩)
  · exact .inr (.inr ⟨.inl ha,.journal j,rfl,hc⟩)

theorem loadJournal_held {fresh : Bool} (h : Opened platform key fresh w) :
    Does platform (loadJournal key fresh)
      (fun j w' => Held platform key j w' ∧ Qualified j w'.entry) w := by
  have hanchor : Does platform (readAnchor key)
      (fun anchor w' => Opened platform key fresh w' ∧ w'.entry.anchor = anchor) w := by
    refine Does.ask (fun _ _ => trivial) ?_
    rintro w₁ anchor _ hl _ ⟨_,rfl⟩
    have h := h.lost hl
    exact ⟨⟨h.locked,h.entry,h.unused⟩,rfl⟩
  refine Does.seq hanchor ?_
  rintro anchor w₁ ⟨h₁,ha₁⟩
  have hread : Does platform (readJournal key)
      (fun stored w' => Loaded platform key fresh anchor stored w') w₁ := by
    refine Does.ask (fun _ _ => trivial) ?_
    rintro w₂ _ _ hl hs ⟨rfl,rfl⟩
    have h₂ := h₁.lost hl
    refine ⟨⟨h₂.locked,h₂.entry,h₂.unused⟩,?_,rfl,?_⟩
    · simp only [Store.found,hl.eq.2.1,h₁.entry,ha₁]
    · exact hs.grow rfl (fun _ hk => hk) fun _ hc => hc
  refine Does.seq hread fun stored w₂ h₂ => ?_
  by_cases ha : anchor = historyAnchor
  · rw [if_pos ha]
    rcases stored with _ | stored | r | _
    · exact nofun
    · by_cases hv : stored.schemaVersion ≠ 2
      · simp only [if_pos hv]
        exact nofun
      · simp only [if_neg hv]
        exact h₂.held ha
    · exact nofun
    · exact nofun
  rw [if_neg ha]
  by_cases he : anchor = ""
  · rw [if_pos he]
    rcases stored with _ | stored
    · cases hf : fresh with
      | true => exact h₂.fresh hf he
      | false => exact nofun
    · cases hf : fresh with
      | true => exact nofun
      | false =>
        rcases stored with j | r | _
        · by_cases hv : j.schemaVersion = 2
          · have hj : ({ j with historyComplete := false } : Journal) = ⟨2,false,j.runs⟩ := by
              rw [hv]
            simp only [Bool.false_eq_true,if_false,if_pos hv,hj]
            exact h₂.rearm hf he nofun
          · simp only [Bool.false_eq_true,if_false,if_neg hv]
            exact nofun
        · exact h₂.rearm hf he nofun
        · exact nofun
  · rw [if_neg he]
    exact nofun

/-! ## The tick's parts -/

/-- Requests that leave the world as it is. -/
def Req.reads : Req → Prop
  | .forgeCandidate _ | .forgeChecks _ _ | .forgePollAt | .capabilities | .now | .nonce | .pid
  | .createDir | .tryLock _ => True
  | _ => False

theorem answers_reads {q : Req} {a : Except Error (Rep q)} (hq : q.reads)
    (h : answers q w a w') : w' = w := by
  cases q with
  | capabilities | now | nonce | pid | forgePollAt => exact h.1
  | forgeCandidate | forgeChecks | createDir | tryLock => exact h
  | _ => exact hq.elim

theorem reads_allowed {q : Req} (hq : q.reads) (w : Store) : Allowed platform w q := by
  cases q <;> trivial

theorem ask_reads {q : Req} (hq : q.reads) (w : Store) :
    Does platform (Script.ask q) (fun _ w' => Lost w w') w := by
  refine Does.ask (fun w₁ _ => reads_allowed hq w₁) fun w₁ b w₂ hl _ ha => ?_
  rw [answers_reads hq ha]
  exact hl

theorem attempt_reads {q : Req} (hq : q.reads) (w : Store) :
    Does platform (Script.ask q).attempt (fun _ w' => Lost w w') w := by
  refine Does.attempt (fun w₁ _ => reads_allowed hq w₁) fun w₁ b w₂ hl _ ha => ?_
  rw [answers_reads hq ha]
  exact hl

theorem providerPollAt_later (w : Store) :
    Does platform providerPollAt (fun _ w' => Later w w') w := by
  refine Does.ask (fun _ _ => trivial) ?_
  rintro w₁ _ _ hl _ ⟨t,_,rfl⟩
  obtain ⟨hlock,hj,he,hs⟩ := polled_eq w₁ t
  refine hl.later.trans ⟨fun key => .inl ?_,hlock,he,hs⟩
  rw [hj]

theorem inspect_later {candidate : Candidate} {policy : Policy} {o : Option Intent} :
    Does platform (inspect candidate policy o).attempt (fun _ w' => Later w w') w := by
  refine Does.attempt (fun _ _ => trivial) ?_
  rintro w₁ _ _ hl _ rfl
  exact hl.later.trans ⟨fun _ => .inl rfl,rfl,rfl,fun _ hs => hs⟩

theorem outcome_lost {candidate : Candidate} {intent : Option Intent} {verdict : Verdict}
    {blockers : List String} {review : Option Evaluation} :
    Does platform (outcome candidate intent verdict blockers review) (fun _ w' => Lost w w') w :=
  Does.seq (ask_reads (q := Req.now) trivial w) fun _ _ h => h

theorem waiting_lost (run : Option Run) (w : Store) :
    Does platform (waiting run) (fun _ w' => Lost w w') w := by
  unfold waiting
  split
  · exact Lost.refl w
  · split
    · exact Lost.refl w
    · exact Does.seq (ask_reads (q := Req.now) trivial w) fun _ _ h => h

theorem judge_lost {policy : Policy} {candidate : Candidate} {run : Run}
    {review : Evaluation} : Does platform (judge platform policy candidate run review)
      (fun _ w' => Lost w w') w := by
  refine Does.seq outcome_lost fun result w₁ h₁ => ?_
  by_cases hv : policy.evaluate platform candidate review = .ready
  · rw [if_pos hv]
    refine Does.seq (attempt_reads (q := Req.forgeChecks candidate policy) trivial w₁) ?_
    rintro (e | _ | ⟨b,bs⟩) w₂ h₂
    · refine Does.seq (ask_reads (q := Req.forgePollAt) trivial w₂) fun _ w₃ h₃ => ?_
      exact (h₁.trans h₂).trans h₃
    · exact h₁.trans h₂
    · exact h₁.trans h₂
  · rw [if_neg hv]
    exact h₁

/-- A tick's journal and run, as one. -/
def Ready (platform : Platform) (key : String) (c : Comparison) (j : Journal) (r : Run)
    (w : Store) : Prop :=
  Held platform key j w ∧ Backed j c r w

theorem Ready.later (h : Ready platform key c j r w) (hl : Later w w') :
    Ready platform key c j r w' := ⟨h.1.later hl,h.2.later hl⟩

/-- The run stays ready with anything else in it, unless it gets deferred. -/
theorem Ready.change {r' : Run} (h : Ready platform key c j r w) (hi : r'.intent = r.intent)
    (hs : r'.submission = r.submission ∨ r'.submission ≠ .deferred) :
    Ready platform key c j r' w := by
  refine ⟨h.1,?_,fun hc => ?_,?_,fun hd => ?_⟩
  · rw [hi]
    exact h.2.concerns
  · rcases hs with hs | hs
    · rw [hs]
      exact h.2.spent hc
    · exact hs
  · rw [hi]
    exact h.2.known
  · rcases hs with hs | hs
    · exact h.2.authorised (hs ▸ hd)
    · exact absurd hd hs

theorem Ready.receive (h : Ready platform key c j r w) (receipt : Option String) :
    Ready platform key c j (r.receive receipt) w := by
  cases receipt with
  | none => exact h
  | some receipt => exact h.change rfl (.inr nofun)

/-- What a dispatch or an assessment leaves: a ready run, unless it ended the tick. -/
def Assessed (platform : Platform) (key : String) (c : Comparison) :
    Outcome ⊕ (Journal × Run × Outcome) → Store → Prop
  | .inl _, _ => True
  | .inr (j,r,_), w => Ready platform key c j r w

/-- The saved run about to be submitted: unknown, retained, and permitted. -/
structure Pending (platform : Platform) (key : String) (c : Comparison) (j : Journal) (r : Run)
    (w : Store) : Prop where
  held : Held platform key j w
  concerns : r.intent.concerns c
  retained : r ∈ j.runs
  unknown : r.submission = .unknown
  once : latest c w.submits ≠ some false
  authorised : Authorised w.entry c

theorem Pending.later (h : Pending platform key c j r w) (hl : Later w w') :
    Pending platform key c j r w' where
  held := h.held.later hl
  concerns := h.concerns
  retained := h.retained
  unknown := h.unknown
  once := fun hs => h.once (hl.submits c hs)
  authorised := by
    rw [hl.entry]
    exact h.authorised

theorem Pending.submittable (h : Pending platform key c j r w) (hk : c.file platform = key) :
    Submittable platform w r.intent.comparison := by
  rw [h.concerns.2]
  refine ⟨h.once,h.authorised,?_,?_⟩ <;> rw [hk]
  · exact h.held.locked
  · rcases h.held.durable with hd | hd | hd <;> rw [hd]
    · exact ⟨r,h.retained,h.concerns,by rw [h.unknown]; exact nofun⟩
    · trivial
    · trivial

/-- After the submission the saved run still retains it. -/
theorem Pending.submitted (h : Pending platform key c j r w) (failed : Bool) :
    Ready platform key c j r (w.submit r.intent failed) := by
  have hu : r.submission ≠ .deferred := by
    rw [h.unknown]
    exact nofun
  refine ⟨⟨h.held.locked,h.held.durable,h.held.distinct,fun c' hk hs => ?_⟩,h.concerns,
    fun _ => hu,.inl ⟨r,h.retained,rfl⟩,fun hd => absurd hd hu⟩
  rw [Store.submit,h.concerns.2] at hs
  by_cases hc : c = c'
  · subst hc
    exact ⟨r,h.retained,h.concerns,hu⟩
  · rw [latest_cons_ne hc] at hs
    exact h.held.retains c' hk hs

/-- A failed submission that was answered with a retry time was definitively rejected. -/
structure Failed (c : Comparison) (w : Store) : Prop where
  submits : ∃ cs, w.submits = (c,false) :: cs
  rejected : w.rejected = true
  authorised : Authorised w.entry c

theorem Failed.lost (h : Failed c w) (hl : Lost w w') : Failed c w' := by
  obtain ⟨_,he,hs,hr⟩ := hl.eq
  exact ⟨by rw [hs]; exact h.submits,by rw [hr]; exact h.rejected,by rw [he]; exact h.authorised⟩

theorem Failed.deferred {t : ℕ} (h : Failed c w) (hr : Ready platform key c j r w) :
    Ready platform key c j { r with submission := .deferred } (w.polled (some t)) := by
  obtain ⟨cs,hs⟩ := h.submits
  obtain ⟨hlock,hj,he,hl⟩ := polled_eq w (some t)
  have hp : latest c (w.polled (some t)).submits = some true := by
    simp [Store.polled,h.rejected,hs,reject]
  have hheld : Held platform key j (w.polled (some t)) :=
    hr.1.later ⟨fun key => .inl (by rw [hj]),hlock,he,hl⟩
  refine ⟨hheld,hr.2.concerns,fun hc => ?_,hr.2.known,fun _ => ?_⟩
  · rw [hp] at hc
    cases hc
  · rw [he]
    exact h.authorised

theorem submitted_ready (candidate : Candidate) (h : Pending platform key c j r w)
    (hk : c.file platform = key) :
    Does platform (submitted candidate r) (fun x w' => Ready platform key c j x.1 w') w := by
  have hsubmit : Does platform (submit r.intent).attempt
      (fun a w' => Ready platform key c j r w' ∧ (a.isOk = false → Failed c w')) w := by
    refine Does.attempt (fun w₁ hl => (h.later hl.later).submittable hk) ?_
    rintro w₁ a _ hl _ rfl
    have h₁ := h.later hl.later
    refine ⟨h₁.submitted _,fun ha => ⟨⟨w₁.submits,?_⟩,?_,h₁.authorised⟩⟩
    · rw [← h.concerns.2]
      rfl
    · cases a with
      | ok _ => cases ha
      | error e => rfl
  refine Does.seq hsubmit ?_
  rintro (e | receipt) w₁ ⟨h₁,hf₁⟩
  · refine Does.seq outcome_lost fun result w₂ hl₂ => ?_
    have h₂ := h₁.later hl₂.later
    have hf₂ := (hf₁ rfl).lost hl₂
    have hpoll : Does platform providerPollAt (fun t w' => t.elim (Ready platform key c j r w')
        fun _ => Ready platform key c j { r with submission := .deferred } w') w₂ := by
      refine Does.ask (fun _ _ => trivial) ?_
      rintro w₃ t _ hl₃ _ ⟨_,⟨⟩,rfl⟩
      have h₃ := h₂.later hl₃.later
      cases t with
      | none =>
        simpa [Store.polled] using h₃
      | some t => exact (hf₂.lost hl₃).deferred h₃
    refine Does.seq hpoll ?_
    rintro (_ | t) w₃ h₃
    · exact h₃
    · exact h₃
  · refine Does.seq outcome_lost fun result w₂ hl₂ => ?_
    exact (h₁.later hl₂.later).change rfl (.inr fun hs => by cases hs)

theorem dispatch_ready (policy : Policy) (candidate : Candidate)
    (h : Ready platform key c j r w) (hd : r.submission = .deferred)
    (hk : c.file platform = key) :
    Does platform (dispatch platform key policy candidate j r) (Assessed platform key c) w := by
  refine Does.seq (ask_reads (q := Req.forgeCandidate candidate.url) trivial w) fun before w₁ hl₁ => ?_
  by_cases hb : (r.intent.matches_ platform before policy && before.isOpen) = true
  · rw [if_pos hb]
    have h₁ := h.later hl₁.later
    have hu : Ready platform key c j { r with submission := .unknown } w₁ :=
      h₁.change rfl (.inr nofun)
    refine Does.seq (saveRun_held hu.1 hu.2) ?_
    rintro j' w₂ ⟨hj',hm,hs,he⟩
    have hp : Pending platform key c j' { r with submission := .unknown } w₂ := by
      refine ⟨hj',hu.2.concerns,hm,rfl,fun hc => ?_,?_⟩
      · rw [hs] at hc
        exact h₁.2.spent hc hd
      · rw [he]
        exact h₁.2.authorised hd
    exact Does.seq (submitted_ready candidate hp hk) fun _ _ h₃ => h₃
  · rw [if_neg hb]
    exact Does.seq outcome_lost fun _ _ _ => trivial

theorem assess_ready (policy : Policy) (candidate : Candidate) (allowSubmit : Bool)
    (evidence : Evidence) (h : Ready platform key c j r w) (hk : c.file platform = key) :
    Does platform (assess platform key policy candidate allowSubmit j r evidence)
      (Assessed platform key c) w := by
  have hr := h.receive evidence.requestReceipt
  rw [assess]
  generalize r.receive evidence.requestReceipt = r' at hr ⊢
  have hend : ∀ {verdict blockers}, Does platform
      (outcome candidate (some r'.intent) verdict blockers none >>= fun result =>
        pure (.inr (j,r',result))) (Assessed platform key c) w :=
    Does.seq outcome_lost fun _ _ hl => hr.later hl.later
  cases evidence.review with
  | some review => exact Does.seq judge_lost fun _ _ hl => hr.later hl.later
  | none =>
    by_cases hm : r.submission = .submitted ∧ evidence.requestReceipt = none
    · simp only [if_pos hm]
      exact hend
    simp only [if_neg hm]
    by_cases hu : r'.submission = .unknown
    · rw [if_pos hu]
      exact hend
    rw [if_neg hu]
    by_cases hd : (decide (r'.submission = .deferred) && allowSubmit) = true
    · rw [if_pos hd]
      rw [Bool.and_eq_true,decide_eq_true_eq] at hd
      exact dispatch_ready policy candidate hr hd.1 hk
    · rw [if_neg hd]
      exact hend

theorem conclude_done (policy : Policy) (candidate : Candidate) (result : Outcome)
    (h : Ready platform key c j r w) :
    Does platform (conclude platform key policy candidate j r result) (fun _ _ => True) w := by
  refine Does.seq (ask_reads (q := Req.forgeCandidate candidate.url) trivial w) ?_
  intro fresh w₁ hl₁
  have hstale : Does platform (recheck platform policy fresh r result)
      (fun _ w' => Lost w₁ w') w₁ := by
    unfold recheck
    split
    · exact Lost.refl w₁
    · exact outcome_lost
  refine Does.seq hstale fun _ w₂ hl₂ => Does.seq outcome_lost fun _ w₃ hl₃ => ?_
  have h₃ := h.later ((hl₁.trans hl₂).trans hl₃).later
  have hs : ∀ o, Ready platform key c j { r with outcome := o } w₃ := fun _ => h₃.change rfl (.inl rfl)
  exact Does.seq (saveRun_held h₃.1 (hs _).2) fun _ _ _ => trivial

theorem newRun_concerns (candidate : Candidate) (digest : String) (evidence : Evidence)
    (w : Store) : Does platform (newRun platform key candidate digest evidence)
      (fun r w' => r.intent.concerns (candidate.comparison digest) ∧ r.submission = .deferred ∧
        Lost w w') w := by
  refine Does.seq (ask_reads (q := Req.nonce) trivial w) fun n w₁ hl₁ => ?_
  refine Does.seq (ask_reads (q := Req.pid) trivial w₁) fun p w₂ hl₂ => ?_
  exact ⟨⟨rfl,rfl⟩,rfl,hl₁.trans hl₂⟩

theorem checked_seq {α β : Type} {x : Except Error α} {f : α → Tick β}
    {post : β → Store → Prop} (he : ∀ e, x = .error e → e ≠ .ambiguous)
    (hf : ∀ a, x = .ok a → Does platform (f a) post w) :
    Does platform (checked x >>= f) post w := by
  cases x with
  | error e => exact he e rfl
  | ok a => exact hf a rfl

/-- The run a tick found for its comparison, or that there is none. -/
def Selected (c : Comparison) (j : Journal) : Option Run → Store → Prop
  | some r, w => Backed j c r w
  | none, w => (∀ s ∈ j.runs, ¬ s.intent.concerns c) ∧
      (j.historyComplete = true → Authorised w.entry c)

theorem Selected.later {o : Option Run} (h : Selected c j o w) (hl : Later w w') :
    Selected c j o w' := by
  cases o with
  | some r => exact Backed.later h hl
  | none =>
    refine ⟨h.1,?_⟩
    rw [hl.entry]
    exact h.2

section
variable {candidate : Candidate} {policy : Policy} {digest : String}

/-- A marker is adopted as submitted: it never permits a submission. -/
theorem Selected.adopt {o : Option Run} (evidence : Evidence)
    (hd : policy.digest platform = .ok digest)
    (h : Selected (candidate.comparison digest) j o w) :
    Selected (candidate.comparison digest) j (adopt platform candidate policy evidence o) w := by
  cases o with
  | some r => exact h
  | none =>
    cases hi : evidence.recoveredIntent with
    | none => simpa [Review.adopt,hi] using h
    | some i =>
      by_cases hm : i.matches_ platform candidate policy = true
      · simp only [Review.adopt,hi,if_pos hm]
        exact ⟨(concerns_of_matches hd).1 hm,fun _ => nofun,.inr h.1,nofun⟩
      · simpa [Review.adopt,hi,hm] using h

/-- A new run is backed by a complete history without one. -/
theorem Backed.new (h : Selected c j none w) (hh : Held platform key j w)
    (hk : c.file platform = key) (hc : j.historyComplete = true) (hr : r.intent.concerns c) :
    Backed j c r w := by
  refine ⟨hr,fun hs => ?_,.inr h.1,fun _ => h.2 hc⟩
  obtain ⟨s,hs,hsc,_⟩ := hh.retains c hk hs
  exact absurd hsc (h.1 s hs)

theorem observed_done {o : Option Run} (allowSubmit : Bool) (evidence : Evidence)
    (hd : policy.digest platform = .ok digest) (hh : Held platform key j w)
    (h : Selected (candidate.comparison digest) j o w)
    (hk : (candidate.comparison digest).file platform = key) :
    Does platform (observed platform key policy candidate allowSubmit j o evidence)
      (fun _ _ => True) w := by
  have h := h.adopt evidence hd
  rw [observed]
  generalize adopt platform candidate policy evidence o = o at h ⊢
  have hend : ∀ {blockers}, Does platform (outcome candidate none .blocked blockers none)
      (fun _ _ => True) w := outcome_lost.imp fun _ _ _ => trivial
  by_cases ha : (o.isNone && !allowSubmit) = true
  · rw [if_pos ha]
    exact hend
  rw [if_neg ha]
  by_cases hc : (o.isNone && !j.historyComplete) = true
  · rw [if_pos hc]
    exact hend
  rw [if_neg hc]
  have hrun : Does platform (o.elim (newRun platform key candidate digest evidence) pure)
      (fun r w' => Ready platform key (candidate.comparison digest) j r w') w := by
    cases o with
    | some r => exact ⟨hh,h⟩
    | none =>
      refine (newRun_concerns candidate digest evidence w).imp ?_
      rintro r w₁ ⟨hr,_,hl⟩
      have hcomplete : j.historyComplete = true := by simpa using hc
      have h₁ := h.later hl.later
      exact ⟨hh.later hl.later,.new h₁ (hh.later hl.later) hk hcomplete hr⟩
  refine checked_seq (fun e he => ?_) fun d hd' => ?_
  · rw [hd] at he
    cases he
  obtain rfl : digest = d := by simpa [hd] using hd'
  refine Does.seq hrun fun r w₁ h₁ => ?_
  refine Does.seq (assess_ready policy candidate allowSubmit evidence h₁ hk) ?_
  rintro (result | ⟨j',r',result⟩) w₂ h₂
  · exact trivial
  · exact conclude_done policy candidate result h₂

theorem unobserved_done {o : Option Run} (e : Error) (hh : Held platform key j w)
    (h : Selected c j o w) :
    Does platform (unobserved key candidate j o e) (fun _ _ => True) w := by
  refine Does.seq outcome_lost fun _ w₁ hl₁ => ?_
  refine Does.seq (providerPollAt_later w₁) fun t w₂ hl₂ => ?_
  have hl := hl₁.later.trans hl₂
  cases o with
  | none => exact trivial
  | some r =>
    have h₂ : Ready platform key c j r w₂ := ⟨hh.later hl,Backed.later h hl⟩
    have hs : ∀ o, Ready platform key c j { r with outcome := o } w₂ := fun _ =>
      h₂.change rfl (.inl rfl)
    exact Does.seq (saveRun_held h₂.1 (hs _).2) fun _ _ _ => trivial

theorem tick_done {o : Option Run} (allowSubmit : Bool)
    (hd : policy.digest platform = .ok digest) (hh : Held platform key j w)
    (h : Selected (candidate.comparison digest) j o w)
    (hk : (candidate.comparison digest).file platform = key) :
    Does platform (tick platform key policy candidate allowSubmit j o) (fun _ _ => True) w := by
  refine Does.seq (waiting_lost o w) ?_
  rintro (_ | previous) w₁ hl₁
  · refine Does.seq inspect_later ?_
    rintro (e | evidence) w₂ hl₂
    · have hl := hl₁.later.trans hl₂
      exact unobserved_done e (hh.later hl) (h.later hl)
    · have hl := hl₁.later.trans hl₂
      exact observed_done allowSubmit evidence hd (hh.later hl) (h.later hl) hk
  · exact trivial

/-- The runs a tick selects from: at most one is of its comparison. -/
theorem selected_filter (hh : Held platform key j w) (hq : Qualified j w.entry)
    (hd : policy.digest platform = .ok digest)
    (hk : (candidate.comparison digest).file platform = key) :
    (j.runs.filter (·.intent.matches_ platform candidate policy)).length ≤ 1 ∧
      Selected (candidate.comparison digest) j
        (j.runs.filter (·.intent.matches_ platform candidate policy)).head? w := by
  have hmem : ∀ s, s ∈ j.runs.filter (·.intent.matches_ platform candidate policy) ↔
      s ∈ j.runs ∧ s.intent.concerns (candidate.comparison digest) := by
    intro s
    rw [List.mem_filter,concerns_of_matches hd]
  have hpair := List.Pairwise.filter (fun r => r.intent.matches_ platform candidate policy)
    (List.pairwise_map.1 hh.distinct)
  generalize j.runs.filter (·.intent.matches_ platform candidate policy) = l at hmem hpair ⊢
  rcases l with _ | ⟨r,_ | ⟨s,l⟩⟩
  · refine ⟨Nat.zero_le 1,?_,fun hc => hq _ (.inl hc)⟩
    intro s hs hsc
    exact List.not_mem_nil ((hmem s).2 ⟨hs,hsc⟩)
  · obtain ⟨hr,hrc⟩ := (hmem r).1 List.mem_cons_self
    refine ⟨le_refl 1,hrc,fun hs hdef => ?_,.inl ⟨r,hr,rfl⟩,fun _ => hq _ (.inr ⟨r,hr,hrc⟩)⟩
    obtain ⟨s,hs,hsc,hsd⟩ := hh.retains _ hk hs
    have : s = r := by simpa using (hmem s).2 ⟨hs,hsc⟩
    exact hsd (this ▸ hdef)
  · have hr := (hmem r).1 List.mem_cons_self
    have hs := (hmem s).1 (List.mem_cons_of_mem _ List.mem_cons_self)
    exact absurd hs.2 (List.rel_of_pairwise_cons hpair List.mem_cons_self _ hr.2)

theorem digest_of_validate (h : policy.validate = .ok ()) :
    policy.digest platform = .ok (platform.hexDigest policy.json.render) := by
  rw [Policy.digest,h]
  rfl

end

theorem ensureOnce_done (policy : Policy) (url : String) (allowSubmit : Bool) (w : Store) :
    Does platform (ensureOnce platform policy url allowSubmit) (fun _ _ => True) w := by
  refine checked_seq ?_ fun _ hv => ?_
  · rw [Policy.validate]
    intro e he
    split at he
    · cases he; exact nofun
    · split at he
      · cases he; exact nofun
      · cases he
  have hd : policy.digest platform = _ := digest_of_validate hv
  refine Does.seq (ask_reads (q := Req.forgeCandidate url) trivial w) fun candidate w₁ _ => ?_
  refine checked_seq ?_ fun _ _ => ?_
  · rw [Candidate.validate]
    intro e he
    split at he
    · cases he; exact nofun
    · split at he
      · cases he; exact nofun
      · split at he
        · cases he; exact nofun
        · cases he
  refine Does.seq (ask_reads (q := Req.createDir) trivial w₁) fun _ w₂ _ => ?_
  refine Does.seq (openLock_opened w₂) fun fresh w₃ h₃ => ?_
  refine Does.seq (ask_reads (q := Req.tryLock _) trivial w₃) fun _ w₄ hl₄ => ?_
  refine Does.seq (loadJournal_held (h₃.lost hl₄)) ?_
  rintro j w₅ ⟨hh₅,hq₅⟩
  refine Does.seq (ask_reads (q := Req.capabilities) trivial w₅) fun caps w₆ hl₆ => ?_
  have hh₆ := hh₅.later hl₆.later
  have hq₆ : Qualified j w₆.entry := by
    rw [hl₆.eq.2.1]
    exact hq₅
  by_cases hu : unsuited policy candidate caps = true
  · rw [if_pos hu]
    exact outcome_lost.imp fun _ _ _ => trivial
  rw [if_neg hu]
  have hk : ∀ d, (candidate.comparison d).file platform =
      platform.hexDigest candidate.url.toList := fun _ => rfl
  obtain ⟨hlen,hsel⟩ := selected_filter hh₆ hq₆ hd (hk _)
  generalize j.runs.filter (·.intent.matches_ platform candidate policy) = l at hlen hsel ⊢
  rcases l with _ | ⟨r,_ | ⟨s,l⟩⟩
  · exact tick_done allowSubmit hd hh₆ hsel (hk _)
  · exact tick_done allowSubmit hd hh₆ hsel (hk _)
  · simp at hlen

/-! ## Every run -/

/-- What holds of the world, and of every request at the moment it is issued. -/
def Guard (platform : Platform) (w : Store) (q : Req) : Prop :=
  Sound platform w ∧ Allowed platform w q

theorem Sound.torn {q : Req} (h : Guard platform w q)
    (ht : (system platform).torn q w w') : Sound platform w' := by
  obtain ⟨a,ha⟩ := ht
  exact h.1.answer h.2 ha

theorem tick_guarded {p : Prog Req (fun q => Except Error (Rep q)) (Except Error Outcome × Unit)}
    (hs : Sound platform w) (h : (system platform).start w w' p) :
    wp (system platform).toWorld (Guard platform) p
      (fun a w => Sound platform w ∧ a.1 ≠ .error .ambiguous) w' := by
  obtain ⟨rfl,policy,url,allowSubmit,rfl⟩ := h
  have hd : Does platform _ _ w' := ensureOnce_done policy url allowSubmit w'
  refine wp_mono (wp_assume (M := (system platform).toWorld) ?_ ?_ hs hd) ?_
  · exact fun w w' hs hl => hs.lost hl
  · exact fun w q a w' hs hq ha => hs.answer hq ha.2
  · rintro ⟨e | o,u⟩ w ⟨hs,he⟩
    · exact ⟨hs,fun h => he (Except.error.inj h)⟩
    · exact ⟨hs,nofun⟩

theorem invariant (platform : Platform) :
    (system platform).Invariant (Guard platform) (Sound platform) where
  start := fun _ _ _ hs h => wp_mono (tick_guarded hs h) fun _ _ h => h.1
  idle := fun _ _ hs hl => hs.lost hl
  rely := fun _ _ hs hl => hs.lost hl
  guard := fun _ _ h => h.1
  torn := fun _ _ _ h ht => Sound.torn h ht

/-- Nothing submitted yet, and no journal with two runs of one comparison: a machine
without any, or with legacy files. -/
structure Initial (w : Store) : Prop where
  submits : w.submits = []
  distinct : ∀ key j, w.journal key = some (.journal j) → Distinct j.runs

theorem Initial.sound (h : Initial w) : Sound platform w where
  distinct := h.distinct
  kept := by
    intro c hc
    rw [h.submits] at hc
    cases hc

/-- Submissions happen at most once, and for a reason; journals stay unambiguous. -/
structure AtMostOnce (platform : Platform) (c : (system platform).Conf) : Prop where
  once : ∀ p i, c.2 = some p → p.pending = some (.submit i) →
    latest i.comparison c.1.submits ≠ some false
  authorised : ∀ p i, c.2 = some p → p.pending = some (.submit i) →
    Authorised c.1.entry i.comparison
  distinct : ∀ key j, c.1.journal key = some (.journal j) → Distinct j.runs
  unambiguous : ∀ p u, c.2 = some p → p.returned ≠ some (.error .ambiguous,u)

/-- Over every sequence of ticks a comparison is submitted at most once, unless its
latest submission was definitively rejected. -/
theorem submits_at_most_once (platform : Platform) (w₀ : Store) (h₀ : Initial w₀)
    (c : (system platform).Conf) (hc : (system platform).Reachable w₀ c) :
    AtMostOnce platform c := by
  have hi := invariant platform
  have hs := hi.world h₀.sound hc
  have hg : ∀ p i, c.2 = some p → p.pending = some (.submit i) →
      Submittable platform c.1 i.comparison := by
    intro p i hp hq
    obtain ⟨w,o⟩ := c
    cases hp
    exact (hi.request h₀.sound hc hq).2
  refine ⟨fun p i hp hq => (hg p i hp hq).once,fun p i hp hq => (hg p i hp hq).authorised,
    hs.distinct,fun p u hp hr => ?_⟩
  obtain ⟨w,o⟩ := c
  cases hp
  refine absurd rfl (hi.returned (P := fun a _ => a.1 ≠ .error .ambiguous) h₀.sound ?_ ?_ hc hr)
  · exact fun _ _ _ hs h => wp_mono (tick_guarded hs h) fun _ _ h => h.2
  · exact fun _ _ _ h _ => h

/-! ## A tick that submits -/

def sampleUrl : String := "https://example.org/pull/1"

def samplePolicy : Policy := ⟨1,"greptile","github-comment-v1",1,[]⟩

/-- SHA-256 of the three texts the sample hashes. -/
def samplePlatform : Platform where
  hexDigest := fun text =>
    if text = sampleUrl.toList then
      "470459a013b5c2985bd12e9ba8de09043cd797b96912703b0e91874261204781"
    else if text = samplePolicy.json.render then
      "d1c2b51e9ae837a6418e7f979461cae362eb8c6cee92b1fe7d748212d5d29861"
    else "d39e2c88f61920968cb8dd091a3889621e6568f52eae80aaade4abd52301d938"
  canonicalUrl := fun url => url = sampleUrl

def sampleCandidate : Candidate :=
  ⟨sampleUrl,"fork","topic","main","0123456789012345678901234567890123456789",
    "9876543210987654321098765432109876543210",false,true⟩

/-- Answers without any failure: nothing is retained or recovered. -/
def smooth : (q : Req) → Store → Except Error (Rep q) × Store
  | .forgeCandidate _, w => (.ok sampleCandidate,w)
  | .forgeChecks _ _, w => (.ok [],w)
  | .capabilities, w => (.ok ⟨"greptile","github-comment-v1",true,false,true⟩,w)
  | .inspect _ _ _, w => (.ok ⟨[],none,none,none⟩,{ w with rejected := false })
  | .submit i, w => (.ok "receipt",w.submit i false)
  | .now, w | .nonce, w | .pid, w => (.ok (1 : ℕ),w)
  | .forgePollAt, w => (.ok none,w)
  | .providerPollAt, w => (.ok none,w.polled none)
  | .createDir, w | .tryLock _, w => (.ok (),w)
  | .openLock key, w => (.ok (w.lock key).isNone,opened w key (w.lock key).isNone)
  | .readAnchor key, w => match w.lock key with
    | some anchor => (.ok anchor,w.found { w.entry with anchor := anchor })
    | none => (.error (.other "missing"),w)
  | .readJournal key, w => (.ok (w.journal key),w.found { w.entry with stored := w.journal key })
  | .writeJournal key j, w => (.ok (),w.write key j)
  | .writeAnchor key, w => (.ok (),w.locked key historyAnchor)

theorem smooth_answers (q : Req) (w : Store) :
    (smooth q w).1 ≠ .error .ambiguous ∧ answers q w (smooth q w).1 (smooth q w).2 := by
  cases q with
  | readAnchor key =>
    rw [smooth]
    split
    · next h => exact ⟨nofun,h,rfl⟩
    · exact ⟨nofun,rfl⟩
  | capabilities | now | nonce | pid | forgePollAt => exact ⟨nofun,rfl,_,rfl⟩
  | providerPollAt => exact ⟨nofun,none,rfl,rfl⟩
  | openLock | readJournal => exact ⟨nofun,rfl,rfl⟩
  | writeJournal => exact ⟨nofun,.inl rfl⟩
  | _ => exact ⟨nofun,rfl⟩

def Store.empty : Store := ⟨fun _ => none,fun _ => none,⟨false,"",none⟩,[],false⟩

theorem initial_empty : Initial .empty := ⟨rfl,nofun⟩

/-- The first `n` requests of a first tick of the sample. -/
def sampleTick (n : ℕ) := advance smooth n
  ((ensureOnce samplePlatform samplePolicy sampleUrl true).start ()) .empty

theorem sampleTick_reachable (n : ℕ) :
    (system samplePlatform).Reachable .empty ((sampleTick n).2,some (sampleTick n).1) := by
  have hstart : (system samplePlatform).Reachable .empty (.empty,_) :=
    .tail .refl (.start ⟨rfl,samplePolicy,sampleUrl,true,rfl⟩)
  exact hstart.reach (reach_advance (M := (system samplePlatform).toWorld) smooth_answers n _ _)

def Req.submitted : Req → Option Comparison
  | .submit i => some i.comparison
  | _ => none

/-- The sample is submitted, and for the first time. -/
theorem sample_once :
    (sampleTick 14).1.pending.bind Req.submitted =
        some (sampleCandidate.comparison (samplePlatform.hexDigest samplePolicy.json.render)) ∧
      AtMostOnce samplePlatform ((sampleTick 14).2,some (sampleTick 14).1) :=
  ⟨by decide +kernel,submits_at_most_once samplePlatform .empty initial_empty _
    (sampleTick_reachable 14)⟩

end Review
end CanixToolbelt
