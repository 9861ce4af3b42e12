import CanixToolbelt.Operator

/-! What the operator keeps true over every run: the checkpoint on disk, the checkpoint
in memory and what happened outside stay related whatever fails, whenever it crashes. -/
namespace CanixToolbelt
namespace Operator
open Effect

variable {config : OperatorConfig} {faults : Faults} {w w' : Disk} {st s : State}

/-- A checkpoint that accounts for everything outside: stopped workers, a stage unit
that may still run, completed stages and spent attempts. -/
structure Tracks (config : OperatorConfig) (past : History) (runs : List ℕ) (st : State) :
    Prop where
  contract : st.config = some config
  known : st.runId ∈ runs
  owned : ∀ u ∈ past.owned, u ∈ st.restoreWorkers
  unsettled : ∀ u ∈ past.unsettled, u = st.currentUnit ∧ st.unsettled
  done : ∀ s, (st.runId,s) ∈ past.done → s ∈ st.completed
  budget : ∀ s, st.failures s ≤ config.maxAttempts.toNat
  ended : st.state.terminal → st.restoreWorkers = [] ∧ st.currentUnit = ""
  decided : st.restoreOnly → st.result ≠ .running

/-- Whose results a checkpoint holds: only those of its recorded request. -/
structure Accounted (past : History) (st : State) : Prop where
  named : st.requestIdentity.isSome
  owed : st.restoreOnly → st.result.terminal →
    ∃ i, st.requestIdentity = some i ∧ (i ∈ past.executed ∨ i ∈ past.retired)

/-- A checkpoint to be restored was recorded for the present request. -/
def Owned (w : Disk) : Prop := ∀ d i, w.state = some d → d.restoring → w.request = some i →
  d.requestIdentity = some i

/-- The requests are left alone: nothing touches one while a run is under way, and no
run begins with the restoration of a checkpoint recorded for another request. -/
structure Faults.Undisturbed (faults : Faults) : Prop where
  touch : ∀ w, faults.touch w → w.past.invocation = .cancel
  begin : ∀ w, faults.begin w → Owned w

structure Sound (config : OperatorConfig) (faults : Faults) (state : Option State)
    (past : History) (runs : List ℕ) : Prop where
  tracked : ∀ d, state = some d → Tracks config past runs d
  blank : state = none → past.owned = [] ∧ past.unsettled = [] ∧ past.done = []
  numbered : ∀ p ∈ past.done, p.1 ∈ runs
  accounted : faults.Undisturbed → ∀ d, state = some d → Accounted past d

/-- What must hold for a stage's unit to be started. -/
structure Startable (config : OperatorConfig) (w : Disk) (unit : String) : Prop where
  fenced : w.sentinel
  settled : w.past.unsettled = []
  quiesced : ∀ u ∈ config.quiesceUnits, u ∈ w.past.confirmed ∨
    (u ∈ w.past.quiet ∧ ∀ d, w.state = some d → u ∉ d.restoreWorkers)
  recorded : ∃ d, w.state = some d ∧ d.currentUnit = unit ∧ d.unsettled ∧
    ⟨d.currentStage,unit⟩ ∈ config.stages ∧
    d.failures d.currentStage < config.maxAttempts.toNat

/-- The present request is the one this invocation bound, and it was carried out. -/
def Answered (w : Disk) : Prop :=
  ∃ i, w.request = some i ∧ w.past.bound = some i ∧
    (i ∈ w.past.executed ∨ i ∈ w.past.retiredBefore)

/-- What the operator makes sure of before it issues a request. -/
def Allowed (config : OperatorConfig) (faults : Faults) (w : Disk) : Req → Prop
  | .panic => False
  | .stop .worker u => ∃ d, w.state = some d ∧ u ∈ d.restoreWorkers
  | .start u => Startable config w u
  | .writeState st => Tracks config w.past w.runs st ∧
      (faults.Undisturbed → Accounted (w.write st).past st)
  | .appendEvent _ e => e.attempt ≤ config.maxAttempts.toNat
  | .removeRequest => w.past.invocation = .run → faults.Undisturbed → Answered w
  | _ => True

/-! ## What one request changes -/

/-- Everything a request can change outside; all else stays. -/
structure Moves (w : Disk) (q : Req) (w' : Disk) : Prop where
  state : w'.state = w.state ∨ ∃ st, q = .writeState st ∧ w' = w.write st
  request : w'.request = w.request ∨ q = .markRequest ∨ q = .removeRequest
  sentinel : w'.sentinel = w.sentinel ∨ q = .markSentinel ∨ q = .removeSentinel
  runs : ∀ n ∈ w.runs, n ∈ w'.runs
  owned : ∀ u ∈ w'.past.owned, u ∈ w.past.owned ∨ q = .stop .worker u
  unsettled : ∀ u ∈ w'.past.unsettled, u ∈ w.past.unsettled ∨ q = .start u
  done : ∀ p ∈ w'.past.done, p ∈ w.past.done ∨
    ∃ st, q = .writeState st ∧ p.1 = st.runId ∧ p.2 ∈ st.completed
  confirmed : ∀ u ∈ w.past.confirmed, u ∈ w'.past.confirmed ∨ q = .restore u
  quiet : ∀ u ∈ w.past.quiet, u ∈ w'.past.quiet ∨ q = .restore u
  executed : ∀ i ∈ w.past.executed, i ∈ w'.past.executed
  retired : ∀ i ∈ w.past.retired, i ∈ w'.past.retired
  retiredBefore : w'.past.retiredBefore = w.past.retiredBefore
  invocation : w'.past.invocation = w.past.invocation
  bound : w'.past.bound = w.past.bound ∨ ∃ st, q = .writeState st
  events : w'.events = w.events ∨ ∃ n e, q = .appendEvent n e

theorem Moves.refl (w : Disk) (q : Req) : Moves w q w := by
  constructor <;> simp +contextual

theorem Effected.cases {α : Type} {w w₁ w' : Disk} {r : Except Error α}
    (h : Effected w w₁ r w') : w' = w₁ ∨ w' = w := h.imp_right And.left

theorem moves_write (w : Disk) (st : State) : Moves w (.writeState st) (w.write st) := by
  constructor <;> simp +contextual [Disk.write]
  rintro a b (⟨hc,rfl⟩ | h)
  · exact .inr ⟨rfl,hc⟩
  · exact .inl h

theorem moves_inactive (w : Disk) (unit : String) : Moves w (.active unit) (w.inactive unit) := by
  constructor <;> simp +contextual [Disk.inactive]
  split <;> simp +contextual

theorem answers_moves {q : Req} {r : Except Error (Rep q)} (h : answers faults q w r w') :
    Moves w q w' := by
  cases q with
  | now | requestIdentity | readState | sentinelExists | readEvents =>
    rw [h.1]; exact .refl w _
  | lock | cancelled | ready | panic | wait => rw [show w' = w from h]; exact .refl w _
  | makeRunDir n =>
    rcases Effected.cases h with rfl | rfl
    · constructor <;> simp +contextual
    · exact .refl _ _
  | markRequest =>
    obtain ⟨i,h⟩ := h
    rcases h.cases with rfl | rfl
    · constructor <;> simp +contextual
    · exact .refl _ _
  | removeRequest | markSentinel | removeSentinel | writeReport =>
    rcases Effected.cases h with rfl | rfl
    · constructor <;> simp +contextual
    · exact .refl _ _
  | writeState st =>
    rcases Effected.cases h with rfl | rfl
    · exact moves_write w st
    · exact .refl _ _
  | active unit =>
    rcases r with e | _ | _
    · rw [show w' = w from h]; exact .refl w _
    · rw [show w' = w.inactive unit from h]; exact moves_inactive w unit
    · rw [show w' = w from h]; exact .refl w _
  | stop role unit =>
    cases r <;> cases role <;> (subst h; constructor) <;>
      simp +contextual [Disk.stopping,Disk.stopOk,or_comm,eq_comm]
  | restore unit =>
    rcases Effected.cases h with rfl | rfl
    · constructor <;> simp +contextual [Disk.restored]
      · exact fun u _ => (em (u = unit)).symm.imp_right Eq.symm
      · exact fun u _ => (em (u = unit)).symm.imp_right Eq.symm
    · exact .refl _ _
  | start unit =>
    rcases r with e | result
    · subst h
      constructor <;> simp +contextual [Disk.starting,or_comm,eq_comm]
    · by_cases hr : result.success = true
      · have hw : w' = w.startOk := by simpa [answers,hr] using h
        subst hw
        constructor <;> simp +contextual [Disk.startOk]
      · have hw : w' = w.starting unit := by simpa [answers,hr] using h
        subst hw
        constructor <;> simp +contextual [Disk.starting,or_comm,eq_comm]
  | appendEvent n e =>
    rcases r with e' | _
    · obtain ⟨k,_,rfl⟩ := h
      constructor <;> simp +contextual [Disk.append]
    · subst h
      constructor <;> simp +contextual [Disk.append]

/-! ## The checkpoint follows -/

/-- Requests a checkpoint already accounts for. -/
structure Covers (st : State) (q : Req) : Prop where
  stop : ∀ u, q = .stop .worker u → u ∈ st.restoreWorkers
  start : ∀ u, q = .start u → u = st.currentUnit ∧ st.unsettled
  write : ∀ d, q = .writeState d → ∀ s ∈ d.completed, s ∈ st.completed

theorem covers_write (st : State) : Covers st (.writeState st) := by
  refine ⟨?_,?_,?_⟩
  · rintro u ⟨⟩
  · rintro u ⟨⟩
  · rintro d ⟨⟩
    exact fun _ hs => hs

/-- Requests that stop no worker, start no stage and write no checkpoint. -/
def Req.inert : Req → Prop
  | .stop .worker _ | .start _ | .writeState _ => False
  | _ => True

theorem Req.inert_covers {q : Req} (h : q.inert) (st : State) : Covers st q := by
  constructor <;> rintro _ rfl <;> exact h.elim

theorem Tracks.moves {q : Req} (h : Tracks config w.past w.runs st) (hc : Covers st q)
    (hm : Moves w q w') : Tracks config w'.past w'.runs st where
  contract := h.contract
  known := hm.runs _ h.known
  owned := fun u hu => (hm.owned u hu).elim (h.owned u) (hc.stop u)
  unsettled := fun u hu => (hm.unsettled u hu).elim (h.unsettled u) (hc.start u)
  done := by
    intro s hs
    rcases hm.done _ hs with hd | ⟨d,hq,hr,hd⟩
    · exact h.done s hd
    · exact hc.write d hq s hd
  budget := h.budget
  ended := h.ended
  decided := h.decided

theorem Accounted.moves {q : Req} (h : Accounted w.past st) (hm : Moves w q w') :
    Accounted w'.past st where
  named := h.named
  owed := by
    intro hr ht
    obtain ⟨i,hi,hx⟩ := h.owed hr ht
    exact ⟨i,hi,hx.imp (hm.executed i) (hm.retired i)⟩

/-- A covered request is one the durable checkpoint covers too. -/
theorem Allowed.covers {q : Req} {d : State} (h : Allowed config faults w q)
    (hd : w.state = some d) (hq : ∀ d', q ≠ .writeState d') : Covers d q where
  stop := by
    rintro u rfl
    obtain ⟨d',hd',hu⟩ := h
    cases hd.symm.trans hd'
    exact hu
  start := by
    rintro u rfl
    obtain ⟨d',hd',hu,hs,_⟩ := Startable.recorded h
    cases hd.symm.trans hd'
    exact ⟨hu.symm,hs⟩
  write := fun d' hd' => absurd hd' (hq d')

theorem Sound.write (hs : Sound config faults w.state w.past w.runs)
    (h : Allowed config faults w (.writeState st)) :
    Sound config faults (w.write st).state (w.write st).past (w.write st).runs where
  tracked := by
    rintro d ⟨⟩
    exact h.1.moves (covers_write st) (moves_write w st)
  blank := nofun
  numbered := by
    intro p hp
    rcases (moves_write w st).done p hp with hd | ⟨_,hq,hr,_⟩
    · exact hs.numbered p hd
    · cases hq
      exact hr ▸ h.1.known
  accounted := by
    rintro hu d ⟨⟩
    exact h.2 hu

/-- The invariant between invocations survives every allowed request. -/
theorem Sound.answer {q : Req} {r : Except Error (Rep q)}
    (hs : Sound config faults w.state w.past w.runs) (h : Allowed config faults w q)
    (ha : answers faults q w r w') : Sound config faults w'.state w'.past w'.runs := by
  by_cases hq : ∃ st, q = .writeState st
  · obtain ⟨st,rfl⟩ := hq
    rcases Effected.cases ha with rfl | rfl
    · exact hs.write h
    · exact hs
  · have hm := answers_moves ha
    have hw : w'.state = w.state := hm.state.resolve_right fun ⟨st,h,_⟩ => hq ⟨st,h⟩
    refine ⟨?_,?_,?_,?_⟩
    · intro d hd
      rw [hw] at hd
      exact (hs.tracked d hd).moves (h.covers hd fun d' e => hq ⟨d',e⟩) hm
    · intro hn
      rw [hw] at hn
      obtain ⟨ho,hu,hd⟩ := hs.blank hn
      refine ⟨?_,?_,?_⟩ <;> refine List.eq_nil_iff_forall_not_mem.2 fun u hu' => ?_
      · rcases hm.owned u hu' with h' | rfl
        · simp [ho] at h'
        · obtain ⟨d,hd,_⟩ := h
          simp [hn] at hd
      · rcases hm.unsettled u hu' with h' | rfl
        · simp [hu] at h'
        · obtain ⟨d,hd,_⟩ := Startable.recorded h
          simp [hn] at hd
      · rcases hm.done u hu' with h' | ⟨st,h',_⟩
        · simp [hd] at h'
        · exact hq ⟨st,h'⟩
    · intro p hp
      refine hm.runs _ (hs.numbered p ((hm.done p hp).resolve_right ?_))
      exact fun ⟨st,h,_⟩ => hq ⟨st,h⟩
    · intro hu d hd
      rw [hw] at hd
      exact (hs.accounted hu d hd).moves hm

theorem Sound.touched (hs : Sound config faults w.state w.past w.runs) {faults' : Faults}
    (ht : touched faults' w w') : Sound config faults w'.state w'.past w'.runs := by
  rcases ht with rfl | ⟨_,_,rfl⟩ <;> exact hs

theorem Sound.begin (hs : Sound config faults w.state w.past w.runs) (i : Invocation) :
    Sound config faults (w.begin i).state (w.begin i).past (w.begin i).runs where
  tracked := fun d hd =>
    have h := hs.tracked d hd
    ⟨h.contract,h.known,h.owned,h.unsettled,h.done,h.budget,h.ended,h.decided⟩
  blank := hs.blank
  numbered := hs.numbered
  accounted := fun hu d hd => ⟨(hs.accounted hu d hd).named,(hs.accounted hu d hd).owed⟩

/-! ## The memory of a run -/

/-- For an undisturbed run: its memory belongs to the present request, and holds no
result that was not reached for it. -/
structure Charged (w : Disk) (st : State) : Prop where
  bound : w.request = st.requestIdentity
  named : st.requestIdentity.isSome
  live : st.state = .running → st.restoring = false →
    ∃ d, w.state = some d ∧ d.state = .running ∧ d.restoring = false
  owed : st.restoreOnly → st.result.terminal → w.settles st ∨
    ∃ i, st.requestIdentity = some i ∧ (i ∈ w.past.executed ∨ i ∈ w.past.retiredBefore)

/-- The memory `st` of a run under way. -/
structure Held (config : OperatorConfig) (faults : Faults) (st : State) (w : Disk) : Prop where
  tracks : Tracks config w.past w.runs st
  running : w.past.invocation = .run
  earlier : ∀ i ∈ w.past.retiredBefore, i ∈ w.past.retired
  charged : faults.Undisturbed → Charged w st

/-- The part of a checkpoint that an execution leaves alone. -/
def State.flags (st : State) : Phase × Bool × Phase × Option Identity :=
  (st.state,st.restoring,st.result,st.requestIdentity)

def State.stamp (st : State) (t : ℕ) : State := { st with updatedAt := t }

@[simp] theorem flags_stamp (t : ℕ) : (st.stamp t).flags = st.flags := rfl

theorem flags_eq (h : s.flags = st.flags) : s.state = st.state ∧ s.restoring = st.restoring ∧
    s.result = st.result ∧ s.requestIdentity = st.requestIdentity := by
  simpa only [State.flags,Prod.mk.injEq] using h

theorem restoreOnly_flags (h : s.flags = st.flags) : s.restoreOnly = st.restoreOnly := by
  obtain ⟨h₁,h₂,_⟩ := flags_eq h
  rw [State.restoreOnly,State.restoreOnly,h₁,h₂]

theorem settles_flags (h : s.flags = st.flags) : w.settles s = w.settles st := by
  obtain ⟨_,h₂,h₃,_⟩ := flags_eq h
  rw [Disk.settles,Disk.settles,h₂,h₃]

theorem Charged.flags (h : Charged w st) (hf : s.flags = st.flags) : Charged w s := by
  obtain ⟨h₁,h₂,h₃,h₄⟩ := flags_eq hf
  refine ⟨?_,?_,?_,?_⟩
  · rw [h₄]; exact h.bound
  · rw [h₄]; exact h.named
  · rw [h₁,h₂]; exact h.live
  · rw [h₃,h₄,restoreOnly_flags hf,settles_flags hf]; exact h.owed

theorem Held.update (h : Held config faults st w) (hf : s.flags = st.flags)
    (ht : Tracks config w.past w.runs s) : Held config faults s w :=
  ⟨ht,h.running,h.earlier,fun hu => (h.charged hu).flags hf⟩

theorem Held.touched (h : Held config faults st w) (ht : touched faults w w') :
    Held config faults st w' := by
  rcases ht with rfl | ⟨ht,i,rfl⟩
  · exact h
  · refine ⟨h.tracks,h.running,h.earlier,fun hu => ?_⟩
    exact absurd (h.running.symm.trans (hu.touch w ht)) nofun

/-- Requests that leave the checkpoint and the present request alone. -/
def Req.plain : Req → Prop
  | .writeState _ | .markRequest | .removeRequest => False
  | _ => True

theorem Moves.plain {q : Req} (hm : Moves w q w') (hq : q.plain) :
    w'.state = w.state ∧ w'.request = w.request ∧ w'.past.bound = w.past.bound := by
  refine ⟨hm.state.resolve_right ?_,hm.request.resolve_right ?_,hm.bound.resolve_right ?_⟩
  · rintro ⟨_,rfl,_⟩; exact hq
  · rintro (rfl | rfl) <;> exact hq
  · rintro ⟨_,rfl⟩; exact hq

theorem Held.moves {q : Req} (h : Held config faults st w) (hq : q.plain) (hc : Covers st q)
    (hm : Moves w q w') : Held config faults st w' := by
  obtain ⟨hs,hr,_⟩ := hm.plain hq
  refine ⟨h.tracks.moves hc hm,hm.invocation.trans h.running,?_,fun hu => ?_⟩
  · rw [hm.retiredBefore]
    exact fun i hi => hm.retired i (h.earlier i hi)
  · obtain ⟨hb,hn,hl,ho⟩ := h.charged hu
    refine ⟨hr.trans hb,hn,by rwa [hs],fun hro ht => ?_⟩
    rw [Disk.settles,hs,hm.retiredBefore]
    refine (ho hro ht).imp_right ?_
    rintro ⟨i,hi,hx⟩
    exact ⟨i,hi,hx.imp_left (hm.executed i)⟩

/-! ## Single requests of a run -/

/-- The operator's world, its invariant taken for granted. -/
abbrev trusting (config : OperatorConfig) (faults : Faults) :
    World Req (fun q => Except Error (Rep q)) Disk :=
  (system config faults).toWorld.assume fun w => Sound config faults w.state w.past w.runs

/-- `m` issues allowed requests only, and ends in `post` or fails in `err`. -/
abbrev Does (config : OperatorConfig) (faults : Faults) {α : Type} (m : Op α)
    (post : α → State → Disk → Prop) (err : State → Disk → Prop) (st : State) (w : Disk) : Prop :=
  Script.wp (trusting config faults) (Allowed config faults) m (Script.Ends post fun _ => err) st w

/-- What a request leaves of the fences and of what was seen stopped. -/
structure Keeps (w w' : Disk) : Prop where
  sentinel : w.sentinel → w'.sentinel
  confirmed : ∀ u ∈ w.past.confirmed, u ∈ w'.past.confirmed
  quiet : ∀ u ∈ w.past.quiet, u ∈ w'.past.quiet

theorem Keeps.trans {w₁ w₂ w₃ : Disk} (h : Keeps w₁ w₂) (h' : Keeps w₂ w₃) : Keeps w₁ w₃ :=
  ⟨fun hs => h'.sentinel (h.sentinel hs),fun u hu => h'.confirmed u (h.confirmed u hu),
    fun u hu => h'.quiet u (h.quiet u hu)⟩

theorem Keeps.touched (h : touched faults w w') : Keeps w w' := by
  rcases h with rfl | ⟨_,_,rfl⟩ <;> exact ⟨id,fun _ => id,fun _ => id⟩

/-- Requests that open no fence. -/
def Req.fencing : Req → Prop
  | .restore _ | .markSentinel | .removeSentinel => False
  | _ => True

theorem Moves.keeps {q : Req} (hm : Moves w q w') (hq : q.fencing) : Keeps w w' where
  sentinel := fun h => by
    rw [hm.sentinel.resolve_right (by rintro (rfl | rfl) <;> exact hq)]
    exact h
  confirmed := fun u hu => (hm.confirmed u hu).resolve_right (by rintro rfl; exact hq)
  quiet := fun u hu => (hm.quiet u hu).resolve_right (by rintro rfl; exact hq)

theorem touched_past (h : touched faults w w') : w'.past = w.past ∧ w'.state = w.state ∧
    w'.sentinel = w.sentinel ∧ w'.runs = w.runs := by
  rcases h with rfl | ⟨_,_,rfl⟩ <;> exact ⟨rfl,rfl,rfl,rfl⟩

variable {α : Type} {post : α → State → Disk → Prop} {err : State → Disk → Prop}

theorem covered_ask {q : Req} {post : Rep q → State → Disk → Prop}
    (h : Held config faults st w) (hq : q.plain) (hc : Covers st q)
    (hg : ∀ w₁, touched faults w w₁ → Allowed config faults w₁ q)
    (hok : ∀ a w₁ w₂, touched faults w w₁ → answers faults q w₁ (.ok a) w₂ →
      Held config faults st w₂ → post a st w₂)
    (herr : ∀ e w₁ w₂, touched faults w w₁ → answers faults q w₁ (.error e) w₂ →
      Held config faults st w₂ → err st w₂) :
    Does config faults (Script.ask q) post err st w := by
  refine Script.wp_ask q |>.2 fun w₁ ht => ⟨hg w₁ ht,?_⟩
  rintro (e | a) w₂ ⟨_,ha⟩
  · exact herr e w₁ w₂ ht ha ((h.touched ht).moves hq hc (answers_moves ha))
  · exact hok a w₁ w₂ ht ha ((h.touched ht).moves hq hc (answers_moves ha))

theorem held_ask {q : Req} {post : Rep q → State → Disk → Prop}
    (h : Held config faults st w) (hq : q.plain) (hi : q.inert)
    (hg : ∀ w₁, touched faults w w₁ → Allowed config faults w₁ q)
    (hok : ∀ a w₁ w₂, touched faults w w₁ → answers faults q w₁ (.ok a) w₂ →
      Held config faults st w₂ → post a st w₂)
    (herr : ∀ e w₁ w₂, touched faults w w₁ → answers faults q w₁ (.error e) w₂ →
      Held config faults st w₂ → err st w₂) :
    Does config faults (Script.ask q) post err st w :=
  covered_ask h hq (Req.inert_covers hi st) hg hok herr

/-- A request that nothing depends on. -/
def Req.idle : Req → Prop
  | .lock | .now | .cancelled | .ready | .wait _ | .readEvents _ | .writeReport _ _
  | .active _ | .requestIdentity => True
  | _ => False

theorem Req.idle_plain {q : Req} (h : q.idle) : q.plain := by
  cases q <;> trivial

theorem Req.idle_inert {q : Req} (h : q.idle) : q.inert := by
  cases q <;> trivial

theorem Req.idle_allowed {q : Req} (h : q.idle) : Allowed config faults w q := by
  cases q <;> trivial

/-- What an idle request keeps besides. -/
structure Rests (w w' : Disk) : Prop extends Keeps w w' where
  state : w'.state = w.state
  bound : w'.past.bound = w.past.bound
  unsettled : ∀ u ∈ w'.past.unsettled, u ∈ w.past.unsettled

theorem Rests.refl (w : Disk) : Rests w w := ⟨⟨id,fun _ => id,fun _ => id⟩,rfl,rfl,fun _ => id⟩

theorem Rests.trans {w₁ w₂ w₃ : Disk} (h : Rests w₁ w₂) (h' : Rests w₂ w₃) : Rests w₁ w₃ :=
  ⟨h.toKeeps.trans h'.toKeeps,h'.state.trans h.state,h'.bound.trans h.bound,fun u hu => h.unsettled u (h'.unsettled u hu)⟩

theorem Rests.touched (h : touched faults w w') : Rests w w' := by
  rcases h with rfl | ⟨_,_,rfl⟩ <;> exact ⟨⟨id,fun _ => id,fun _ => id⟩,rfl,rfl,fun _ => id⟩

theorem Rests.clear (h : Rests w w') (hn : w.past.unsettled = []) : w'.past.unsettled = [] := by
  refine List.eq_nil_of_subset_nil fun u hu => ?_
  rw [← hn]
  exact h.unsettled u hu

theorem Moves.rests {q : Req} (hm : Moves w q w') (hq : q.idle) : Rests w w' := by
  obtain ⟨hs,_,hb⟩ := hm.plain (Req.idle_plain hq)
  refine ⟨hm.keeps ?_,hs,hb,fun u hu => ?_⟩
  · cases q <;> trivial
  · refine (hm.unsettled u hu).resolve_right ?_
    rintro rfl; exact hq

theorem idle_ask {q : Req} (hq : q.idle) (h : Held config faults st w) :
    Does config faults (Script.ask q)
      (fun _ s w' => s = st ∧ Held config faults st w' ∧ Rests w w')
      (fun s w' => s = st ∧ Held config faults st w' ∧ Rests w w') st w := by
  refine held_ask h (Req.idle_plain hq) (Req.idle_inert hq) (fun _ _ => Req.idle_allowed hq) ?_ ?_
  · exact fun a w₁ w₂ ht ha hh => ⟨rfl,hh,(Rests.touched ht).trans ((answers_moves ha).rests hq)⟩
  · exact fun e w₁ w₂ ht ha hh => ⟨rfl,hh,(Rests.touched ht).trans ((answers_moves ha).rests hq)⟩

/-! ## Saves, events and stops -/

theorem now_ask (hg : ∀ w₁, touched faults w w₁ → True) :
    Does config faults now (fun t s w' => s = st ∧ touched faults w w' ∧ t ∉ w'.runs)
      (fun s w' => s = st ∧ touched faults w w') st w := by
  refine (Script.wp_ask Req.now).2 fun w₁ ht => ⟨hg w₁ ht,?_⟩
  rintro (e | t) w₂ ⟨_,rfl,hn⟩
  · exact ⟨rfl,ht⟩
  · exact ⟨rfl,ht,hn t rfl⟩

theorem save_core (hg : ∀ t w₁, touched faults w w₁ →
      Allowed config faults w₁ (.writeState (st.stamp t))) :
    Does config faults save
      (fun _ s w' => ∃ t w₁, touched faults w w₁ ∧ s = st.stamp t ∧ w' = w₁.write s)
      (fun s w' => ∃ t w₁, touched faults w w₁ ∧ s = st.stamp t ∧ (w' = w₁.write s ∨ w' = w₁))
      st w := by
  refine Script.wp_seq (now_ask fun _ _ => trivial) ?_ ?_
  · rintro t _ w₁ ⟨rfl,h₁,_⟩
    refine Script.wp_modify_then.2 (Script.wp_get_then.2 ?_)
    refine (Script.wp_ask _).2 fun w₂ h₂ => ⟨hg (asSecs t) w₂ ?_,?_⟩
    · exact (system config faults).rely_trans _ _ _ h₁ h₂
    · have h₃ := (system config faults).rely_trans _ _ _ h₁ h₂
      rintro (e | u) w₃ ⟨_,ha⟩
      · exact ⟨asSecs t,w₂,h₃,rfl,Effected.cases ha⟩
      · rcases ha with rfl | ⟨_,_,⟨⟩⟩
        exact ⟨asSecs t,w₂,h₃,rfl,rfl⟩
  · rintro e st w₁ ⟨rfl,h₁⟩
    exact ⟨st.updatedAt,w₁,h₁,rfl,.inr rfl⟩

theorem Tracks.stamp {past : History} {runs : List ℕ} (h : Tracks config past runs st) (t : ℕ) :
    Tracks config past runs (st.stamp t) :=
  ⟨h.contract,h.known,h.owned,h.unsettled,h.done,h.budget,h.ended,h.decided⟩

theorem settles_restoring (h : w.settles st = true) : st.restoring = true ∧ st.result.terminal := by
  simp only [Disk.settles,Bool.and_eq_true,Bool.or_eq_true,decide_eq_true_eq] at h
  obtain ⟨⟨_,hr⟩,h | h⟩ := h <;> exact ⟨hr,by rw [h]; rfl⟩

theorem write_executed (i : Identity) (h : i ∈ w.past.executed) :
    i ∈ (w.write st).past.executed := List.mem_append_right _ h

/-- A save writes an accounted checkpoint. -/
theorem Held.accounted (h : Held config faults st w) (hu : faults.Undisturbed) :
    Accounted (w.write st).past st where
  named := (h.charged hu).named
  owed := by
    intro hr ht
    rcases (h.charged hu).owed hr ht with hs | ⟨i,hi,hx⟩
    · obtain ⟨i,hi⟩ := Option.isSome_iff_exists.1 (h.charged hu).named
      refine ⟨i,hi,.inl ?_⟩
      simp [Disk.write,hs,hi]
    · refine ⟨i,hi,hx.imp (write_executed i) fun hb => ?_⟩
      exact List.mem_append_right _ (h.earlier i hb)

theorem Held.stamp (h : Held config faults st w) (t : ℕ) : Held config faults (st.stamp t) w :=
  h.update rfl (h.tracks.stamp t)

theorem Held.write (h : Held config faults st w) : Held config faults st (w.write st) := by
  have hm := moves_write w st
  refine ⟨h.tracks.moves (covers_write st) hm,h.running,?_,fun hu => ?_⟩
  · exact fun i hi => hm.retired i (h.earlier i hi)
  · have hc := h.charged hu
    refine ⟨hc.bound,hc.named,fun hs hr => ⟨st,rfl,hs,hr⟩,fun hr ht => .inr ?_⟩
    rcases hc.owed hr ht with hs | ⟨i,hi,hx⟩
    · obtain ⟨i,hi⟩ := Option.isSome_iff_exists.1 hc.named
      exact ⟨i,hi,.inl (by simp [Disk.write,hs,hi])⟩
    · exact ⟨i,hi,hx.imp_left (write_executed i)⟩

theorem Held.allowed (h : Held config faults st w) :
    Allowed config faults w (.writeState st) := ⟨h.tracks,fun hu => h.accounted hu⟩

/-- After a save, what a failed one leaves included. -/
structure Saved (config : OperatorConfig) (faults : Faults) (st : State) (w : Disk)
    (s : State) (w' : Disk) : Prop where
  stamped : ∃ t, s = st.stamp t
  held : Held config faults s w'
  keeps : Keeps w w'
  state : w'.state = w.state ∨ w'.state = some s
  unsettled : w'.past.unsettled = w.past.unsettled

theorem save_held (h : Held config faults st w) :
    Does config faults save
      (fun _ s w' => Saved config faults st w s w' ∧ w'.state = some s ∧
        w'.past.bound = s.requestIdentity)
      (fun s w' => Saved config faults st w s w') st w := by
  have hw : ∀ t w₁, touched faults w w₁ →
      Saved config faults st w (st.stamp t) (w₁.write (st.stamp t)) := by
    intro t w₁ ht
    refine ⟨⟨t,rfl⟩,((h.touched ht).stamp t).write,(Keeps.touched ht).trans ?_,.inr rfl,?_⟩
    · exact (moves_write w₁ _).keeps trivial
    · rw [← (touched_past ht).1]; rfl
  refine Script.wp_ends (save_core fun t w₁ ht => ((h.touched ht).stamp t).allowed) ?_ ?_
  · rintro _ _ _ ⟨t,w₁,ht,rfl,rfl⟩
    exact ⟨hw t w₁ ht,rfl,rfl⟩
  · rintro _ _ _ ⟨t,w₁,ht,rfl,rfl | rfl⟩
    · exact hw t w₁ ht
    · obtain ⟨hp,hs,_⟩ := touched_past ht
      exact ⟨⟨t,rfl⟩,(h.touched ht).stamp t,Keeps.touched ht,.inl hs,by rw [hp]⟩

theorem event_held (h : Held config faults st w) {name result : String} {attempt : ℕ}
    {status : Int32} (ha : attempt ≤ config.maxAttempts.toNat) :
    Does config faults (event name attempt result status)
      (fun _ s w' => s = st ∧ Held config faults st w' ∧ Rests w w')
      (fun s w' => s = st ∧ Held config faults st w' ∧ Rests w w') st w := by
  refine Script.wp_get_then.2 (Script.wp_then (idle_ask (q := .now) trivial h) ?_)
  rintro t st w₁ ⟨rfl,h₁,hr₁⟩
  have ha' : ∀ (e : Event) (r : Except Error Unit) w₂ w₃, touched faults w₁ w₂ →
      answers faults (.appendEvent st.runId e) w₂ r w₃ → Rests w w₃ := by
    intro e r w₂ w₃ ht ha
    have hm := answers_moves ha
    refine hr₁.trans ((Rests.touched ht).trans ⟨hm.keeps trivial,?_,?_,fun u hu => ?_⟩)
    · exact (hm.plain trivial).1
    · exact (hm.plain trivial).2.2
    · exact (hm.unsettled u hu).resolve_right (by rintro ⟨⟩)
  refine held_ask h₁ trivial trivial (fun _ _ => ha) ?_ ?_
  · exact fun _ w₂ w₃ ht ha h₃ => ⟨rfl,h₃,ha' _ _ w₂ w₃ ht ha⟩
  · exact fun _ w₂ w₃ ht ha h₃ => ⟨rfl,h₃,ha' _ _ w₂ w₃ ht ha⟩

/-- A confirmed stop: the unit was stopped and then seen inactive. -/
structure Stopped (w : Disk) (unit : String) (w' : Disk) : Prop extends Keeps w w' where
  state : w'.state = w.state
  confirmed' : unit ∈ w'.past.confirmed
  unsettled : ∀ u ∈ w'.past.unsettled, u ∈ w.past.unsettled ∧ u ≠ unit

theorem stopConfirmed_held (h : Held config faults st w) (role : Role) (unit : String)
    (hu : role = .worker → unit ∈ st.restoreWorkers)
    (hd : role = .worker → ∃ d, w.state = some d ∧ unit ∈ d.restoreWorkers) :
    Does config faults (stopConfirmed role unit)
      (fun _ s w' => s = st ∧ Held config faults st w' ∧ Stopped w unit w')
      (fun s w' => s = st ∧ Held config faults st w') st w := by
  have hg : ∀ w₁, touched faults w w₁ → Allowed config faults w₁ (.stop role unit) := by
    intro w₁ ht
    cases role with
    | worker => rw [Allowed,(touched_past ht).2.1]; exact hd rfl
    | stage => trivial
  have hc : Covers st (.stop role unit) := by
    refine ⟨?_,?_,?_⟩
    · rintro u ⟨⟩
      exact hu rfl
    · rintro u ⟨⟩
    · rintro d ⟨⟩
  have hs : Does config faults (stop role unit)
      (fun _ s w₁ => s = st ∧ Held config faults st w₁ ∧ Rests w w₁ ∧
        w₁.past.stopped = some unit)
      (fun s w' => s = st ∧ Held config faults st w') st w := by
    refine covered_ask h trivial hc hg ?_ (fun _ _ _ _ _ h₂ => ⟨rfl,h₂⟩)
    rintro _ w₁ w₂ ht ha h₂
    have hm := answers_moves ha
    refine ⟨rfl,h₂,(Rests.touched ht).trans ⟨hm.keeps trivial,?_,?_,fun u hu => ?_⟩,?_⟩
    · exact (hm.plain trivial).1
    · exact (hm.plain trivial).2.2
    · exact (hm.unsettled u hu).resolve_right (by rintro ⟨⟩)
    · rw [show w₂ = _ from ha]; rfl
  refine Script.wp_then hs ?_
  rintro _ st w₁ ⟨rfl,h₁,hr₁,hs₁⟩
  have hi : Does config faults (active unit)
      (fun b s w₂ => s = st ∧ Held config faults st w₂ ∧ (b = false → Stopped w unit w₂))
      (fun s w' => s = st ∧ Held config faults st w') st w₁ := by
    refine held_ask h₁ trivial trivial (fun _ _ => trivial) ?_
      (fun _ _ _ _ _ h₂ => ⟨rfl,h₂⟩)
    rintro b w₂ w₃ ht ha h₃
    refine ⟨rfl,h₃,?_⟩
    rintro rfl
    have hr := hr₁.trans (Rests.touched ht)
    have hp : w₂.past.stopped = some unit := by rw [(touched_past ht).1]; exact hs₁
    have hk : Keeps w₂ w₃ := (answers_moves ha).keeps trivial
    have hw : w₃ = w₂.inactive unit := ha
    subst hw
    refine ⟨hr.toKeeps.trans hk,hr.state,by simp [Disk.inactive,hp],fun u hu => ?_⟩
    simp only [Disk.inactive,hp,if_true,List.mem_filter,decide_eq_true_eq] at hu
    exact ⟨hr.unsettled u hu.1,hu.2⟩
  refine Script.wp_then hi ?_
  rintro (_ | _) st w₂ ⟨rfl,h₂,hb⟩
  · exact ⟨rfl,h₂,hb rfl⟩
  · exact ⟨rfl,h₂⟩

/-! ## Settling and quiescing -/

theorem Tracks.at_ {past : History} {runs : List ℕ} (h : Tracks config past runs st)
    (hu : past.unsettled = []) (stage unit : String) (index : ℤ)
    (hs : st.state.terminal → unit = "") :
    Tracks config past runs
      { st with currentStage := stage, currentUnit := unit, currentIndex := index } where
  contract := h.contract
  known := h.known
  owned := h.owned
  unsettled := by simp [hu]
  done := h.done
  budget := h.budget
  ended := fun ht => ⟨(h.ended ht).1,hs ht⟩
  decided := h.decided

theorem Held.unsettled_nil (h : Held config faults st w) (hs : st.unsettled = false) :
    w.past.unsettled = [] := by
  refine List.eq_nil_iff_forall_not_mem.2 fun u hu => ?_
  have hu := (h.tracks.unsettled u hu).2
  rw [hs] at hu
  cases hu

theorem Held.stopped_nil (h : Held config faults st w) (hs : Stopped w st.currentUnit w') :
    w'.past.unsettled = [] := by
  refine List.eq_nil_iff_forall_not_mem.2 fun u hu => ?_
  obtain ⟨hu,hne⟩ := hs.unsettled u hu
  exact hne (h.tracks.unsettled u hu).1

/-- Memory that is on disk as it stands, and no stage unit unaccounted for. -/
structure Settled (config : OperatorConfig) (faults : Faults) (st : State)
    (s : State) (w : Disk) : Prop where
  held : Held config faults s w
  synced : w.state = some s
  clear : w.past.unsettled = []
  flags : s.flags = st.flags

theorem settle_held (h : Held config faults st w) (hw : w.state = some st) :
    Does config faults settle (fun _ => Settled config faults st)
      (fun s w' => Held config faults s w' ∧ s.flags = st.flags) st w := by
  refine Script.wp_get_then.2 ?_
  cases hs : st.unsettled with
  | false => exact ⟨h,hw,h.unsettled_nil hs,rfl⟩
  | true =>
    refine Script.wp_seq (stopConfirmed_held h .stage _ nofun nofun) ?_ ?_
    · rintro _ st w₁ ⟨rfl,h₁,hs₁⟩
      have hn := h.stopped_nil hs₁
      refine Script.wp_modify_then.2 (Script.wp_ends (save_held (h₁.update ?_ ?_)) ?_ ?_)
      · rfl
      · exact h₁.tracks.at_ hn st.currentStage "" st.currentIndex fun _ => rfl
      · rintro _ s w₂ ⟨⟨⟨t,rfl⟩,h₂,_,_,hu⟩,hd,_⟩
        exact ⟨h₂,hd,hu.trans hn,rfl⟩
      · rintro _ s w₂ ⟨⟨t,rfl⟩,h₂,_⟩
        exact ⟨h₂,rfl⟩
    · rintro _ st w₁ ⟨rfl,h₁⟩
      exact ⟨h₁,rfl⟩

/-- Units confirmed stopped, or inactive and none of the run's workers. -/
def Quiesced (units : List String) (s : State) (w : Disk) : Prop :=
  ∀ u ∈ units, u ∈ w.past.confirmed ∨ (u ∈ w.past.quiet ∧ u ∉ s.restoreWorkers)

theorem active_held (h : Held config faults st w) (unit : String) :
    Does config faults (active unit)
      (fun b s w' => s = st ∧ Held config faults st w' ∧ Rests w w' ∧
        (b = false → unit ∈ w'.past.quiet))
      (fun s w' => s = st ∧ Held config faults st w') st w := by
  refine held_ask h trivial trivial (fun _ _ => trivial) ?_
    (fun _ _ _ _ _ h₂ => ⟨rfl,h₂⟩)
  rintro b w₁ w₂ ht ha h₂
  refine ⟨rfl,h₂,(Rests.touched ht).trans ((answers_moves ha).rests trivial),?_⟩
  rintro rfl
  rw [show w₂ = w₁.inactive unit from ha]
  exact List.mem_cons_self

/-- After a claim: the unit is recorded, or was seen inactive. -/
structure Claimed (config : OperatorConfig) (faults : Faults) (st : State) (w : Disk)
    (unit : String) (s : State) (w' : Disk) : Prop extends Settled config faults st s w' where
  keeps : Keeps w w'
  claim : s.restoreWorkers = st.restoreWorkers ++ [unit] ∨
    (s.restoreWorkers = st.restoreWorkers ∧ unit ∈ w'.past.quiet)

theorem Tracks.claim {past : History} {runs : List ℕ} (h : Tracks config past runs st)
    (unit : String) (hs : ¬ st.state.terminal) :
    Tracks config past runs { st with restoreWorkers := st.restoreWorkers ++ [unit] } where
  contract := h.contract
  known := h.known
  owned := fun u hu => List.mem_append_left _ (h.owned u hu)
  unsettled := h.unsettled
  done := h.done
  budget := h.budget
  ended := fun ht => absurd ht hs
  decided := h.decided

theorem claimWorker_held (h : Settled config faults st st w) (hs : ¬ st.state.terminal)
    (unit : String) :
    Does config faults (claimWorker unit) (fun _ => Claimed config faults st w unit)
      (fun s w' => Held config faults s w' ∧ s.flags = st.flags) st w := by
  refine Script.wp_seq (active_held h.held unit) ?_ ?_
  · rintro (_ | _) st w₁ ⟨rfl,h₁,hr,hq⟩
    · exact ⟨⟨h₁,hr.state.trans h.synced,hr.clear h.clear,rfl⟩,hr.toKeeps,
        .inr ⟨rfl,hq rfl⟩⟩
    · have hn := hr.clear h.clear
      refine Script.wp_modify_then.2 (Script.wp_ends (save_held (h₁.update ?_ ?_)) ?_ ?_)
      · rfl
      · exact h₁.tracks.claim unit hs
      · rintro _ s w₂ ⟨⟨⟨t,rfl⟩,h₂,hk,_,hu⟩,hd,_⟩
        exact ⟨⟨h₂,hd,hu.trans hn,rfl⟩,hr.toKeeps.trans hk,.inl rfl⟩
      · rintro _ s w₂ ⟨⟨t,rfl⟩,h₂,_⟩
        exact ⟨h₂,rfl⟩
  · rintro _ st w₁ ⟨rfl,h₁⟩
    exact ⟨h₁,rfl⟩

/-- One worker is fenced off: recorded and confirmed stopped, or inactive. -/
theorem quiesceWorker_held {units : List String} {unit : String}
    (h : Settled config faults st st w) (hs : ¬ st.state.terminal) (hq : Quiesced units st w) :
    Does config faults (quiesceWorker unit)
      (fun _ s w' => Settled config faults st s w' ∧ Quiesced (unit::units) s w')
      (fun s w' => Held config faults s w' ∧ s.flags = st.flags) st w := by
  have hc : Does config faults (onlyIf (unit ∉ st.restoreWorkers) (claimWorker unit))
      (fun _ s w' => Settled config faults st s w' ∧ Keeps w w' ∧
        (s.restoreWorkers = st.restoreWorkers ++ [unit] ∨ (s.restoreWorkers = st.restoreWorkers ∧
          (unit ∈ st.restoreWorkers ∨ unit ∈ w'.past.quiet))))
      (fun s w' => Held config faults s w' ∧ s.flags = st.flags) st w := by
    by_cases hm : unit ∈ st.restoreWorkers
    · rw [show decide (unit ∉ st.restoreWorkers) = false by simp [hm]]
      exact ⟨h,⟨id,fun _ => id,fun _ => id⟩,.inr ⟨rfl,.inl hm⟩⟩
    · rw [show decide (unit ∉ st.restoreWorkers) = true by simp [hm]]
      refine Script.wp_ends (claimWorker_held h hs unit) ?_ fun _ _ _ he => he
      rintro _ s w₁ ⟨hh,hk,hr⟩
      exact ⟨hh,hk,hr.imp_right fun hr => ⟨hr.1,.inr hr.2⟩⟩
  refine Script.wp_get_then.2 (Script.wp_then hc ?_)
  rintro _ s₁ w₁ ⟨h₁,hk₁,hr₁⟩
  refine Script.wp_get_then.2 ?_
  by_cases hm : unit ∈ s₁.restoreWorkers
  · simp only [onlyIf,hm,decide_true,if_true]
    refine Script.wp_ends (stopConfirmed_held h₁.held .worker unit (fun _ => hm)
      fun _ => ⟨s₁,h₁.synced,hm⟩) ?_ ?_
    · rintro _ s w₂ ⟨rfl,h₂,hs₂⟩
      have hn : w₂.past.unsettled = [] := by
        refine List.eq_nil_of_subset_nil fun u hu => ?_
        rw [← h₁.clear]
        exact (hs₂.unsettled u hu).1
      refine ⟨⟨h₂,hs₂.state.trans h₁.synced,hn,h₁.flags⟩,fun u hu => ?_⟩
      rcases List.mem_cons.1 hu with rfl | hu
      · exact .inl hs₂.confirmed'
      · by_cases hne : u = unit
        · rw [hne]; exact .inl hs₂.confirmed'
        · refine (hq u hu).imp (fun hc => hs₂.confirmed u (hk₁.confirmed u hc)) ?_
          rintro ⟨hquiet,hu⟩
          refine ⟨hs₂.quiet u (hk₁.quiet u hquiet),?_⟩
          rcases hr₁ with hr₁ | ⟨hr₁,_⟩ <;> simp [hr₁,hu,hne]
    · rintro _ s w₂ ⟨rfl,h₂⟩
      exact ⟨h₂,h₁.flags⟩
  · simp only [onlyIf,hm,decide_false,Bool.false_eq_true,if_false]
    obtain ⟨he,hr⟩ := hr₁.resolve_left fun hr => hm (by simp [hr])
    rw [he] at hm
    refine ⟨h₁,fun u hu => ?_⟩
    rw [he]
    rcases List.mem_cons.1 hu with rfl | hu
    · exact .inr ⟨hr.resolve_left hm,hm⟩
    · exact (hq u hu).imp (hk₁.confirmed u) fun hu => ⟨hk₁.quiet u hu.1,hu.2⟩

theorem Settled.self (h : Settled config faults st s w) : Settled config faults s s w :=
  ⟨h.held,h.synced,h.clear,rfl⟩

theorem Settled.trans {s₁ s₂ : State} (h : s₁.flags = st.flags)
    (h' : Settled config faults s₁ s₂ w) : Settled config faults st s₂ w :=
  ⟨h'.held,h'.synced,h'.clear,h'.flags.trans h⟩

theorem quiesce_held (units done : List String) (h : Settled config faults st st w)
    (hs : ¬ st.state.terminal) (hq : Quiesced done st w) :
    Does config faults (quiesce units)
      (fun _ s w' => Settled config faults st s w' ∧ Quiesced (units ++ done) s w')
      (fun s w' => Held config faults s w' ∧ s.flags = st.flags) st w := by
  induction units generalizing done st w with
  | nil => exact ⟨h,hq⟩
  | cons unit units ih =>
    refine Script.wp_then (quiesceWorker_held h hs hq) ?_
    rintro _ s w₁ ⟨h₁,hq₁⟩
    have hs₁ : ¬ s.state.terminal := by rwa [(flags_eq h₁.flags).1]
    refine Script.wp_ends (ih (unit::done) h₁.self hs₁ hq₁) ?_ ?_
    · rintro _ s' w₂ ⟨h₂,hq₂⟩
      exact ⟨h₂.trans h₁.flags,fun u hu => hq₂ u (by simp at hu ⊢; tauto)⟩
    · rintro _ s' w₂ ⟨h₂,hf⟩
      exact ⟨h₂,hf.trans h₁.flags⟩

/-! ## Stages -/

theorem mapM_length {ε α β : Type} {f : α → Except ε β} {xs : List α} {ys : List β}
    (h : xs.mapM f = .ok ys) : ys.length = xs.length := by
  induction xs generalizing ys with
  | nil => cases h; rfl
  | cons x xs ih =>
    rw [List.mapM_cons] at h
    cases hx : f x with
    | error e => rw [hx] at h; cases h
    | ok y =>
      cases hxs : xs.mapM f with
      | error e => rw [hx,hxs] at h; cases h
      | ok ys' =>
        rw [hx,hxs] at h
        cases h
        rw [List.length_cons,List.length_cons,ih hxs]

/-- What a valid contract is good for. -/
structure Valid (config : OperatorConfig) (delays : List ℕ) : Prop where
  positive : config.maxAttempts.toNat ≠ 0
  delayed : config.maxAttempts.toNat - 1 ≤ delays.length
  named : ∀ stage ∈ config.stages, stage.unit ≠ ""

theorem valid_of_validate {delays : List ℕ} (h : validate config = .ok delays) :
    Valid config delays := by
  rw [validate] at h
  split_ifs at h with h₁ h₂ h₃
  simp only [not_or,not_lt] at h₁
  obtain ⟨_,_,hm,hd⟩ := h₁
  refine ⟨?_,?_,?_⟩
  · intro h0
    exact hm (UInt64.toNat_inj.1 h0)
  · rw [mapM_length h]
    exact hd
  · intro stage hs hu
    simp only [List.all_eq_true] at h₃
    have hn := h₃ stage.unit (List.mem_append_left _ (List.mem_map_of_mem hs))
    rw [hu] at hn
    exact absurd hn (by decide)

/-- A stage about to be attempted: its unit is recorded and nothing is in its way. -/
structure Attempting (config : OperatorConfig) (faults : Faults) (st : State) (stage : Stage)
    (s : State) (w : Disk) : Prop where
  held : Held config faults s w
  sentinel : w.sentinel
  quiesced : Quiesced config.quiesceUnits s w
  flags : s.flags = st.flags
  unit : s.currentUnit = stage.unit
  current : s.currentStage = stage.name
  pending : stage.name ∉ s.completed

theorem Quiesced.keeps {units : List String} (h : Quiesced units s w) (hk : Keeps w w')
    {s' : State} (hr : s'.restoreWorkers = s.restoreWorkers) : Quiesced units s' w' := by
  intro u hu
  rw [hr]
  exact (h u hu).imp (hk.confirmed u) fun hq => ⟨hk.quiet u hq.1,hq.2⟩

theorem unsettled_of (hn : s.currentUnit ≠ "") (hs : s.currentStage ∉ s.completed) :
    s.unsettled = true := by simp [State.unsettled,hn,hs]

theorem startStage_held {stage : Stage} (h : Attempting config faults st stage s w)
    (hw : w.state = some s) (hc : w.past.unsettled = []) (hn : stage.unit ≠ "")
    (hs : stage ∈ config.stages) (hf : s.failures stage.name < config.maxAttempts.toNat) :
    Does config faults (startStage stage.unit)
      (fun r s' w' => s' = s ∧ Attempting config faults st stage s w' ∧
        (r.success → w'.past.unsettled = []))
      (fun _ _ => False) s w := by
  have hu : s.unsettled := unsettled_of (by rwa [h.unit]) (by rw [h.current]; exact h.pending)
  have hg : ∀ w₁, touched faults w w₁ → Allowed config faults w₁ (.start stage.unit) := by
    intro w₁ ht
    obtain ⟨hp,hst,hse,_⟩ := touched_past ht
    refine ⟨by rw [hse]; exact h.sentinel,by rw [hp]; exact hc,fun u hu => ?_,?_⟩
    · rw [hp]
      refine (h.quiesced u hu).imp_right fun hq => ⟨hq.1,fun d hd => ?_⟩
      rw [hst,hw] at hd
      cases hd
      exact hq.2
    · exact ⟨s,hst.trans hw,h.unit,hu,by rw [h.current]; exact hs,by rw [h.current]; exact hf⟩
  have hcov : Covers s (.start stage.unit) := by
    refine ⟨?_,?_,?_⟩
    · rintro u ⟨⟩
    · rintro u ⟨⟩
      exact ⟨h.unit.symm,hu⟩
    · rintro d ⟨⟩
  have ha : ∀ (r : Except Error StageResult) w₁ w₂, touched faults w w₁ →
      answers faults (.start stage.unit) w₁ r w₂ → Held config faults s w₂ →
      Attempting config faults st stage s w₂ := by
    intro r w₁ w₂ ht ha h₂
    have hk : Keeps w w₂ :=
      (Keeps.touched ht).trans ((answers_moves ha).keeps trivial)
    exact ⟨h₂,hk.sentinel h.sentinel,h.quiesced.keeps hk rfl,h.flags,h.unit,h.current,h.pending⟩
  have hst : Does config faults (start stage.unit)
      (fun r s' w' => s' = s ∧ Attempting config faults st stage s w' ∧
        (r.success → w'.past.unsettled = []))
      (fun s' w' => s' = s ∧ Attempting config faults st stage s w') s w := by
    refine covered_ask h.held trivial hcov hg ?_ ?_
    · refine fun r w₁ w₂ ht har h₂ => ⟨rfl,ha _ w₁ w₂ ht har h₂,fun hr => ?_⟩
      have hw₂ : w₂ = w₁.startOk := by simpa [answers,hr] using har
      rw [hw₂,Disk.startOk,(touched_past ht).1]
      exact hc
    · exact fun e w₁ w₂ ht har h₂ => ⟨rfl,ha _ w₁ w₂ ht har h₂⟩
  refine Script.wp_then (Script.wp_attempt_ends hst) ?_
  rintro (e | r) s' w₁ h₁
  · obtain ⟨rfl,h₁⟩ := h₁
    exact ⟨rfl,h₁,nofun⟩
  · exact h₁

theorem Tracks.complete {past : History} {runs : List ℕ} (h : Tracks config past runs st)
    (hc : past.unsettled = []) (name : String) :
    Tracks config past runs { st with completed := st.completed ++ [name] } where
  contract := h.contract
  known := h.known
  owned := h.owned
  unsettled := by simp [hc]
  done := fun s hs => List.mem_append_left _ (h.done s hs)
  budget := h.budget
  ended := h.ended
  decided := h.decided

theorem Tracks.fail {past : History} {runs : List ℕ} (h : Tracks config past runs st)
    {name : String} {failures : ℕ} (hf : failures ≤ config.maxAttempts.toNat) :
    Tracks config past runs { st with failures := Function.update st.failures name failures } where
  contract := h.contract
  known := h.known
  owned := h.owned
  unsettled := h.unsettled
  done := h.done
  budget := by
    intro s
    change Function.update st.failures name failures s ≤ _
    by_cases hs : s = name
    · rw [hs,Function.update_self]; exact hf
    · rw [Function.update_of_ne hs]; exact h.budget s
  ended := h.ended
  decided := h.decided

/-- Between attempts and stages: fenced, quiesced, and no unit unsettled. -/
structure Staged (config : OperatorConfig) (faults : Faults) (st s : State) (w : Disk) : Prop where
  held : Held config faults s w
  sentinel : w.sentinel
  quiesced : Quiesced config.quiesceUnits s w
  clear : w.past.unsettled = []
  flags : s.flags = st.flags

theorem complete_held {stage : Stage} {failures : ℕ} {result : StageResult}
    (h : Attempting config faults st stage s w) (hc : w.past.unsettled = [])
    (hf : failures < config.maxAttempts.toNat) :
    Does config faults (complete stage failures result)
      (fun _ => Staged config faults st)
      (fun s' w' => Held config faults s' w' ∧ s'.flags = st.flags) s w := by
  refine Script.wp_modify_then.2 (Script.wp_seq (save_held (h.held.update ?_ ?_)) ?_ ?_)
  · rfl
  · exact h.held.tracks.complete hc stage.name
  · rintro _ s₁ w₁ ⟨⟨⟨t,rfl⟩,h₁,hk₁,_,hu₁⟩,_⟩
    refine Script.wp_ends (event_held h₁ hf) ?_ ?_
    · rintro _ s₂ w₂ ⟨rfl,h₂,hr₂⟩
      have hk := hk₁.trans hr₂.toKeeps
      exact ⟨h₂,hk.sentinel h.sentinel,h.quiesced.keeps hk rfl,hr₂.clear (hu₁.trans hc),h.flags⟩
    · rintro _ s₂ w₂ ⟨rfl,h₂,_⟩
      exact ⟨h₂,h.flags⟩
  · rintro _ s₁ w₁ ⟨⟨t,rfl⟩,h₁,_⟩
    exact ⟨h₁,h.flags⟩

theorem wait_held {delays : List ℕ} (hv : Valid config delays) {failures : ℕ} (hh : Held config faults s w) :
    Does config faults (onlyIf (failures+1 < config.maxAttempts.toNat)
        (match delays[failures]? with
          | some d => wait d
          | none => outOfRange))
      (fun _ s' w' => s' = s ∧ Held config faults s w' ∧ Rests w w')
      (fun s' w' => s' = s ∧ Held config faults s w' ∧ Rests w w') s w := by
  by_cases hm : failures+1 < config.maxAttempts.toNat
  · rw [show decide (failures+1 < config.maxAttempts.toNat) = true by simpa using hm]
    have hlen := hv.delayed
    have hlt : failures < delays.length := by omega
    rw [onlyIf,if_pos rfl,List.getElem?_eq_getElem hlt]
    exact idle_ask (q := .wait _) trivial hh
  · rw [show decide (failures+1 < config.maxAttempts.toNat) = false by simpa using hm]
    exact ⟨rfl,hh,Rests.refl w⟩

/-- After a failed attempt its unit is confirmed stopped and the failure is recorded. -/
theorem attemptFailed_held {delays : List ℕ} (hv : Valid config delays) {stage : Stage}
    {failures : ℕ} {result : StageResult} (h : Attempting config faults st stage s w)
    (hf : failures < config.maxAttempts.toNat) :
    Does config faults (attemptFailed config delays stage failures result)
      (fun _ s' w' => Attempting config faults st stage s' w' ∧ w'.past.unsettled = [] ∧
        s'.failures stage.name = failures+1)
      (fun s' w' => Held config faults s' w' ∧ s'.flags = st.flags) s w := by
  refine Script.wp_modify_then.2 (Script.wp_seq (save_held (h.held.update ?_ ?_)) ?_ ?_)
  · rfl
  · exact h.held.tracks.fail hf
  · rintro _ s₁ w₁ ⟨⟨⟨t,rfl⟩,h₁,hk₁,_⟩,_⟩
    refine Script.wp_seq (event_held h₁ hf) ?_ ?_
    · rintro _ s₂ w₂ ⟨rfl,h₂,hr₂⟩
      refine Script.wp_seq (stopConfirmed_held h₂ .stage _ nofun nofun) ?_ ?_
      · rintro _ s₃ w₃ ⟨rfl,h₃,hs₃⟩
        rw [← h.unit] at hs₃
        have hc := h₂.stopped_nil hs₃
        have hk := hk₁.trans (hr₂.toKeeps.trans hs₃.toKeeps)
        refine Script.wp_ends (wait_held hv h₃) ?_ ?_
        · rintro _ s₄ w₄ ⟨rfl,h₄,hr₄⟩
          have hk' := hk.trans hr₄.toKeeps
          exact ⟨⟨h₄,hk'.sentinel h.sentinel,h.quiesced.keeps hk' rfl,h.flags,h.unit,h.current,
            h.pending⟩,hr₄.clear hc,Function.update_self ..⟩
        · rintro _ s₄ w₄ ⟨rfl,h₄,_⟩
          exact ⟨h₄,h.flags⟩
      · rintro _ s₃ w₃ ⟨rfl,h₃⟩
        exact ⟨h₃,h.flags⟩
    · rintro _ s₂ w₂ ⟨rfl,h₂,_⟩
      exact ⟨h₂,h.flags⟩
  · rintro _ s₁ w₁ ⟨⟨t,rfl⟩,h₁,_⟩
    exact ⟨h₁,h.flags⟩

theorem Attempting.rests {stage : Stage} (h : Attempting config faults st stage s w)
    (hh : Held config faults s w') (hr : Rests w w') :
    Attempting config faults st stage s w' :=
  ⟨hh,hr.sentinel h.sentinel,h.quiesced.keeps hr.toKeeps rfl,h.flags,h.unit,h.current,h.pending⟩

/-- Every attempt finds the unit of the one before settled; the induction is on the
attempts that the budget leaves. -/
theorem attempts_held {delays : List ℕ} (hv : Valid config delays) {stage : Stage}
    (hm : stage ∈ config.stages) (n failures : ℕ)
    (h : Attempting config faults st stage s w) (hc : w.past.unsettled = [])
    (hf : s.failures stage.name = failures) (hn : failures + n = config.maxAttempts.toNat) :
    Does config faults (attempts config delays stage n failures)
      (fun r s' w' => match r with
        | some k => Staged config faults st s' w' ∧ k ≤ config.maxAttempts.toNat
        | none => Held config faults s' w' ∧ s'.flags = st.flags)
      (fun s' w' => Held config faults s' w' ∧ s'.flags = st.flags) s w := by
  induction n generalizing failures s w with
  | zero => exact ⟨⟨h.held,h.sentinel,h.quiesced,hc,h.flags⟩,by omega⟩
  | succ n ih =>
    have hlt : failures < config.maxAttempts.toNat := by omega
    have hfl := h.flags
    refine Script.wp_seq (idle_ask (q := .cancelled) trivial h.held) ?_ ?_
    · rintro (_ | _) s w₁ ⟨rfl,h₁,hr₁⟩
      · have ha := h.rests h₁ hr₁
        refine Script.wp_modify_then.2 (Script.wp_seq (save_held (h₁.update ?_ ?_)) ?_ ?_)
        · rfl
        · refine h₁.tracks.at_ (hr₁.clear hc) s.currentStage stage.unit s.currentIndex ?_
          intro ht
          rw [← h.unit]
          exact (h₁.tracks.ended ht).2
        · rintro _ s₂ w₂ ⟨⟨⟨t,rfl⟩,h₂,hk₂,_,hu₂⟩,hw₂,_⟩
          have hc₂ := hu₂.trans (hr₁.clear hc)
          have ha₂ : Attempting config faults st stage _ w₂ :=
            ⟨h₂,hk₂.sentinel ha.sentinel,ha.quiesced.keeps hk₂ rfl,hfl,rfl,h.current,h.pending⟩
          have hlt₂ : s.failures stage.name < config.maxAttempts.toNat := by rw [hf]; exact hlt
          refine Script.wp_seq (startStage_held ha₂ hw₂ hc₂ (hv.named stage hm) hm hlt₂) ?_ ?_
          · rintro r _ w₃ ⟨rfl,h₃,hr₃⟩
            refine Script.wp_seq (idle_ask (q := .cancelled) trivial h₃.held) ?_ ?_
            · rintro (_ | _) s₄ w₄ ⟨rfl,h₄,hr₄⟩
              · have ha₄ := h₃.rests h₄ hr₄
                cases hr : r.success with
                | true =>
                  refine Script.wp_seq (complete_held ha₄ (hr₄.clear (hr₃ hr)) hlt) ?_ ?_
                  · exact fun _ s₅ w₅ h₅ => ⟨h₅,hlt.le⟩
                  · exact fun _ s₅ w₅ h₅ => h₅
                | false =>
                  refine Script.wp_seq (attemptFailed_held hv ha₄ hlt) ?_ fun _ _ _ h₅ => h₅
                  rintro _ s₅ w₅ ⟨h₅,hc₅,hf₅⟩
                  exact ih (failures+1) h₅ hc₅ hf₅ (by omega)
              · exact ⟨h₄,h₃.flags⟩
            · rintro _ s₄ w₄ ⟨rfl,h₄,_⟩
              exact ⟨h₄,h₃.flags⟩
          · exact fun _ _ _ h₃ => h₃.elim
        · rintro _ s₂ w₂ ⟨⟨t,rfl⟩,h₂,_⟩
          exact ⟨h₂,hfl⟩
      · exact ⟨h₁,hfl⟩
    · rintro _ s w₁ ⟨rfl,h₁,_⟩
      exact ⟨h₁,hfl⟩

theorem Staged.rests (h : Staged config faults st s w) (hh : Held config faults s w')
    (hr : Rests w w') : Staged config faults st s w' :=
  ⟨hh,hr.sentinel h.sentinel,h.quiesced.keeps hr.toKeeps rfl,hr.clear h.clear,h.flags⟩

/-- What an execution leaves, however it ends. -/
def Executed (config : OperatorConfig) (faults : Faults) (st s : State) (w : Disk) : Prop :=
  Held config faults s w ∧ s.flags = st.flags

theorem stage_event_held {name result : String} {attempt : ℕ} {status : Int32}
    (h : Staged config faults st s w) (ha : attempt ≤ config.maxAttempts.toNat) :
    Does config faults (event name attempt result status)
      (fun _ => Staged config faults st) (Executed config faults st) s w := by
  refine Script.wp_ends (event_held h.held ha) ?_ ?_
  · rintro _ s w₁ ⟨rfl,h₁,hr₁⟩
    exact h.rests h₁ hr₁
  · rintro _ s w₁ ⟨rfl,h₁,_⟩
    exact ⟨h₁,h.flags⟩

/-- The stages run one after another; the induction is on those still to come. -/
theorem runStages_held {delays : List ℕ} (hv : Valid config delays) (hs : st.state = .running)
    (stages : List Stage) (hm : ∀ stage ∈ stages, stage ∈ config.stages) (index : ℕ)
    (failed : Bool) (h : Staged config faults st s w) :
    Does config faults (runStages config delays index stages failed)
      (fun o s' w' => Executed config faults st s' w' ∧ o ≠ .cancelled)
      (Executed config faults st) s w := by
  induction stages generalizing index failed s w with
  | nil => cases failed <;> exact ⟨⟨h.held,h.flags⟩,nofun⟩
  | cons stage stages ih =>
    have ih' := fun index failed s w => ih (s := s) (w := w)
      (fun stage hs => hm stage (List.mem_cons_of_mem _ hs)) index failed
    refine Script.wp_seq (idle_ask (q := .cancelled) trivial h.held) ?_ ?_
    · rintro (_ | _) s w₁ ⟨rfl,h₁,hr₁⟩
      · have h₁ := h.rests h₁ hr₁
        have hrun : ¬ s.state.terminal := by rw [(flags_eq h.flags).1,hs]; nofun
        have h₂ : Staged config faults st
            { s with currentStage := stage.name, currentUnit := stage.unit, currentIndex := index }
            w₁ :=
          ⟨h₁.held.update rfl (h₁.held.tracks.at_ h₁.clear _ _ _ fun ht => absurd ht hrun),
            h₁.sentinel,h₁.quiesced,h₁.clear,h.flags⟩
        refine Script.wp_modify_then.2 (Script.wp_get_then.2 ?_)
        by_cases hd : stage.name ∈ s.completed
        · simp only [hd,if_true]
          refine Script.wp_then (stage_event_held h₂ (Nat.zero_le _)) ?_
          exact fun _ s₃ w₃ h₃ => ih' _ _ s₃ w₃ h₃
        · simp only [hd,if_false]
          refine Script.wp_seq (save_held h₂.held) ?_ ?_
          · rintro _ s₃ w₃ ⟨⟨⟨t,rfl⟩,h₃,hk₃,_,hu₃⟩,hw₃,_⟩
            have ha : Attempting config faults st stage _ w₃ :=
              ⟨h₃,hk₃.sentinel h₂.sentinel,h₂.quiesced.keeps hk₃ rfl,h.flags,rfl,rfl,hd⟩
            have hb := h₃.tracks.budget stage.name
            refine Script.wp_then (attempts_held hv (hm stage List.mem_cons_self) _ _ ha
              (hu₃.trans h₂.clear) rfl (Nat.add_sub_of_le hb)) ?_
            rintro (_ | k) s₄ w₄ h₄
            · exact ⟨h₄,nofun⟩
            · refine Script.wp_get_then.2 ?_
              by_cases hd₄ : stage.name ∈ s₄.completed
              · simp only [hd₄,if_true]
                exact ih' _ _ s₄ w₄ h₄.1
              · simp only [hd₄,if_false]
                refine Script.wp_then (stage_event_held h₄.1 h₄.2) ?_
                exact fun _ s₅ w₅ h₅ => ih' _ _ s₅ w₅ h₅
          · rintro _ s₃ w₃ ⟨⟨t,rfl⟩,h₃,_⟩
            exact ⟨h₃,h.flags⟩
      · exact ⟨⟨h₁,h.flags⟩,nofun⟩
    · rintro _ s w₁ ⟨rfl,h₁,_⟩
      exact ⟨h₁,h.flags⟩

/-- How an execution ends: restoration alone repeats the recorded result. -/
def Ran (st : State) (execution : Except Error Outcome) : Prop :=
  ∀ o, execution = .ok o →
    if st.restoreOnly then o.phase = st.result else st.state = .running ∧ o ≠ .cancelled

theorem markSentinel_held (h : Held config faults s w) :
    Does config faults markSentinel
      (fun _ s' w' => s' = s ∧ Held config faults s w' ∧ w'.sentinel ∧ w'.past = w.past)
      (fun s' w' => s' = s ∧ Held config faults s w') s w := by
  refine held_ask h trivial trivial (fun _ _ => trivial) ?_
    (fun _ _ _ _ _ h₂ => ⟨rfl,h₂⟩)
  rintro _ w₁ w₂ ht (rfl | ⟨_,_,⟨⟩⟩) h₂
  exact ⟨rfl,h₂,rfl,(touched_past ht).1⟩

theorem execute_held {delays : List ℕ} (hv : Valid config delays)
    (h : Held config faults st w) (hw : w.state = some st)
    (hl : st.restoreOnly = false → st.state = .running) :
    Does config faults (execute config delays st.restoreOnly)
      (fun o s' w' => Executed config faults st s' w' ∧ Ran st (.ok o))
      (Executed config faults st) st w := by
  refine Script.wp_then (settle_held h hw) ?_
  intro _ s w₁ h₁
  have hq : Does config faults (onlyIf (!st.restoreOnly) (quiesce config.quiesceUnits))
      (fun _ s' w' => Settled config faults st s' w' ∧
        (st.restoreOnly = false → Quiesced config.quiesceUnits s' w'))
      (Executed config faults st) s w₁ := by
    cases hr : st.restoreOnly with
    | true => exact ⟨h₁,nofun⟩
    | false =>
      have hs : ¬ s.state.terminal := by rw [(flags_eq h₁.flags).1,hl hr]; nofun
      refine Script.wp_ends (quiesce_held config.quiesceUnits [] h₁.self hs nofun) ?_ ?_
      · rintro _ s₂ w₂ ⟨h₂,hq₂⟩
        exact ⟨h₂.trans h₁.flags,fun _ => by simpa using hq₂⟩
      · rintro _ s₂ w₂ ⟨h₂,hf₂⟩
        exact ⟨h₂,hf₂.trans h₁.flags⟩
  refine Script.wp_then hq ?_
  rintro _ s₂ w₂ ⟨h₂,hq₂⟩
  refine Script.wp_seq (markSentinel_held h₂.held) ?_ ?_
  · rintro _ s₃ w₃ ⟨rfl,h₃,hs₃,hp₃⟩
    refine Script.wp_seq (idle_ask (q := .ready) trivial h₃) ?_ ?_
    · rintro _ s₄ w₄ ⟨rfl,h₄,hr₄⟩
      cases hr : st.restoreOnly with
      | true =>
        refine Script.wp_get_then.2 ?_
        have hres := (flags_eq h₂.flags).2.2.1
        cases hp : s₄.result with
        | running => exact ⟨h₄,h₂.flags⟩
        | succeeded | failed | interrupted | cancelled =>
          refine ⟨⟨h₄,h₂.flags⟩,?_⟩
          rintro o ⟨⟩
          rw [if_pos hr,← hres,hp]
          rfl
      | false =>
        have hc : w₄.past.unsettled = [] := hr₄.clear (by rw [hp₃]; exact h₂.clear)
        have hq₄ : Quiesced config.quiesceUnits s₄ w₄ :=
          Quiesced.keeps (w := w₃) (by unfold Quiesced; rw [hp₃]; exact hq₂ hr) hr₄.toKeeps rfl
        refine Script.wp_ends (runStages_held hv (hl hr) config.stages (fun _ h => h) 0 false
          ⟨h₄,hr₄.sentinel hs₃,hq₄,hc,h₂.flags⟩) ?_ fun _ _ _ he => he
        rintro o s₅ w₅ ⟨h₅,ho⟩
        refine ⟨h₅,?_⟩
        rintro o ⟨⟩
        rw [if_neg (by simp [hr])]
        exact ⟨hl hr,ho⟩
    · rintro _ s₄ w₄ ⟨rfl,h₄,_⟩
      exact ⟨h₄,h₂.flags⟩
  · rintro _ s₃ w₃ ⟨rfl,h₃⟩
    exact ⟨h₃,h₂.flags⟩

/-! ## Recovery -/

theorem Held.interrupt (h : Held config faults st w) :
    Held config faults { st with state := .interrupted } w := by
  have ho : ∀ s : State, s = { st with state := .interrupted } → s.restoreOnly → st.restoreOnly := by
    rintro s rfl hr
    have hr : st.restoring = true := by simpa [State.restoreOnly,Phase.terminal] using hr
    simp [State.restoreOnly,hr]
  refine ⟨⟨h.tracks.contract,h.tracks.known,h.tracks.owned,h.tracks.unsettled,h.tracks.done,
    h.tracks.budget,nofun,fun hr => h.tracks.decided (ho _ rfl hr)⟩,h.running,h.earlier,fun hu => ?_⟩
  have hc := h.charged hu
  exact ⟨hc.bound,hc.named,nofun,fun hr ht => hc.owed (ho _ rfl hr) ht⟩

theorem confirmStage_held (h : Held config faults st w) :
    Does config faults confirmStage
      (fun _ s w' => s = st ∧ Held config faults st w' ∧ w'.past.unsettled = [])
      (fun _ _ => True) st w := by
  refine Script.wp_get_then.2 ?_
  cases hs : st.unsettled with
  | false => exact ⟨rfl,h,h.unsettled_nil hs⟩
  | true =>
    refine Script.wp_then (Script.wp_attempt_ends
      (stopConfirmed_held h .stage _ nofun nofun)) ?_
    rintro (e | _) s w₁ h₁
    · obtain ⟨rfl,h₁⟩ := h₁
      refine Script.wp_modify_then.2 (Script.wp_seq (save_held h₁.interrupt) ?_ ?_)
      · exact fun _ _ _ _ => trivial
      · exact fun _ _ _ _ => trivial
    · obtain ⟨rfl,h₁,hs₁⟩ := h₁
      exact ⟨rfl,h₁,h.stopped_nil hs₁⟩

theorem resultPhase_ne_running (execution : Except Error Outcome) :
    resultPhase execution ≠ .running := by
  rcases execution with e | _ | _ | _ | _ <;> nofun

theorem resultPhase_ok (o : Outcome) : resultPhase (.ok o) = o.phase := by cases o <;> rfl

theorem resultPhase_terminal {execution : Except Error Outcome}
    (h : (resultPhase execution).terminal) : ∃ o, execution = .ok o ∧ o ≠ .interrupted := by
  rcases execution with e | _ | _ | _ | _
  · cases h
  · exact ⟨_,rfl,nofun⟩
  · exact ⟨_,rfl,nofun⟩
  · cases h
  · exact ⟨_,rfl,nofun⟩

theorem outcome_phase_terminal {o : Outcome} : o.phase.terminal ↔ o ≠ .interrupted := by
  cases o <;> simp [Outcome.phase,Phase.terminal]

/-- The checkpoint that announces restoration and the execution's result. -/
theorem Held.restore {execution : Except Error Outcome} (h : Held config faults st w)
    (hc : w.past.unsettled = []) (hr : Ran st execution) :
    Held config faults
      { st with currentUnit := "", restoring := true, result := resultPhase execution } w := by
  refine ⟨⟨h.tracks.contract,h.tracks.known,h.tracks.owned,by simp [hc],h.tracks.done,
    h.tracks.budget,fun ht => ⟨(h.tracks.ended ht).1,rfl⟩,fun _ => resultPhase_ne_running execution⟩,
    h.running,h.earlier,fun hu => ?_⟩
  have hch := h.charged hu
  refine ⟨hch.bound,hch.named,nofun,fun _ ht => ?_⟩
  obtain ⟨o,rfl,ho⟩ := resultPhase_terminal ht
  have hr := hr o rfl
  split_ifs at hr with hro
  · rw [resultPhase_ok,hr] at ht
    rw [resultPhase_ok,hr]
    refine (hch.owed hro ht).imp_left fun hs => ?_
    have hset := (settles_restoring hs).1
    simp only [Disk.settles,hset] at hs ⊢
    exact hs
  · left
    obtain ⟨d,hd,hds,hdr⟩ := hch.live hr.1 (by
      have : st.restoreOnly = false := by simpa using hro
      simp only [State.restoreOnly,Bool.or_eq_false_iff] at this
      exact this.1)
    have hres : o = .succeeded ∨ o = .failed := by
      cases o
      · exact .inl rfl
      · exact .inr rfl
      · exact absurd rfl ho
      · exact absurd rfl hr.2
    rcases hres with rfl | rfl <;> simp [Disk.settles,hd,hds,hdr,resultPhase]

/-- The checkpoint on disk announces restoration. -/
def Restoring (w : Disk) : Prop := ∃ d, w.state = some d ∧ d.restoring

theorem Restoring.not_settles (h : Restoring w) : w.settles st = false := by
  obtain ⟨d,hd,hr⟩ := h
  simp [Disk.settles,hd,hr]

theorem Tracks.release {past : History} {runs : List ℕ} (h : Tracks config past runs st)
    {unit : String} (ho : unit ∉ past.owned) :
    Tracks config past runs { st with restoreWorkers := st.restoreWorkers.filter (· ≠ unit) } where
  contract := h.contract
  known := h.known
  owned := by
    intro u hu
    refine List.mem_filter.2 ⟨h.owned u hu,decide_eq_true ?_⟩
    rintro rfl
    exact ho hu
  unsettled := h.unsettled
  done := h.done
  budget := h.budget
  ended := fun ht => ⟨by simp [(h.ended ht).1],(h.ended ht).2⟩
  decided := h.decided

/-- What a restoration of `units` has done to the memory `st`. -/
structure Restored (config : OperatorConfig) (faults : Faults) (st : State) (units : List String)
    (first r : Option Error) (s : State) (w : Disk) : Prop where
  held : Held config faults s w
  flags : s.flags = st.flags
  unit : s.currentUnit = st.currentUnit
  restoring : Restoring w
  released : r = none → first = none ∧ ∀ u ∈ s.restoreWorkers, u ∈ st.restoreWorkers ∧ u ∉ units

theorem Restored.cons {unit : String} {units : List String} {first first' r : Option Error}
    {s₁ : State} (h : Restored config faults s₁ units first' r s w)
    (hf : s₁.flags = st.flags) (hu : s₁.currentUnit = st.currentUnit)
    (hr : first' = none → first = none ∧ s₁.restoreWorkers = st.restoreWorkers.filter (· ≠ unit)) :
    Restored config faults st (unit::units) first r s w where
  held := h.held
  flags := h.flags.trans hf
  unit := h.unit.trans hu
  restoring := h.restoring
  released := by
    intro hn
    obtain ⟨hf',hu'⟩ := h.released hn
    obtain ⟨hfirst,he⟩ := hr hf'
    refine ⟨hfirst,fun u hu => ?_⟩
    have hm := hu' u hu
    rw [he] at hm
    simp only [List.mem_filter,decide_eq_true_eq] at hm
    exact ⟨hm.1.1,by simp [hm.1.2,hm.2]⟩

theorem Saved.restoring (h : Saved config faults st w s w') (hw : Restoring w)
    (hs : st.restoring) : Restoring w' := by
  obtain ⟨t,rfl⟩ := h.stamped
  rcases h.state with he | he
  · rw [Restoring,he]; exact hw
  · exact ⟨_,he,hs⟩

theorem restoreAll_held (units : List String) (first : Option Error)
    (h : Held config faults st w) (hw : Restoring w) (hs : st.restoring) :
    Does config faults (restoreAll units first)
      (fun r => Restored config faults st units first r) (fun _ _ => False) st w := by
  induction units generalizing first st w with
  | nil => exact ⟨h,rfl,rfl,hw,fun hn => ⟨hn,fun u hu => ⟨hu,nofun⟩⟩⟩
  | cons unit units ih =>
    have hask : Does config faults (restore unit)
        (fun _ s w₁ => s = st ∧ Held config faults st w₁ ∧ Restoring w₁ ∧ unit ∉ w₁.past.owned)
        (fun s w₁ => s = st ∧ Held config faults st w₁ ∧ Restoring w₁) st w := by
      have hst : ∀ r w₁ w₂, touched faults w w₁ → answers faults (.restore unit) w₁ r w₂ →
          Restoring w₂ := by
        intro r w₁ w₂ ht ha
        rw [Restoring,((answers_moves ha).plain trivial).1,(touched_past ht).2.1]
        exact hw
      refine held_ask h trivial trivial (fun _ _ => trivial) ?_ ?_
      · refine fun _ w₁ w₂ ht ha h₂ => ⟨rfl,h₂,hst _ w₁ w₂ ht ha,?_⟩
        rcases ha with rfl | ⟨_,_,⟨⟩⟩
        simp [Disk.restored]
      · exact fun e w₁ w₂ ht ha h₂ => ⟨rfl,h₂,hst _ w₁ w₂ ht ha⟩
    refine Script.wp_then (Script.wp_attempt_ends hask) ?_
    rintro (e | _) s₁ w₁ h₁
    · obtain ⟨rfl,h₁,hw₁⟩ := h₁
      refine Script.wp_ends (ih (first.or (some e)) h₁ hw₁ hs) ?_ fun _ _ _ hx => hx
      refine fun r s₂ w₂ h₂ => h₂.cons rfl rfl fun hn => ?_
      cases first <;> cases hn
    · obtain ⟨rfl,h₁,hw₁,ho₁⟩ := h₁
      refine Script.wp_modify_then.2 (Script.wp_then (Script.wp_attempt_ends
        (save_held (h₁.update ?_ ?_))) ?_)
      · rfl
      · exact h₁.tracks.release ho₁
      · rintro (e | _) s₂ w₂ h₂
        · have hw₂ := Saved.restoring h₂ hw₁ hs
          obtain ⟨⟨t,rfl⟩,h₂,_⟩ := h₂
          refine Script.wp_ends (ih (first.or (some e)) h₂ hw₂ hs) ?_ fun _ _ _ hx => hx
          refine fun r s₃ w₃ h₃ => h₃.cons rfl rfl fun hn => ?_
          cases first <;> cases hn
        · have hw₂ := Saved.restoring h₂.1 hw₁ hs
          obtain ⟨⟨⟨t,rfl⟩,h₂,_⟩,_⟩ := h₂
          refine Script.wp_ends (ih first h₂ hw₂ hs) ?_ fun _ _ _ hx => hx
          exact fun r s₃ w₃ h₃ => h₃.cons rfl rfl fun hn => ⟨hn,rfl⟩

theorem recover_held (h : Held config faults st w) (hw : Restoring w) (hs : st.restoring) :
    Does config faults recover
      (fun r => Restored config faults st st.restoreWorkers none r) (fun _ _ => False) st w := by
  have hask : Does config faults removeSentinel
      (fun _ s w₁ => s = st ∧ Held config faults st w₁ ∧ Restoring w₁)
      (fun s w₁ => s = st ∧ Held config faults st w₁ ∧ Restoring w₁) st w := by
    have hst : ∀ r w₁ w₂, touched faults w w₁ → answers faults .removeSentinel w₁ r w₂ →
        Restoring w₂ := by
      intro r w₁ w₂ ht ha
      rw [Restoring,((answers_moves ha).plain trivial).1,(touched_past ht).2.1]
      exact hw
    refine held_ask h trivial trivial (fun _ _ => trivial) ?_ ?_
    · exact fun _ w₁ w₂ ht ha h₂ => ⟨rfl,h₂,hst _ w₁ w₂ ht ha⟩
    · exact fun _ w₁ w₂ ht ha h₂ => ⟨rfl,h₂,hst _ w₁ w₂ ht ha⟩
  refine Script.wp_then (Script.wp_attempt_ends hask) ?_
  rintro (e | _) s w₁ h₁ <;> obtain ⟨rfl,h₁,hw₁⟩ := h₁
  · refine Script.wp_ends (restoreAll_held s.restoreWorkers (some e) h₁ hw₁ hs) ?_
      fun _ _ _ hx => hx
    exact fun r s₂ w₂ h₂ => ⟨h₂.held,h₂.flags,h₂.unit,h₂.restoring,
      fun hn => absurd (h₂.released hn).1 nofun⟩
  · exact restoreAll_held s.restoreWorkers none h₁ hw₁ hs

theorem outcomeOf_ok {execution : Except Error Outcome} {recoveryError : Option Error}
    (h : outcomeOf execution recoveryError ≠ .interrupted) :
    recoveryError = none ∧ execution = .ok (outcomeOf execution recoveryError) := by
  rcases execution with e | o <;> cases recoveryError <;> simp_all [outcomeOf]

/-- The checkpoint of a settled run: terminal only when every worker is back. -/
theorem Held.settled {execution : Except Error Outcome} (recoveryError : Option Error)
    (h : Held config faults s w) (hw : Restoring w) (hs : s.restoring)
    (hr : s.result = resultPhase execution) (hu : s.currentUnit = "")
    (hn : recoveryError = none → s.restoreWorkers = []) :
    Held config faults (s.settled (outcomeOf execution recoveryError) recoveryError.isSome) w := by
  have hro : s.restoreOnly := by simp [State.restoreOnly,hs]
  have hres : (s.settled (outcomeOf execution recoveryError) recoveryError.isSome).result =
      s.result ∨ (outcomeOf execution recoveryError = .interrupted ∧
        (s.settled (outcomeOf execution recoveryError) recoveryError.isSome).result =
          .interrupted) := by
    cases recoveryError with
    | some e => exact .inl rfl
    | none =>
      rcases execution with e | o
      · exact .inr ⟨rfl,rfl⟩
      · exact .inl (by rw [hr,resultPhase_ok]; rfl)
  refine ⟨⟨h.tracks.contract,h.tracks.known,h.tracks.owned,h.tracks.unsettled,h.tracks.done,
    h.tracks.budget,fun ht => ?_,fun _ => ?_⟩,h.running,h.earlier,fun hu' => ?_⟩
  · have ho := outcomeOf_ok (outcome_phase_terminal.1 ht)
    exact ⟨hn ho.1,hu⟩
  · rcases hres with he | ⟨_,he⟩ <;> rw [he]
    · exact h.tracks.decided hro
    · nofun
  · have hc := h.charged hu'
    refine ⟨hc.bound,hc.named,fun hl => ?_,fun _ ht => ?_⟩
    · exact absurd hl (by cases outcomeOf execution recoveryError <;> nofun)
    · rcases hres with he | ⟨_,he⟩ <;> rw [he] at ht
      · exact .inr ((hc.owed hro ht).resolve_left (by rw [hw.not_settles]; nofun))
      · cases ht

/-- The request is removed only when it was answered. -/
theorem retire_held {execution : Except Error Outcome} {recoveryError : Option Error}
    (h : Held config faults s w) (hb : w.past.bound = s.requestIdentity)
    (ho : outcomeOf execution recoveryError ≠ .interrupted →
      s.restoreOnly ∧ s.result.terminal ∧ s.restoring = false) :
    Does config faults (retire execution recoveryError) (fun _ _ _ => True) (fun _ _ => True)
      s w := by
  refine Script.wp_get_then.2 (Script.wp_seq (idle_ask (q := .readEvents _) trivial h) ?_
    fun _ _ _ _ => trivial)
  rintro log s w₁ ⟨rfl,h₁,hr₁⟩
  cases parseEvents log with
  | none => exact trivial
  | some events =>
    refine Script.wp_seq (idle_ask (q := .writeReport _ _) trivial h₁) ?_ fun _ _ _ _ => trivial
    rintro _ s w₂ ⟨rfl,h₂,hr₂⟩
    have hb₂ := hr₂.bound.trans (hr₁.bound.trans hb)
    have hremove : Does config faults
        (onlyIf (outcomeOf execution recoveryError ≠ .interrupted) removeRequest)
        (fun _ _ _ => True) (fun _ _ => True) s w₂ := by
      by_cases hi : outcomeOf execution recoveryError = .interrupted
      · rw [show decide (outcomeOf execution recoveryError ≠ .interrupted) = false by simp [hi]]
        exact trivial
      · rw [show decide (outcomeOf execution recoveryError ≠ .interrupted) = true by simp [hi]]
        refine (Script.wp_ask Req.removeRequest).2 fun w₃ ht => ⟨fun _ hu => ?_,?_⟩
        · obtain ⟨hro,hres,hset⟩ := ho hi
          have hc := (h₂.touched ht).charged hu
          obtain ⟨i,hid,hx⟩ := (hc.owed hro hres).resolve_left fun hs => by
            have := (settles_restoring hs).1
            rw [hset] at this
            cases this
          refine ⟨i,hc.bound.trans hid,?_,hx⟩
          rw [(touched_past ht).1,hb₂,hid]
        · rintro (_ | _) w₄ _ <;> exact trivial
    refine Script.wp_seq hremove ?_ fun _ _ _ _ => trivial
    intro _ s₃ w₃ _
    rcases recoveryError with _ | e
    · rcases execution with e | o <;> exact trivial
    · exact trivial

theorem finish_held {execution : Except Error Outcome} (h : Held config faults st w)
    (hr : Ran st execution) :
    Does config faults (finish execution) (fun _ _ _ => True) (fun _ _ => True) st w := by
  refine Script.wp_then (confirmStage_held h) ?_
  rintro _ st w₁ ⟨rfl,h₁,hc₁⟩
  refine Script.wp_modify_then.2 (Script.wp_seq (save_held (h₁.restore hc₁ hr)) ?_
    fun _ _ _ _ => trivial)
  rintro _ s₂ w₂ ⟨⟨⟨t,rfl⟩,h₂,_⟩,hw₂,_⟩
  refine Script.wp_seq (recover_held h₂ ⟨_,hw₂,rfl⟩ rfl) ?_ fun _ _ _ hx => hx.elim
  rintro recoveryError s₃ w₃ ⟨h₃,hf₃,hu₃,hw₃,hn₃⟩
  obtain ⟨_,hs₃,hr₃,_⟩ := flags_eq hf₃
  have hset := h₃.settled recoveryError hw₃ hs₃ hr₃ hu₃ fun hn =>
    List.eq_nil_iff_forall_not_mem.2 fun u hu => ((hn₃ hn).2 u hu).2 ((hn₃ hn).2 u hu).1
  refine Script.wp_modify_then.2 (Script.wp_seq (save_held hset) ?_ fun _ _ _ _ => trivial)
  rintro _ s₄ w₄ ⟨⟨⟨t',rfl⟩,h₄,_⟩,_,hb₄⟩
  refine retire_held h₄ hb₄ fun ho => ?_
  obtain ⟨hrec,_⟩ := outcomeOf_ok ho
  have ht := outcome_phase_terminal.2 ho
  subst hrec
  refine ⟨?_,ht,rfl⟩
  simp only [State.restoreOnly,State.stamp,State.settled,ht,Bool.or_true]

/-! ## Admission -/

/-- The world of a run that has not written anything yet. -/
structure Begun (w : Disk) : Prop where
  running : w.past.invocation = .run
  retired : w.past.retiredBefore = w.past.retired

theorem Faults.Undisturbed.untouched (hu : faults.Undisturbed) (hr : w.past.invocation = .run)
    (ht : touched faults w w') : w' = w := by
  rcases ht with rfl | ⟨ht,_,rfl⟩
  · rfl
  · exact absurd (hr.symm.trans (hu.touch w ht)) nofun

theorem Begun.past (h : Begun w) (hp : w'.past = w.past) : Begun w' :=
  ⟨by rw [hp]; exact h.running,by rw [hp]; exact h.retired⟩

/-- An admitted checkpoint `s`: whatever result it holds belongs to the request. -/
structure Admitted (config : OperatorConfig) (faults : Faults) (requested : Option Identity)
    (s : State) (w : Disk) : Prop where
  tracks : Tracks config w.past w.runs s
  begun : Begun w
  own : faults.Undisturbed → requested = w.request
  asked : s.restoreOnly → requested.isSome
  owed : faults.Undisturbed → s.restoreOnly → s.result.terminal →
    ∃ i, requested = some i ∧ (i ∈ w.past.executed ∨ i ∈ w.past.retired)

theorem fresh_admitted {requested : Option Identity} (ho : w.past.owned = [])
    (hu : w.past.unsettled = []) (hn : ∀ p ∈ w.past.done, p.1 ∈ w.runs) (hb : Begun w)
    (hr : faults.Undisturbed → requested = w.request) :
    Does config faults (fresh config) (fun _ => Admitted config faults requested)
      (fun _ _ => True) st w := by
  refine Script.wp_seq (now_ask fun _ _ => trivial) ?_ fun _ _ _ _ => trivial
  rintro t st w₁ ⟨rfl,h₁,ht⟩
  have hmake : Does config faults (makeRunDir t)
      (fun _ s w₃ => ∃ w₂, touched faults w w₂ ∧ t ∉ w₂.runs ∧
        w₃ = { w₂ with runs := t :: w₂.runs }) (fun _ _ => True) st w₁ := by
    refine (Script.wp_ask _).2 fun w₂ h₂ => ⟨trivial,?_⟩
    rintro (_ | _) w₃ ⟨_,ha⟩
    · exact trivial
    · rcases ha with rfl | ⟨_,_,⟨⟩⟩
      refine ⟨w₂,(system config faults).rely_trans _ _ _ h₁ h₂,?_,rfl⟩
      rw [(touched_past h₂).2.2.2]
      exact ht
  refine Script.wp_seq hmake ?_ fun _ _ _ _ => trivial
  rintro _ st _ ⟨w₂,h₂,ht₂,rfl⟩
  obtain ⟨hp,_,_,hruns⟩ := touched_past h₂
  refine ⟨⟨rfl,List.mem_cons_self,?_,?_,?_,fun _ => Nat.zero_le _,nofun,nofun⟩,?_,?_,nofun,
    fun _ => nofun⟩
  · simp [hp,ho]
  · simp [hp,hu]
  · intro s hs
    exact absurd (hruns ▸ hn (t,s) (hp ▸ hs)) ht₂
  · exact hb.past hp
  · intro hu'
    rw [hr hu',← hu'.untouched hb.running h₂]

theorem Tracks.idle_nil {past : History} {runs : List ℕ} (h : Tracks config past runs st)
    (hw : st.restoreWorkers = []) (hu : st.currentUnit = "") :
    past.owned = [] ∧ past.unsettled = [] := by
  constructor <;> refine List.eq_nil_iff_forall_not_mem.2 fun u hm => ?_
  · have := h.owned u hm
    rw [hw] at this
    cases this
  · have := (h.unsettled u hm).2
    simp [State.unsettled,hu] at this

theorem admission_held {requested : Option Identity}
    (hs : Sound config faults w.state w.past w.runs) (hb : Begun w)
    (hr : faults.Undisturbed → requested = w.request) (he : faults.Undisturbed → Owned w) :
    Does config faults (admission config requested w.state)
      (fun _ => Admitted config faults requested) (fun _ _ => True) st w := by
  cases hw : w.state with
  | none =>
    obtain ⟨ho,hu,_⟩ := hs.blank hw
    exact fresh_admitted ho hu hs.numbered hb hr
  | some d =>
    have hd := hs.tracked d hw
    rw [admission]
    by_cases hres : resumes d requested = true
    · rw [if_pos hres]
      have hasked : requested.isSome := by
        simp only [resumes,Bool.and_eq_true] at hres
        exact hres.1
      by_cases hc : d.config = some config
      · rw [if_pos hc]
        refine ⟨hd,hb,hr,fun _ => hasked,fun hu hro ht => ?_⟩
        obtain ⟨i,hi⟩ := Option.isSome_iff_exists.1 hasked
        obtain ⟨j,hj,hx⟩ := (hs.accounted hu d hw).owed hro ht
        refine ⟨j,?_,hx⟩
        cases hdr : d.restoring with
        | true => rw [hi,← hj,he hu d i hw hdr ((hr hu).symm.trans hi)]
        | false =>
          have hterm : d.state.terminal := by simpa [State.restoreOnly,hdr] using hro
          cases hds : d.state <;> simp_all [resumes,Phase.terminal]
      · rw [if_neg hc]
        exact trivial
    · rw [if_neg hres]
      by_cases hidle : d.restoreWorkers ≠ [] ∨ d.currentUnit ≠ ""
      · rw [if_pos hidle]
        exact trivial
      · rw [if_neg hidle]
        rw [not_or,not_not,not_not] at hidle
        obtain ⟨ho,hu⟩ := hd.idle_nil hidle.1 hidle.2
        exact fresh_admitted ho hu hs.numbered hb hr

/-- The memory a run begins with, bound to the present request and about to be saved. -/
structure Bound (config : OperatorConfig) (faults : Faults) (s : State) (w : Disk) : Prop where
  tracks : Tracks config w.past w.runs s
  begun : Begun w
  bound : faults.Undisturbed → w.request = s.requestIdentity ∧ s.requestIdentity.isSome
  owed : faults.Undisturbed → s.restoreOnly → s.result.terminal →
    ∃ i, s.requestIdentity = some i ∧ (i ∈ w.past.executed ∨ i ∈ w.past.retired)

theorem Bound.touched (h : Bound config faults s w) (ht : touched faults w w') :
    Bound config faults s w' := by
  obtain ⟨hp,_,_,hr⟩ := touched_past ht
  refine ⟨by rw [hp,hr]; exact h.tracks,h.begun.past hp,fun hu => ?_,fun hu => ?_⟩
  · rw [hu.untouched h.begun.running ht]; exact h.bound hu
  · rw [hu.untouched h.begun.running ht]; exact h.owed hu

theorem bindRequest_held {requested : Option Identity} (h : Admitted config faults requested s w) :
    Does config faults (bindRequest requested) (fun _ => Bound config faults)
      (fun _ _ => True) s w := by
  have hmark : Does config faults (onlyIf requested.isNone markRequest)
      (fun _ s' w' => s' = s ∧ Tracks config w'.past w'.runs s ∧ Begun w' ∧
        w'.past = w.past ∧ (faults.Undisturbed → w'.request.isSome ∧
          (s.restoreOnly → w'.request = requested)))
      (fun _ _ => True) s w := by
    cases hreq : requested with
    | some i =>
      refine ⟨rfl,h.tracks,h.begun,rfl,fun hu => ?_⟩
      rw [← h.own hu,hreq]
      exact ⟨rfl,fun _ => rfl⟩
    | none =>
      refine (Script.wp_ask Req.markRequest).2 fun w₁ ht => ⟨trivial,?_⟩
      rintro (_ | _) w₂ ⟨_,i,ha⟩
      · exact trivial
      · rcases ha with rfl | ⟨_,_,⟨⟩⟩
        obtain ⟨hp,_,_,hr⟩ := touched_past ht
        have hro : ¬ s.restoreOnly := fun hro => by
          have := h.asked hro
          rw [hreq] at this
          cases this
        exact ⟨rfl,by rw [hp,hr]; exact h.tracks,h.begun.past hp,hp,
          fun _ => ⟨rfl,fun h => absurd h hro⟩⟩
  refine Script.wp_then hmark ?_
  rintro _ s w₁ ⟨rfl,ht₁,hb₁,hp₁,hr₁⟩
  have hid : Does config faults requestIdentity
      (fun i s' w' => s' = s ∧ touched faults w₁ w' ∧ i = w'.request) (fun _ _ => True) s w₁ := by
    refine (Script.wp_ask Req.requestIdentity).2 fun w₂ ht => ⟨trivial,?_⟩
    rintro (_ | i) w₃ ⟨_,rfl,ha⟩
    · exact trivial
    · exact ⟨rfl,ht,ha i rfl⟩
  refine Script.wp_then hid ?_
  rintro _ s w₂ ⟨rfl,ht₂,rfl⟩
  obtain ⟨hp₂,_,_,hr₂⟩ := touched_past ht₂
  have ht : Tracks config w₂.past w₂.runs s := by rw [hp₂,hr₂]; exact ht₁
  refine ⟨⟨ht.contract,ht.known,ht.owned,ht.unsettled,ht.done,ht.budget,ht.ended,ht.decided⟩,
    hb₁.past hp₂,fun hu => ⟨rfl,?_⟩,fun hu hro hterm => ?_⟩
  · change w₂.request.isSome
    rw [hu.untouched hb₁.running ht₂]
    exact (hr₁ hu).1
  · change ∃ i, w₂.request = some i ∧ _
    rw [hu.untouched hb₁.running ht₂,(hr₁ hu).2 hro,hp₁]
    exact h.owed hu hro hterm

/-- The first save of a run: from here on its memory is held. -/
theorem Bound.save (h : Bound config faults s w) :
    Does config faults save
      (fun _ s' w' => Held config faults s' w' ∧ w'.state = some s' ∧ s'.flags = s.flags)
      (fun _ _ => True) s w := by
  have hstamp : ∀ t w₁, Operator.touched faults w w₁ → Bound config faults (s.stamp t) w₁ := fun t w₁ ht =>
    have h := h.touched ht
    ⟨h.tracks.stamp t,h.begun,h.bound,h.owed⟩
  refine Script.wp_ends (save_core fun t w₁ ht => ⟨(hstamp t w₁ ht).tracks,fun hu => ?_⟩) ?_ ?_
  · have h := hstamp t w₁ ht
    refine ⟨(h.bound hu).2,fun hr hterm => ?_⟩
    obtain ⟨i,hi,hx⟩ := h.owed hu hr hterm
    exact ⟨i,hi,hx.imp (write_executed i) (List.mem_append_right _)⟩
  · rintro _ _ _ ⟨t,w₁,ht,rfl,rfl⟩
    have h := hstamp t w₁ ht
    have hm := moves_write w₁ (s.stamp t)
    refine ⟨⟨h.tracks.moves (covers_write _) hm,h.begun.running,?_,fun hu => ?_⟩,rfl,rfl⟩
    · intro i hi
      rw [hm.retiredBefore,h.begun.retired] at hi
      exact hm.retired i hi
    · refine ⟨(h.bound hu).1,(h.bound hu).2,fun hs hr => ⟨_,rfl,hs,hr⟩,fun hr hterm => .inr ?_⟩
      obtain ⟨i,hi,hx⟩ := h.owed hu hr hterm
      rw [hm.retiredBefore,h.begun.retired]
      exact ⟨i,hi,hx.imp_left (write_executed i)⟩
  · exact fun _ _ _ _ => trivial

theorem Bound.run (h : Bound config faults s w) (hr : s.restoreOnly = false) :
    Bound config faults { s with state := .running, result := .running } w := by
  have hs : s.restoring = false := by
    rw [State.restoreOnly,Bool.or_eq_false_iff] at hr
    exact hr.1
  have ht := h.tracks
  refine ⟨⟨ht.contract,ht.known,ht.owned,ht.unsettled,ht.done,ht.budget,nofun,?_⟩,h.begun,h.bound,
    fun _ _ => nofun⟩
  simp [State.restoreOnly,Phase.terminal,hs]

theorem prepare_held (hb : Begun w) (he : faults.Undisturbed → Owned w) :
    Does config faults (prepare config)
      (fun b s w' => b = s.restoreOnly ∧ Held config faults s w' ∧ w'.state = some s ∧
        (s.restoreOnly = false → s.state = .running))
      (fun _ _ => True) st w := by
  have hq : ∀ w₁, touched faults w w₁ → Begun w₁ ∧ (faults.Undisturbed → Owned w₁) := by
    intro w₁ ht
    refine ⟨hb.past (touched_past ht).1,fun hu => ?_⟩
    rw [hu.untouched hb.running ht]
    exact he hu
  have hlock : Does config faults lock (fun _ _ w₁ => touched faults w w₁) (fun _ _ => True) st w := by
    refine (Script.wp_ask Req.lock).2 fun w₁ ht => ⟨trivial,?_⟩
    rintro (_ | _) w₂ ⟨_,ha⟩
    · exact trivial
    · rw [show w₂ = w₁ from ha]; exact ht
  refine Script.wp_then hlock ?_
  intro _ s₁ w₁ ht₁
  have hid : Does config faults requestIdentity
      (fun i _ w₂ => touched faults w w₂ ∧ i = w₂.request) (fun _ _ => True) s₁ w₁ := by
    refine (Script.wp_ask Req.requestIdentity).2 fun w₂ ht => ⟨trivial,?_⟩
    rintro (_ | i) w₃ ⟨_,rfl,ha⟩
    · exact trivial
    · exact ⟨(system config faults).rely_trans _ _ _ ht₁ ht,ha i rfl⟩
  refine Script.wp_then hid ?_
  rintro _ s₂ w₂ ⟨ht₂,rfl⟩
  have hread : Does config faults readState
      (fun d _ w₃ => touched faults w₂ w₃ ∧ d = w₃.state ∧
        Sound config faults w₃.state w₃.past w₃.runs) (fun _ _ => True) s₂ w₂ := by
    refine (Script.wp_ask Req.readState).2 fun w₃ ht => ⟨trivial,?_⟩
    rintro (_ | d) w₄ ⟨hs,rfl,ha⟩
    · exact trivial
    · exact ⟨ht,ha d rfl,hs⟩
  refine Script.wp_then hread ?_
  rintro _ s₃ w₃ ⟨ht₃,rfl,hs₃⟩
  obtain ⟨hb₃,he₃⟩ := hq w₃ ((system config faults).rely_trans _ _ _ ht₂ ht₃)
  have hown : faults.Undisturbed → w₂.request = w₃.request := fun hu => by
    rw [hu.untouched (hq w₂ ht₂).1.running ht₃]
  refine Script.wp_then (admission_held hs₃ hb₃ hown he₃) fun _ s₄ w₄ h₄ => ?_
  refine Script.wp_then (bindRequest_held h₄) fun _ s₅ w₅ h₅ => Script.wp_get_then.2 ?_
  cases hr : s₅.restoreOnly with
  | true =>
    simp only [Bool.not_true,onlyIf_false]
    refine Script.wp_pure_then.2 (Script.wp_then h₅.save ?_)
    rintro _ s₆ w₆ ⟨h₆,hw₆,hf₆⟩
    have hro := (restoreOnly_flags hf₆).trans hr
    exact ⟨hro.symm,h₆,hw₆,fun h => by rw [hro] at h; cases h⟩
  | false =>
    refine Script.wp_modify_then.2 (Script.wp_then (h₅.run hr).save ?_)
    rintro _ s₆ w₆ ⟨h₆,hw₆,hf₆⟩
    have hs₅ : s₅.restoring = false := by
      rw [State.restoreOnly,Bool.or_eq_false_iff] at hr
      exact hr.1
    have hro := restoreOnly_flags hf₆
    refine ⟨?_,h₆,hw₆,fun _ => (flags_eq hf₆).1⟩
    rw [hro]
    simp [State.restoreOnly,Phase.terminal,hs₅]

theorem runWithReady_held (hb : Begun w) (he : faults.Undisturbed → Owned w) :
    Does config faults (runWithReady config) (fun _ _ _ => True) (fun _ _ => True) st w := by
  rw [runWithReady]
  cases hv : validate config with
  | error e => exact trivial
  | ok delays =>
    refine Script.wp_pure_then.2 (Script.wp_then (prepare_held hb he) ?_)
    rintro _ s w₁ ⟨rfl,h₁,hw₁,hl₁⟩
    refine Script.wp_then (Script.wp_attempt_ends
      (execute_held (valid_of_validate hv) h₁ hw₁ hl₁)) ?_
    have hran : ∀ execution s₂ w₂, Executed config faults s s₂ w₂ → Ran s execution →
        Does config faults (finish execution) (fun _ _ _ => True) (fun _ _ => True) s₂ w₂ := by
      intro execution s₂ w₂ h₂ hr
      refine finish_held h₂.1 fun o ho => ?_
      rw [restoreOnly_flags h₂.2,(flags_eq h₂.2).1,(flags_eq h₂.2).2.2.1]
      exact hr o ho
    rintro (e | o) s₂ w₂ h₂
    · exact hran _ s₂ w₂ h₂ nofun
    · exact hran _ s₂ w₂ h₂.1 h₂.2

/-! ## Cancellation -/

theorem cancelState_held (hi : w.past.invocation = .cancel)
    (ht : Tracks config w.past w.runs st) (ha : faults.Undisturbed → Accounted w.past st) :
    Does config faults (cancelState st) (fun _ _ w' => w'.past.invocation = .cancel)
      (fun _ _ => True) s w := by
  rw [cancelState]
  by_cases hidle : st.restoreWorkers ≠ [] ∨ st.currentUnit ≠ ""
  · rw [if_pos hidle]
    exact trivial
  rw [if_neg hidle]
  rw [not_or,not_not,not_not] at hidle
  have hask : Does config faults sentinelExists
      (fun _ _ w' => touched faults w w') (fun _ _ => True) s w := by
    refine (Script.wp_ask Req.sentinelExists).2 fun w₁ ht => ⟨trivial,?_⟩
    rintro (_ | _) w₂ ⟨_,rfl,_⟩
    · exact trivial
    · exact ht
  refine Script.wp_then hask ?_
  rintro (_ | _) s₁ w₁ h₁
  · refine Script.wp_modify_then.2 (Script.wp_ends (save_core fun t w₂ h₂ => ?_) ?_
      fun _ _ _ _ => trivial)
    · obtain ⟨hp,_,_,hr⟩ := touched_past ((system config faults).rely_trans _ _ _ h₁ h₂)
      rw [Allowed,hp,hr]
      refine ⟨⟨ht.contract,ht.known,ht.owned,ht.unsettled,ht.done,ht.budget,fun _ => hidle,
        fun _ => nofun⟩,fun hu => ⟨(ha hu).named,fun _ _ => ?_⟩⟩
      obtain ⟨i,hi⟩ := Option.isSome_iff_exists.1 (ha hu).named
      exact ⟨i,hi,.inr (by simp [Disk.write,State.stamp,Phase.terminal,hi])⟩
    · rintro _ _ _ ⟨t,w₂,h₂,rfl,rfl⟩
      obtain ⟨hp,_⟩ := touched_past ((system config faults).rely_trans _ _ _ h₁ h₂)
      change w₂.past.invocation = .cancel
      rw [hp,hi]
  · exact trivial

theorem cancel_held (hi : w.past.invocation = .cancel) :
    Does config faults (cancel config) (fun _ _ _ => True) (fun _ _ => True) st w := by
  rw [cancel]
  cases validate config with
  | error e => exact trivial
  | ok delays =>
    have hlock : Does config faults lock (fun _ _ w₁ => w₁.past.invocation = .cancel)
        (fun _ _ => True) st w := by
      refine (Script.wp_ask Req.lock).2 fun w₁ ht => ⟨trivial,?_⟩
      rintro (_ | _) w₂ ⟨_,ha⟩
      · exact trivial
      · rw [show w₂ = w₁ from ha]
        change w₁.past.invocation = .cancel
        rw [(touched_past ht).1,hi]
    refine Script.wp_pure_then.2 (Script.wp_then hlock fun _ s₁ w₁ hi₁ => ?_)
    have hread : Does config faults readState
        (fun d _ w₂ => w₂.past.invocation = .cancel ∧ d = w₂.state ∧
          Sound config faults w₂.state w₂.past w₂.runs) (fun _ _ => True) s₁ w₁ := by
      refine (Script.wp_ask Req.readState).2 fun w₂ ht => ⟨trivial,?_⟩
      rintro (_ | d) w₃ ⟨hs,rfl,ha⟩
      · exact trivial
      · refine ⟨?_,ha d rfl,hs⟩
        rw [(touched_past ht).1,hi₁]
    refine Script.wp_then hread ?_
    rintro _ s₂ w₂ ⟨hi₂,rfl,hs₂⟩
    have hprev : Does config faults (cancelPrevious w₂.state)
        (fun _ _ w' => w'.past.invocation = .cancel) (fun _ _ => True) s₂ w₂ := by
      cases hw : w₂.state with
      | none => exact hi₂
      | some d =>
        exact cancelState_held hi₂ (hs₂.tracked d hw) fun hu => hs₂.accounted hu d hw
    refine Script.wp_then hprev fun _ s₃ w₃ hi₃ => ?_
    refine (Script.wp_ask Req.removeRequest).2 fun w₄ ht => ⟨fun hrun => ?_,?_⟩
    · rw [(touched_past ht).1,hi₃] at hrun
      cases hrun
    · rintro (_ | _) _ _ <;> exact trivial

/-! ## Every run -/

/-- What holds of the world, and of every request at the moment it is issued. -/
def Guard (config : OperatorConfig) (faults : Faults) (w : Disk) (q : Req) : Prop :=
  Sound config faults w.state w.past w.runs ∧ Allowed config faults w q

theorem invariant (config : OperatorConfig) (faults : Faults) :
    (system config faults).Invariant (Guard config faults)
      (fun w => Sound config faults w.state w.past w.runs) where
  start := by
    rintro w w' p hs ⟨i,hi,rfl,rfl⟩
    have hd : Does config faults (i.script config) (fun _ _ _ => True) (fun _ _ => True)
        .unloaded (w.begin i) := by
      cases i with
      | run =>
        refine Script.wp_then (runWithReady_held ⟨rfl,rfl⟩ fun hu => hu.begin w (hi rfl)) ?_
        exact fun _ _ _ _ => trivial
      | cancel => exact cancel_held rfl
    refine wp_mono (wp_assume (M := (system config faults).toWorld) ?_ ?_ (hs.begin i) hd) ?_
    · exact fun w w' hs ht => hs.touched ht
    · exact fun w q r w' hs ha har => hs.answer ha har
    · exact fun _ _ h => h.1
  idle := fun w w' hs ht => hs.touched ht
  rely := fun w w' hs ht => hs.touched ht
  guard := fun w q h => h.1
  torn := fun w q w' h ⟨r,ha⟩ => h.1.answer h.2 ha

theorem sound_empty (config : OperatorConfig) (faults : Faults) :
    Sound config faults Disk.empty.state Disk.empty.past Disk.empty.runs := by
  refine ⟨?_,fun _ => ⟨rfl,rfl,rfl⟩,?_,fun _ => ?_⟩
  · rintro d ⟨⟩
  · rintro p ⟨⟩
  · rintro d ⟨⟩

/-- The operator forgets no worker, overlaps no stage units, repeats no completed stage
and stays within its budgets. -/
structure Safe (config : OperatorConfig) (faults : Faults) (c : (system config faults).Conf) :
    Prop where
  recorded : ∀ u ∈ c.1.past.owned, ∃ d, c.1.state = some d ∧ u ∈ d.restoreWorkers
  claimed : ∀ p u, c.2 = some p → p.pending = some (.stop .worker u) →
    ∃ d, c.1.state = some d ∧ u ∈ d.restoreWorkers
  startable : ∀ p u, c.2 = some p → p.pending = some (.start u) → Startable config c.1 u
  once : ∀ p u d, c.2 = some p → p.pending = some (.start u) → c.1.state = some d →
    (d.runId,d.currentStage) ∉ c.1.past.done
  alone : ∀ u ∈ c.1.past.unsettled, ∀ v ∈ c.1.past.unsettled, u = v
  budget : ∀ d, c.1.state = some d → ∀ s, d.failures s ≤ config.maxAttempts.toNat
  inRange : ∀ p, c.2 = some p → p.pending ≠ some .panic

theorem Sound.recorded (h : Sound config faults w.state w.past w.runs) {u : String}
    (hu : u ∈ w.past.owned) : ∃ d, w.state = some d ∧ u ∈ d.restoreWorkers := by
  cases hd : w.state with
  | none =>
    rw [(h.blank hd).1] at hu
    cases hu
  | some d => exact ⟨d,rfl,(h.tracked d hd).owned u hu⟩

theorem Sound.alone (h : Sound config faults w.state w.past w.runs) {u v : String}
    (hu : u ∈ w.past.unsettled) (hv : v ∈ w.past.unsettled) : u = v := by
  cases hd : w.state with
  | none =>
    rw [(h.blank hd).2.1] at hu
    cases hu
  | some d =>
    have ht := h.tracked d hd
    exact (ht.unsettled u hu).1.trans (ht.unsettled v hv).1.symm

/-- Answers without any failure: workers are found inactive and stages succeed. -/
def smooth : (q : Req) → Disk → Except Error (Rep q) × Disk
  | .now, w => (.ok (w.runs.foldr max 0 + 1),w)
  | .requestIdentity, w => (.ok w.request,w)
  | .markRequest, w => (.ok (),{ w with request := some "marked" })
  | .removeRequest, w => (.ok (),{ w with request := none })
  | .readState, w => (.ok w.state,w)
  | .makeRunDir n, w => (.ok (),{ w with runs := n :: w.runs })
  | .writeState st, w => (.ok (),w.write st)
  | .stop role unit, w => (.ok (),(w.stopping role unit).stopOk unit)
  | .active unit, w => (.ok false,w.inactive unit)
  | .restore unit, w => (.ok (),w.restored unit)
  | .start _, w => (.ok ⟨true,"success",0⟩,w.startOk)
  | .markSentinel, w => (.ok (),{ w with sentinel := true })
  | .removeSentinel, w => (.ok (),{ w with sentinel := false })
  | .sentinelExists, w => (.ok w.sentinel,w)
  | .appendEvent n e, w => (.ok (),w.append n e.bytes)
  | .readEvents n, w => (.ok (w.events n),w)
  | .writeReport path r, w => (.ok (),{ w with report := Function.update w.report path (some r) })
  | .cancelled, w => (.ok false,w)
  | .lock, w | .ready, w | .panic, w | .wait _, w => (.ok (),w)

theorem lt_foldr_max {n : ℕ} {ns : List ℕ} (h : n ∈ ns) : n < ns.foldr max 0 + 1 := by
  induction ns with
  | nil => cases h
  | cons m ns ih =>
    rcases List.mem_cons.1 h with rfl | h
    · simp only [List.foldr_cons]; omega
    · have := ih h
      simp only [List.foldr_cons]; omega

theorem smooth_answers (faults : Faults) (q : Req) (w : Disk) :
    answers faults q w (smooth q w).1 (smooth q w).2 := by
  cases q with
  | now =>
    refine ⟨rfl,?_⟩
    rintro t ⟨⟩ hm
    exact absurd (lt_foldr_max hm) (lt_irrefl _)
  | requestIdentity | readState | sentinelExists | readEvents =>
    exact ⟨rfl,by rintro _ ⟨⟩; rfl⟩
  | markRequest => exact ⟨_,.inl rfl⟩
  | removeRequest | makeRunDir | writeState | restore | markSentinel | removeSentinel
  | writeReport => exact .inl rfl
  | _ => rfl

/-- A run of one stage that keeps one worker quiet. -/
def sample : OperatorConfig :=
  ⟨"sample","contract","/state","/request","/sentinel",[⟨"build","build.service"⟩],1,[],
    ["web.service"]⟩

/-- The first `n` requests of a first run of the sample. -/
def sampleRun (n : ℕ) := advance smooth n ((Invocation.run.script sample).start .unloaded)
  (Disk.empty.begin .run)

theorem sampleRun_reachable (faults : Faults) (h : faults.begin Disk.empty) (n : ℕ) :
    (system sample faults).Reachable Disk.empty ((sampleRun n).2,some (sampleRun n).1) := by
  have hstart : (system sample faults).Reachable Disk.empty (Disk.empty.begin .run,_) :=
    .tail .refl (.start ⟨.run,fun _ => h,rfl,rfl⟩)
  exact hstart.reach (reach_advance (smooth_answers faults) n _ _)

def Req.unit : Req → Option String
  | .start unit => some unit
  | _ => none

/-- The request is left alone while a run is under way, and no run begins with the
restoration of a checkpoint recorded for another request. -/
def Faults.careful : Faults := ⟨fun w => w.past.invocation = .cancel,Owned,fun _ _ => True⟩

theorem careful_undisturbed : Faults.careful.Undisturbed := ⟨fun _ => id,fun _ => id⟩

/-- Who removes which request, and the request it bound. -/
def removal : Prog Req (fun q => Except Error (Rep q)) (Except Error Unit × State) × Disk →
    Option (Invocation × Option Identity × Option Identity)
  | (.call .removeRequest _,w) => some (w.past.invocation,w.request,w.past.bound)
  | _ => none

theorem removal_eq {c : Prog Req (fun q => Except Error (Rep q)) (Except Error Unit × State) × Disk}
    {i : Invocation} {r b : Option Identity} (h : removal c = some (i,r,b)) :
    c.1.pending = some .removeRequest ∧ c.2.past.invocation = i ∧ c.2.request = r ∧
      c.2.past.bound = b := by
  obtain ⟨_ | ⟨q,k⟩,w⟩ := c
  · cases h
  · cases q <;> cases h
    exact ⟨rfl,rfl,rfl,rfl⟩

/-- The sample, its request replaced while its stage was being started. -/
def replacedRun (n : ℕ) := advance smooth n (sampleRun 18).1
  { (sampleRun 18).2 with request := some "replaced" }

theorem replaced_reachable {config : OperatorConfig} {w w₀ : Disk}
    {p : Prog Req (fun q => Except Error (Rep q)) (Except Error Unit × State)}
    (h : (system config .all).Reachable w₀ (w,some p)) (i : Identity) (n : ℕ) :
    (system config .all).Reachable w₀ ((advance smooth n p { w with request := some i }).2,
      some (advance smooth n p { w with request := some i }).1) := by
  have ht : (system config .all).Reachable w₀ ({ w with request := some i },some p) :=
    h.tail (.rely (.inr ⟨trivial,i,rfl⟩))
  exact ht.reach (reach_advance (smooth_answers .all) n p _)

theorem replacedRun_reachable (n : ℕ) :
    (system sample .all).Reachable Disk.empty ((replacedRun n).2,some (replacedRun n).1) :=
  replaced_reachable (sampleRun_reachable .all trivial 18) "replaced" n

end Operator
end CanixToolbelt
