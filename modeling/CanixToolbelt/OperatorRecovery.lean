import CanixToolbelt.OperatorSafety

/-! Recovery: as long as an interrupted append leaves whole lines only, two undisturbed
runs bring every present request to its end. -/
namespace CanixToolbelt
namespace Operator
open Effect

variable {config : OperatorConfig} {w w' : Disk} {st s : State}

/-! ## The event log -/

/-- An interrupted append leaves its line or nothing. -/
def Faults.whole : Faults := ⟨fun _ => True,fun _ => True,fun bytes n => n = 0 ∨ n = bytes.size⟩

/-- A log of whole lines. -/
def Whole (log : ByteArray) : Prop := ∃ es : List Event, (∀ e ∈ es, e.attempt < 2^64) ∧
  log = (es.flatMap Event.text).utf8Encode

theorem event_plain {e : Event} (h : e.attempt < 2^64) : Json.Plain 127 e.json := by
  refine .obj ?_ ?_
  · have hk : ["at","attempt","event","exit_status","result","stage","unit"].Pairwise (· < ·) := by
      decide
    exact List.pairwise_map.1 hk
  · have ht : (asSecs e.at_ : ℤ) < 2^64 := by
      exact_mod_cast Nat.mod_lt _ (by decide)
    have ha : (e.attempt : ℤ) < 2^64 := by exact_mod_cast h
    have hl := Int32.le_toInt e.exitStatus
    have hu := Int32.toInt_lt e.exitStatus
    intro f hf
    simp only [List.mem_cons,List.not_mem_nil,or_false] at hf
    rcases hf with rfl | rfl | rfl | rfl | rfl | rfl | rfl
    · exact .int (by omega) ht
    · exact .int (by omega) ha
    · exact .str _
    · exact .int (by omega) (by omega)
    · exact .str _
    · exact .str _
    · exact .str _

theorem Whole.append {log : ByteArray} (h : Whole log) {e : Event} (he : e.attempt < 2^64) :
    Whole (log ++ e.bytes) := by
  obtain ⟨es,hes,rfl⟩ := h
  refine ⟨es ++ [e],?_,?_⟩
  · intro x hx
    rcases List.mem_append.1 hx with hx | hx
    · exact hes x hx
    · rw [List.mem_singleton.1 hx]; exact he
  · rw [List.flatMap_append,List.utf8Encode_append,Event.bytes,String.toByteArray_ofList,
      List.flatMap_singleton]

theorem lines_printable {cs : List Char} (h : Json.Printable cs) (rest : List Char) :
    lines (cs ++ '\n' :: rest) = cs :: lines rest := by
  induction cs with
  | nil =>
    rw [List.nil_append,lines,if_pos rfl]
    exact fun _ h _ => absurd h (by decide)
  | cons c cs ih =>
    have hc := h c List.mem_cons_self
    have hr : c ≠ '\r' := by rintro rfl; revert hc; decide
    have hn : c ≠ '\n' := by rintro rfl; revert hc; decide
    rw [List.cons_append,lines,if_neg hn,ih fun x hx => h x (List.mem_cons_of_mem _ hx)]
    exact fun _ hc _ => hr hc

theorem parse_lines {es : List Event} (h : ∀ e ∈ es, e.attempt < 2^64) :
    (lines (es.flatMap Event.text)).mapM Json.parse = some (es.map Event.json) := by
  induction es with
  | nil => rfl
  | cons e es ih =>
    have hp := event_plain (h e List.mem_cons_self)
    rw [List.flatMap_cons,Event.text,List.append_assoc,List.singleton_append,
      lines_printable (Json.render_printable hp),List.mapM_cons,Json.parse_render hp,
      ih fun x hx => h x (List.mem_cons_of_mem _ hx)]
    rfl

theorem Whole.parses {log : ByteArray} (h : Whole log) : ∃ events, parseEvents log = some events := by
  obtain ⟨es,hes,rfl⟩ := h
  refine ⟨es.map Event.json,?_⟩
  rw [parseEvents,List.utf8Decode?_utf8Encode,Option.bind_some,List.toList_toArray]
  exact parse_lines hes

/-- Every event log has whole lines. -/
def Legible (w : Disk) : Prop := ∀ n, Whole (w.events n)

theorem Legible.append (h : Legible w) {n : ℕ} {e : Event} (he : e.attempt < 2^64) :
    Legible (w.append n e.bytes) := by
  intro m
  by_cases hm : m = n
  · have he' : (w.append n e.bytes).events m = w.events n ++ e.bytes := by simp [Disk.append,hm]
    rw [he']
    exact (h n).append he
  · have he' : (w.append n e.bytes).events m = w.events m := by simp [Disk.append,hm]
    rw [he']
    exact h m

theorem Legible.answer {q : Req} {r : Except Error (Rep q)} (h : Legible w)
    (hg : Guard config .whole w q) (ha : answers .whole q w r w') : Legible w' := by
  by_cases hq : ∃ n e, q = .appendEvent n e
  · obtain ⟨n,e,rfl⟩ := hq
    have he : e.attempt < 2^64 := lt_of_le_of_lt hg.2 (UInt64.toNat_lt _)
    rcases r with x | _
    · obtain ⟨k,rfl | rfl,rfl⟩ := ha
      · have hw : w.append n (e.bytes.extract 0 0) = w := by simp [Disk.append]
        rw [hw]
        exact h
      · rw [ByteArray.extract_zero_size]
        exact h.append he
    · rw [show w' = _ from ha]
      exact h.append he
  · rw [Legible,(answers_moves ha).events.resolve_right hq]
    exact h

theorem Legible.touched {faults : Faults} (h : Legible w) (ht : touched faults w w') :
    Legible w' := by
  rcases ht with rfl | ⟨_,_,rfl⟩ <;> exact h

/-- Every world of a run whose appends leave whole lines. -/
theorem reachable_legible {c : (system config .whole).Conf}
    (hc : (system config .whole).Reachable Disk.empty c) : Legible c.1 := by
  refine (invariant config .whole).carries (sound_empty config .whole) ?_ ?_ ?_ ?_ ?_ ?_ hc
  · exact fun n => ⟨[],nofun,by simp [Disk.empty]⟩
  · rintro w w' p h ⟨i,_,rfl,_⟩
    exact h
  · exact fun w w' h ht => Legible.touched h ht
  · exact fun w w' h ht => Legible.touched h ht
  · exact fun w q r w' hg h ha => h.answer hg ha
  · rintro w q w' hg h ⟨r,ha⟩
    exact h.answer hg ha

/-! ## Undisturbed runs -/

/-- No call fails, every stopped unit is reported inactive, no cancellation arrives. -/
def clean : (q : Req) → Disk → Except Error (Rep q) → Prop
  | .cancelled, _, r => r = .ok false
  | .active unit, w, r => ∃ b, r = .ok b ∧ (w.past.stopped = some unit → b = false)
  | _, _, r => ∃ a, r = .ok a

/-- The world of an undisturbed run; only the request may still be touched. -/
def calm : World Req (fun q => Except Error (Rep q)) Disk where
  step := fun q w r w' => answers .whole q w r w' ∧ clean q w r
  rely := touched .whole
  rely_refl := fun _ => .inl rfl
  rely_trans := (system sample .whole).rely_trans

/-- What is known of every world of a run. -/
def Known (config : OperatorConfig) (w : Disk) : Prop :=
  Sound config .whole w.state w.past w.runs ∧ Legible w

/-- `m` cannot fail in an undisturbed run, and ends in `post`. -/
abbrev Cleanly (config : OperatorConfig) {α : Type} (m : Op α) (post : α → State → Disk → Prop)
    (st : State) (w : Disk) : Prop :=
  Script.wp (calm.assume (Known config)) (fun _ _ => True) m
    (Script.Ends post fun _ _ _ => False) st w

theorem clean_ok {q : Req} {r : Except Error (Rep q)} (h : clean q w r) : ∃ a, r = .ok a := by
  cases q with
  | cancelled => exact ⟨_,h⟩
  | active => obtain ⟨b,h,_⟩ := h; exact ⟨b,h⟩
  | _ => exact h

theorem calm_ask {q : Req} {post : Rep q → State → Disk → Prop}
    (h : ∀ a w₁ w₂, touched .whole w w₁ → Known config w₁ → answers .whole q w₁ (.ok a) w₂ →
      clean q w₁ (.ok a) → post a st w₂) : Cleanly config (Script.ask q) post st w := by
  refine (Script.wp_ask q).2 fun w₁ ht => ⟨trivial,?_⟩
  rintro r w₂ ⟨hk,ha,hc⟩
  obtain ⟨a,rfl⟩ := clean_ok hc
  exact h a w₁ w₂ ht hk ha hc

/-- What a step of an undisturbed run leaves alone: the request and the flags. -/
structure Going (st s : State) (w : Disk) : Prop where
  flags : s.flags = st.flags
  request : w.request.isSome

theorem touched_request {faults : Faults} (h : w.request.isSome) (ht : touched faults w w') :
    w'.request.isSome := by
  rcases ht with rfl | ⟨_,_,rfl⟩
  · exact h
  · rfl

/-- Requests that do not remove the request. -/
def Req.keeping : Req → Prop
  | .removeRequest => False
  | _ => True

theorem keeping_request {faults : Faults} {q : Req} {r : Except Error (Rep q)} (hq : q.keeping)
    (h : w.request.isSome) (ha : answers faults q w r w') : w'.request.isSome := by
  by_cases hm : q = .markRequest
  · subst hm
    obtain ⟨i,hi⟩ := ha
    rcases hi.cases with rfl | rfl
    · rfl
    · exact h
  · have hr : q ≠ .removeRequest := by rintro rfl; exact hq
    rw [(answers_moves ha).request.resolve_right (by simp [hm,hr])]
    exact h

theorem keeping_ask {q : Req} (hq : q.keeping) (h : Going st s w) :
    Cleanly config (Script.ask q) (fun _ s' w' => s' = s ∧ Going st s w') s w := by
  refine calm_ask fun a w₁ w₂ ht _ ha _ => ⟨rfl,h.flags,?_⟩
  exact keeping_request hq (touched_request h.request ht) ha

theorem cancelled_calm (h : Going st s w) :
    Cleanly config cancelled (fun b s' w' => s' = s ∧ b = false ∧ Going st s w') s w := by
  refine calm_ask fun a w₁ w₂ ht _ ha hc => ⟨rfl,?_,h.flags,?_⟩
  · cases a
    · rfl
    · cases hc
  · exact keeping_request (q := .cancelled) trivial (touched_request h.request ht) ha

theorem save_calm (h : Going st s w) :
    Cleanly config save
      (fun _ s' w' => ∃ t, s' = s.stamp t ∧ w'.state = some s' ∧ Going st s' w') s w := by
  refine Script.wp_then (keeping_ask (q := .now) trivial h) ?_
  rintro t s w₁ ⟨rfl,h₁⟩
  refine Script.wp_modify_then.2 (Script.wp_get_then.2 (calm_ask fun _ w₂ w₃ ht _ ha _ => ?_))
  have hr := keeping_request (q := .writeState _) trivial (touched_request h₁.request ht) ha
  rcases ha with rfl | ⟨_,_,⟨⟩⟩
  exact ⟨_,rfl,rfl,h₁.flags,hr⟩

theorem event_calm {name result : String} {attempt : ℕ} {status : Int32} (h : Going st s w) :
    Cleanly config (event name attempt result status)
      (fun _ s' w' => s' = s ∧ Going st s w') s w := by
  refine Script.wp_get_then.2 (Script.wp_then (keeping_ask (q := .now) trivial h) ?_)
  rintro t s w₁ ⟨rfl,h₁⟩
  exact keeping_ask trivial h₁

theorem stopConfirmed_calm (role : Role) (unit : String) (h : Going st s w) :
    Cleanly config (stopConfirmed role unit) (fun _ s' w' => s' = s ∧ Going st s w') s w := by
  have hs : Cleanly config (stop role unit)
      (fun _ s' w' => s' = s ∧ Going st s w' ∧ w'.past.stopped = some unit) s w := by
    refine calm_ask fun a w₁ w₂ ht _ ha _ => ⟨rfl,⟨h.flags,?_⟩,?_⟩
    · exact keeping_request (q := .stop role unit) trivial (touched_request h.request ht) ha
    · rw [show w₂ = _ from ha]; rfl
  refine Script.wp_then hs ?_
  rintro _ s w₁ ⟨rfl,h₁,hs₁⟩
  have hi : Cleanly config (active unit) (fun b s' w' => s' = s ∧ b = false ∧ Going st s w') s w₁ := by
    refine calm_ask fun b w₂ w₃ ht _ ha hc => ⟨rfl,?_,h₁.flags,?_⟩
    · obtain ⟨b,⟨⟩,hb⟩ := hc
      refine hb ?_
      rw [(touched_past ht).1]
      exact hs₁
    · exact keeping_request (q := .active unit) trivial (touched_request h₁.request ht) ha
  refine Script.wp_then hi ?_
  rintro _ s w₂ ⟨rfl,rfl,h₂⟩
  exact ⟨rfl,h₂⟩

theorem Going.update {s' : State} (h : Going st s w) (hf : s'.flags = s.flags) : Going st s' w :=
  ⟨hf.trans h.flags,h.request⟩

theorem onlyIf_calm {c : Bool} {m : Op Unit} (h : Going st s w)
    (hm : Cleanly config m (fun _ => Going st) s w) :
    Cleanly config (onlyIf c m) (fun _ => Going st) s w := by
  cases c
  · exact h
  · exact hm

theorem save_going (h : Going st s w) : Cleanly config save (fun _ => Going st) s w := by
  refine Script.wp_ends (save_calm h) ?_ fun _ _ _ hx => hx
  rintro _ s w₁ ⟨t,rfl,_,h₁⟩
  exact h₁

theorem stop_going (role : Role) (unit : String) (h : Going st s w) :
    Cleanly config (stopConfirmed role unit) (fun _ => Going st) s w := by
  refine Script.wp_ends (stopConfirmed_calm role unit h) ?_ fun _ _ _ hx => hx
  rintro _ s w₁ ⟨rfl,h₁⟩
  exact h₁

theorem event_going {name result : String} {attempt : ℕ} {status : Int32} (h : Going st s w) :
    Cleanly config (event name attempt result status) (fun _ => Going st) s w := by
  refine Script.wp_ends (event_calm h) ?_ fun _ _ _ hx => hx
  rintro _ s w₁ ⟨rfl,h₁⟩
  exact h₁

theorem ask_going {q : Req} (hq : q.keeping) (h : Going st s w) :
    Cleanly config (Script.ask q) (fun _ => Going st) s w := by
  refine Script.wp_ends (keeping_ask hq h) ?_ fun _ _ _ hx => hx
  rintro _ s w₁ ⟨rfl,h₁⟩
  exact h₁

theorem settle_calm (h : Going st s w) : Cleanly config settle (fun _ => Going st) s w := by
  refine Script.wp_get_then.2 (onlyIf_calm h ?_)
  refine Script.wp_then (stop_going .stage s.currentUnit h) fun _ s₁ w₁ h₁ => ?_
  exact Script.wp_modify_then.2 (save_going (h₁.update rfl))

theorem claimWorker_calm (unit : String) (h : Going st s w) :
    Cleanly config (claimWorker unit) (fun _ => Going st) s w := by
  refine Script.wp_then (ask_going (q := .active unit) trivial h) fun _ s₁ w₁ h₁ => ?_
  exact onlyIf_calm h₁ (Script.wp_modify_then.2 (save_going (h₁.update rfl)))

theorem quiesce_calm (units : List String) (h : Going st s w) :
    Cleanly config (quiesce units) (fun _ => Going st) s w := by
  induction units generalizing s w with
  | nil => exact h
  | cons unit units ih =>
    have hu : Cleanly config (quiesceWorker unit) (fun _ => Going st) s w := by
      refine Script.wp_get_then.2 (Script.wp_then (onlyIf_calm h (claimWorker_calm unit h)) ?_)
      exact fun _ s₁ w₁ h₁ => Script.wp_get_then.2 (onlyIf_calm h₁ (stop_going .worker unit h₁))
    exact Script.wp_then hu fun _ s₁ w₁ h₁ => ih h₁

theorem startStage_calm (unit : String) (h : Going st s w) :
    Cleanly config (startStage unit) (fun _ => Going st) s w := by
  refine Script.wp_then (Script.wp_attempt_ends (ask_going (q := .start unit) trivial h)) ?_
  rintro (e | r) s₁ w₁ h₁
  · exact h₁.elim
  · exact h₁

theorem attemptFailed_calm {delays : List ℕ} {stage : Stage} {failures : ℕ} {result : StageResult}
    (h : Going st s w) :
    Cleanly config (attemptFailed config delays stage failures result) (fun _ => Going st) s w := by
  refine Script.wp_modify_then.2 (Script.wp_then (save_going (h.update rfl)) fun _ s₁ w₁ h₁ => ?_)
  refine Script.wp_then (event_going h₁) fun _ s₂ w₂ h₂ => ?_
  refine Script.wp_then (stop_going .stage stage.unit h₂) fun _ s₃ w₃ h₃ => onlyIf_calm h₃ ?_
  cases delays[failures]? with
  | none => exact ask_going (q := .panic) trivial h₃
  | some d => exact ask_going (q := .wait d) trivial h₃

theorem attempts_calm {delays : List ℕ} {stage : Stage} (n failures : ℕ) (h : Going st s w) :
    Cleanly config (attempts config delays stage n failures)
      (fun r s' w' => r ≠ none ∧ Going st s' w') s w := by
  induction n generalizing failures s w with
  | zero => exact ⟨nofun,h⟩
  | succ n ih =>
    refine Script.wp_then (cancelled_calm h) ?_
    rintro _ s w₁ ⟨rfl,rfl,h₁⟩
    refine Script.wp_modify_then.2 (Script.wp_then (save_going (h₁.update rfl)) ?_)
    intro _ s₂ w₂ h₂
    refine Script.wp_then (startStage_calm stage.unit h₂) fun result s₃ w₃ h₃ => ?_
    refine Script.wp_then (cancelled_calm h₃) ?_
    rintro _ s w₄ ⟨rfl,rfl,h₄⟩
    cases hr : result.success with
    | true =>
      have hc : Cleanly config (complete stage failures result) (fun _ => Going st) s w₄ := by
        refine Script.wp_modify_then.2 (Script.wp_then (save_going (h₄.update rfl)) ?_)
        exact fun _ s₅ w₅ h₅ => event_going h₅
      simp only [Bool.false_eq_true,if_false,if_true]
      exact Script.wp_then hc fun _ s₅ w₅ h₅ => ⟨nofun,h₅⟩
    | false =>
      simp only [Bool.false_eq_true,if_false]
      exact Script.wp_then (attemptFailed_calm h₄) fun _ s₅ w₅ h₅ => ih (failures+1) h₅

theorem runStages_calm {delays : List ℕ} (stages : List Stage) (index : ℕ) (failed : Bool)
    (h : Going st s w) :
    Cleanly config (runStages config delays index stages failed)
      (fun o s' w' => o ≠ .interrupted ∧ Going st s' w') s w := by
  induction stages generalizing index failed s w with
  | nil => cases failed <;> exact ⟨nofun,h⟩
  | cons stage stages ih =>
    refine Script.wp_then (cancelled_calm h) ?_
    rintro _ s w₁ ⟨rfl,rfl,h₁⟩
    refine Script.wp_modify_then.2 (Script.wp_get_then.2 ?_)
    by_cases hd : stage.name ∈ s.completed
    · simp only [hd,if_true]
      exact Script.wp_then (event_going (h₁.update rfl)) fun _ s₂ w₂ h₂ => ih _ _ h₂
    · simp only [hd,if_false]
      refine Script.wp_then (save_going (h₁.update rfl)) fun _ s₂ w₂ h₂ => ?_
      refine Script.wp_then (attempts_calm _ _ h₂) ?_
      rintro (_ | k) s₃ w₃ ⟨hn,h₃⟩
      · exact absurd rfl hn
      · refine Script.wp_get_then.2 ?_
        by_cases hd₃ : stage.name ∈ s₃.completed
        · simp only [hd₃,if_true]
          exact ih _ _ h₃
        · simp only [hd₃,if_false]
          exact Script.wp_then (event_going h₃) fun _ s₄ w₄ h₄ => ih _ _ h₄

/-- An undisturbed execution runs its stages to a result, or repeats the recorded one. -/
theorem execute_calm {delays : List ℕ} (h : w.request.isSome)
    (hd : st.restoreOnly → st.result ≠ .running) :
    Cleanly config (execute config delays st.restoreOnly)
      (fun o s' w' => (if st.restoreOnly then o.phase = st.result else o ≠ .interrupted) ∧
        Going st s' w') st w := by
  refine Script.wp_then (settle_calm ⟨rfl,h⟩) fun _ s₁ w₁ h₁ => ?_
  refine Script.wp_then (onlyIf_calm h₁ (quiesce_calm _ h₁)) fun _ s₂ w₂ h₂ => ?_
  refine Script.wp_then (ask_going (q := .markSentinel) trivial h₂) fun _ s₃ w₃ h₃ => ?_
  refine Script.wp_then (ask_going (q := .ready) trivial h₃) fun _ s₄ w₄ h₄ => ?_
  cases hr : st.restoreOnly with
  | true =>
    have hres := (flags_eq h₄.flags).2.2.1
    have hne := hd hr
    rw [← hres] at hne
    refine Script.wp_get_then.2 ?_
    cases hp : s₄.result with
    | running => exact absurd hp hne
    | succeeded | failed | interrupted | cancelled => exact ⟨by rw [← hres,hp]; rfl,h₄⟩
  | false =>
    refine Script.wp_ends (runStages_calm config.stages 0 false h₄) ?_ fun _ _ _ hx => hx
    exact fun o s₅ w₅ h₅ => h₅

theorem confirmStage_calm (h : w.request.isSome) :
    Cleanly config confirmStage (fun _ s w' => s = st ∧ w'.request.isSome) st w := by
  refine Script.wp_get_then.2 ?_
  cases st.unsettled with
  | false => exact ⟨rfl,h⟩
  | true =>
    have hg : Going st st w := ⟨rfl,h⟩
    refine Script.wp_then (Script.wp_attempt_ends
      (stopConfirmed_calm .stage st.currentUnit hg)) ?_
    rintro (e | _) s₁ w₁ h₁
    · exact h₁.elim
    · exact ⟨h₁.1,h₁.2.request⟩

theorem restoreAll_calm (units : List String) (h : Going st s w) :
    Cleanly config (restoreAll units none)
      (fun r s' w' => r = none ∧ Going st s' w' ∧
        ∀ u ∈ s'.restoreWorkers, u ∈ s.restoreWorkers ∧ u ∉ units) s w := by
  induction units generalizing s w with
  | nil => exact ⟨rfl,h,fun u hu => ⟨hu,nofun⟩⟩
  | cons unit units ih =>
    refine Script.wp_then (Script.wp_attempt_ends (keeping_ask (q := .restore unit) trivial h)) ?_
    rintro (e | _) s₁ w₁ h₁
    · exact h₁.elim
    · obtain ⟨rfl,h₁⟩ := h₁
      refine Script.wp_modify_then.2 (Script.wp_then
        (Script.wp_attempt_ends (save_calm (h₁.update rfl))) ?_)
      rintro (e | _) s₂ w₂ h₂
      · exact h₂.elim
      · obtain ⟨t,rfl,_,h₂⟩ := h₂
        refine Script.wp_ends (ih h₂) ?_ fun _ _ _ hx => hx
        rintro r s₃ w₃ ⟨rfl,h₃,hu₃⟩
        refine ⟨rfl,h₃,fun u hu => ?_⟩
        have hm := hu₃ u hu
        simp only [State.stamp,List.mem_filter,decide_eq_true_eq] at hm
        exact ⟨hm.1.1,by simp [hm.1.2,hm.2]⟩

/-- A run that came to its end: reported, its workers restored, its request removed. -/
structure Over (o : Outcome) (w : Disk) : Prop where
  terminal : o ≠ .interrupted
  request : w.request = none
  recorded : ∃ d events, w.state = some d ∧ d.state = o.phase ∧ d.restoreWorkers = [] ∧
    parseEvents (w.events d.runId) = some events ∧
    w.report d.report = some ⟨d.runId,d.result,events⟩

/-- How an undisturbed run ends: over, or interrupted and ready to be resumed. -/
def Concluded (o : Outcome) (w : Disk) : Prop :=
  Over o w ∨ (o = .interrupted ∧ w.request.isSome ∧
    ∃ d, w.state = some d ∧ d.restoreOnly = false)

theorem retire_calm {o : Outcome} (h : w.request.isSome) (hw : w.state = some s)
    (hs : s.state = o.phase) (hr : s.restoring = false) (hu : s.restoreWorkers = []) :
    Cleanly config (retire (.ok o) none) (fun o' _ w' => o' = o ∧ Concluded o w') s w := by
  have hread : Cleanly config (readEvents s.runId)
      (fun log s' w' => s' = s ∧ w'.request.isSome ∧ w'.state = some s ∧
        (∃ events, parseEvents log = some events) ∧ w'.events s.runId = log) s w := by
    refine calm_ask fun log w₁ w₂ ht hk ha _ => ?_
    obtain ⟨rfl,hlog⟩ := ha
    obtain rfl := hlog log rfl
    exact ⟨rfl,touched_request h ht,(touched_past ht).2.1.trans hw,(hk.2 s.runId).parses,rfl⟩
  refine Script.wp_get_then.2 (Script.wp_then hread ?_)
  rintro log s w₁ ⟨rfl,h₁,hw₁,⟨events,hev⟩,hlog⟩
  rw [hev]
  have hreport : Cleanly config (writeReport s.report ⟨s.runId,s.result,events⟩)
      (fun _ s' w' => s' = s ∧ w'.request.isSome ∧ w'.state = some s ∧
        w'.events s.runId = log ∧ w'.report s.report = some ⟨s.runId,s.result,events⟩) s w₁ := by
    refine calm_ask fun _ w₂ w₃ ht _ ha _ => ?_
    have h₂ := touched_request h₁ ht
    rcases ht with rfl | ⟨_,_,rfl⟩ <;> rcases ha with rfl | ⟨_,_,⟨⟩⟩ <;>
      exact ⟨rfl,h₂,hw₁,hlog,Function.update_self ..⟩
  refine Script.wp_then hreport ?_
  rintro _ s w₂ ⟨rfl,h₂,hw₂,hlog₂,hrep₂⟩
  have hout : outcomeOf (.ok o) none = o := rfl
  rw [hout]
  by_cases ho : o = .interrupted
  · subst ho
    have hro : s.restoreOnly = false := by simp [State.restoreOnly,hr,hs,Outcome.phase,Phase.terminal]
    exact ⟨rfl,.inr ⟨rfl,h₂,s,hw₂,hro⟩⟩
  · rw [show decide (o ≠ .interrupted) = true by simp [ho]]
    have hremove : Cleanly config removeRequest (fun _ _ w' => Over o w') s w₂ := by
      refine calm_ask fun _ w₃ w₄ ht _ ha _ => ?_
      rcases ht with rfl | ⟨_,_,rfl⟩ <;> rcases ha with rfl | ⟨_,_,⟨⟩⟩ <;>
        exact ⟨ho,rfl,s,events,hw₂,hs,hu,by rw [← hev,← hlog₂],hrep₂⟩
    exact Script.wp_then hremove fun _ s₃ w₃ h₃ => ⟨rfl,.inl h₃⟩

theorem recover_calm (h : Going st s w) :
    Cleanly config recover
      (fun r s' w' => r = none ∧ w'.request.isSome ∧ s'.restoreWorkers = []) s w := by
  refine Script.wp_then (Script.wp_attempt_ends
    (keeping_ask (q := .removeSentinel) trivial h)) ?_
  rintro (e | _) s₁ w₁ h₁
  · exact h₁.elim
  · obtain ⟨rfl,h₁⟩ := h₁
    refine Script.wp_get_then.2 (Script.wp_ends (restoreAll_calm _ h₁) ?_ fun _ _ _ hx => hx)
    rintro r s₂ w₂ ⟨rfl,h₂,hu₂⟩
    exact ⟨rfl,h₂.request,List.eq_nil_iff_forall_not_mem.2 fun u hu => (hu₂ u hu).2 (hu₂ u hu).1⟩

theorem finish_calm {o : Outcome} (h : w.request.isSome) :
    Cleanly config (finish (.ok o)) (fun o' _ w' => o' = o ∧ Concluded o w') st w := by
  refine Script.wp_then (confirmStage_calm h) ?_
  rintro _ st w₁ ⟨rfl,h₁⟩
  refine Script.wp_modify_then.2 (Script.wp_then (save_calm ⟨rfl,h₁⟩) ?_)
  rintro _ s₂ w₂ ⟨t,rfl,_,h₂⟩
  refine Script.wp_then (recover_calm h₂) ?_
  rintro _ s₃ w₃ ⟨rfl,h₃,hu₃⟩
  refine Script.wp_modify_then.2 (Script.wp_then (save_calm ⟨rfl,h₃⟩) ?_)
  rintro _ s₄ w₄ ⟨t',rfl,hw₄,h₄⟩
  exact retire_calm h₄.request hw₄ rfl rfl hu₃

/-- The memory that a run was admitted with, `old` being the checkpoint it found. -/
structure Entered (old : Option State) (s : State) (w : Disk) : Prop where
  request : w.request.isSome
  decided : s.restoreOnly → s.result ≠ .running
  resumed : (∀ d, old = some d → d.restoreOnly = false) → s.restoreOnly = false

theorem fresh_calm (old : Option State) (h : w.request.isSome) :
    Cleanly config (fresh config) (fun _ => Entered old) s w := by
  refine Script.wp_then (keeping_ask (q := .now) trivial ⟨rfl,h⟩) ?_
  rintro t s w₁ ⟨rfl,h₁⟩
  refine Script.wp_then (ask_going (q := .makeRunDir t) trivial h₁) fun _ s₂ w₂ h₂ => ?_
  exact ⟨h₂.request,nofun,fun _ => rfl⟩

/-- A present request is always admitted: nothing unrecovered is left of a terminal run. -/
theorem admission_calm {requested : Option Identity} (hk : Known config w)
    (h : w.request.isSome) (hr : requested.isSome) :
    Cleanly config (admission config requested w.state) (fun _ => Entered w.state) s w := by
  cases hw : w.state with
  | none => exact fresh_calm none h
  | some d =>
    have hd := hk.1.tracked d hw
    rw [admission]
    by_cases hres : resumes d requested = true
    · rw [if_pos hres,if_pos hd.contract]
      exact ⟨h,hd.decided,fun ho => ho d rfl⟩
    · rw [if_neg hres]
      have hterm : d.state.terminal := by
        cases hds : d.state <;> simp_all [resumes,Phase.terminal]
      obtain ⟨hw',hu'⟩ := hd.ended hterm
      rw [if_neg (by simp [hw',hu'])]
      exact fresh_calm (some d) h

theorem prepare_calm (h : w.request.isSome) :
    Cleanly config (prepare config)
      (fun b s' w' => b = s'.restoreOnly ∧ Entered w.state s' w') s w := by
  have hlock : Cleanly config lock (fun _ _ w' => w'.request.isSome ∧ w'.state = w.state) s w := by
    refine calm_ask fun _ w₁ w₂ ht _ ha _ => ?_
    rw [show w₂ = w₁ from ha]
    exact ⟨touched_request h ht,(touched_past ht).2.1⟩
  refine Script.wp_then hlock ?_
  rintro _ s₁ w₁ ⟨h₁,hw₁⟩
  have hid : Cleanly config requestIdentity
      (fun i _ w' => w'.request.isSome ∧ w'.state = w.state ∧ i.isSome) s₁ w₁ := by
    refine calm_ask fun i w₂ w₃ ht _ ha _ => ?_
    obtain ⟨rfl,hi⟩ := ha
    have h₂ := touched_request h₁ ht
    refine ⟨h₂,(touched_past ht).2.1.trans hw₁,?_⟩
    rw [hi i rfl]
    exact h₂
  refine Script.wp_then hid ?_
  rintro requested s₂ w₂ ⟨h₂,hw₂,hr₂⟩
  have hread : Cleanly config readState
      (fun d _ w' => w'.request.isSome ∧ d = w'.state ∧ w'.state = w.state ∧ Known config w')
      s₂ w₂ := by
    refine calm_ask fun d w₃ w₄ ht hk ha _ => ?_
    obtain ⟨rfl,hd⟩ := ha
    exact ⟨touched_request h₂ ht,hd d rfl,(touched_past ht).2.1.trans hw₂,hk⟩
  refine Script.wp_then hread ?_
  rintro _ s₃ w₃ ⟨h₃,rfl,hw₃,hk₃⟩
  rw [← hw₃]
  refine Script.wp_then (admission_calm hk₃ h₃ hr₂) fun _ s₄ w₄ h₄ => ?_
  obtain ⟨i,rfl⟩ := Option.isSome_iff_exists.1 hr₂
  have hbind : Cleanly config (bindRequest (some i)) (fun _ => Entered w₃.state) s₄ w₄ := by
    rw [bindRequest,Option.isNone_some,onlyIf_false]
    refine Script.wp_pure_then.2 (Script.wp_then
      (keeping_ask (q := .requestIdentity) trivial ⟨rfl,h₄.request⟩) ?_)
    rintro _ s w₅ ⟨rfl,h₅⟩
    exact ⟨h₅.request,h₄.decided,h₄.resumed⟩
  refine Script.wp_then hbind fun _ s₅ w₅ h₅ => Script.wp_get_then.2 ?_
  cases hr : s₅.restoreOnly with
  | true =>
    rw [Bool.not_true,onlyIf_false]
    refine Script.wp_pure_then.2 (Script.wp_then (save_calm ⟨rfl,h₅.request⟩) ?_)
    rintro _ s₆ w₆ ⟨t,rfl,_,h₆⟩
    exact ⟨hr.symm,h₆.request,h₅.decided,h₅.resumed⟩
  | false =>
    have hs : s₅.restoring = false := by
      rw [State.restoreOnly,Bool.or_eq_false_iff] at hr
      exact hr.1
    refine Script.wp_modify_then.2 (Script.wp_then (save_calm ⟨rfl,h₅.request⟩) ?_)
    rintro _ s₆ w₆ ⟨t,rfl,_,h₆⟩
    have hro : ({ s₅ with state := .running, result := .running }.stamp t).restoreOnly = false := by
      simp [State.restoreOnly,State.stamp,Phase.terminal,hs]
    exact ⟨hro.symm,h₆.request,(by simp [hro]),fun _ => hro⟩

/-- An undisturbed run never fails; only the restoration of an interrupted run leaves
anything to do. -/
theorem run_calm {delays : List ℕ} (hv : validate config = .ok delays) (h : w.request.isSome) :
    Cleanly config (runWithReady config)
      (fun o _ w' => Concluded o w' ∧
        ((∀ d, w.state = some d → d.restoreOnly = false) → o ≠ .interrupted)) s w := by
  rw [runWithReady,hv,checked_ok]
  refine Script.wp_pure_then.2 (Script.wp_then (prepare_calm h) ?_)
  rintro _ s₁ w₁ ⟨rfl,h₁⟩
  refine Script.wp_then (Script.wp_attempt_ends (execute_calm h₁.request h₁.decided)) ?_
  rintro (e | o) s₂ w₂ h₂
  · exact h₂.elim
  · obtain ⟨ho,h₂⟩ := h₂
    refine Script.wp_ends (finish_calm h₂.request) ?_ fun _ _ _ hx => hx
    rintro _ s₃ w₃ ⟨rfl,h₃⟩
    refine ⟨h₃,fun hn => ?_⟩
    rw [if_neg (by simp [h₁.resumed hn])] at ho
    exact ho

/-! ## Recovery -/

/-- At most `n` undisturbed runs, each begun after whatever touches, all succeed and end
with a run that is over and has restored every worker. -/
def Recovers (config : OperatorConfig) : ℕ → Disk → Prop
  | 0, _ => False
  | n+1, w => ∀ w₁, touched .whole w w₁ →
    wp calm (fun _ _ => True) ((runWithReady config).start .unloaded) (fun r w' =>
      ∃ o, r.1 = .ok o ∧ ((Over o w' ∧ w'.past.owned = []) ∨ Recovers config n w'))
      (w₁.begin .run)

theorem calm_run {delays : List ℕ} (hv : validate config = .ok delays) (hk : Known config w)
    (h : w.request.isSome) :
    wp calm (fun _ _ => True) ((runWithReady config).start .unloaded) (fun r w' =>
      Known config w' ∧ ∃ o, r.1 = .ok o ∧ Concluded o w' ∧
        ((∀ d, w.state = some d → d.restoreOnly = false) → o ≠ .interrupted)) (w.begin .run) := by
  have hs := hk.1.begin .run
  have hsafe : Does config .whole (runWithReady config) (fun _ _ _ => True) (fun _ _ => True)
      .unloaded (w.begin .run) := runWithReady_held ⟨rfl,rfl⟩ fun hu => hu.begin w trivial
  -- The safety of every run, seen in the calm world, gives what the calm rules assume.
  have hguard : wp (system config .whole).toWorld (Guard config .whole)
      ((runWithReady config).start .unloaded)
      (fun _ w' => Sound config .whole w'.state w'.past w'.runs) (w.begin .run) := by
    refine wp_mono (wp_assume ?_ ?_ hs hsafe) fun _ _ h => h.1
    · exact fun w w' hs ht => hs.touched ht
    · exact fun w q r w' hs ha har => hs.answer ha har
  have hcalm : wp calm (Guard config .whole) ((runWithReady config).start .unloaded)
      (fun _ w' => Sound config .whole w'.state w'.past w'.runs) (w.begin .run) := by
    refine wp_world ?_ ?_ hguard
    · exact fun _ _ ht => ht
    · exact fun _ _ _ _ ha => ha.1
  have hrely : ∀ w w', Legible w → calm.rely w w' → Legible w' := fun w w' hl ht => hl.touched ht
  have hstep : ∀ w q r w', Legible w → Guard config .whole w q → calm.step q w r w' →
      Legible w' := fun w q r w' hl hg ha => hl.answer hg ha.1
  have hl : Legible (w.begin .run) := hk.2
  have hknown := wp_invariant hrely hstep hl hcalm
  have hclean : Cleanly config (runWithReady config) _ .unloaded (w.begin .run) := run_calm hv h
  have hrun := wp_discharge hclean (wp_guard hknown fun w q hg => ⟨hg.2.1,hg.1⟩)
  refine wp_mono (wp_guard (wp_and hknown hrun) fun _ _ _ => trivial) ?_
  rintro ⟨e | o,s⟩ w' ⟨⟨hl,hs'⟩,hr⟩
  · exact hr.elim
  · exact ⟨⟨hs',hl⟩,o,rfl,hr⟩

theorem Over.owned {o : Outcome} (h : Over o w) (hk : Known config w) : w.past.owned = [] := by
  obtain ⟨d,_,hd,_,hr,_⟩ := h.recorded
  refine List.eq_nil_iff_forall_not_mem.2 fun u hu => ?_
  have hm := (hk.1.tracked d hd).owned u hu
  rw [hr] at hm
  cases hm

theorem Known.touched {faults : Faults} (hk : Known config w) (ht : touched faults w w') :
    Known config w' := ⟨hk.1.touched ht,hk.2.touched ht⟩

theorem sample_valid : validate sample = .ok [] := by
  have h : (match validate sample with
    | .ok delays => some delays
    | .error _ => none) = some [] := by decide +kernel
  cases hv : validate sample with
  | error e => rw [hv] at h; cases h
  | ok delays => rw [hv] at h; cases h; rfl

theorem smooth_calm (q : Req) (w : Disk) : calm.step q w (smooth q w).1 (smooth q w).2 := by
  refine ⟨smooth_answers .whole q w,?_⟩
  cases q with
  | cancelled => rfl
  | active unit => exact ⟨false,rfl,fun _ => rfl⟩
  | _ => exact ⟨_,rfl⟩

/-- What a crash leaves that cuts an append off after one byte. -/
def cut : Prog Req (fun q => Except Error (Rep q)) (Except Error Unit × State) × Disk → Disk
  | (.call (.appendEvent n e) _,w) => w.append n (e.bytes.extract 0 1)
  | (_,w) => w

theorem cut_reachable {c : Prog Req (fun q => Except Error (Rep q)) (Except Error Unit × State) × Disk}
    (h : (system config .all).Reachable Disk.empty (c.2,some c.1)) :
    (system config .all).Reachable Disk.empty (cut c,none) := by
  obtain ⟨_ | ⟨q,k⟩,w⟩ := c
  · exact h.tail .crash
  · cases q with
    | appendEvent n e => exact h.tail (.torn ⟨.error (.other "crash"),1,trivial,rfl⟩)
    | _ => exact h.tail .crash

/-- The sample after a crash inside the append of its first event. -/
def tornRun : Disk := cut (sampleRun 23)

def failed (p : Prog Req (fun q => Except Error (Rep q)) (Except Error Outcome × State)) : Bool :=
  match p with
  | .ret (.error _,_) => true
  | _ => false

/-- A run that fails although nothing disturbs it. -/
theorem failed_not {n k : ℕ} (hf : failed (advance smooth k
      ((runWithReady config).start .unloaded) (w.begin .run)).1 = true) :
    ¬ Recovers config (n+1) w := by
  intro h
  have hend := wp_reach (h w (.inl rfl)) (reach_advance smooth_calm k _ _)
  revert hf hend
  generalize advance smooth k ((runWithReady config).start .unloaded) (w.begin .run) = c
  obtain ⟨⟨e | o,s⟩ | ⟨q,f⟩,w⟩ := c
  · rintro _ ⟨o,ho,_⟩
    cases ho
  · exact fun hf _ => nomatch hf
  · exact fun hf _ => nomatch hf

end Operator
end CanixToolbelt
