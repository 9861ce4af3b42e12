import CanixToolbelt.OrchestrationDriverSafety
import CanixToolbelt.OrchestrationHistory

/-! What an observation says: every owner was read twice, and showed the same both times. -/
namespace CanixToolbelt
namespace Orchestration
namespace Driver

open Effect Script Fallible Json Canonical

/-! ## Inboxes -/

/-- The owner's inbox, and no pending input on the other hosts. -/
structure InboxRead (p : Packet) (hosts : List String) (inbox : List Json) (w : Log) : Prop where
  own : ∃ reply, Told w (.api p.ownerHost .get (sessionPath p "/inbox") none) reply ∧
    reply.checked = .ok (.arr inbox)
  distinct : verifyInbox inbox = .ok ()
  mirrors : ∀ host ∈ hosts, host ≠ p.ownerHost →
    ∃ reply, Told w (.api host .get (sessionPath p "/inbox") none) reply ∧
      (reply.status = 404 ∨ reply.checked = .ok (.arr []))

theorem ran_mirror {p : Packet} {host : String} {es : Log}
    (h : Ran (verifyMirrorInbox p host) es ()) (hhost : host ≠ p.ownerHost) :
    ∃ reply, Told es (.api host .get (sessionPath p "/inbox") none) reply ∧
      (reply.status = 404 ∨ reply.checked = .ok (.arr [])) := by
  unfold verifyMirrorInbox at h
  rw [if_neg hhost] at h
  obtain ⟨reply,es₁,es₂,rfl,h₁,h₂⟩ := ran_bind h
  obtain rfl := ran_ask h₁
  refine ⟨reply,List.mem_append_left _ (List.mem_singleton.mpr rfl),?_⟩
  by_cases hmissing : reply.status = 404
  · exact .inl hmissing
  · rw [if_neg hmissing] at h₂
    obtain ⟨data,hdata,h₂⟩ := ran_lift_then h₂
    refine .inr ?_
    rw [hdata]
    cases data with
    | arr items =>
      cases items with
      | nil => rfl
      | cons item items => exact (ran_throw h₂).elim
    | _ => exact (ran_throw h₂).elim

theorem ran_mirrors {p : Packet} {hosts : List String} {es : Log}
    (h : Ran (hosts.forM (verifyMirrorInbox p)) es ()) : ∀ host ∈ hosts, host ≠ p.ownerHost →
    ∃ reply, Told es (.api host .get (sessionPath p "/inbox") none) reply ∧
      (reply.status = 404 ∨ reply.checked = .ok (.arr [])) := by
  intro host hmem hhost
  obtain ⟨es',hsub,h'⟩ := ran_forM h host hmem
  obtain ⟨reply,htold,hreply⟩ := ran_mirror h' hhost
  exact ⟨reply,hsub.subset htold,hreply⟩

theorem listed_ok {v : Json} {e : String} {items : List Json} :
    listed v e = .ok items ↔ v = .arr items := by
  cases v <;> simp [listed,Json.asArray]

/-! ## Context -/

/-- The owner's context, read at one go. -/
structure ContextRead (p : Packet) (physical : Json) (history : List Json) (w : Log) : Prop where
  reads : ∃ es es' ids, (es ++ es') <:+: w ∧ NewestUse p es physical ids ∧
    WholeHistory p ids es' history

/-- The size of a context: none behind a later compaction, and else the physical usage. -/
theorem contextSize_ok {physical : Json} {history : List Json} {tokens : ℕ} :
    contextSize physical history = .ok tokens ↔
      compacted physical history = true ∧ tokens = 0 ∨
        compacted physical history = false ∧ physicalTokens physical = .ok tokens := by
  unfold contextSize
  cases compacted physical history <;> simp [eq_comm]

theorem insertField_perm {k : String} {v : Json} {fs : List (String × Json)}
    (h : k ∉ fs.map Prod.fst) : (insertField k v fs).Perm ((k,v)::fs) := by
  induction fs with
  | nil => exact .refl _
  | cons f fs ih =>
    obtain ⟨k',v'⟩ := f
    simp only [List.map_cons,List.mem_cons,not_or] at h
    simp only [insertField,if_neg h.1]
    split
    · exact .refl _
    · exact ((ih h.2).cons (k',v')).trans (.swap _ _ _)

/-- A history can be read off its map of observations, but for the order. -/
theorem observations_perm {history : List Json} {names : List String}
    (hnames : history.map messageId = names.map some) (hnodup : names.Nodup) :
    ((compactionObservations history).map Prod.snd).Perm history := by
  have hfold : ∀ (acc : List (String × Json)) {history : List Json} {names : List String},
      history.map messageId = names.map some → names.Nodup → (∀ n ∈ names, n ∉ acc.map Prod.fst) →
      ((history.foldl (fun map m => insertField ((m.get "id").asStr.getD "") m map)
        acc).map Prod.snd).Perm (acc.map Prod.snd ++ history) := by
    intro acc history
    induction history generalizing acc with
    | nil => intro _ _ _ _; simp
    | cons m history ih =>
      intro names hnames hnodup hfresh
      obtain ⟨id,names,rfl,hid,hrest⟩ := List.map_eq_cons_iff.mp hnames.symm
      have hstr : (m.get "id").asStr.getD "" = id := by
        rw [(Option.filter_eq_some_iff.mp hid.symm).1,Option.getD_some]
      have hnew : id ∉ acc.map Prod.fst := hfresh id (by simp)
      have hnodup := List.nodup_cons.mp hnodup
      rw [List.foldl_cons,hstr]
      refine (ih _ hrest.symm hnodup.2 fun n hn hmem => ?_).trans ?_
      · rcases mem_keys_insertField.mp hmem with rfl | hmem
        · exact hnodup.1 hn
        · exact hfresh n (List.mem_cons_of_mem _ hn) hmem
      · refine (((insertField_perm hnew).map Prod.snd).append_right history).trans ?_
        exact List.perm_middle.symm
  have hempty := hfold [] hnames hnodup nofun
  rwa [List.map_nil,List.nil_append] at hempty

theorem WholeHistory.named {p : Packet} {ids : List String} {es : Log} {history : List Json}
    (h : WholeHistory p ids es history) : ∃ names : List String,
      history.map messageId = names.map some ∧ names.Nodup := by
  obtain ⟨_,_,_,_,names,_,_,_,_,hcoherent,_⟩ := h.pages
  exact ⟨names,hcoherent.named,hcoherent.nodup⟩

theorem ran_context {p : Packet} {es : Log} {physical : Json} {history : List Json}
    (h : Ran (observeContext p) es (physical,history)) : ContextRead p physical history es := by
  obtain ⟨⟨m,ids⟩,es₁,es₂,rfl,h₁,h₂⟩ := ran_bind h
  obtain ⟨history',es₃,es₄,rfl,h₃,h₄⟩ := ran_bind h₂
  obtain ⟨rfl,heq⟩ := ran_pure h₄
  obtain ⟨rfl,rfl⟩ := Prod.mk.inj heq
  rw [List.append_nil]
  exact ⟨es₁,es₃,ids,List.infix_rfl,(newestUse_iff.mp h₁).2,(wholeHistory_iff.mp h₃).2⟩

/-! ## One owner -/

/-- What a first pass has read of an owner. -/
structure Sighted (hosts : List String) (expected : Expectations) (p : Packet) (s : Sighting)
    (w : Log) : Prop where
  host : p.ownerHost ∈ hosts
  inbox : InboxRead p hosts s.inbox w
  identity : ∃ identity info reply, expected.lookup p.number = some identity ∧
    Told w (.api p.ownerHost .get (sessionPath p "") none) reply ∧ reply.checked = .ok info ∧
    verifyIdentity info p identity = .ok ()
  context : ContextRead p s.physical s.history w
  size : compacted s.physical s.history = true ∧ s.tokens = 0 ∨
    compacted s.physical s.history = false ∧ physicalTokens s.physical = .ok s.tokens
  room : s.tokens < 300000

/-- What a second pass has read of an owner. -/
structure Confirmed (hosts : List String) (p : Packet) (s : Sighting) (w : Log) : Prop where
  inbox : InboxRead p hosts s.inbox w
  context : ∃ history, ContextRead p s.physical history w ∧
    compactionObservations history = compactionObservations s.history

section
variable {p : Packet} {hosts : List String} {w w' : Log}

theorem InboxRead.mono {inbox : List Json} (h : InboxRead p hosts inbox w) (hw : w <:+: w') :
    InboxRead p hosts inbox w' where
  own := h.own.imp fun _ h => ⟨hw.subset h.1,h.2⟩
  distinct := h.distinct
  mirrors := fun host hmem hhost =>
    (h.mirrors host hmem hhost).imp fun _ h => ⟨hw.subset h.1,h.2⟩

theorem ContextRead.mono {physical : Json} {history : List Json}
    (h : ContextRead p physical history w) (hw : w <:+: w') :
    ContextRead p physical history w' := by
  obtain ⟨es,es',ids,hsub,hnewest,hwhole⟩ := h.reads
  exact ⟨es,es',ids,hsub.trans hw,hnewest,hwhole⟩

theorem Sighted.mono {expected : Expectations} {s : Sighting} (h : Sighted hosts expected p s w)
    (hw : w <:+: w') : Sighted hosts expected p s w' where
  host := h.host
  inbox := h.inbox.mono hw
  identity := by
    obtain ⟨identity,info,reply,hlookup,htold,hinfo⟩ := h.identity
    exact ⟨identity,info,reply,hlookup,hw.subset htold,hinfo⟩
  context := h.context.mono hw
  size := h.size
  room := h.room

theorem Confirmed.mono {s : Sighting} (h : Confirmed hosts p s w) (hw : w <:+: w') :
    Confirmed hosts p s w' where
  inbox := h.inbox.mono hw
  context := h.context.imp fun _ h => ⟨h.1.mono hw,h.2⟩

end

/-- A list that was read is the one before, but for the order. -/
theorem Confirmed.perm {p : Packet} {hosts : List String} {s : Sighting} {first second : Log}
    (h : Confirmed hosts p s second) (hs : ContextRead p s.physical s.history first) :
    ∃ history, ContextRead p s.physical history second ∧ history.Perm s.history := by
  obtain ⟨history,hread,hsame⟩ := h.context
  obtain ⟨_,_,_,_,_,hwhole⟩ := hread.reads
  obtain ⟨_,_,_,_,_,hwhole'⟩ := hs.reads
  obtain ⟨names,hnames,hnodup⟩ := hwhole.named
  obtain ⟨names',hnames',hnodup'⟩ := hwhole'.named
  have hperm := observations_perm hnames hnodup
  rw [hsame] at hperm
  exact ⟨history,hread,hperm.symm.trans (observations_perm hnames' hnodup')⟩

section
variable {raw : List (String × Json)} {expected : Expectations} {p : Packet} {es : Log}

theorem told_request {suffix : String} {v : Json}
    (h : Ran (request p suffix : Reading Json) es v) :
    ∃ reply, Told es (.api p.ownerHost .get (sessionPath p suffix) none) reply ∧
      reply.checked = .ok v := by
  obtain ⟨reply,rfl,hreply⟩ := ran_request.mp h
  exact ⟨reply,List.mem_singleton.mpr rfl,hreply⟩

theorem ran_sight {s : Sighting} (h : Ran (sight raw expected p) es s) :
    Sighted (raw.map Prod.fst) expected p s es := by
  obtain ⟨⟨⟩,hhost,h₁⟩ := ran_lift_then h
  obtain ⟨⟨⟩,es₁,es₂,rfl,hmirrors,h₂⟩ := ran_bind h₁
  obtain ⟨info,es₃,es₄,rfl,hinfo,h₃⟩ := ran_bind h₂
  cases hidentity : expected.lookup p.number with
  | none =>
    rw [hidentity] at h₃
    exact (ran_throw h₃).elim
  | some identity =>
    rw [hidentity] at h₃
    obtain ⟨⟨⟩,hverified,h₄⟩ := ran_lift_then h₃
    obtain ⟨v,es₅,es₆,rfl,hv,h₅⟩ := ran_bind h₄
    obtain ⟨inbox,hinbox,h₆⟩ := ran_lift_then h₅
    obtain ⟨⟨⟩,hdistinct,h₇⟩ := ran_lift_then h₆
    obtain ⟨page,es₇,es₈,rfl,hpage,h₈⟩ := ran_bind h₇
    obtain rfl := listed_ok.mp hinbox
    cases hrecent : page.asArray <|> (page.get "data").asArray with
    | none =>
      rw [hrecent] at h₈
      exact (ran_throw h₈).elim
    | some recent =>
      rw [hrecent] at h₈
      obtain ⟨⟨physical,history⟩,es₉,es₁₀,rfl,hcontext,h₉⟩ := ran_bind h₈
      obtain ⟨tokens,hsize,h₁₀⟩ := ran_lift_then h₉
      by_cases hroom : 300000 ≤ tokens
      · rw [if_pos hroom] at h₁₀
        exact (ran_throw h₁₀).elim
      · rw [if_neg hroom] at h₁₀
        obtain ⟨rfl,rfl⟩ := ran_pure h₁₀
        obtain ⟨infoReply,hinfoTold,hinfoReply⟩ := told_request hinfo
        obtain ⟨inboxReply,hinboxTold,hinboxReply⟩ := told_request hv
        refine ⟨require_ok hhost,⟨⟨inboxReply,?_,hinboxReply⟩,hdistinct,fun host hmem hne => ?_⟩,
          ⟨identity,info,infoReply,hidentity,?_,hinfoReply,hverified⟩,?_,contextSize_ok.mp hsize,
          not_le.mp hroom⟩
        · simp only [Told,List.mem_append] at hinboxTold ⊢
          exact .inr (.inr (.inl hinboxTold))
        · obtain ⟨reply,htold,hreply⟩ := ran_mirrors hmirrors host hmem hne
          exact ⟨reply,List.mem_append_left _ htold,hreply⟩
        · simp only [Told,List.mem_append] at hinfoTold ⊢
          exact .inr (.inl hinfoTold)
        · refine (ran_context hcontext).mono ⟨es₁ ++ es₃ ++ es₅ ++ es₇,[],?_⟩
          simp only [List.append_assoc,List.append_nil]

theorem ran_confirm {sightings : List (ℕ × Sighting)} {s : Sighting}
    (hs : sightings.lookup p.number = some s) (h : Ran (confirm raw sightings p) es ()) :
    Confirmed (raw.map Prod.fst) p s es := by
  unfold confirm at h
  rw [hs,Option.getD_some] at h
  obtain ⟨⟨⟩,es₁,es₂,rfl,hmirrors,h₁⟩ := ran_bind h
  obtain ⟨v,es₃,es₄,rfl,hv,h₂⟩ := ran_bind h₁
  obtain ⟨fresh,hfresh,h₃⟩ := ran_lift_then h₂
  obtain ⟨⟨⟩,hdistinct,h₄⟩ := ran_lift_then h₃
  obtain rfl := listed_ok.mp hfresh
  by_cases hsame : fresh = s.inbox
  · rw [if_neg (not_not.mpr hsame)] at h₄
    subst hsame
    obtain ⟨⟨physical,ids⟩,es₅,es₆,rfl,hphysical,h₅⟩ := ran_bind h₄
    dsimp only at h₅
    by_cases hsame : physical = s.physical
    · rw [if_neg (not_not.mpr hsame)] at h₅
      subst hsame
      obtain ⟨history,es₇,es₈,rfl,hhistory,h₆⟩ := ran_bind h₅
      obtain ⟨rfl,hequal⟩ := ran_lift h₆
      obtain ⟨reply,htold,hreply⟩ := told_request hv
      refine ⟨⟨⟨reply,?_,hreply⟩,hdistinct,fun host hmem hne => ?_⟩,history,?_,require_ok hequal⟩
      · simp only [Told,List.mem_append] at htold ⊢
        exact .inr (.inl htold)
      · obtain ⟨reply,htold,hreply⟩ := ran_mirrors hmirrors host hmem hne
        exact ⟨reply,List.mem_append_left _ htold,hreply⟩
      · refine ⟨es₅,es₇,ids,⟨es₁ ++ es₃,[],?_⟩,(newestUse_iff.mp hphysical).2,
          (wholeHistory_iff.mp hhistory).2⟩
        simp only [List.append_assoc,List.append_nil]
    · rw [if_pos hsame] at h₅
      exact (ran_throw h₅).elim
  · rw [if_pos hsame] at h₄
    exact (ran_throw h₄).elim

end

/-! ## Activity -/

theorem mem_occupy_iff {active : Activity} {host host' : String} {n k : ℕ}
    (h : host ∈ active.map Prod.fst) : k ∈ owners (occupy active host n) host' ↔
      k ∈ owners active host' ∨ k = n ∧ host' = host := by
  by_cases hh : host' = host
  · subst hh
    rw [owners_occupy_self n h]
    split
    · rename_i hn
      constructor
      · exact .inl
      · rintro (hk | ⟨rfl,-⟩)
        · exact hk
        · exact hn
    · rw [List.mem_orderedInsert]
      simp [or_comm]
  · rw [owners_occupy_other active n hh]
    simp [hh]

/-- Whether the activity of a host shows the owner's session. -/
def runs (p : Packet) (f : String × Json) : Bool := (f.2.get? p.sessionId).isSome

theorem executing_fold {p : Packet} {raw : List (String × Json)} {active active' : Activity}
    (hhosts : ∀ f ∈ raw, f.1 ∈ active.map Prod.fst)
    (h : raw.foldlM (executing p) active = .ok active') :
    (∀ f ∈ raw, runs p f = true → f.1 = p.ownerHost) ∧
      active'.map Prod.fst = active.map Prod.fst ∧
      ∀ host n, n ∈ owners active' host ↔
        n ∈ owners active host ∨ n = p.number ∧ ∃ f ∈ raw, f.1 = host ∧ runs p f = true := by
  induction raw generalizing active with
  | nil =>
    obtain rfl := Except.ok.inj h
    simp
  | cons f raw ih =>
    rw [List.foldlM_cons] at h
    obtain ⟨active₁,hf,h⟩ := bind_ok h
    have hrest : ∀ g ∈ raw, g.1 ∈ active.map Prod.fst := fun g hg =>
      hhosts g (List.mem_cons_of_mem _ hg)
    unfold executing at hf
    by_cases hidle : (f.2.get? p.sessionId).isNone = true
    · rw [if_pos hidle] at hf
      obtain rfl := Except.ok.inj hf
      have hno : runs p f = false := by simpa [runs] using hidle
      obtain ⟨hown,hsame,hmem⟩ := ih hrest h
      refine ⟨List.forall_mem_cons.mpr ⟨by simp [hno],hown⟩,hsame,fun host n => ?_⟩
      simp [hmem,hno]
    · rw [if_neg hidle] at hf
      have hruns : runs p f = true := by simpa [runs,Option.isSome_iff_ne_none] using hidle
      by_cases hhost : f.1 = p.ownerHost
      · rw [if_neg (not_not.mpr hhost)] at hf
        obtain rfl := Except.ok.inj hf
        have hin := hhosts f (by simp)
        obtain ⟨hown,hsame,hmem⟩ := ih (by rw [occupy_hosts]; exact hrest) h
        rw [occupy_hosts] at hsame
        refine ⟨List.forall_mem_cons.mpr ⟨fun _ => hhost,hown⟩,hsame,fun host n => ?_⟩
        rw [hmem,mem_occupy_iff hin,or_assoc,List.exists_mem_cons_iff]
        simp only [hruns,and_true,and_or_left]
        rw [eq_comm (a := host)]
      · rw [if_pos hhost] at hf
        cases hf

theorem asObject_some {v : Json} {fields : List (String × Json)} (h : v.asObject = some fields) :
    v = .obj fields := by
  cases v with
  | obj fs => exact congrArg Json.obj (Option.some.inj h)
  | _ => cases h

def activityPath : String := "/api/session/active"

/-- The activity of a host, all of it by owners of the campaign. -/
structure ActivityRead (m : Manifest) (f : String × Json) (w : Log) : Prop where
  reply : ∃ reply, Told w (.api f.1 .get activityPath none) reply ∧ reply.checked = .ok f.2
  registered : ∃ sessions, f.2 = .obj sessions ∧
    ∀ g ∈ sessions, ∃ p ∈ m.packets, p.sessionId = g.1

theorem ran_activity {m : Manifest} {hosts : List String} {es : Log} {raw : List (String × Json)}
    (h : Ran (hosts.foldlM (observeActivity m) []) es raw) :
    raw.map Prod.fst = hosts ∧ ∀ f ∈ raw, ActivityRead m f es := by
  have hstart : ([] : List (String × Json)).map Prod.fst = [] ∧
      ∀ f ∈ ([] : List (String × Json)), ActivityRead m f [] := ⟨rfl,by simp⟩
  have hfold := ran_foldlM (P := fun done raw es =>
    raw.map Prod.fst = done ∧ ∀ f ∈ raw, ActivityRead m f es) ?_ hstart h
  · simpa using hfold
  · rintro done host raw es raw' es' ⟨hdone,hraw⟩ hstep
    obtain ⟨reply,es₁,es₂,rfl,h₁,h₂⟩ := ran_bind hstep
    obtain rfl := ran_ask h₁
    obtain ⟨data,hdata,h₃⟩ := ran_lift_then h₂
    cases hobject : data.asObject with
    | none =>
      rw [hobject] at h₃
      exact (ran_throw h₃).elim
    | some sessions =>
      rw [hobject] at h₃
      by_cases hforeign : (sessions.any fun f => m.packets.all fun p => p.sessionId ≠ f.1) = true
      · simp only [if_pos hforeign] at h₃
        exact (ran_throw h₃).elim
      · simp only [if_neg hforeign] at h₃
        obtain ⟨rfl,rfl⟩ := ran_pure h₃
        refine ⟨by simp [hdone],fun f hf => ?_⟩
        rcases List.mem_append.mp hf with hf | hf
        · obtain ⟨⟨reply',htold,hreply⟩,hregistered⟩ := hraw f hf
          exact ⟨⟨reply',List.mem_append_left _ htold,hreply⟩,hregistered⟩
        · obtain rfl := List.mem_singleton.mp hf
          refine ⟨⟨reply,List.mem_append_right _ ?_,hdata⟩,sessions,?_,fun g hg => ?_⟩
          · exact List.mem_append_left _ (List.mem_singleton.mpr rfl)
          · exact asObject_some hobject
          · simp only [List.any_eq_true,List.all_eq_true,not_exists,not_and,not_forall,
              decide_eq_true_eq,ne_eq,not_not] at hforeign
            obtain ⟨p,hp,hsession⟩ := hforeign g hg
            exact ⟨p,hp,hsession⟩

theorem ran_confirmActivity {f : String × Json} {es : Log} (h : Ran (confirmActivity f) es ()) :
    ∃ reply, Told es (.api f.1 .get activityPath none) reply ∧ reply.checked = .ok f.2 := by
  obtain ⟨reply,es₁,es₂,rfl,h₁,h₂⟩ := ran_bind h
  obtain rfl := ran_ask h₁
  obtain ⟨data,hdata,h₃⟩ := ran_lift_then h₂
  obtain ⟨rfl,hsame⟩ := ran_lift h₃
  obtain rfl := require_ok hsame
  exact ⟨reply,List.mem_append_left _ (List.mem_singleton.mpr rfl),hdata⟩

/-- What the first pass over some owners has found. -/
structure Passes (raw : List (String × Json)) (expected : Expectations) (done : List Packet)
    (seen : Activity × List (ℕ × Sighting)) (w : Log) : Prop where
  hosts : seen.1.map Prod.fst = raw.map Prod.fst
  numbers : seen.2.map Prod.fst = done.map (·.number)
  active : ∀ host n, n ∈ owners seen.1 host ↔
    ∃ p ∈ done, n = p.number ∧ ∃ f ∈ raw, f.1 = host ∧ runs p f = true
  own : ∀ p ∈ done, ∀ f ∈ raw, runs p f = true → f.1 = p.ownerHost
  sighted : ∀ p ∈ done, ∃ s, (p.number,s) ∈ seen.2 ∧ Sighted (raw.map Prod.fst) expected p s w

theorem owners_empty (raw : List (String × Json)) (host : String) :
    owners (raw.map fun f => (f.1,[])) host = [] := by
  induction raw with
  | nil => rfl
  | cons f raw ih =>
    simp only [owners,List.map_cons,List.lookup_cons] at ih ⊢
    split
    · rfl
    · exact ih

theorem ran_sights {raw : List (String × Json)} {expected : Expectations} {ps : List Packet}
    {es : Log} {seen : Activity × List (ℕ × Sighting)}
    (h : Ran (ps.foldlM (sightOwner raw expected) (raw.map fun f => (f.1,[]),[])) es seen) :
    Passes raw expected ps seen es := by
  have hstart : Passes raw expected [] (raw.map fun f => (f.1,[]),[]) [] :=
    ⟨by simp,rfl,by simp [owners_empty],nofun,nofun⟩
  have hfold := ran_foldlM (P := Passes raw expected) ?_ hstart h
  · simpa using hfold
  · intro done p seen es seen' es' hdone hstep
    obtain ⟨active,hactive,h₁⟩ := ran_lift_then hstep
    obtain ⟨s,es₁,es₂,rfl,hs,h₂⟩ := ran_bind h₁
    obtain ⟨rfl,rfl⟩ := ran_pure h₂
    have hsighted := ran_sight hs
    obtain ⟨hown,hsame,hmem⟩ := executing_fold
      (fun f hf => by rw [hdone.hosts]; exact List.mem_map_of_mem hf) hactive
    refine ⟨hsame.trans hdone.hosts,by simp [hdone.numbers],fun host n => ?_,?_,?_⟩
    · rw [hmem,hdone.active]
      constructor
      · rintro (⟨q,hq,h⟩ | h)
        · exact ⟨q,List.mem_append_left _ hq,h⟩
        · exact ⟨p,by simp,h⟩
      · rintro ⟨q,hq,h⟩
        rcases List.mem_append.mp hq with hq | hq
        · exact .inl ⟨q,hq,h⟩
        · obtain rfl := List.mem_singleton.mp hq
          exact .inr h
    · intro q hq
      rcases List.mem_append.mp hq with hq | hq
      · exact hdone.own q hq
      · obtain rfl := List.mem_singleton.mp hq
        exact hown
    · intro q hq
      rcases List.mem_append.mp hq with hq | hq
      · obtain ⟨s',hs',hq⟩ := hdone.sighted q hq
        exact ⟨s',List.mem_append_left _ hs',hq.mono (List.prefix_append _ _).isInfix⟩
      · obtain rfl := List.mem_singleton.mp hq
        refine ⟨s,List.mem_append_right _ (List.mem_singleton.mpr rfl),hsighted.mono ⟨es,[],?_⟩⟩
        simp only [List.append_nil]

/-! ## Owners that hold their place -/

theorem queue_fold {sightings : List (ℕ × Sighting)} {occupied : Activity} {ps : List Packet}
    (hhosts : ∀ p ∈ ps, p.ownerHost ∈ occupied.map Prod.fst) (host : String) (n : ℕ) :
    n ∈ owners (ps.foldl (queue sightings) occupied) host ↔ n ∈ owners occupied host ∨
      ∃ p ∈ ps, n = p.number ∧ host = p.ownerHost ∧
        (((sightings.lookup p.number).getD default).inbox ≠ [] ∨
          ((sightings.lookup p.number).getD default).inProgressCompaction.isSome = true) := by
  induction ps generalizing occupied with
  | nil => simp
  | cons p ps ih =>
    have hp := hhosts p (by simp)
    have hps : ∀ q ∈ ps, q.ownerHost ∈ occupied.map Prod.fst := fun q hq =>
      hhosts q (List.mem_cons_of_mem _ hq)
    rw [List.foldl_cons,List.exists_mem_cons_iff]
    by_cases hqueued : ((sightings.lookup p.number).getD default).inbox ≠ [] ∨
        ((sightings.lookup p.number).getD default).inProgressCompaction.isSome = true
    · have hstep : queue sightings occupied p = occupy occupied p.ownerHost p.number :=
        if_pos hqueued
      rw [hstep,ih (by rw [occupy_hosts]; exact hps),mem_occupy_iff hp,or_assoc]
      simp only [hqueued,and_true]
    · have hstep : queue sightings occupied p = occupied := if_neg hqueued
      rw [hstep,ih hps]
      simp only [hqueued,and_false,false_or]

theorem lookup_of_nodup {α : Type} {fs : List (ℕ × α)} {n : ℕ} {a : α}
    (h : (fs.map Prod.fst).Nodup) (hmem : (n,a) ∈ fs) : fs.lookup n = some a := by
  induction fs with
  | nil => cases hmem
  | cons f fs ih =>
    rw [List.map_cons,List.nodup_cons] at h
    rcases List.mem_cons.mp hmem with rfl | hmem
    · exact List.lookup_cons_self
    · have hne : (n == f.1) = false := by
        have hn : n ≠ f.1 := fun heq => h.1 (heq ▸ List.mem_map_of_mem hmem)
        simpa using hn
      rw [List.lookup_cons,hne]
      exact ih h.2 hmem

/-! ## The observation -/

/-- An observation: the activity of every host, and every owner, read in the same state before and
after. -/
structure Observes (m : Manifest) (policy : Policy) (expected : Expectations) (o : Observation)
    (first second : Log) : Prop where
  activity : ∃ raw : List (String × Json), raw.map Prod.fst = policy.maxActivePerHost.map Prod.fst ∧
    (∀ f ∈ raw, ActivityRead m f first ∧
      ∃ reply, Told second (.api f.1 .get activityPath none) reply ∧ reply.checked = .ok f.2) ∧
    ∀ p ∈ m.packets, (∀ f ∈ raw, runs p f = true → f.1 = p.ownerHost) ∧
      ∀ host, p.number ∈ owners o.active host ↔ ∃ f ∈ raw, f.1 = host ∧ runs p f = true
  owners : ∀ p ∈ m.packets, ∃ s, o.sightings.lookup p.number = some s ∧
    Sighted (policy.maxActivePerHost.map Prod.fst) expected p s first ∧
    Confirmed (policy.maxActivePerHost.map Prod.fst) p s second ∧
    (∃ history, ContextRead p s.physical history second ∧ history.Perm s.history) ∧
    ∀ host, p.number ∈ owners o.occupied host ↔ p.number ∈ owners o.active host ∨
      host = p.ownerHost ∧ (s.inbox ≠ [] ∨ s.inProgressCompaction.isSome = true)

/-- Whatever the adapter answers: an observation that was returned has read every owner twice. -/
theorem observe_consistent {lib : Library} {m : Manifest} {policy : Policy}
    {expected : Expectations} {es : Log} {o : Observation}
    (h : Ran (observe lib m policy expected) es o) :
    ∃ first second, es = first ++ second ∧ Observes m policy expected o first second := by
  obtain ⟨⟨⟩,es₀,es₁,rfl,hacquire,h₁⟩ := ran_bind h
  obtain ⟨⟨⟩,es₂,es₃,rfl,hverify,h₂⟩ := ran_bind h₁
  obtain ⟨⟨⟩,hvalid,h₃⟩ := ran_lift_then h₂
  obtain ⟨⟨⟩,hcomplete,h₄⟩ := ran_lift_then h₃
  obtain ⟨raw,es₄,es₅,rfl,hraw,h₅⟩ := ran_bind h₄
  obtain ⟨⟨active,sightings⟩,es₆,es₇,rfl,hsights,h₆⟩ := ran_bind h₅
  obtain ⟨⟨⟩,es₈,es₉,rfl,hconfirm,h₇⟩ := ran_bind h₆
  obtain ⟨⟨⟩,es₁₀,es₁₁,rfl,hafter,h₈⟩ := ran_bind h₇
  obtain ⟨selected,hselect,h₉⟩ := ran_lift_then h₈
  obtain ⟨⟨⟩,es₁₂,es₁₃,rfl,hlast,h₁₀⟩ := ran_bind h₉
  obtain ⟨rfl,rfl⟩ := ran_pure h₁₀
  obtain ⟨hhosts,hread⟩ := ran_activity hraw
  have hpasses := ran_sights hsights
  have hdistinct := validateOwn_ok (select_iff.mp hselect).1.valid
  have hactive : ∀ p ∈ m.packets, ∀ host, p.number ∈ owners active host ↔
      ∃ f ∈ raw, f.1 = host ∧ runs p f = true := by
    intro p hp host
    rw [hpasses.active]
    constructor
    · rintro ⟨q,hq,heq,hf⟩
      rwa [hdistinct.packet_eq hp hq heq]
    · exact fun hf => ⟨p,hp,rfl,hf⟩
  have hfirst : es₆ <:+: es₀ ++ es₂ ++ es₄ ++ es₆ := (List.suffix_append _ _).isInfix
  have hraws : es₄ <:+: es₀ ++ es₂ ++ es₄ ++ es₆ := ⟨es₀ ++ es₂,es₆,rfl⟩
  have hsecond : es₈ <:+: es₈ ++ es₁₀ ++ es₁₂ := ⟨[],es₁₀ ++ es₁₂,List.append_assoc _ _ _ ▸ rfl⟩
  have hafters : es₁₀ <:+: es₈ ++ es₁₀ ++ es₁₂ := ⟨es₈,es₁₂,rfl⟩
  refine ⟨es₀ ++ es₂ ++ es₄ ++ es₆,es₈ ++ es₁₀ ++ es₁₂,
    by simp only [List.append_assoc,List.append_nil],⟨raw,hhosts,fun f hf => ?_,?_⟩,?_⟩
  · obtain ⟨⟨reply,htold,hreply⟩,hregistered⟩ := hread f hf
    obtain ⟨es',hsub,hstep⟩ := ran_forM hafter f hf
    obtain ⟨reply',htold',hreply'⟩ := ran_confirmActivity hstep
    exact ⟨⟨⟨reply,hraws.subset htold,hreply⟩,hregistered⟩,
      reply',(hsub.trans hafters).subset htold',hreply'⟩
  · exact fun p hp => ⟨hpasses.own p hp,hactive p hp⟩
  · intro p hp
    obtain ⟨s,hmem,hsighted⟩ := hpasses.sighted p hp
    have hnodup : (sightings.map Prod.fst).Nodup := by
      rw [show sightings.map Prod.fst = m.packets.map (·.number) from hpasses.numbers]
      exact hdistinct.numbers
    have hlookup := lookup_of_nodup hnodup hmem
    obtain ⟨es',hsub,hstep⟩ := ran_forM hconfirm p hp
    have hconfirmed := (ran_confirm hlookup hstep).mono (hsub.trans hsecond)
    have hperm := hconfirmed.perm hsighted.context
    rw [hhosts] at hsighted hconfirmed
    refine ⟨s,hlookup,hsighted.mono hfirst,hconfirmed,hperm,fun host => ?_⟩
    have hin : ∀ q ∈ m.packets, q.ownerHost ∈ active.map Prod.fst := by
      intro q hq
      obtain ⟨_,_,hseen⟩ := hpasses.sighted q hq
      rw [show active.map Prod.fst = raw.map Prod.fst from hpasses.hosts]
      exact hseen.host
    refine (queue_fold hin host p.number).trans (or_congr_right ?_)
    constructor
    · rintro ⟨q,hq,heq,hhost,hqueued⟩
      obtain rfl := hdistinct.packet_eq hp hq heq
      rw [hlookup,Option.getD_some] at hqueued
      exact ⟨hhost,hqueued⟩
    · rintro ⟨hhost,hqueued⟩
      exact ⟨p,hp,rfl,hhost,by rwa [hlookup,Option.getD_some]⟩

/-- The owner of the cycle's campaign, observed. -/
def cycleObserved :=
  result (fun q => .ok (cycleAnswer q))
    (observe (tableLibrary []) cycleManifest cyclePolicy cycleExpected) ()

theorem cycle_observed : ∃ es o first second, cycleObserved.1 = .ok o ∧ es = first ++ second ∧
    Observes cycleManifest cyclePolicy cycleExpected o first second := by
  have hok : cycleObserved.1.toOption.isSome = true := by decide +kernel
  cases hresult : cycleObserved with
  | mk r s =>
    rw [hresult] at hok
    cases r with
    | error e => cases hok
    | ok o =>
      obtain ⟨first,second,hsplit,hobserves⟩ := observe_consistent ⟨(),s,runs_result _ hresult⟩
      exact ⟨_,o,first,second,rfl,hsplit,hobserves⟩

end Driver
end Orchestration
end CanixToolbelt
