import CanixToolbelt.OrchestrationJournal

/-! Runs of the journal operations in any order, and that no event is lost in them. -/
namespace CanixToolbelt
namespace Orchestration

open Fallible Json Canonical

/-- One operation on the journal.  `observe` is the collectors' replacement of the native
pull request records, which happens outside the journal's own operations. -/
inductive Operation where
  | observe (prs : Json)
  | refresh (m : Manifest) (policy : Policy) (inputs : Inputs)
  | recheck (n : ℕ) (policy : Policy) (now : ℤ)
  | recover (n : ℕ) (idle : Json) (now : ℤ)
  | prepare (p : Packet) (policy : Policy) (text at_ : String)
  | acknowledge (n : ℕ) (id at_ : String)

/-- A follow-up works on the row in place. -/
def Journal.mapRow (j : Journal) (n : ℕ) (f : Row → Row) : Journal :=
  match j.row n with
  | .obj fields => j.put n (f ⟨fields⟩)
  | _ => j

variable (lib : Library)

def Operation.apply (op : Operation) (j : Journal) : Journal :=
  match op with
  | .observe prs => { j with prs := prs }
  | .refresh m policy inputs =>
    match Orchestration.refresh lib m j policy inputs with
    | .ok j' => j'
    | .error _ => j
  | .recheck n policy now => j.mapRow n fun ps => (scheduleRecheck lib policy now ps).1
  | .recover n idle now => j.mapRow n fun ps => (recordIdleRecovery lib idle now ps).1
  | .prepare p policy text at_ => (Orchestration.prepare lib j p policy text at_).2
  | .acknowledge n id at_ => (Orchestration.acknowledge j n id at_).2

/-- The keys of the row `n` that an operation may write. -/
def Operation.keys (op : Operation) (n : ℕ) : List String :=
  match op with
  | .observe _ => []
  | .refresh .. => "feedbackObservations" :: refreshKeys
  | .recheck m .. => if m = n then ["recheckedReport","recheckVersion"] else []
  | .recover m .. => if m = n then
      ["idleRecovery","continuationBlocker","recoveryVersion","lastIdleOutcome"] else []
  | .prepare p .. => if p.number = n then ["admissionGeneration","pending"] else []
  | .acknowledge m .. => if m = n then ["deliveredVersion","deliveredObservationVersion",
      "deliveredAt","deliveredPreparedAt","deliveredSubmissionAttemptAt","deliveredProgressVersion",
      "goalAckVersion","pending"] else []

/-! ## What each operation leaves alone -/

variable {lib}

theorem scheduleRecheck_keeps (policy : Policy) (now : ℤ) (ps : Row) :
    Row.Keeps ["recheckedReport","recheckVersion"] ps (scheduleRecheck lib policy now ps).1 := by
  unfold scheduleRecheck
  split
  · exact .refl _ _
  · dsimp only
    split
    · exact .refl _ _
    · split
      · exact .refl _ _
      · split
        · exact .refl _ _
        · exact ((Row.Keeps.refl _ _).set _ (by simp)).set _ (by simp)

theorem countRecovery_keeps (ps : Row) (idle : Json) (id : String) :
    Row.Keeps ["idleRecovery","continuationBlocker","recoveryVersion","lastIdleOutcome"] ps
      (countRecovery lib ps idle id).1 := by
  unfold countRecovery
  dsimp only
  have hreset : Row.Keeps ["idleRecovery","continuationBlocker","recoveryVersion","lastIdleOutcome"]
      ps (if ¬ (ps.get "idleRecovery").isObject ∨
        (ps.get "idleRecovery").get "source" ≠ ps.get "observationVersion" then
        ps.set "idleRecovery" (object [("source",ps.get "observationVersion"),("attempts",nat 0),
          ("idleIDs",.arr [])]) else ps) := by
    split
    · exact (Row.Keeps.refl _ _).set _ (by simp)
    · exact .refl _ _
  generalize (if ¬ (ps.get "idleRecovery").isObject ∨
    (ps.get "idleRecovery").get "source" ≠ ps.get "observationVersion" then
    ps.set "idleRecovery" (object [("source",ps.get "observationVersion"),("attempts",nat 0),
      ("idleIDs",.arr [])]) else ps) = q at hreset ⊢
  split
  · exact hreset
  · split
    · exact hreset.set _ (by simp)
    · split
      · exact ((hreset.set _ (by simp)).set _ (by simp)).set _ (by simp)
      · exact hreset.set _ (by simp)

theorem recordIdleRecovery_keeps (idle : Json) (now : ℤ) (ps : Row) :
    Row.Keeps ["idleRecovery","continuationBlocker","recoveryVersion","lastIdleOutcome"] ps
      (recordIdleRecovery lib idle now ps).1 := by
  unfold recordIdleRecovery
  split
  · exact .refl _ _
  · split
    · exact .refl _ _
    · split
      · exact .refl _ _
      · exact countRecovery_keeps _ _ _

theorem prepareRow_keeps {ps ps' : Row} {p : Packet} {policy : Policy} {text at_ : String}
    {body : Json} (h : prepareRow lib ps p policy text at_ = .ok (ps',body)) :
    Row.Keeps ["admissionGeneration","pending"] ps ps' := by
  unfold prepareRow at h
  split at h
  · obtain ⟨rfl,-⟩ := Prod.mk.inj (Except.ok.inj h)
    exact .refl _ _
  · obtain ⟨-,-,h⟩ := bind_ok h
    obtain ⟨-,-,h⟩ := bind_ok h
    obtain ⟨g,-,h⟩ := bind_ok h
    obtain ⟨rfl,-⟩ := Prod.mk.inj (Except.ok.inj h)
    exact ((Row.Keeps.refl _ _).set _ (by simp)).set _ (by simp)

theorem deliver_keeps (ps : Row) (at_ : String) :
    Row.Keeps ["deliveredVersion","deliveredObservationVersion","deliveredAt","deliveredPreparedAt",
      "deliveredSubmissionAttemptAt","deliveredProgressVersion","goalAckVersion","pending"] ps
      (deliver ps at_) :=
  ((((((((Row.Keeps.refl _ ps).set _ (by decide)).set _ (by decide)).set _ (by decide)).set _
    (by decide)).set _ (by decide)).set _ (by decide)).set _ (by decide)).set _ (by decide)

theorem objects_of_row {j : Journal} {n : ℕ} {fields : List (String × Json)}
    (h : j.row n = .obj fields) : j.packets.isObject = true := by
  by_contra hno
  unfold Journal.row at h
  rw [get_eq_null_of_not_isObject (by simpa using hno)] at h
  cases h

theorem Journal.row_put_packets {j : Journal} (h : j.packets.isObject = true) (n n' : ℕ) (r : Row) :
    (j.put n r).row n' = if n' = n then r.json else j.row n' := by
  simp only [row,put,Json.get_set (assignable_of_isObject h)]
  by_cases hn : n' = n
  · simp [hn]
  · rw [if_neg hn,if_neg fun heq => hn (number_inj heq)]

theorem Journal.mapRow_get? {j : Journal} {n n' : ℕ} {f : Row → Row} {keys : List String}
    (hf : ∀ ps, Row.Keeps keys ps (f ps)) {k : String} (hk : n = n' → k ∉ keys) :
    ((j.mapRow n f).row n').get? k = (j.row n').get? k := by
  unfold mapRow
  split
  · rename_i fields hrow
    rw [row_put_packets (objects_of_row hrow)]
    split
    · rename_i heq
      rw [heq,hrow]
      exact hf ⟨fields⟩ k (hk heq.symm)
    · rfl
  · rfl

theorem put_get? {j : Journal} {n n' : ℕ} {ps ps' : Row} {keys : List String}
    (hps : journalPacket j n = .ok ps) (hkeeps : Row.Keeps keys ps ps') {k : String}
    (hk : n = n' → k ∉ keys) : ((j.put n ps').row n').get? k = (j.row n').get? k := by
  obtain ⟨hobjects,hrow,-⟩ := journalPacket_ok hps
  rw [Journal.row_put hobjects]
  split
  · rename_i heq
    rw [← Journal.entry_get? j n n',heq,hrow]
    exact hkeeps k (hk heq.symm)
  · rfl

/-- A key of a row changes only under an operation that writes it. -/
theorem apply_keeps (op : Operation) (j : Journal) {n : ℕ} {k : String} (hk : k ∉ op.keys n) :
    ((op.apply lib j).row n).get? k = (j.row n).get? k := by
  cases op with
  | observe prs => rfl
  | refresh m policy inputs =>
    simp only [Operation.apply]
    split
    · rename_i j' hj'
      have hrefresh := refresh_ok hj'
      by_cases hn : ∃ p ∈ m.packets, p.number = n
      · obtain ⟨p,hp,rfl⟩ := hn
        exact (hrefresh.owners p hp).keeps k hk
      · rw [hrefresh.others n fun p hp heq => hn ⟨p,hp,heq⟩]
    · rfl
  | recheck m policy now =>
    refine Journal.mapRow_get? (scheduleRecheck_keeps policy now) fun h => ?_
    simpa [Operation.keys,h] using hk
  | recover m idle now =>
    refine Journal.mapRow_get? (recordIdleRecovery_keeps idle now) fun h => ?_
    simpa [Operation.keys,h] using hk
  | prepare p policy text at_ =>
    simp only [Operation.apply,prepare]
    split
    · exact Journal.entry_get? _ _ _ _
    · rename_i ps hps
      split
      · exact Journal.entry_get? _ _ _ _
      · rename_i ps' body hrow
        refine put_get? hps (prepareRow_keeps hrow) fun h => ?_
        simpa [Operation.keys,h] using hk
  | acknowledge m id at_ =>
    simp only [Operation.apply,acknowledge]
    split
    · exact Journal.entry_get? _ _ _ _
    · rename_i ps hps
      split
      · exact Journal.entry_get? _ _ _ _
      · refine put_get? hps (deliver_keeps ps at_) fun h => ?_
        simpa [Operation.keys,h] using hk

theorem apply_keeps_get (op : Operation) (j : Journal) {n : ℕ} {k : String} (hk : k ∉ op.keys n) :
    ((op.apply lib j).row n).get k = (j.row n).get k :=
  congrArg (Option.getD · Json.null) (apply_keeps op j hk)

/-! ## Runs -/

/-- Operations in any order, from any journal; a failed one leaves what it leaves. -/
structure Run (lib : Library) where
  state : ℕ → Journal
  op : ℕ → Operation
  step : ∀ t, state (t+1) = (op t).apply lib (state t)

/-- The journals reached from `j` by the operations of `op`, one after the other. -/
def states (lib : Library) (j : Journal) (op : ℕ → Operation) : ℕ → Journal
  | 0 => j
  | t+1 => (op t).apply lib (states lib j op t)

def Run.start (lib : Library) (j : Journal) (op : ℕ → Operation) : Run lib where
  state := states lib j op
  op := op
  step _ := rfl

namespace Run

variable (run : Run lib)

/-- The row of the owner `n` at time `t`. -/
def row (t n : ℕ) : Json := (run.state t).row n

/-- At time `t` the owner `n` is prepared afresh, with the request `body`. -/
structure Prepares (t n : ℕ) (p : Packet) (policy : Policy) (text at_ : String) (body : Json) :
    Prop where
  op : run.op t = .prepare p policy text at_
  number : p.number = n
  result : (Orchestration.prepare lib (run.state t) p policy text at_).1 = .ok body
  fresh : ((run.row t n).get "pending").isNull = true

/-- At time `t` the request `id` of the owner `n` is acknowledged. -/
structure Acknowledges (t n : ℕ) (id : String) : Prop where
  op : ∃ at_, run.op t = .acknowledge n id at_ ∧
    (Orchestration.acknowledge (run.state t) n id at_).1 = .ok ()

theorem row_keeps {t n : ℕ} {k : String} (hk : k ∉ (run.op t).keys n) :
    (run.row (t+1) n).get k = (run.row t n).get k := by
  unfold row
  rw [run.step]
  exact apply_keeps_get _ _ hk

end Run

/-! ## What prepare and acknowledge write -/

theorem journalPacket_get {j : Journal} {n : ℕ} {ps : Row} (h : journalPacket j n = .ok ps)
    (k : String) : ps.get k = (j.row n).get k := by
  obtain ⟨-,hrow,-⟩ := journalPacket_ok h
  rw [← Row.json_get,← hrow,Journal.entry_get]

theorem admissionGeneration_ok {ps : Row} {g : ℕ} (h : admissionGeneration ps = .ok g) :
    g = (ps.get "admissionGeneration").asU64.getD 0 + 1 ∧ g < 2^64 := by
  obtain ⟨m,hm,h⟩ := bind_ok h
  obtain ⟨rfl,hlt⟩ := bump_ok h
  unfold admitted at hm
  refine ⟨?_,hlt⟩
  have hget : ps.get "admissionGeneration" = (ps.get? "admissionGeneration").getD .null := rfl
  rw [hget]
  split at hm
  · rename_i hnone
    simp_all [asU64]
  · rename_i hnull
    simp_all [asU64]
  · rename_i v _ hsome
    split at hm
    · rename_i n hn
      obtain rfl := Except.ok.inj hm
      simp [hsome,hn]
    · cases hm

/-- What a fresh prepare leaves in the row. -/
structure Admitted (lib : Library) (p : Packet) (policy : Policy) (r r' body : Json) : Prop where
  version : (r'.get "pending").get "version" = r.get "version"
  stored : (r'.get "pending").get "body" = body
  generation : (r'.get "admissionGeneration").asU64.getD 0 =
    (r.get "admissionGeneration").asU64.getD 0 + 1
  id : body.get "id" = .str ("msg_" ++ short (digest lib (messageInputs p policy (r.get "version")
    ((r'.get "admissionGeneration").asU64.getD 0))))
  due : needsWake r = true

theorem enqueue_get (ps : Row) (policy : Policy) (g : ℕ) (body : Json) (at_ : String) :
    (enqueue ps policy g body at_).get "pending" = object [("version",ps.get "version"),
      ("observationVersion",ps.get "observationVersion"),
      ("progressVersion",ps.get "progressVersion"),("goalPolicy",.str policy.goalPolicy),
      ("body",body),("preparedAt",.str at_)] := by
  simp [enqueue]

theorem messageBody_id (p : Packet) (policy : Policy) (v : Json) (g : ℕ) (text : String) :
    (messageBody lib p policy v g text).get "id" =
      .str ("msg_" ++ short (digest lib (messageInputs p policy v g))) :=
  object_get (by simp) (by simp)

theorem prepare_fresh {j : Journal} {p : Packet} {policy : Policy} {text at_ : String} {body : Json}
    (h : (prepare lib j p policy text at_).1 = .ok body)
    (hfresh : ((j.row p.number).get "pending").isNull = true) :
    Admitted lib p policy (j.row p.number) ((prepare lib j p policy text at_).2.row p.number) body := by
  unfold prepare at h ⊢
  split at h
  · cases h
  · rename_i ps hps
    have hget := journalPacket_get hps
    obtain ⟨hobjects,-,-⟩ := journalPacket_ok hps
    split at h
    · cases h
    · rename_i ps' body' hrow
      obtain rfl := Except.ok.inj h
      unfold prepareRow at hrow
      rw [if_neg (by simp [hget,hfresh])] at hrow
      obtain ⟨⟨⟩,hdue,hrow⟩ := bind_ok hrow
      obtain ⟨⟨⟩,-,hrow⟩ := bind_ok hrow
      obtain ⟨g,hg,hrow⟩ := bind_ok hrow
      obtain ⟨rfl,rfl⟩ := Prod.mk.inj (Except.ok.inj hrow)
      obtain ⟨hg,hlt⟩ := admissionGeneration_ok hg
      have hcount : ((enqueue ps policy g (messageBody lib p policy (ps.get "version") g text)
          at_).get "admissionGeneration").asU64.getD 0 = g := by
        simp [enqueue,asU64_nat hlt]
      simp only [Journal.row_put hobjects,if_pos]
      refine ⟨?_,?_,?_,?_,?_⟩
      · rw [Row.json_get,enqueue_get,← hget]
        exact object_get (by simp) (by simp)
      · rw [Row.json_get,enqueue_get]
        exact object_get (by simp) (by simp)
      · rw [Row.json_get,hcount,hg,hget]
      · rw [Row.json_get,hcount,messageBody_id,hget]
      · have hdue' := (require_ok hdue).1
        unfold needsWake at hdue' ⊢
        simpa [hget] using hdue'

/-- What an acknowledgement leaves in the row. -/
structure Delivered (r r' : Json) : Prop where
  version : r'.get "deliveredVersion" = (r.get "pending").get "version"
  observation : r'.get "deliveredObservationVersion" = (r.get "pending").get "observationVersion"
  pending : r'.get "pending" = .null

theorem acknowledge_ok {j : Journal} {n : ℕ} {id at_ : String}
    (h : (acknowledge j n id at_).1 = .ok ()) :
    (((j.row n).get "pending").get "body").get "id" = .str id ∧
      Delivered (j.row n) ((acknowledge j n id at_).2.row n) := by
  unfold acknowledge at h ⊢
  split at h
  · cases h
  · rename_i ps hps
    have hget := journalPacket_get hps
    obtain ⟨hobjects,-,-⟩ := journalPacket_ok hps
    split at h
    · cases h
    · rename_i hid
      rw [not_not] at hid
      rw [hget,asStr_eq] at hid
      refine ⟨hid,?_⟩
      simp only [hget,hid,asStr,ne_eq,not_true_eq_false,if_false,Journal.row_put hobjects,if_pos]
      exact ⟨by simp [deliver,hget],by simp [deliver,hget],by simp [deliver]⟩

end Orchestration
end CanixToolbelt
