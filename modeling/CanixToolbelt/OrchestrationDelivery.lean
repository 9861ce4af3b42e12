import CanixToolbelt.OrchestrationRun
import CanixToolbelt.ManifestHistory

/-! No wake is lost: a pending request stands until it is acknowledged, and what was not
delivered with it stays due. -/
namespace CanixToolbelt
namespace Orchestration

open Fallible Json Canonical

variable {lib : Library}

/-! ## One step -/

/-- Beside a fresh request, `prepare` changes nothing that can be read. -/
theorem prepare_get {j : Journal} {p : Packet} {policy : Policy} {text at_ : String} {n : ℕ}
    (hstale : ∀ body, p.number = n → (prepare lib j p policy text at_).1 = .ok body →
      ((j.row n).get "pending").isNull = false) (k : String) :
    ((prepare lib j p policy text at_).2.row n).get k = (j.row n).get k := by
  unfold prepare at hstale ⊢
  split
  · exact Journal.entry_get _ _ _ _
  · rename_i ps hps
    have hget := journalPacket_get hps
    obtain ⟨hobjects,-,-⟩ := journalPacket_ok hps
    split
    · exact Journal.entry_get _ _ _ _
    · rename_i ps' body hrow
      rw [Journal.row_put hobjects]
      split
      · rename_i hn
        subst hn
        have hpending := hstale body rfl (by simp [hps,hrow])
        unfold prepareRow at hrow
        rw [if_pos (by simp [hget,hpending])] at hrow
        obtain ⟨rfl,-⟩ := Prod.mk.inj (Except.ok.inj hrow)
        exact hget k
      · rfl

/-- A refused acknowledgement changes nothing that can be read. -/
theorem acknowledge_get {j : Journal} {m n : ℕ} {id at_ : String}
    (hrefused : m = n → (acknowledge j m id at_).1 ≠ .ok ()) (k : String) :
    ((acknowledge j m id at_).2.row n).get k = (j.row n).get k := by
  unfold acknowledge at hrefused ⊢
  split
  · exact Journal.entry_get _ _ _ _
  · rename_i ps hps
    obtain ⟨hobjects,-,-⟩ := journalPacket_ok hps
    split
    · exact Journal.entry_get _ _ _ _
    · rename_i hid
      rw [Journal.row_put hobjects]
      split
      · rename_i hn
        have hno := hrefused hn.symm
        simp [hps,hid] at hno
      · rfl

namespace Run

variable (run : Run lib)

theorem row_succ (t n : ℕ) : run.row (t+1) n = ((run.op t).apply lib (run.state t)).row n := by
  rw [row,run.step]

/-- One step keeps a pending request, or acknowledges exactly it. -/
theorem pending_step (t n : ℕ) (h : ((run.row t n).get "pending").isNull = false) :
    (run.row (t+1) n).get "pending" = (run.row t n).get "pending" ∨
      ∃ id, (((run.row t n).get "pending").get "body").get "id" = .str id ∧
        run.Acknowledges t n id := by
  cases hop : run.op t with
  | observe prs =>
    left
    exact run.row_keeps (by simp [hop,Operation.keys])
  | refresh m policy inputs =>
    left
    refine run.row_keeps ?_
    rw [hop]
    show "pending" ∉ "feedbackObservations" :: refreshKeys
    decide
  | recheck m policy now =>
    left
    refine run.row_keeps ?_
    rw [hop,Operation.keys]
    split <;> simp
  | recover m idle now =>
    left
    refine run.row_keeps ?_
    rw [hop,Operation.keys]
    split <;> simp
  | prepare p policy text at_ =>
    left
    rw [row_succ,hop]
    exact prepare_get (fun _ _ _ => h) "pending"
  | acknowledge m id at_ =>
    by_cases hok : m = n ∧ (Orchestration.acknowledge (run.state t) n id at_).1 = .ok ()
    · right
      obtain ⟨rfl,hok⟩ := hok
      exact ⟨id,(acknowledge_ok hok).1,⟨at_,hop,hok⟩⟩
    · left
      rw [row_succ,hop]
      refine acknowledge_get (fun hmn hacc => hok ⟨hmn,?_⟩) "pending"
      rwa [hmn] at hacc

/-- A pending request stays as it is until an acknowledgement of exactly it. -/
theorem pending_kept {t u n : ℕ} (htu : t ≤ u) (h : ((run.row t n).get "pending").isNull = false)
    (hno : ∀ s id, t ≤ s → s < u → (((run.row t n).get "pending").get "body").get "id" = .str id →
      ¬ run.Acknowledges s n id) :
    (run.row u n).get "pending" = (run.row t n).get "pending" := by
  induction u, htu using Nat.le_induction with
  | base => rfl
  | succ u htu ih =>
    have hu := ih fun s id hs hsu => hno s id hs (by omega)
    rcases run.pending_step u n (by rwa [hu]) with hkept | hacc
    · rw [hkept,hu]
    · obtain ⟨id,hid,hacc⟩ := hacc
      rw [hu] at hid
      exact absurd hacc (hno u id htu (by omega) hid)

/-- The requests admitted for the owner `n` up to time `t`. -/
def admissions (t n : ℕ) : ℕ := ((run.row t n).get "admissionGeneration").asU64.getD 0

theorem admissions_step (t n : ℕ) : run.admissions t n ≤ run.admissions (t+1) n := by
  have hkeep : (run.row (t+1) n).get "admissionGeneration" = (run.row t n).get "admissionGeneration" →
      run.admissions t n ≤ run.admissions (t+1) n := by
    intro h
    rw [admissions,admissions,h]
  cases hop : run.op t with
  | prepare p policy text at_ =>
    by_cases hfresh : ∃ body, p.number = n ∧ (Orchestration.prepare lib (run.state t) p policy text
        at_).1 = .ok body ∧ ((run.row t n).get "pending").isNull = true
    · obtain ⟨body,rfl,hok,hnull⟩ := hfresh
      have hadmitted := (prepare_fresh hok hnull).generation
      have hrow : run.row (t+1) p.number =
          (Orchestration.prepare lib (run.state t) p policy text at_).2.row p.number := by
        rw [row_succ,hop]
        rfl
      unfold admissions
      rw [hrow,hadmitted]
      exact Nat.le_succ _
    · refine hkeep ?_
      rw [row_succ,hop]
      refine prepare_get (fun body hn hok => ?_) _
      by_contra hnull
      exact hfresh ⟨body,hn,hok,by simpa [row] using hnull⟩
  | observe prs => exact hkeep (run.row_keeps (by simp [hop,Operation.keys]))
  | refresh m policy inputs =>
    refine hkeep (run.row_keeps ?_)
    rw [hop]
    show "admissionGeneration" ∉ "feedbackObservations" :: refreshKeys
    decide
  | recheck m policy now =>
    refine hkeep (run.row_keeps ?_)
    rw [hop,Operation.keys]
    split <;> simp
  | recover m idle now =>
    refine hkeep (run.row_keeps ?_)
    rw [hop,Operation.keys]
    split <;> simp
  | acknowledge m id at_ =>
    refine hkeep (run.row_keeps ?_)
    rw [hop,Operation.keys]
    split <;> simp

theorem admissions_mono {t u : ℕ} (htu : t ≤ u) (n : ℕ) :
    run.admissions t n ≤ run.admissions u n := by
  induction u, htu using Nat.le_induction with
  | base => exact Nat.le_refl _
  | succ u _ ih => exact ih.trans (run.admissions_step u n)

/-- What a fresh prepare at time `t` leaves. -/
theorem Prepares.admitted {t n : ℕ} {p : Packet} {policy : Policy} {text at_ : String} {body : Json}
    {run : Run lib} (h : run.Prepares t n p policy text at_ body) :
    Admitted lib p policy (run.row t n) (run.row (t+1) n) body := by
  have hnumber := h.number
  subst hnumber
  rw [row_succ,h.op]
  exact prepare_fresh h.result h.fresh

theorem Acknowledges.delivered {t n : ℕ} {id : String} {run : Run lib}
    (h : run.Acknowledges t n id) :
    (((run.row t n).get "pending").get "body").get "id" = .str id ∧
      Delivered (run.row t n) (run.row (t+1) n) := by
  obtain ⟨at_,hop,hok⟩ := h.op
  rw [row_succ,hop]
  exact acknowledge_ok hok

/-- A packet still due after its acknowledgement is due again. -/
theorem Acknowledges.due {t n : ℕ} {id : String} {run : Run lib} (h : run.Acknowledges t n id)
    (hversion : (run.row t n).get "version" ≠ ((run.row t n).get "pending").get "version")
    (hterminal : (run.row t n).get "terminal" ≠ .bool true) :
    needsWake (run.row (t+1) n) = true := by
  obtain ⟨at_,hop,-⟩ := h.op
  have hdelivered := h.delivered.2
  have hkeep : ∀ k, k ∉ (run.op t).keys n → (run.row (t+1) n).get k = (run.row t n).get k :=
    fun k hk => run.row_keeps hk
  rw [hop] at hkeep
  simp only [Operation.keys,if_pos] at hkeep
  simp [needsWake,hdelivered.pending,hdelivered.version,hkeep "version" (by decide),
    hkeep "terminal" (by decide),isNull,hversion,hterminal]

/-! ## Identities -/

/-- The texts hashed for the identities of this run's fresh requests. -/
def messages : Set String :=
  {s | ∃ t n p policy text at_ body, run.Prepares t n p policy text at_ body ∧
    s = String.ofList (canonical lib (messageInputs p policy ((run.row t n).get "version")
      (run.admissions (t+1) n)))}

/-- Only owners of the retained manifest are prepared, as the driver does. -/
def Owned : Prop :=
  ∀ t p policy text at_, run.op t = .prepare p policy text at_ →
    ∃ m, (run.state t).retained = some (.ok m) ∧ m.validate none = .ok () ∧ p ∈ m.packets

theorem retained_prepare (j : Journal) (p : Packet) (policy : Policy) (text at_ : String) :
    (Orchestration.prepare lib j p policy text at_).2.retained = j.retained := by
  unfold Orchestration.prepare
  split
  · exact Journal.retained_entry _ _
  · split
    · exact Journal.retained_entry _ _
    · rfl

theorem retained_acknowledge (j : Journal) (n : ℕ) (id at_ : String) :
    (Orchestration.acknowledge j n id at_).2.retained = j.retained := by
  unfold Orchestration.acknowledge
  split
  · exact Journal.retained_entry _ _
  · split
    · exact Journal.retained_entry _ _
    · rfl

theorem retained_apply (op : Operation) (j : Journal) {m : Manifest}
    (h : j.retained = some (.ok m)) :
    (op.apply lib j).retained = some (.ok m) ∨
      ∃ m', (op.apply lib j).retained = some (.ok m') ∧ m.After m' := by
  have hmap : ∀ n f, (j.mapRow n f).retained = j.retained := by
    intro n f
    unfold Journal.mapRow
    split <;> rfl
  cases op with
  | observe prs => exact .inl h
  | refresh m' policy inputs =>
    simp only [Operation.apply]
    split
    · rename_i j' hj'
      have hrefreshed := refresh_ok hj'
      exact .inr ⟨m',hrefreshed.retained,validate_iff.mp (hrefreshed.extended m h)⟩
    · exact .inl h
  | recheck n policy now => exact .inl ((hmap n _).trans h)
  | recover n idle now => exact .inl ((hmap n _).trans h)
  | prepare p policy text at_ => exact .inl ((retained_prepare _ _ _ _ _).trans h)
  | acknowledge n id at_ => exact .inl ((retained_acknowledge _ _ _ _).trans h)

/-- A valid retained manifest is only ever replaced by one accepted after it. -/
theorem retained_after {t u : ℕ} (htu : t ≤ u) {m : Manifest} (hm : m.validateOwn = .ok ())
    (h : (run.state t).retained = some (.ok m)) :
    ∃ m', (run.state u).retained = some (.ok m') ∧ m.After m' := by
  induction u, htu using Nat.le_induction with
  | base => exact ⟨m,h,.refl hm⟩
  | succ u _ ih =>
    obtain ⟨m',hm',hafter⟩ := ih
    rw [run.step]
    rcases retained_apply (run.op u) (run.state u) hm' with hsame | hnext
    · exact ⟨m',hsame,hafter⟩
    · obtain ⟨m'',hm'',hafter'⟩ := hnext
      exact ⟨m'',hm'',hafter.trans hafter'⟩

theorem messageInputs_inj (hlib : lib.Spells) {p p' : Packet} {policy policy' : Policy} {v v' : Json}
    {g g' : ℕ} (h : canonical lib (messageInputs p policy v g) =
      canonical lib (messageInputs p' policy' v' g')) : p.sessionId = p'.sessionId ∧ g = g' := by
  have hitems := canonical_arr_inj hlib h
  simp only [List.map_cons,List.map_nil,List.cons.injEq,and_true] at hitems
  exact ⟨canonical_str_inj hitems.1,canonical_nat_inj hitems.2.2.2⟩

theorem id_ne_of_lt (hlib : lib.Spells) (howned : run.Owned)
    (hinj : Set.InjOn (fun text => short (lib.sha256 text)) run.messages)
    {t u n n' : ℕ} {p p' : Packet} {policy policy' : Policy} {text text' at_ at_' : String}
    {body body' : Json} (ht : run.Prepares t n p policy text at_ body)
    (hu : run.Prepares u n' p' policy' text' at_' body') (htu : t < u) :
    body.get "id" ≠ body'.get "id" := by
  intro heq
  have hid := ht.admitted.id
  have hid' := hu.admitted.id
  rw [heq,hid',Json.str.injEq,String.append_right_inj] at hid
  have htext := hinj ⟨t,n,p,policy,text,at_,body,ht,rfl⟩ ⟨u,n',p',policy',text',at_',body',hu,rfl⟩
    hid.symm
  obtain ⟨hsession,hgeneration⟩ := messageInputs_inj hlib (String.ofList_injective htext)
  by_cases hn : n = n'
  · -- one owner: each fresh request counts one more
    subst hn
    have hmono := run.admissions_mono (show t + 1 ≤ u by omega) n
    have hnext : run.admissions (u+1) n = run.admissions u n + 1 := hu.admitted.generation
    omega
  · -- two owners of one history of manifests have two sessions
    obtain ⟨m,hm,hvalid,hp⟩ := howned t p policy text at_ ht.op
    obtain ⟨m',hm',hvalid',hp'⟩ := howned u p' policy' text' at_' hu.op
    obtain ⟨m'',hm'',hafter⟩ := run.retained_after (Nat.le_of_lt htu) (validate_none.mp hvalid) hm
    rw [hm'] at hm''
    obtain rfl : m' = m'' := by simpa using hm''
    obtain ⟨q,hq,hsucc⟩ := hafter.owners p hp
    have hqp : q = p' := (validateOwn_ok hafter.own).session_eq hq hp' (hsucc.session.trans hsession)
    have hnumber := hsucc.number
    rw [hqp,hu.number,ht.number] at hnumber
    exact hn hnumber.symm

/-- Journal event delivery loses nothing.  A fresh request is stored with its body and the
version it is about; it stays as it is until an acknowledgement with its identity, which
delivers exactly that version; a newer version is then due; and no two requests share an
identity. -/
theorem delivery_loses_nothing (hlib : lib.Spells) (howned : run.Owned)
    (hinj : Set.InjOn (fun text => short (lib.sha256 text)) run.messages) :
    (∀ t n p policy text at_ body, run.Prepares t n p policy text at_ body →
      ((run.row (t+1) n).get "pending").get "body" = body ∧
      ((run.row (t+1) n).get "pending").get "version" = (run.row t n).get "version") ∧
    (∀ t u n, t ≤ u → ((run.row t n).get "pending").isNull = false →
      (∀ s id, t ≤ s → s < u → (((run.row t n).get "pending").get "body").get "id" = .str id →
        ¬ run.Acknowledges s n id) →
      (run.row u n).get "pending" = (run.row t n).get "pending") ∧
    (∀ t n id, run.Acknowledges t n id →
      (((run.row t n).get "pending").get "body").get "id" = .str id ∧
      (run.row (t+1) n).get "deliveredVersion" = ((run.row t n).get "pending").get "version" ∧
      ((run.row t n).get "version" ≠ ((run.row t n).get "pending").get "version" →
        (run.row t n).get "terminal" ≠ .bool true → needsWake (run.row (t+1) n) = true)) ∧
    (∀ t u n n' p p' policy policy' text text' at_ at_' body body',
      run.Prepares t n p policy text at_ body → run.Prepares u n' p' policy' text' at_' body' →
      t ≠ u → body.get "id" ≠ body'.get "id") := by
  refine ⟨fun t n p policy text at_ body h => ?_,fun t u n htu h hno => ?_,fun t n id h => ?_,?_⟩
  · exact ⟨h.admitted.stored,h.admitted.version⟩
  · exact run.pending_kept htu h hno
  · exact ⟨h.delivered.1,h.delivered.2.version,h.due⟩
  · intro t u n n' p p' policy policy' text text' at_ at_' body body' ht hu hne
    rcases Nat.lt_or_gt_of_ne hne with htu | hut
    · exact run.id_ne_of_lt hlib howned hinj ht hu htu
    · exact (run.id_ne_of_lt hlib howned hinj hu ht hut).symm

/-! A run on two owners: both are woken, and the first turn is acknowledged. -/

def wakeLibrary : Library := tableLibrary
  [("[\"ses_one\",\"event-1\",\"goal-1\",1]",
      "7cafa32bbda3d390fc8cbc6c61cecae195a21e92c172627a52e6a3ab8d20db20"),
    ("[\"ses_two\",\"event-2\",\"goal-1\",1]",
      "ee3e6a3ca8edec53674649f2b4a954837687bf70f34e8370db7e2b237f9b0f33")]

def wakeJournal : Journal where
  retained := some (.ok original)
  prs := .obj []
  packets := .obj [("1",.obj [("version",.str "event-1")]),("2",.obj [("version",.str "event-2")])]

def wakePolicy : Policy := ⟨"goal-1",[],[],[],[]⟩

def wakeOne : Packet := ⟨1,"ses_one","builder","Owner 1",["one"],[],[],[2],∅⟩
def wakeTwo : Packet := ⟨2,"ses_two","mobile","Owner 2",["two"],[],[],[],∅⟩

def wakeOps : ℕ → Operation
  | 0 => .prepare wakeOne wakePolicy "Continue." "2026-01-01T00:00:00Z"
  | 1 => .prepare wakeTwo wakePolicy "Continue." "2026-01-01T00:00:01Z"
  | 2 => .acknowledge 1 "msg_7cafa32bbda3d390fc8cbc6c61cecae1" "2026-01-01T00:00:02Z"
  | _ => .observe (.obj [])

def wakes : Run wakeLibrary := .start wakeLibrary wakeJournal wakeOps

def wakeBody (p : Packet) (version : String) : Json :=
  messageBody wakeLibrary p wakePolicy (.str version) 1 "Continue."

theorem wakes_one : wakes.Prepares 0 1 wakeOne wakePolicy "Continue." "2026-01-01T00:00:00Z"
    (wakeBody wakeOne "event-1") :=
  ⟨rfl,rfl,by decide +kernel,by decide +kernel⟩

theorem wakes_two : wakes.Prepares 1 2 wakeTwo wakePolicy "Continue." "2026-01-01T00:00:01Z"
    (wakeBody wakeTwo "event-2") :=
  ⟨rfl,rfl,by decide +kernel,by decide +kernel⟩

theorem wakes_owned : wakes.Owned := by
  intro t p policy text at_ hop
  have hvalid := original_valid
  match t,hop with
  | 0,hop =>
    obtain ⟨rfl,-⟩ := Operation.prepare.inj hop
    exact ⟨original,rfl,hvalid,by simp [original,wakeOne]⟩
  | 1,hop =>
    obtain ⟨rfl,-⟩ := Operation.prepare.inj hop
    exact ⟨original,retained_prepare _ _ _ _ _,hvalid,by simp [original,wakeTwo]⟩
  | 2,hop => cases hop
  | t+3,hop => cases hop

theorem wakes_messages : wakes.messages ⊆ {"[\"ses_one\",\"event-1\",\"goal-1\",1]",
    "[\"ses_two\",\"event-2\",\"goal-1\",1]"} := by
  intro s hs
  obtain ⟨t,n,p,policy,text,at_,body,h,rfl⟩ := hs
  match t,h.op with
  | 0,hop =>
    obtain ⟨rfl,rfl,-⟩ := Operation.prepare.inj hop
    left
    rw [← h.number]
    decide +kernel
  | 1,hop =>
    obtain ⟨rfl,rfl,-⟩ := Operation.prepare.inj hop
    right
    rw [← h.number]
    decide +kernel
  | 2,hop => cases hop
  | t+3,hop => cases hop

/-- The second request stands, the first is delivered, and they are two. -/
theorem wakes_delivered :
    (wakes.row 3 2).get "pending" = (wakes.row 2 2).get "pending" ∧
      (wakes.row 3 1).get "deliveredVersion" = ((wakes.row 2 1).get "pending").get "version" ∧
      (wakeBody wakeOne "event-1").get "id" ≠ (wakeBody wakeTwo "event-2").get "id" := by
  obtain ⟨-,hkept,hacknowledged,hdistinct⟩ := wakes.delivery_loses_nothing (tableLibrary_spells _)
    wakes_owned (Set.InjOn.mono wakes_messages (by
      rintro a (rfl|rfl) b (rfl|rfl) h
      · rfl
      · exact absurd h (by decide +kernel)
      · exact absurd h (by decide +kernel)
      · rfl))
  refine ⟨?_,?_,?_⟩
  · apply hkept 2 3 2 (by omega) (by decide +kernel)
    intro s id hs hlt _ hacc
    obtain rfl : s = 2 := by omega
    obtain ⟨at_,hop,-⟩ := hacc.op
    cases hop
  · refine (hacknowledged 2 1 "msg_7cafa32bbda3d390fc8cbc6c61cecae1" ⟨⟨_,rfl,?_⟩⟩).2.1
    decide +kernel
  · exact hdistinct 0 1 _ _ _ _ _ _ _ _ _ _ _ _ wakes_one wakes_two (by omega)

end Run

end Orchestration
end CanixToolbelt
