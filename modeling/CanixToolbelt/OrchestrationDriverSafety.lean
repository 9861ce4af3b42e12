import CanixToolbelt.OrchestrationDriver
import CanixToolbelt.OrchestrationRun

/-! What a cycle may send: every prompt and every compaction is of an owner that was admitted, under
a verified fence, once, and as the published journal has it. -/
namespace CanixToolbelt
namespace Orchestration
namespace Driver

open Effect Script Fallible Json Canonical Capacity

/-! ## Readings -/

/-- A request that changes nothing. -/
def Call.Reads : Call → Prop
  | .api _ method _ _ => method = .get
  | .persist _ => False
  | _ => True

section
variable {σ : Type}

theorem request_reads (p : Packet) (suffix : String) :
    Uses Call.Reads (request p suffix : Script Call Call.Answer σ String Json) :=
  uses_bind (uses_ask rfl) fun _ => uses_lift _

end

theorem verifyMirrorInbox_reads (p : Packet) (host : String) :
    Uses Call.Reads (verifyMirrorInbox p host) := by
  unfold verifyMirrorInbox
  split
  · exact uses_pure _
  · refine uses_bind (uses_ask rfl) fun reply => ?_
    split
    · exact uses_pure _
    · refine uses_bind (uses_lift _) fun data => ?_
      split
      · exact uses_throw _
      · exact uses_pure _
      · exact uses_throw _

section
variable {τ : Type} (p : Packet) (kind : String) (select : τ → Json → Except String (τ × Bool))

theorem searchPages_reads (left : ℕ) (cursor : Option String) (cursors : List String) (s : Scan τ) :
    Uses Call.Reads (searchPages p kind select left cursor cursors s) := by
  induction left generalizing cursor cursors s with
  | zero => exact uses_throw _
  | succ left ih =>
    unfold searchPages
    refine uses_bind (request_reads p _) fun page => ?_
    refine uses_bind (uses_lift _) fun messages => ?_
    refine uses_bind (uses_lift _) fun ⟨s,found⟩ => ?_
    cases found with
    | some m => exact uses_pure _
    | none =>
      refine uses_bind (uses_lift _) fun next => ?_
      cases next with
      | none => exact uses_pure _
      | some next => exact ih _ _ _

end

theorem physicalContext_reads (p : Packet) : Uses Call.Reads (physicalContext p) := by
  refine uses_bind (searchPages_reads p _ _ _ _ _ _) fun ⟨s,found⟩ => ?_
  cases found with
  | none => exact uses_throw _
  | some m => exact uses_pure _

theorem compactionHistory_reads (p : Packet) (ids : List String) :
    Uses Call.Reads (compactionHistory p ids) :=
  uses_bind (searchPages_reads p _ _ _ _ _ _) fun _ => uses_pure _

theorem sight_reads (raw : List (String × Json)) (expected : Expectations) (p : Packet) :
    Uses Call.Reads (sight raw expected p) := by
  refine uses_bind (uses_lift _) fun _ => ?_
  refine uses_bind (uses_forM (verifyMirrorInbox_reads p) _) fun _ => ?_
  refine uses_bind (request_reads p _) fun info => ?_
  cases expected.lookup p.number with
  | none => exact uses_throw _
  | some identity =>
    refine uses_bind (uses_lift _) fun _ => ?_
    refine uses_bind (request_reads p _) fun _ => ?_
    refine uses_bind (uses_lift _) fun _ => ?_
    refine uses_bind (uses_lift _) fun _ => ?_
    refine uses_bind (request_reads p _) fun page => ?_
    cases page.asArray <|> (page.get "data").asArray with
    | none => exact uses_throw _
    | some recent =>
      refine uses_bind (uses_bind (physicalContext_reads p) fun ⟨_,_⟩ =>
        uses_bind (compactionHistory_reads p _) fun _ => uses_pure _) fun ⟨physical,history⟩ => ?_
      refine uses_bind (uses_lift _) fun tokens => ?_
      split
      · exact uses_throw _
      · exact uses_pure _

theorem confirm_reads (raw : List (String × Json)) (sightings : List (ℕ × Sighting)) (p : Packet) :
    Uses Call.Reads (confirm raw sightings p) := by
  refine uses_bind (uses_forM (verifyMirrorInbox_reads p) _) fun _ => ?_
  refine uses_bind (request_reads p _) fun _ => ?_
  refine uses_bind (uses_lift _) fun _ => ?_
  refine uses_bind (uses_lift _) fun _ => ?_
  split
  · exact uses_throw _
  · refine uses_bind (physicalContext_reads p) fun x => ?_
    obtain ⟨_,_⟩ := x
    dsimp only
    split
    · exact uses_throw _
    · exact uses_bind (compactionHistory_reads p _) fun _ => uses_lift _

theorem confirmActivity_reads (observed : String × Json) :
    Uses Call.Reads (confirmActivity observed) :=
  uses_bind (uses_ask rfl) fun _ => uses_bind (uses_lift _) fun _ => uses_lift _

theorem observeActivity_reads (m : Manifest) (raw : List (String × Json)) (host : String) :
    Uses Call.Reads (observeActivity m raw host) := by
  refine uses_bind (uses_ask rfl) fun _ => ?_
  refine uses_bind (uses_lift _) fun data => ?_
  split
  · exact uses_throw _
  · split
    · exact uses_throw _
    · exact uses_pure _

section
variable (lib : Library) (m : Manifest) (policy : Policy) (expected : Expectations)

theorem observeFenced_reads : Uses Call.Reads (observeFenced lib m policy expected) := by
  refine uses_bind (uses_ask trivial) fun _ => ?_
  refine uses_bind (uses_lift _) fun _ => ?_
  refine uses_bind (uses_lift _) fun _ => ?_
  refine uses_bind (uses_foldlM (observeActivity_reads m) _ _) fun raw => ?_
  refine uses_bind (uses_foldlM (fun seen p => uses_bind (uses_lift _) fun _ =>
    uses_bind (sight_reads raw expected p) fun _ => uses_pure _) _ _) fun ⟨active,sightings⟩ => ?_
  refine uses_bind (uses_forM (confirm_reads raw sightings) _) fun _ => ?_
  refine uses_bind (uses_forM confirmActivity_reads _) fun _ => ?_
  refine uses_bind (uses_lift _) fun _ => ?_
  exact uses_bind (uses_ask trivial) fun _ => uses_pure _

theorem reconcileOwner_reads (o : Observation) (at_ : String) (j : Journal) (p : Packet) :
    Uses Call.Reads (reconcileOwner o at_ j p) := by
  unfold reconcileOwner
  dsimp only
  split
  · exact uses_pure _
  · rename_i id hid
    have hfind : Uses Call.Reads (findReceipt o p id) := by
      unfold findReceipt
      split
      · exact uses_pure _
      · refine uses_bind (uses_ask rfl) fun reply => ?_
        split
        · exact uses_pure _
        · exact uses_bind (uses_lift _) fun _ => uses_pure _
    refine uses_bind hfind fun receipt => ?_
    cases receipt with
    | none => exact uses_pure _
    | some receipt =>
      exact uses_bind (uses_lift _) fun _ => uses_bind (uses_lift _) fun _ => uses_pure _

theorem revise_reads (o : Observation) (at_ : String) (now : ℤ) (candidate : Journal) :
    Uses Call.Reads (revise lib m policy o at_ now candidate) :=
  uses_bind (uses_foldlM (reconcileOwner_reads o at_) _ _) fun _ => uses_lift _

end

/-! ## The owners that are chosen -/

theorem occupy_hosts (active : Activity) (host : String) (n : ℕ) :
    (occupy active host n).map Prod.fst = active.map Prod.fst := by
  simp only [occupy,List.map_map]
  refine List.map_congr_left fun f _ => ?_
  simp only [Function.comp_apply]
  split <;> rfl

theorem owners_occupy_other (active : Activity) {host host' : String} (n : ℕ) (h : host' ≠ host) :
    owners (occupy active host n) host' = owners active host' := by
  induction active with
  | nil => rfl
  | cons f fs ih =>
    obtain ⟨host₁,ns⟩ := f
    simp only [owners,occupy,List.map_cons] at ih ⊢
    by_cases h₁ : host' = host₁
    · subst h₁
      rw [if_neg (by simp [h]),List.lookup_cons_self,List.lookup_cons_self]
    · have hne : (host' == host₁) = false := by simpa using h₁
      split
      · rw [List.lookup_cons,List.lookup_cons,hne]
        exact ih
      · rw [List.lookup_cons,List.lookup_cons,hne]
        exact ih

theorem owners_occupy_self {active : Activity} {host : String} (n : ℕ)
    (h : host ∈ active.map Prod.fst) : owners (occupy active host n) host =
      if n ∈ owners active host then owners active host
      else (owners active host).orderedInsert (· ≤ ·) n := by
  induction active with
  | nil => cases h
  | cons f fs ih =>
    obtain ⟨host₁,ns⟩ := f
    by_cases h₁ : host = host₁
    · subst h₁
      simp only [owners,occupy,List.map_cons,List.lookup_cons_self,Option.getD_some,true_and]
      by_cases hn : n ∈ ns
      · simp [hn]
      · simp [hn]
    · have hmem : host ∈ fs.map Prod.fst := by simpa [h₁] using h
      have hne : (host == host₁) = false := by simpa using h₁
      have hne' : ¬ host₁ = host := fun heq => h₁ heq.symm
      simp only [owners,occupy,List.map_cons,hne',false_and,if_false,List.lookup_cons,hne] at ih ⊢
      exact ih hmem

theorem mem_owners_occupy {active : Activity} {host host' : String} {n k : ℕ}
    (h : k ∈ owners active host') : k ∈ owners (occupy active host n) host' := by
  by_cases hh : host' = host
  · subst hh
    by_cases hmem : host' ∈ active.map Prod.fst
    · rw [owners_occupy_self n hmem]
      split
      · exact h
      · exact (List.mem_orderedInsert _).mpr (.inr h)
    · have hlookup : active.lookup host' = none := by
        rw [List.lookup_eq_none_iff]
        intro f hf
        simpa using fun heq => hmem (List.mem_map.mpr ⟨f,hf,heq.symm⟩)
      rw [owners,hlookup] at h
      cases h
  · rwa [owners_occupy_other active n hh]

theorem self_mem_occupy {active : Activity} {host : String} (n : ℕ)
    (h : host ∈ active.map Prod.fst) : n ∈ owners (occupy active host n) host := by
  rw [owners_occupy_self n h]
  split
  · assumption
  · exact (List.mem_orderedInsert _).mpr (.inl rfl)

/-- The owners admitted beside those that were observed. -/
structure Slice (m : Manifest) (policy : Policy) (occupied : Activity) (selected : List Packet) :
    Prop where
  owned : ∀ p ∈ selected, p ∈ m.packets
  idle : ∀ p ∈ selected, p.number ∉ owners occupied p.ownerHost
  once : (selected.map (·.number)).Nodup
  capacity : ∀ host, held occupied host + load (·.ownerHost) selected host ≤
    max (hostLimit policy host) (held occupied host)

section
variable {m : Manifest} {policy : Policy} {j : Journal} {occupied : Activity}

/-- What the durable requests have reserved of these owners. -/
structure Reserved (policy : Policy) (occupied : Activity) (seen : List Packet)
    (chosen : List Packet × Activity) : Prop where
  sub : chosen.1.Sublist seen
  hosts : chosen.2.map Prod.fst = occupied.map Prod.fst
  idle : ∀ p ∈ chosen.1, p.number ∉ owners occupied p.ownerHost
  counts : ∀ host, held chosen.2 host = held occupied host + load (·.ownerHost) chosen.1 host
  room : ∀ host, held chosen.2 host ≤ max (hostLimit policy host) (held occupied host)
  keeps : ∀ host n, n ∈ owners occupied host → n ∈ owners chosen.2 host
  listed : ∀ p ∈ chosen.1, p.number ∈ owners chosen.2 p.ownerHost

theorem Reserved.step {seen : List Packet} {chosen : List Packet × Activity} {p : Packet}
    (h : Reserved policy occupied seen chosen) (hp : p.ownerHost ∈ occupied.map Prod.fst) :
    Reserved policy occupied (seen ++ [p]) (reserve policy j chosen p) := by
  unfold reserve
  dsimp only
  split
  · rename_i hroom
    simp only [Bool.and_eq_true,decide_eq_true_eq] at hroom
    obtain ⟨⟨-,hnew⟩,hlt⟩ := hroom
    have hhost : p.ownerHost ∈ chosen.2.map Prod.fst := by rw [h.hosts]; exact hp
    have hself : held (occupy chosen.2 p.ownerHost p.number) p.ownerHost =
        held chosen.2 p.ownerHost + 1 := by
      unfold held
      rw [owners_occupy_self _ hhost,if_neg hnew,List.orderedInsert_length]
    refine ⟨h.sub.append (List.Sublist.refl _),?_,?_,?_,?_,?_,?_⟩
    · rw [occupy_hosts,h.hosts]
    · intro q hq
      rcases List.mem_append.mp hq with hq | hq
      · exact h.idle q hq
      · obtain rfl := List.mem_singleton.mp hq
        exact fun hmem => hnew (h.keeps _ _ hmem)
    · intro host
      have hload : load (·.ownerHost) (chosen.1 ++ [p]) host =
          load (·.ownerHost) chosen.1 host + if p.ownerHost = host then 1 else 0 := by
        simp [load,List.countP_append,List.countP_cons]
      rw [hload]
      by_cases heq : host = p.ownerHost
      · subst heq
        rw [hself,h.counts,if_pos rfl,Nat.add_assoc]
      · rw [if_neg fun hh => heq hh.symm,Nat.add_zero,← h.counts]
        unfold held
        rw [owners_occupy_other _ _ heq]
    · intro host
      by_cases heq : host = p.ownerHost
      · subst heq
        rw [hself]
        exact le_max_of_le_left hlt
      · have hroom := h.room host
        unfold held at hroom ⊢
        rwa [owners_occupy_other _ _ heq]
    · exact fun host n hmem => mem_owners_occupy (h.keeps host n hmem)
    · intro q hq
      rcases List.mem_append.mp hq with hq | hq
      · exact mem_owners_occupy (h.listed q hq)
      · obtain rfl := List.mem_singleton.mp hq
        exact self_mem_occupy _ hhost
  · exact { h with sub := h.sub.trans (List.sublist_append_left _ _) }

theorem reserved_all {ps : List Packet} (hps : ∀ p ∈ ps, p.ownerHost ∈ occupied.map Prod.fst)
    {seen : List Packet} {chosen : List Packet × Activity}
    (h : Reserved policy occupied seen chosen) :
    Reserved policy occupied (seen ++ ps) (ps.foldl (reserve policy j) chosen) := by
  induction ps generalizing seen chosen with
  | nil => simpa using h
  | cons p ps ih =>
    have hnext := ih (fun q hq => hps q (List.mem_cons_of_mem _ hq))
      (h.step (j := j) (hps p (by simp)))
    simpa using hnext

theorem choose_slice {lib : Library} {o : Observation} {selected : List Packet}
    (hhosts : ∀ p ∈ m.packets, p.ownerHost ∈ o.occupied.map Prod.fst)
    (h : choose lib m policy o j = .ok selected) :
    Slice m policy o.occupied selected ∧ m.Distinct := by
  obtain ⟨more,hmore,h⟩ := bind_ok h
  obtain rfl := Except.ok.inj h
  have hstart : Reserved policy o.occupied [] ([],o.occupied) :=
    ⟨.slnil,rfl,nofun,fun _ => rfl,fun _ => le_max_right _ _,fun _ _ h => h,nofun⟩
  have hchosen := reserved_all (j := j) hhosts hstart
  rw [List.nil_append] at hchosen
  have hdistinct := validateOwn_ok (select_iff.mp hmore).1.valid
  obtain ⟨hidle,hcapacity,-,honce⟩ := (select_fair lib m j.packets _ policy).1 more hmore
  refine ⟨⟨?_,?_,?_,?_⟩,hdistinct⟩
  · intro p hp
    rcases List.mem_append.mp hp with hp | hp
    · exact hchosen.sub.mem hp
    · exact (hidle p hp).1
  · intro p hp
    rcases List.mem_append.mp hp with hp | hp
    · exact hchosen.idle p hp
    · exact fun hmem => (hidle p hp).2.1 _ (hchosen.keeps _ _ hmem)
  · rw [List.map_append]
    refine List.nodup_append.mpr ⟨(hchosen.sub.map _).nodup hdistinct.numbers,honce,?_⟩
    intro n hn k hk heq
    obtain ⟨p,hp,rfl⟩ := List.mem_map.mp hn
    obtain ⟨q,hq,rfl⟩ := List.mem_map.mp hk
    have hlisted := hchosen.listed p hp
    rw [heq] at hlisted
    exact (hidle q hq).2.1 _ hlisted
  · intro host
    have hroom := hchosen.room host
    have hmoreRoom := hcapacity host
    have hload : load (·.ownerHost) ((m.packets.foldl (reserve policy j) ([],o.occupied)).1 ++ more)
        host = load (·.ownerHost) (m.packets.foldl (reserve policy j) ([],o.occupied)).1 host +
          load (·.ownerHost) more host := by
      simp [load,List.countP_append]
    rw [hload,← Nat.add_assoc,← hchosen.counts]
    exact hmoreRoom.trans (max_le (le_max_left _ _) hroom)

end

/-! ## What a cycle may send -/

/-- What the adapter was asked and answered without an error. -/
def Told (w : Log) (q : Call) (a : q.Answer) : Prop :=
  (⟨q,.ok a⟩ : Σ q, Except String (Call.Answer q)) ∈ w

def published : (Σ q, Except String (Call.Answer q)) → Option Journal
  | ⟨.persist j,.ok _⟩ => some j
  | _ => none

/-- The journal that was published last. -/
def durable (w : Log) : Option Journal := (w.filterMap published).getLast?

/-- The persisted compaction of the context that was observed, read back as completed. -/
structure Cleared (o : Observation) (p : Packet) (w : Log) : Prop where
  completed : ∃ j id reply message, Told w (.persist j) () ∧
    (((j.row p.number).get "pendingCompaction").get "body").get "id" = .str id ∧
    ((j.row p.number).get "pendingCompaction").get "physicalMessageID" =
      .str (o.physicalMessageId p.number) ∧
    Told w (.api p.ownerHost .get (messagePath p id) none) reply ∧ reply.checked = .ok message ∧
    message.get "id" = .str id ∧ message.get "type" = .str "compaction" ∧
    message.get "status" = .str "completed"

/-- Nothing was sent to the owner's session before. -/
def Unsent (p : Packet) (w : Log) : Prop :=
  ∀ e ∈ w, ∀ host path body, e.1 = .api host .post path body →
    path ≠ promptPath p ∧ path ≠ compactPath p

/-- The published pending request, for an owner that was idle and whose context has room. -/
structure Prompted (o : Observation) (selected : List Packet) (p : Packet) (body : Json)
    (w : Log) : Prop where
  selected : p ∈ selected
  request : ∃ j, durable w = some j ∧ ((j.row p.number).get "pending").get "body" = body ∧
    ((j.row p.number).get "pendingCompaction").isObject = false
  room : compactionLimit ≤ o.contextTokens p.number → Cleared o p w

/-- The published pending compaction of an owner that runs or was selected. -/
structure Compacted (o : Observation) (selected : List Packet) (p : Packet) (body : Json)
    (w : Log) : Prop where
  admitted : p.number ∈ owners o.active p.ownerHost ∨ p ∈ selected
  request : ∃ j, durable w = some j ∧ ((j.row p.number).get "pendingCompaction").get "body" = body

section
variable (lib : Library) (m : Manifest) (policy : Policy) (expected : Expectations)

/-- What a cycle rests on when it sends: its own observation and the owners selected by it. -/
structure Scene (o : Observation) (selected : List Packet) (seen : Log) : Prop where
  observed : Ran (observe lib m policy expected) seen o
  slice : Slice m policy o.occupied selected
  distinct : m.Distinct

/-- One owner's input, sent first and right behind a verified fence. -/
structure Grant (o : Observation) (selected : List Packet) (seen : Log) (p : Packet) (w : Log)
    (host path : String) (body : Json) : Prop where
  scene : Scene lib m policy expected o selected seen
  after : seen <+: w
  owner : p ∈ m.packets
  host : host = p.ownerHost
  fenced : w.getLast? = some ⟨.verify,.ok ()⟩
  unsent : Unsent p w
  input : path = promptPath p ∧ Prompted o selected p body w ∨
    path = compactPath p ∧ Compacted o selected p body w

def Allowed (dispatch : Bool) (w : Log) : Call → Prop
  | .api host .post path body => dispatch = true ∧ ∃ o selected seen p input, body = some input ∧
      Grant lib m policy expected o selected seen p w host path input
  | .persist _ => dispatch = true
  | _ => True

end

/-! ## Rows -/

theorem row_assign_other {n n' : ℕ} (key : String) (v : Json) (c : Memory) (h : n' ≠ n) :
    (assign n key v c).state.row n' = c.state.row n' := by
  unfold assign Journal.row
  exact get_set_ne _ _ fun heq => h (number_inj heq)

/-- A value that cannot be assigned to stays as it is. -/
theorem assignable_or (v : Json) : v.Assignable ∨ ∀ k x, v.set k x = v := by
  cases v with
  | null => exact .inl assignable_null
  | obj fields => exact .inl (assignable_obj fields)
  | _ => exact .inr fun _ _ => rfl

/-- The row that was assigned to, or the one before where the journal has none. -/
theorem row_assign (n : ℕ) (key : String) (v : Json) (c : Memory) :
    (assign n key v c).state.row n = (c.state.row n).set key v ∨
      (assign n key v c).state.row n = c.state.row n ∧ c.state.row n = .null := by
  unfold assign Journal.row
  rcases assignable_or c.state.packets with h | h
  · exact .inl (by rw [get_set h,if_pos rfl])
  · by_cases hobject : c.state.packets.isObject = true
    · exact .inl (by rw [get_set (assignable_of_isObject hobject),if_pos rfl])
    · exact .inr ⟨by rw [h],get_eq_null_of_not_isObject (by simpa using hobject) _⟩

theorem get_assign_other (n : ℕ) {key key' : String} (v : Json) (c : Memory) (h : key' ≠ key) :
    ((assign n key v c).state.row n).get key' = (c.state.row n).get key' := by
  rcases row_assign n key v c with hrow | ⟨hrow,-⟩
  · rw [hrow]
    exact get_set_ne _ _ h
  · rw [hrow]

theorem get_assign_null (n : ℕ) (key : String) (c : Memory) :
    (((assign n key .null c).state.row n).get key).isObject = false := by
  rcases row_assign n key .null c with hrow | ⟨hrow,hnull⟩
  · rw [hrow]
    rcases assignable_or (c.state.row n) with h | h
    · rw [get_set h,if_pos rfl]
      rfl
    · rw [h]
      by_cases hobject : (c.state.row n).isObject = true
      · have hset := get_set (assignable_of_isObject hobject) key key .null
        rw [h,if_pos rfl] at hset
        rw [hset]
        rfl
      · rw [get_eq_null_of_not_isObject (by simpa using hobject)]
        rfl
  · rw [hrow,hnull]
    rfl

/-! ## The course of a cycle -/

section
variable {lib : Library} {m : Manifest} {policy : Policy} {expected : Expectations}
  {o : Observation} {selected : List Packet} {seen : Log}

theorem durable_told (w : Log) (e : Σ q, Except String (Call.Answer q)) (h : published e = none) :
    durable (w ++ [e]) = durable w := by
  unfold durable
  rw [List.filterMap_append,List.filterMap_cons_none h,List.filterMap_nil,List.append_nil]

theorem durable_published (w : Log) (e : Σ q, Except String (Call.Answer q)) {j : Journal}
    (h : published e = some j) : durable (w ++ [e]) = some j := by
  unfold durable
  rw [List.filterMap_append,List.filterMap_cons_some h,List.filterMap_nil,List.getLast?_append]
  rfl

theorem published_reads {e : Σ q, Except String (Call.Answer q)} (h : e.1.Reads) :
    published e = none := by
  obtain ⟨q,r⟩ := e
  cases q with
  | persist j => cases h
  | _ => rfl

/-- The published journal has these owners' rows, and what was sent went to the owners touched. -/
structure Stage (m : Manifest) (seen : Log) (todo : List Packet) (touched : List ℕ) (j : Journal)
    (w : Log) : Prop where
  after : seen <+: w
  rows : ∃ d, durable w = some d ∧ ∀ q ∈ todo, d.row q.number = j.row q.number
  sent : ∀ e ∈ w, ∀ host path body, e.1 = .api host .post path body →
    ∃ q ∈ m.packets, q.number ∈ touched ∧ (path = promptPath q ∨ path = compactPath q)

namespace Stage
variable {todo todo' : List Packet} {touched touched' : List ℕ} {j j' : Journal} {w : Log}

theorem snoc (h : Stage m seen todo touched j w) {e : Σ q, Except String (Call.Answer q)}
    (hrows : ∃ d, durable (w ++ [e]) = some d ∧ ∀ q ∈ todo', d.row q.number = j'.row q.number)
    (hsub : touched ⊆ touched')
    (hsent : ∀ host path body, e.1 = .api host .post path body →
      ∃ q ∈ m.packets, q.number ∈ touched' ∧ (path = promptPath q ∨ path = compactPath q)) :
    Stage m seen todo' touched' j' (w ++ [e]) where
  after := h.after.trans (List.prefix_append _ _)
  rows := hrows
  sent := by
    intro e' he' host path body hq
    rcases List.mem_append.mp he' with he' | he'
    · obtain ⟨q,hq,ht,hpath⟩ := h.sent e' he' host path body hq
      exact ⟨q,hq,hsub ht,hpath⟩
    · obtain rfl := List.mem_singleton.mp he'
      exact hsent host path body hq

theorem told (h : Stage m seen todo touched j w) {e : Σ q, Except String (Call.Answer q)}
    (he : e.1.Reads) : Stage m seen todo touched j (w ++ [e]) := by
  refine h.snoc ?_ (List.Subset.refl _) ?_
  · rw [durable_told w e (published_reads he)]
    exact h.rows
  · intro host path body hq
    rw [hq] at he
    cases he

theorem persisted (h : Stage m seen todo touched j w) :
    Stage m seen todo' touched j (w ++ [⟨.persist j,.ok ()⟩]) :=
  h.snoc ⟨j,durable_published w _ rfl,fun _ _ => rfl⟩ (List.Subset.refl _) nofun

theorem unpersisted (h : Stage m seen todo touched j w) (j' : Journal) (e : String) :
    Stage m seen todo touched j (w ++ [⟨.persist j',.error e⟩]) :=
  h.snoc (by rw [durable_told w _ rfl]; exact h.rows) (List.Subset.refl _) nofun

theorem posted (h : Stage m seen todo touched j w) {p : Packet} (hp : p ∈ m.packets)
    {host path : String} {body : Option Json} {r : Except String Reply}
    (hpath : path = promptPath p ∨ path = compactPath p) :
    Stage m seen todo (p.number::touched) j (w ++ [⟨.api host .post path body,r⟩]) := by
  refine h.snoc (by rw [durable_told w _ rfl]; exact h.rows) (List.subset_cons_self _ _) ?_
  intro _ _ _ hq
  cases hq
  exact ⟨p,hp,List.mem_cons_self,hpath⟩

theorem touch (h : Stage m seen todo touched j w) (hsub : touched ⊆ touched') :
    Stage m seen todo touched' j w :=
  { h with sent := fun e he host path body hq =>
      (h.sent e he host path body hq).imp fun _ h => ⟨h.1,hsub h.2.1,h.2.2⟩ }

theorem change (h : Stage m seen todo touched j w) (hsub : todo' ⊆ todo)
    (hrows : ∀ q ∈ todo', j'.row q.number = j.row q.number) : Stage m seen todo' touched j' w where
  after := h.after
  rows := by
    obtain ⟨d,hd,hrow⟩ := h.rows
    exact ⟨d,hd,fun q hq => (hrow q (hsub hq)).trans (hrows q hq).symm⟩
  sent := h.sent

end Stage

/-! Distinct owners have distinct paths. -/

theorem sessionPath_inj {p q : Packet} {suffix : String}
    (h : sessionPath p suffix = sessionPath q suffix) : p.sessionId = q.sessionId := by
  unfold sessionPath at h
  have h₁ := congrArg String.toList h
  simp only [String.toList_append,List.append_cancel_right_eq,List.append_cancel_left_eq] at h₁
  exact String.toList_injective h₁

theorem prompt_ne_compact (p q : Packet) : promptPath p ≠ compactPath q := by
  intro h
  unfold promptPath compactPath sessionPath at h
  have h₁ := congrArg String.toList h
  simp only [String.toList_append,List.append_assoc,List.append_cancel_left_eq] at h₁
  have hlast := congrArg (fun cs => cs.reverse.take 2) h₁
  simp at hlast

theorem Stage.unsent {todo : List Packet} {touched : List ℕ} {j : Journal} {w : Log}
    (h : Stage m seen todo touched j w) (hm : m.Distinct) {p : Packet} (hp : p ∈ m.packets)
    (hnew : p.number ∉ touched) : Unsent p w := by
  intro e he host path body hq
  obtain ⟨q,hqm,ht,hpath⟩ := h.sent e he host path body hq
  have hne : p.sessionId ≠ q.sessionId := by
    intro heq
    obtain rfl := hm.session_eq hp hqm heq
    exact hnew ht
  rcases hpath with rfl | rfl
  · exact ⟨fun heq => hne (sessionPath_inj heq).symm,prompt_ne_compact q p⟩
  · exact ⟨fun heq => prompt_ne_compact p q heq.symm,fun heq => hne (sessionPath_inj heq).symm⟩

/-! ## Rules for the requests -/

abbrev world := transcript Call fun q => Except String q.Answer

theorem Told.mono {w w' : Log} {q : Call} {a : q.Answer} (h : Told w q a) (hw : w <+: w') :
    Told w' q a := hw.subset h

theorem Cleared.mono {p : Packet} {w w' : Log} (h : Cleared o p w) (hw : w <+: w') :
    Cleared o p w' := by
  obtain ⟨j,id,reply,message,hj,hid,hphysical,hreply,h⟩ := h.completed
  exact ⟨j,id,reply,message,hj.mono hw,hid,hphysical,hreply.mono hw,h⟩

theorem durable_told_persist {w : Log} {d : Journal} (h : durable w = some d) :
    Told w (.persist d) () := by
  obtain ⟨e,he,hd⟩ := List.mem_filterMap.mp (List.mem_of_getLast? h)
  obtain ⟨q,r⟩ := e
  cases q with
  | persist j =>
    cases r with
    | error e => cases hd
    | ok u =>
      obtain rfl := Option.some.inj hd
      exact he
  | _ => cases hd

section
variable {dispatch : Bool} {α σ : Type} {w : Log}

theorem wp_verify_then {f : Unit → Script Call Call.Answer σ String α} {s : σ}
    {R : α → σ → Log → Prop} {err : String → σ → Log → Prop}
    (hok : wp world (Allowed lib m policy expected dispatch) (f ()) (Ends R err) s
      (w ++ [⟨.verify,.ok ()⟩]))
    (herr : ∀ e, err e s (w ++ [⟨.verify,.error e⟩])) :
    wp world (Allowed lib m policy expected dispatch) (verify >>= f) (Ends R err) s w :=
  wp_told_then trivial (fun _ => hok) herr

theorem wp_get_reply {f : Reply → Script Call Call.Answer σ String α} {s : σ}
    {R : α → σ → Log → Prop} {err : String → σ → Log → Prop} {host path : String}
    (hok : ∀ reply, wp world (Allowed lib m policy expected dispatch) (f reply) (Ends R err) s
      (w ++ [⟨.api host .get path none,.ok reply⟩]))
    (herr : ∀ e, err e s (w ++ [⟨.api host .get path none,.error e⟩])) :
    wp world (Allowed lib m policy expected dispatch) (api host .get path none >>= f) (Ends R err)
      s w := wp_told_then trivial hok herr

theorem wp_request_then {f : Json → Script Call Call.Answer σ String α} {s : σ} {p : Packet}
    {suffix : String} {R : α → σ → Log → Prop} {err : String → σ → Log → Prop}
    (hok : ∀ v r, wp world (Allowed lib m policy expected dispatch) (f v) (Ends R err) s
      (w ++ [⟨.api p.ownerHost .get (sessionPath p suffix) none,r⟩]))
    (herr : ∀ e r, err e s (w ++ [⟨.api p.ownerHost .get (sessionPath p suffix) none,r⟩])) :
    wp world (Allowed lib m policy expected dispatch) (request p suffix >>= f) (Ends R err) s
      w := by
  refine wp_then (R := fun _ s' w' => s' = s ∧ ∃ r,
    w' = w ++ [⟨.api p.ownerHost .get (sessionPath p suffix) none,r⟩]) ?_ ?_
  · refine wp_get_reply (fun reply => ?_) fun e => herr e _
    refine wp_lift.2 ?_
    cases hreply : reply.checked with
    | error e => exact herr e _
    | ok v => exact ⟨rfl,_,rfl⟩
  · rintro v s' w' ⟨rfl,r,rfl⟩
    exact hok v r

theorem wp_persist_then {f : Unit → Act α} {c : Memory} {R : α → Memory → Log → Prop}
    {err : String → Memory → Log → Prop}
    (hok : wp world (Allowed lib m policy expected true) (f ()) (Ends R err) c
      (w ++ [⟨.persist c.state,.ok ()⟩]))
    (herr : ∀ e, err e c (w ++ [⟨.persist c.state,.error e⟩])) :
    wp world (Allowed lib m policy expected true) (persist >>= f) (Ends R err) c w := by
  refine wp_bind.2 (wp_get_then.2 (wp_told rfl ?_))
  rintro (e | ⟨⟩)
  · exact herr e
  · exact hok

end

/-! ## Compactions -/

theorem asStr_some {v : Json} {s : String} (h : v.asStr = some s) : v = .str s := by
  cases v with
  | str t => exact congrArg Json.str (Option.some.inj h)
  | _ => cases h

/-- The owner waits for no compaction, and its context has room. -/
structure Settled (o : Observation) (p : Packet) (j : Journal) (w : Log) : Prop where
  idle : ((j.row p.number).get "pendingCompaction").isObject = false
  room : compactionLimit ≤ o.contextTokens p.number → Cleared o p w

/-- What was done for one owner so far touched no other row. -/
structure Course (p : Packet) (j₀ : Journal) (w₀ : Log) (j : Journal) (w : Log) : Prop where
  ext : w₀ <+: w
  others : ∀ n, n ≠ p.number → j.row n = j₀.row n

namespace Course
variable {p : Packet} {j₀ j : Journal} {w₀ w : Log}

theorem told (h : Course p j₀ w₀ j w) (es : Log) : Course p j₀ w₀ j (w ++ es) :=
  ⟨h.ext.trans (List.prefix_append _ _),h.others⟩

theorem assigned {c : Memory} (h : Course p j₀ w₀ c.state w) (key : String) (v : Json) :
    Course p j₀ w₀ (assign p.number key v c).state w :=
  ⟨h.ext,fun n hn => (row_assign_other key v c hn).trans (h.others n hn)⟩

end Course

/-- The owner is done with, whether or not it waits. -/
structure Passed (m : Manifest) (o : Observation) (seen : Log) (p : Packet) (todo : List Packet)
    (touched : List ℕ) (j₀ : Journal) (w₀ : Log) (waits : Bool) (c : Memory) (w : Log) : Prop where
  stage : Stage m seen todo (if waits then p.number::touched else touched) c.state w
  course : Course p j₀ w₀ c.state w
  settled : waits = false → Settled o p c.state w

section
variable {p : Packet} {identity : Identity} {at_ : String} {todo : List Packet} {touched : List ℕ}
  {j₀ : Journal} {w₀ : Log} {c : Memory} {w : Log}

theorem Passed.waiting (h : Stage m seen todo touched c.state w) (hc : Course p j₀ w₀ c.state w) :
    Passed m o seen p todo touched j₀ w₀ true c w :=
  ⟨h.touch (List.subset_cons_self _ _),hc,nofun⟩

theorem Stage.drop {j : Journal} (h : Stage m seen (p::todo) touched j w) :
    Stage m seen todo touched j w := h.change (List.subset_cons_self _ _) fun _ _ => rfl

theorem Stage.assigned (h : Stage m seen todo touched c.state w)
    (hothers : ∀ q ∈ todo, q.number ≠ p.number) (key : String) (v : Json) :
    Stage m seen todo touched (assign p.number key v c).state w :=
  h.change (List.Subset.refl _) fun q hq => row_assign_other key v c (hothers q hq)

theorem wp_completeCompaction {id : String} {reply : Reply} {message : Json}
    (h : Stage m seen (p::todo) touched c.state w) (hc : Course p j₀ w₀ c.state w)
    (hothers : ∀ q ∈ todo, q.number ≠ p.number)
    (hid : (((c.state.row p.number).get "pendingCompaction").get "body").get "id" = .str id)
    (hreply : Told w (.api p.ownerHost .get (messagePath p id) none) reply)
    (hchecked : reply.checked = .ok message) (hmessage : message.get "id" = .str id)
    (htype : message.get "type" = .str "compaction")
    (hstatus : message.get "status" = .str "completed") :
    wp world (Allowed lib m policy expected true) (completeCompaction o p at_ id)
      (Ends (Passed m o seen p todo touched j₀ w₀)
        fun _ => Passed m o seen p todo touched j₀ w₀ true) c w := by
  obtain ⟨d,hd,hrows⟩ := h.rows
  have hrow := hrows p List.mem_cons_self
  have hstage := (h.drop.assigned hothers "compactionReceipts"
    ((objectOr ((c.state.row p.number).get "compactionReceipts")).set id
      (object [("status",.str "completed"),("at",.str at_)]))).assigned hothers
    "pendingCompaction" .null
  have hcourse := (hc.assigned "compactionReceipts"
    ((objectOr ((c.state.row p.number).get "compactionReceipts")).set id
      (object [("status",.str "completed"),("at",.str at_)]))).assigned "pendingCompaction" .null
  refine wp_get_then.2 (wp_modify_then.2 (wp_persist_then (wp_pure _ |>.2 ?_) fun e => ?_))
  · refine ⟨?_,hcourse.told _,fun hfalse => ⟨get_assign_null _ _ _,fun hlimit => ?_⟩⟩
    · exact hstage.persisted.touch (by split <;> simp)
    · -- not waiting in a full context: the compaction is of the physical message observed
      have hphysical : ((c.state.row p.number).get "pendingCompaction").get "physicalMessageID" =
          .str (o.physicalMessageId p.number) := by
        simp only [hlimit,decide_true,Bool.and_true,decide_eq_false_iff_not,ne_eq,not_not] at hfalse
        cases hv : ((c.state.row p.number).get "pendingCompaction").get "physicalMessageID" with
        | str s =>
          rw [hv] at hfalse
          exact congrArg Json.str (Option.some.inj hfalse)
        | _ =>
          rw [hv] at hfalse
          cases hfalse
      refine ⟨d,id,reply,message,(durable_told_persist hd).mono (List.prefix_append _ _),?_,?_,
        hreply.mono (List.prefix_append _ _),hchecked,hmessage,htype,hstatus⟩
      · rw [hrow,hid]
      · rw [hrow,hphysical]
  · exact Passed.waiting (hstage.unpersisted _ e) (hcourse.told _)

theorem wp_answerCompaction {id : String} {reply : Reply} {message : Json}
    (h : Stage m seen (p::todo) touched c.state w) (hc : Course p j₀ w₀ c.state w)
    (hothers : ∀ q ∈ todo, q.number ≠ p.number)
    (hid : (((c.state.row p.number).get "pendingCompaction").get "body").get "id" = .str id)
    (hreply : Told w (.api p.ownerHost .get (messagePath p id) none) reply)
    (hchecked : reply.checked = .ok message) :
    wp world (Allowed lib m policy expected true) (answerCompaction o p at_ id message)
      (Ends (Passed m o seen p todo touched j₀ w₀)
        fun _ => Passed m o seen p todo touched j₀ w₀ true) c w := by
  have hwaits := Passed.waiting (o := o) h.drop hc
  refine wp_lift_then (fun ⟨⟩ hreceipt => ?_) fun _ _ => hwaits
  obtain ⟨hmessage,htype⟩ := require_ok hreceipt
  refine wp_lift_then (fun status hstatus => ?_) fun _ _ => hwaits
  split
  · exact hwaits
  · split
    · rename_i hcompleted
      refine wp_completeCompaction h hc hothers hid hreply hchecked hmessage htype ?_
      unfold compactionStatus at hstatus
      cases hs : (message.get "status").asStr.filter
          (· ∈ ["completed","failed","running","queued"]) with
      | none =>
        rw [hs] at hstatus
        cases hstatus
      | some text =>
        rw [hs] at hstatus
        obtain rfl := Except.ok.inj hstatus
        obtain ⟨htext,-⟩ := Option.filter_eq_some_iff.mp hs
        rw [asStr_some htext,hcompleted]
    · exact hwaits

theorem wp_submitCompaction {id : String} (hs : Scene lib m policy expected o selected seen)
    (hp : p ∈ m.packets) (hadmitted : p.number ∈ owners o.active p.ownerHost ∨ p ∈ selected)
    (hnew : p.number ∉ touched) (h : Stage m seen (p::todo) touched c.state w)
    (hc : Course p j₀ w₀ c.state w) :
    wp world (Allowed lib m policy expected true) (submitCompaction p identity id
        (((c.state.row p.number).get "pendingCompaction").get "body"))
      (Ends (Passed m o seen p todo touched j₀ w₀)
        fun _ => Passed m o seen p todo touched j₀ w₀ true) c w := by
  refine wp_request_then (fun info r => ?_) fun e r =>
    Passed.waiting (h.drop.told rfl) (hc.told _)
  have h₁ := h.told (e := ⟨.api p.ownerHost .get (sessionPath p "") none,r⟩) rfl
  have hc₁ := hc.told [⟨.api p.ownerHost .get (sessionPath p "") none,r⟩]
  refine wp_lift_then (fun ⟨⟩ _ => ?_) fun _ _ => Passed.waiting h₁.drop hc₁
  refine wp_verify_then ?_ fun e => Passed.waiting (h₁.drop.told trivial) (hc₁.told _)
  have h₂ := h₁.told (e := ⟨.verify,.ok ()⟩) trivial
  have hc₂ := hc₁.told [⟨.verify,.ok ()⟩]
  obtain ⟨d,hd,hrows⟩ := h₂.rows
  have hposted : ∀ r, Passed m o seen p todo touched j₀ w₀ true c
      (w ++ [_] ++ [_] ++ [⟨.api p.ownerHost .post (compactPath p)
        (some (((c.state.row p.number).get "pendingCompaction").get "body")),r⟩]) := fun r =>
    ⟨h₂.drop.posted hp (.inr rfl),hc₂.told _,nofun⟩
  refine wp_told_then ⟨rfl,o,selected,seen,p,_,rfl,hs,h₂.after,hp,rfl,by simp,
    h₂.unsent hs.distinct hp hnew,.inr ⟨rfl,hadmitted,d,hd,?_⟩⟩ (fun reply => ?_) fun e => hposted _
  · rw [hrows p List.mem_cons_self]
  · refine wp_lift_then (fun receipt _ => ?_) fun _ _ => hposted _
    split
    · exact hposted _
    · exact hposted _

theorem wp_settleCompaction (hs : Scene lib m policy expected o selected seen) (hp : p ∈ m.packets)
    (hcause : (p.number ∈ owners o.active p.ownerHost ∨ p ∈ selected) ∨
      ∃ item ∈ o.inbox p.number,
        item.get "id" = (((c.state.row p.number).get "pendingCompaction").get "body").get "id")
    (hnew : p.number ∉ touched) (hothers : ∀ q ∈ todo, q.number ≠ p.number)
    (h : Stage m seen (p::todo) touched c.state w) (hc : Course p j₀ w₀ c.state w) :
    wp world (Allowed lib m policy expected true) (settleCompaction o p identity at_)
      (Ends (Passed m o seen p todo touched j₀ w₀)
        fun _ => Passed m o seen p todo touched j₀ w₀ true) c w := by
  have hwaits := Passed.waiting (o := o) h.drop hc
  refine wp_get_then.2 ?_
  dsimp only
  split
  · exact hwaits
  · rename_i id hid
    have hid := asStr_some (Option.filter_eq_some_iff.mp hid).1
    split
    · split
      · exact hwaits
      · exact hwaits
    · rename_i hnone
      have hadmitted : p.number ∈ owners o.active p.ownerHost ∨ p ∈ selected := by
        rcases hcause with hadmitted | ⟨item,hitem,heq⟩
        · exact hadmitted
        · have hno := List.find?_eq_none.mp hnone item hitem
          rw [heq,hid] at hno
          simp at hno
      refine wp_verify_then ?_ fun e => Passed.waiting (h.drop.told trivial) (hc.told _)
      have h₁ := h.told (e := ⟨.verify,.ok ()⟩) trivial
      have hc₁ := hc.told [⟨.verify,.ok ()⟩]
      refine wp_get_reply (fun reply => ?_) fun e =>
        Passed.waiting (h₁.drop.told rfl) (hc₁.told _)
      have h₂ := h₁.told (e := ⟨.api p.ownerHost .get (messagePath p id) none,.ok reply⟩) rfl
      have hc₂ := hc₁.told [⟨.api p.ownerHost .get (messagePath p id) none,.ok reply⟩]
      split
      · exact wp_submitCompaction hs hp hadmitted hnew h₂ hc₂
      · refine wp_lift_then (fun message hmessage => ?_) fun _ _ => Passed.waiting h₂.drop hc₂
        refine wp_answerCompaction h₂ hc₂ hothers hid ?_ hmessage
        exact List.mem_append_right _ (List.mem_singleton.mpr rfl)

theorem wp_prepareCompaction (h : Stage m seen (p::todo) touched c.state w)
    (hc : Course p j₀ w₀ c.state w) (hothers : ∀ q ∈ todo, q.number ≠ p.number) :
    wp world (Allowed lib m policy expected true) (prepareCompaction lib o p at_)
      (Ends (fun _ c w => Stage m seen (p::todo) touched c.state w ∧ Course p j₀ w₀ c.state w)
        fun _ => Passed m o seen p todo touched j₀ w₀ true) c w := by
  refine wp_modify_then.2 (wp_get_then.2 (wp_told rfl ?_))
  have hassigned := h.drop.assigned hothers "pendingCompaction" (object
    [("body",object [("id",.str (compactionId lib o p)),("delivery",.str "steer")]),
      ("physicalMessageID",.str (o.physicalMessageId p.number)),("preparedAt",.str at_)])
  have hcourse := hc.assigned "pendingCompaction" (object
    [("body",object [("id",.str (compactionId lib o p)),("delivery",.str "steer")]),
      ("physicalMessageID",.str (o.physicalMessageId p.number)),("preparedAt",.str at_)])
  rintro (e | ⟨⟩)
  · exact Passed.waiting (hassigned.unpersisted _ e) (hcourse.told _)
  · exact ⟨hassigned.persisted,hcourse.told _⟩

theorem wp_compact (hs : Scene lib m policy expected o selected seen) (hp : p ∈ m.packets)
    (hcause : compacts o selected c.state p = true)
    (hnew : p.number ∉ touched) (hothers : ∀ q ∈ todo, q.number ≠ p.number)
    (h : Stage m seen (p::todo) touched c.state w) (hc : Course p j₀ w₀ c.state w) :
    wp world (Allowed lib m policy expected true) (compact lib o p identity at_)
      (Ends (Passed m o seen p todo touched j₀ w₀)
        fun _ => Passed m o seen p todo touched j₀ w₀ true) c w := by
  have hwaits := Passed.waiting (o := o) h.drop hc
  have hmember : selected.any (·.number = p.number) = true → p ∈ selected := by
    intro hany
    obtain ⟨q,hq,heq⟩ := List.any_eq_true.mp hany
    have hnumber : q.number = p.number := by simpa using heq
    rwa [hs.distinct.packet_eq hp (hs.slice.owned q hq) hnumber.symm]
  unfold compact
  split
  · exact hwaits
  · refine wp_get_then.2 ?_
    split
    · rename_i hnull
      have hadmitted : p.number ∈ owners o.active p.ownerHost ∨ p ∈ selected := by
        have hobject : ((c.state.row p.number).get "pendingCompaction").isObject = false := by
          cases hv : (c.state.row p.number).get "pendingCompaction" with
          | null => rfl
          | _ =>
            rw [hv] at hnull
            cases hnull
        simp only [compacts,hobject,Bool.false_and,Bool.false_or,Bool.and_eq_true,Bool.or_eq_true,
          decide_eq_true_eq] at hcause
        exact hcause.1.imp_right hmember
      split
      · exact hwaits
      · refine wp_then (wp_prepareCompaction h hc hothers) fun _ c w hprepared => ?_
        exact wp_settleCompaction hs hp (.inl hadmitted) hnew hothers hprepared.1 hprepared.2
    · refine wp_settleCompaction hs hp ?_ hnew hothers h hc
      simp only [compacts,Bool.and_eq_true,Bool.or_eq_true,decide_eq_true_eq,List.any_eq_true]
        at hcause
      rcases hcause with ⟨-,hadmitted | hqueued⟩ | ⟨hadmitted,-⟩
      · exact .inl (hadmitted.imp_right fun h => hmember (by simpa using h))
      · exact .inr hqueued
      · exact .inl (hadmitted.imp_right fun h => hmember (by simpa using h))

end

/-- What the owners passed so far have left. -/
structure Compacting (m : Manifest) (o : Observation) (selected : List Packet) (seen : Log)
    (todo : List Packet) (done : Outcome) (c : Memory) (w : Log) : Prop where
  split : ∃ before, m.packets = before ++ todo ∧ done.1 ⊆ before.map (·.number) ∧
    ∀ p ∈ before, p.number ∉ done.1 → p ∈ selected → Settled o p c.state w
  stage : Stage m seen todo done.1 c.state w

/-- Some journal was published. -/
def Published (w : Log) : Prop := ∃ d, durable w = some d

theorem Settled.mono {p : Packet} {j j' : Journal} {w w' : Log} (h : Settled o p j w)
    (hw : w <+: w') (hrow : j'.row p.number = j.row p.number) : Settled o p j' w' :=
  ⟨by rw [hrow]; exact h.idle,fun hlimit => (h.room hlimit).mono hw⟩

section
variable {p : Packet} {at_ : String} {todo : List Packet} {done : Outcome} {c : Memory} {w : Log}

theorem Compacting.step (h : Compacting m o selected seen (p::todo) done c w)
    (hm : m.Distinct) {c' : Memory} {w' : Log} {done' : Outcome}
    (hc : Course p c.state w c'.state w') (hstage : Stage m seen todo done'.1 c'.state w')
    (hdone : done'.1 = done.1 ∨ done'.1 = p.number::done.1)
    (hsettled : p.number ∉ done'.1 → p ∈ selected → Settled o p c'.state w') :
    Compacting m o selected seen todo done' c' w' := by
  obtain ⟨before,hsplit,hsub,hbefore⟩ := h.split
  refine ⟨⟨before ++ [p],by simp [hsplit],?_,?_⟩,hstage⟩
  · rw [List.map_append]
    rcases hdone with hd | hd
    · rw [hd]
      exact List.Subset.trans hsub (List.subset_append_left _ _)
    · rw [hd]
      exact List.cons_subset.mpr ⟨by simp,List.Subset.trans hsub (List.subset_append_left _ _)⟩
  · intro q hq hnot hq'
    rcases List.mem_append.mp hq with hq | hq
    · have hne : q.number ≠ p.number := by
        have hnodup := hm.numbers
        rw [hsplit,List.map_append,List.nodup_append] at hnodup
        exact hnodup.2.2 _ (List.mem_map_of_mem hq) _ (by simp)
      refine (hbefore q hq ?_ hq').mono hc.ext (hc.others _ hne)
      rcases hdone with hd | hd
      · rwa [hd] at hnot
      · rw [hd] at hnot
        exact fun hmem => hnot (List.mem_cons_of_mem _ hmem)
    · obtain rfl := List.mem_singleton.mp hq
      exact hsettled hnot hq'

theorem wp_compactOwner (hs : Scene lib m policy expected o selected seen)
    (h : Compacting m o selected seen (p::todo) done c w) :
    wp world (Allowed lib m policy expected true) (compactOwner lib expected o selected at_ done p)
      (Ends (Compacting m o selected seen todo) fun _ _ w => Published w) c w := by
  obtain ⟨before,hsplit,hsub,hbefore⟩ := h.split
  have hp : p ∈ m.packets := by simp [hsplit]
  have hnumbers := hs.distinct.numbers
  rw [hsplit,List.map_append,List.map_cons,List.nodup_append,List.nodup_cons] at hnumbers
  have hnew : p.number ∉ done.1 := fun hmem => hnumbers.2.2 _ (hsub hmem) _ (by simp) rfl
  have hothers : ∀ q ∈ todo, q.number ≠ p.number := fun q hq heq =>
    hnumbers.2.1.1 (heq ▸ List.mem_map_of_mem hq)
  refine wp_get_then.2 ?_
  split
  · rename_i hcompacts
    refine wp_verify_then ?_ fun e =>
      (h.stage.told (e := ⟨.verify,.error e⟩) trivial).rows.imp fun _ hd => hd.1
    have h₁ := h.stage.told (e := ⟨.verify,.ok ()⟩) trivial
    have hc₁ : Course p c.state w c.state (w ++ [⟨.verify,.ok ()⟩]) :=
      ⟨List.prefix_append _ _,fun _ _ => rfl⟩
    refine wp_then (wp_attempt_ends (wp_compact hs hp hcompacts hnew hothers h₁ hc₁)) ?_
    rintro (e | ⟨_ | _⟩) c' w' hpassed
    · exact h.step hs.distinct hpassed.course hpassed.stage (.inr rfl)
        fun hnot => absurd List.mem_cons_self hnot
    · exact h.step hs.distinct hpassed.course hpassed.stage (.inl rfl)
        fun _ _ => hpassed.settled rfl
    · exact h.step hs.distinct hpassed.course hpassed.stage (.inr rfl)
        fun hnot => absurd List.mem_cons_self hnot
  · rename_i hcompacts
    refine h.step hs.distinct ⟨List.prefix_refl _,fun _ _ => rfl⟩ h.stage.drop (.inl rfl) ?_
    intro _ hselected
    have hadmitted : selected.any (·.number = p.number) = true :=
      List.any_eq_true.mpr ⟨p,hselected,by simp⟩
    simp only [compacts,hadmitted,Bool.or_true,Bool.true_or,Bool.and_true,Bool.true_and,
      Bool.or_eq_true,decide_eq_true_eq,not_or,Bool.not_eq_true] at hcompacts
    exact ⟨hcompacts.1,fun hlimit => absurd hlimit hcompacts.2⟩

end

/-! ## Prompts -/

theorem row_prepare_other {j : Journal} {p : Packet} {text at_ : String} {n : ℕ}
    (hn : n ≠ p.number) : (prepare lib j p policy text at_).2.row n = j.row n := by
  have hentry : (j.entry p.number).row n = j.row n :=
    congrArg (Option.getD · Json.null) (j.entry_slot hn)
  unfold prepare
  split
  · exact hentry
  · rename_i hps
    obtain ⟨hobjects,-,-⟩ := journalPacket_ok hps
    split
    · exact hentry
    · rw [Journal.row_put hobjects,if_neg hn]

/-- A body that was prepared is the pending one. -/
theorem prepare_body {j : Journal} {p : Packet} {text at_ : String} {body : Json}
    (h : (prepare lib j p policy text at_).1 = .ok body) :
    ((prepare lib j p policy text at_).2.row p.number).isObject = true ∧
      (((prepare lib j p policy text at_).2.row p.number).get "pending").get "body" = body := by
  unfold prepare at h ⊢
  split at h
  · cases h
  · rename_i hps
    obtain ⟨hobjects,-,-⟩ := journalPacket_ok hps
    split at h
    · cases h
    · rename_i hrow
      obtain rfl := Except.ok.inj h
      simp only [Journal.row_put hobjects,if_pos]
      refine ⟨rfl,?_⟩
      unfold prepareRow at hrow
      split at hrow
      · obtain ⟨rfl,rfl⟩ := Prod.mk.inj (Except.ok.inj hrow)
        rfl
      · obtain ⟨-,-,hrow⟩ := bind_ok hrow
        obtain ⟨-,-,hrow⟩ := bind_ok hrow
        obtain ⟨g,-,hrow⟩ := bind_ok hrow
        obtain ⟨rfl,rfl⟩ := Prod.mk.inj (Except.ok.inj hrow)
        rw [Row.json_get,enqueue_get]
        exact object_get (by simp) (by simp)

/-- An assigned key of a row that there is. -/
theorem get_assign {n : ℕ} (key : String) (v : Json) {c : Memory}
    (h : (c.state.row n).isObject = true) : ((assign n key v c).state.row n).get key = v := by
  rcases row_assign n key v c with hrow | ⟨-,hnull⟩
  · rw [hrow,get_set (assignable_of_isObject h),if_pos rfl]
  · rw [hnull] at h
    cases h

theorem stampAttempt_body {p : Packet} {at_ : String} {c : Memory}
    (h : (c.state.row p.number).isObject = true) :
    (((stampAttempt p at_ c).state.row p.number).get "pending").get "body" =
      ((c.state.row p.number).get "pending").get "body" := by
  unfold stampAttempt
  rw [get_assign _ _ h]
  exact get_set_ne _ _ (by decide)

/-- An owner's turn, up to its prompt. -/
structure Turn (m : Manifest) (o : Observation) (seen : Log) (p : Packet) (touched : List ℕ)
    (j₀ : Journal) (w₀ : Log) (j : Journal) (w : Log) : Prop where
  stage : Stage m seen [] touched j w
  course : Course p j₀ w₀ j w
  settled : Settled o p j w

namespace Turn
variable {p : Packet} {touched : List ℕ} {j₀ j j' : Journal} {w₀ w : Log}

theorem told (h : Turn m o seen p touched j₀ w₀ j w) {e : Σ q, Except String (Call.Answer q)}
    (he : e.1.Reads) : Turn m o seen p touched j₀ w₀ j (w ++ [e]) :=
  ⟨h.stage.told he,h.course.told _,h.settled.mono (List.prefix_append _ _) rfl⟩

theorem persisted (h : Turn m o seen p touched j₀ w₀ j w) :
    Turn m o seen p touched j₀ w₀ j (w ++ [⟨.persist j,.ok ()⟩]) :=
  ⟨h.stage.persisted,h.course.told _,h.settled.mono (List.prefix_append _ _) rfl⟩

theorem unpersisted (h : Turn m o seen p touched j₀ w₀ j w) (e : String) :
    Turn m o seen p touched j₀ w₀ j (w ++ [⟨.persist j,.error e⟩]) :=
  ⟨h.stage.unpersisted _ e,h.course.told _,h.settled.mono (List.prefix_append _ _) rfl⟩

/-- A change of the owner's own row, beside its compaction. -/
theorem change (h : Turn m o seen p touched j₀ w₀ j w)
    (hothers : ∀ n, n ≠ p.number → j'.row n = j.row n)
    (hcompaction : (j'.row p.number).get "pendingCompaction" =
      (j.row p.number).get "pendingCompaction") : Turn m o seen p touched j₀ w₀ j' w where
  stage := h.stage.change (List.Subset.refl _) nofun
  course := ⟨h.course.ext,fun n hn => (hothers n hn).trans (h.course.others n hn)⟩
  settled := ⟨by rw [hcompaction]; exact h.settled.idle,h.settled.room⟩

end Turn

/-- An owner's turn has ended; it touched no other owner's row. -/
structure Ended (m : Manifest) (seen : Log) (p : Packet) (touched : List ℕ) (j₀ : Journal)
    (w₀ : Log) (j : Journal) (w : Log) : Prop where
  stage : Stage m seen [] (p.number::touched) j w
  course : Course p j₀ w₀ j w

theorem Turn.ended {p : Packet} {touched : List ℕ} {j₀ j : Journal} {w₀ w : Log}
    (h : Turn m o seen p touched j₀ w₀ j w) : Ended m seen p touched j₀ w₀ j w :=
  ⟨h.stage.touch (List.subset_cons_self _ _),h.course⟩

section
variable {p : Packet} {identity : Identity} {at_ : String} {touched : List ℕ} {j₀ : Journal}
  {w₀ : Log} {c : Memory} {w : Log}

theorem wp_continuationText (h : Turn m o seen p touched j₀ w₀ c.state w) :
    wp world (Allowed lib m policy expected true) (continuationText p)
      (Ends (fun _ c w => Turn m o seen p touched j₀ w₀ c.state w)
        fun _ c w => Ended m seen p touched j₀ w₀ c.state w) c w := by
  refine wp_get_then.2 ?_
  split
  · exact h
  · refine wp_told trivial ?_
    rintro (e | text)
    · exact Turn.ended (h.told trivial)
    · exact h.told trivial

theorem wp_prepareInput {text : String} (h : Turn m o seen p touched j₀ w₀ c.state w) :
    wp world (Allowed lib m policy expected true) (prepareInput lib policy p at_ text)
      (Ends (fun body c w => Turn m o seen p touched j₀ w₀ c.state w ∧
          (c.state.row p.number).isObject = true ∧
          ((c.state.row p.number).get "pending").get "body" = body)
        fun _ c w => Ended m seen p touched j₀ w₀ c.state w) c w := by
  have hturn : Turn m o seen p touched j₀ w₀ (prepare lib c.state p policy text at_).2 w :=
    h.change (fun _ hn => row_prepare_other hn)
      (apply_keeps_get (Operation.prepare p policy text at_) c.state
        (by simp [Operation.keys]))
  refine wp_get_then.2 (Script.wp_bind.2 ((wp_set _).2 (wp_lift.2 ?_)))
  cases hbody : (prepare lib c.state p policy text at_).1 with
  | error e => exact hturn.ended
  | ok body => exact ⟨hturn,prepare_body hbody⟩

theorem wp_wake (hs : Scene lib m policy expected o selected seen) (hp : p ∈ selected)
    (hnew : p.number ∉ touched) (h : Turn m o seen p touched j₀ w₀ c.state w) :
    wp world (Allowed lib m policy expected true) (wake lib policy p identity at_)
      (Ends (fun _ c w => Ended m seen p touched j₀ w₀ c.state w)
        fun _ c w => Ended m seen p touched j₀ w₀ c.state w) c w := by
  have howned := hs.slice.owned p hp
  refine wp_verify_then ?_ fun e => Turn.ended (h.told trivial)
  refine wp_then (wp_continuationText (h.told trivial)) fun text c₁ w₁ h₁ => ?_
  refine wp_then (wp_prepareInput h₁) fun body c₂ w₂ ⟨h₂,hobject,hbody⟩ => ?_
  refine wp_persist_then ?_ fun e => (h₂.unpersisted e).ended
  refine wp_modify_then.2 ?_
  have h₃ := h₂.persisted
  refine wp_request_then (fun info r => ?_) fun e r => Turn.ended (h₃.told rfl)
  have h₄ := h₃.told (e := ⟨.api p.ownerHost .get (sessionPath p "") none,r⟩) rfl
  refine wp_lift_then (fun ⟨⟩ _ => ?_) fun _ _ => h₄.ended
  refine wp_modify_then.2 ?_
  have h₅ : Turn m o seen p touched j₀ w₀ (stampAttempt p at_ (hold p c₂)).state _ :=
    h₄.change (fun n hn => row_assign_other _ _ (hold p c₂) hn)
      (get_assign_other _ _ (hold p c₂) (by decide))
  refine wp_persist_then ?_ fun e => (h₅.unpersisted e).ended
  refine wp_verify_then ?_ fun e => Turn.ended (h₅.persisted.told trivial)
  have h₆ := h₅.persisted.told (e := ⟨.verify,.ok ()⟩) trivial
  have hposted : ∀ r, Ended m seen p touched j₀ w₀ (stampAttempt p at_ (hold p c₂)).state
      (_ ++ [⟨.api p.ownerHost .post (promptPath p) (some body),r⟩]) := fun r =>
    ⟨h₆.stage.posted howned (.inl rfl),h₆.course.told _⟩
  refine wp_told_then ⟨rfl,o,selected,seen,p,_,rfl,hs,h₆.stage.after,howned,rfl,by simp,
    h₆.stage.unsent hs.distinct howned hnew,.inl ⟨rfl,hp,⟨_,?_,?_,h₆.settled.idle⟩,h₆.settled.room⟩⟩
    (fun reply => ?_) fun e => hposted _
  · rw [durable_told _ _ rfl]
    exact durable_published _ _ rfl
  · exact (stampAttempt_body (c := hold p c₂) hobject).trans hbody
  · refine wp_lift_then (fun receipt _ => ?_) fun _ _ => hposted _
    split
    · exact hposted _
    · exact hposted _

end

/-- The owners that have yet to be woken are settled, unless they wait. -/
structure Waking (m : Manifest) (o : Observation) (selected : List Packet) (seen : Log)
    (compacting : List ℕ) (todo : List Packet) (c : Memory) (w : Log) : Prop where
  split : ∃ before, selected = before ++ todo ∧
    Stage m seen [] (before.map (·.number) ++ compacting) c.state w
  settled : ∀ p ∈ todo, p.number ∉ compacting → Settled o p c.state w

section
variable {p : Packet} {at_ : String} {todo : List Packet} {compacting : List ℕ}
  {errors : List String} {c : Memory} {w : Log}

theorem wp_wakeOwner (hs : Scene lib m policy expected o selected seen)
    (h : Waking m o selected seen compacting (p::todo) c w) :
    wp world (Allowed lib m policy expected true)
      (wakeOwner lib policy expected compacting at_ errors p)
      (Ends (fun _ => Waking m o selected seen compacting todo) fun _ _ w => Published w) c w := by
  obtain ⟨before,hsplit,hstage⟩ := h.split
  have hp : p ∈ selected := by simp [hsplit]
  have honce := hs.slice.once
  rw [hsplit,List.map_append,List.map_cons,List.nodup_append,List.nodup_cons] at honce
  have hothers : ∀ q ∈ todo, q.number ≠ p.number := fun q hq heq =>
    honce.2.1.1 (heq ▸ List.mem_map_of_mem hq)
  have hnext : ∀ {c' : Memory} {w' : Log},
      Ended m seen p (before.map (·.number) ++ compacting) c.state w c'.state w' →
      Waking m o selected seen compacting todo c' w' := by
    intro c' w' hended
    refine ⟨⟨before ++ [p],by simp [hsplit],hended.stage.touch ?_⟩,fun q hq hnot => ?_⟩
    · intro n hn
      simpa [or_comm,or_assoc,or_left_comm] using hn
    · exact (h.settled q (List.mem_cons_of_mem _ hq) hnot).mono hended.course.ext
        (hended.course.others _ (hothers q hq))
  refine wp_get_then.2 ?_
  dsimp only
  split
  · exact hnext ⟨hstage.touch (List.subset_cons_self _ _),List.prefix_refl _,fun _ _ => rfl⟩
  · rename_i hskip
    have hwaits : p.number ∉ compacting := fun hmem => hskip (.inl hmem)
    have hnew : p.number ∉ before.map (·.number) ++ compacting := by
      intro hmem
      rcases List.mem_append.mp hmem with hmem | hmem
      · exact honce.2.2 _ hmem _ (by simp) rfl
      · exact hwaits hmem
    have hturn : Turn m o seen p (before.map (·.number) ++ compacting) c.state w c.state w :=
      ⟨hstage,⟨List.prefix_refl _,fun _ _ => rfl⟩,h.settled p (by simp) hwaits⟩
    refine wp_then (wp_attempt_ends (wp_wake hs hp hnew hturn)) ?_
    rintro (e | ⟨⟩) c' w' hended
    · exact hnext hended
    · exact hnext hended

end

/-! ## The cycle -/

theorem Call.Reads.allowed {dispatch : Bool} {w : Log} {q : Call} (h : q.Reads) :
    Allowed lib m policy expected dispatch w q := by
  cases q with
  | api host method path body =>
    cases method with
    | get => trivial
    | post => cases h
  | persist j => cases h
  | _ => trivial

/-- What is asked so far changed nothing. -/
def Quiet (w : Log) : Prop := ∀ e ∈ w, e.1.Reads

theorem Quiet.snoc {w : Log} {e : Σ q, Except String (Call.Answer q)} (h : Quiet w)
    (he : e.1.Reads) : Quiet (w ++ [e]) :=
  List.forall_mem_append.mpr ⟨h,List.forall_mem_singleton.mpr he⟩

theorem wp_reading {dispatch : Bool} {α : Type} {r : Reading α} (h : Uses Call.Reads r)
    {c : Memory} {w : Log} (hw : Quiet w) :
    wp world (Allowed lib m policy expected dispatch) (r.still : Act α)
      (Ends (fun a c' w' => c' = c ∧ Quiet w' ∧ ∃ es, w' = w ++ es ∧ Ran r es a)
        fun _ c' _ => c' = c) c w := by
  refine wp_still.2 ?_
  refine Script.wp_mono
    (Effect.wp_guard (wp_recorded h () w) fun w q hq => Call.Reads.allowed hq) ?_
  rintro (e | a) s w' hend
  · rfl
  · obtain ⟨es,rfl,hes,hran⟩ := hend
    exact ⟨rfl,List.forall_mem_append.mpr ⟨hw,hes⟩,es,rfl,hran⟩

/-- The owners of an observation have their hosts in it. -/
theorem observeFenced_hosts {es : Log} (h : Ran (observeFenced lib m policy expected) es o) :
    ∀ p ∈ m.packets, p.ownerHost ∈ o.occupied.map Prod.fst := by
  obtain ⟨_,_,_,_,_,h⟩ := ran_bind h
  obtain ⟨_,_,h⟩ := ran_lift_then h
  obtain ⟨_,_,h⟩ := ran_lift_then h
  obtain ⟨raw,_,_,_,_,h⟩ := ran_bind h
  obtain ⟨⟨active,sightings⟩,_,_,_,_,h⟩ := ran_bind h
  obtain ⟨_,_,_,_,_,h⟩ := ran_bind h
  obtain ⟨_,_,_,_,_,h⟩ := ran_bind h
  obtain ⟨selected,hselect,h⟩ := ran_lift_then h
  obtain ⟨_,_,_,_,_,h⟩ := ran_bind h
  obtain ⟨-,rfl⟩ := ran_pure h
  have hobserved := (select_iff.mp hselect).1.observed
  simp only [observed,Bool.and_eq_true,List.all_eq_true,decide_eq_true_eq] at hobserved
  exact hobserved.2

/-- A failed cycle leaves the journal, unless it has published one. -/
def Kept (c : Memory) (c' : Memory) (w : Log) : Prop := durable w = none → c'.state = c.state

theorem Published.kept {c c' : Memory} {w : Log} (h : Published w) : Kept c c' w := by
  obtain ⟨d,hd⟩ := h
  intro hnone
  rw [hd] at hnone
  cases hnone

section
variable {at_ : String} {candidate : Journal} {c : Memory} {w : Log}

theorem wp_admitSlice (hs : Scene lib m policy expected o selected seen) (hw : Quiet w)
    (hseen : seen <+: w) :
    wp world (Allowed lib m policy expected true)
      (admitSlice lib m policy expected o selected candidate at_)
      (Ends (fun _ => Kept c) fun _ => Kept c) c w := by
  refine wp_verify_then ?_ fun e _ => rfl
  refine wp_told_then rfl (fun ⟨⟩ => ?_) fun e _ => rfl
  refine wp_modify_then.2 ?_
  have hquiet := hw.snoc (e := ⟨.verify,.ok ()⟩) trivial
  have hstart : Compacting m o selected seen m.packets ([],[]) { c with state := candidate }
      (w ++ [⟨.verify,.ok ()⟩] ++ [⟨.persist candidate,.ok ()⟩]) := by
    refine ⟨⟨[],rfl,List.Subset.refl _,nofun⟩,?_,?_,?_⟩
    · exact (hseen.trans (List.prefix_append _ _)).trans (List.prefix_append _ _)
    · exact ⟨candidate,durable_published _ _ rfl,fun _ _ => rfl⟩
    · intro e he host path body hq
      rcases List.mem_append.mp he with he | he
      · have hreads := hquiet e he
        rw [hq] at hreads
        cases hreads
      · obtain rfl := List.mem_singleton.mp he
        cases hq
  have hcompact := wp_foldlM (f := compactOwner lib expected o selected at_)
    (I := fun ps done => Compacting m o selected seen ps done)
    (fun p ps done c w h => wp_compactOwner hs h) hstart
  refine wp_seq hcompact (fun done c₁ w₁ h₁ => ?_) fun e c₁ w₁ h₁ => h₁.kept
  obtain ⟨before,hbefore,hsub,hsettled⟩ := h₁.split
  rw [List.append_nil] at hbefore
  have hwaking : Waking m o selected seen done.1 selected c₁ w₁ :=
    ⟨⟨[],rfl,h₁.stage⟩,fun p hp hnot => hsettled p (hbefore ▸ hs.slice.owned p hp) hnot hp⟩
  have hwake := wp_foldlM (t := done.2) (f := wakeOwner lib policy expected done.1 at_)
    (I := fun ps _ => Waking m o selected seen done.1 ps)
    (fun p ps errors c w h => wp_wakeOwner hs h) hwaking
  refine wp_seq hwake (fun errors c₂ w₂ h₂ => ?_) fun e c₂ w₂ h₂ => h₂.kept
  obtain ⟨after,hafter,hstage⟩ := h₂.split
  refine wp_persist_then ?_ fun e => ?_
  · exact Published.kept ⟨_,durable_published _ _ rfl⟩
  · exact Published.kept ((hstage.unpersisted _ e).rows.imp fun _ hd => hd.1)

end

theorem wp_cycle (at_ : String) (now : ℤ) (dispatch : Bool) (c : Memory) :
    wp world (Allowed lib m policy expected dispatch)
      (cycle lib m policy expected at_ now dispatch) (Ends (fun _ => Kept c) fun _ => Kept c) c
      [] := by
  refine wp_get_then.2 (wp_lift_then (fun candidate _ => ?_) fun _ _ _ => rfl)
  refine wp_told_then trivial (fun ⟨⟩ => ?_) fun _ _ => rfl
  have hquiet : Quiet ([] ++ [⟨.acquire,.ok ()⟩]) := by
    intro e he
    obtain rfl := List.mem_singleton.mp he
    trivial
  refine wp_seq (wp_reading (observeFenced_reads lib m policy expected) hquiet)
    (fun o c₁ w₁ h₁ => ?_) fun _ _ _ hc _ => congrArg Memory.state hc
  obtain ⟨rfl,hquiet₁,es,rfl,hran⟩ := h₁
  refine wp_modify_then.2 ?_
  have hobserved : Ran (observe lib m policy expected) ([] ++ [⟨.acquire,.ok ()⟩] ++ es) o :=
    ran_ask_then hran
  have hhosts := observeFenced_hosts hran
  cases dispatch with
  | false =>
    refine wp_pure_then.2 (wp_lift_then (fun selected _ => ?_) fun _ _ _ => rfl)
    exact fun _ => rfl
  | true =>
    refine wp_seq (wp_reading (revise_reads lib m policy o at_ now candidate) hquiet₁)
      (fun candidate c₂ w₂ h₂ => ?_) fun _ _ _ hc _ => by rw [hc]
    obtain ⟨rfl,hquiet₂,es₂,rfl,-⟩ := h₂
    refine wp_lift_then (fun selected hchosen => ?_) fun _ _ _ => rfl
    obtain ⟨hslice,hdistinct⟩ := choose_slice hhosts hchosen
    refine wp_then (wp_admitSlice ⟨hobserved,hslice,hdistinct⟩ hquiet₂ (List.prefix_append _ _))
      fun errors c₃ w₃ h₃ => ?_
    exact h₃

/-- Whatever its adapter answers, and wherever the cycle stops: an input goes to an owner of the
campaign, on its own host and right behind a verified fence, once in the cycle and as the journal
published last has it; a prompt only to a selected owner that waits for no compaction and whose
context has room.  A cycle that published nothing leaves the journal as it was. -/
theorem cycle_admits (lib : Library) (m : Manifest) (policy : Policy) (expected : Expectations)
    (at_ : String) (now : ℤ) (dispatch : Bool) (c : Memory) {p : Prog Call _ _} {w : Log}
    (h : Reach world ((cycle lib m policy expected at_ now dispatch).start c) [] p w) :
    (∀ q, p.pending = some q → Allowed lib m policy expected dispatch w q) ∧
      ∀ r c', p.returned = some (r,c') → durable w = none → c'.state = c.state := by
  have hreach := Effect.wp_reach (wp_cycle at_ now dispatch c) h
  refine ⟨fun q hq => Effect.wp_pending hreach hq,fun r c' hr hnone => ?_⟩
  have hend := Effect.wp_returned hreach hr
  cases r with
  | error e => exact hend hnone
  | ok report => exact hend hnone

end

/-! A campaign of one owner, whose request is durable already. -/

def cycleOwner : Packet := ⟨1,"ses_one","builder","Owner 1",["one"],[],[],[],∅⟩

def cycleBody : Json := object [("id",.str "msg_next"),("text",.str "Go on.")]

def cycleRow : Json := object [("version",.str "v1"),("pending",object [("version",.str "v1"),
  ("goalPolicy",.str "finish"),("body",cycleBody),("preparedAt",.str "noon")])]

def cycleUsage : Json := .arr [object [("id",.str "msg_used"),("type",.str "assistant"),
  ("time",object [("created",nat 7)]),("tokens",object [("input",nat 5),
    ("cache",object [("read",nat 0),("write",nat 0)])])]]

/-- What the owner's host shows of it. -/
def cycleReply (path : String) : Reply :=
  match [("/api/session/active",object []),
      ("/api/session/ses_one",object [("id",.str "ses_one"),("title",.str "Owner 1"),
        ("model",.str "model"),("agent",.str "build"),("permissions",.str "ask")]),
      ("/api/session/ses_one/inbox",.arr []),
      ("/api/session/ses_one/message?limit=12&order=desc",cycleUsage),
      ("/api/session/ses_one/message?limit=64&order=desc&type=assistant",cycleUsage),
      ("/api/session/ses_one/message?limit=64&order=desc&type=compaction",.arr [])].lookup path with
  | some data => ⟨200,data⟩
  | none => ⟨404,.null⟩

def cycleAnswer : (q : Call) → q.Answer
  | .acquire => ()
  | .verify => ()
  | .api _ _ path _ => cycleReply path
  | .persist _ => ()
  | .continuation _ _ => ""

def cycleServe (q : Call) (w : Log) : Except String q.Answer × Log :=
  (.ok (cycleAnswer q),w ++ [⟨q,.ok (cycleAnswer q)⟩])

def cycleManifest : Manifest := ⟨[cycleOwner],1,none,none,none,∅⟩
def cyclePolicy : Policy := ⟨"finish",[("builder",1)],[],[],[]⟩
def cycleExpected : Expectations := [(1,⟨.str "model","build",.str "ask"⟩)]

/-- The first requests of the owner's cycle. -/
def cycleRun (n : ℕ) :=
  advance cycleServe n
    ((cycle (tableLibrary []) cycleManifest cyclePolicy cycleExpected "now" 0 true).start
      ⟨⟨none,.obj [],object [("1",cycleRow)],none⟩,[]⟩) []

def posts : Option Call → Bool
  | some (.api host .post path body) =>
    host = "builder" && path = "/api/session/ses_one/prompt" && body = some cycleBody
  | _ => false

theorem cycle_posts : posts (cycleRun 21).1.pending = true := by decide +kernel

/-- The durable request is sent, and was allowed. -/
theorem cycle_admitted : ∃ q, (cycleRun 21).1.pending = some q ∧ posts (some q) = true ∧
    Allowed (tableLibrary []) cycleManifest cyclePolicy cycleExpected true (cycleRun 21).2 q := by
  have hposts := cycle_posts
  cases hq : (cycleRun 21).1.pending with
  | none =>
    rw [hq] at hposts
    cases hposts
  | some q =>
    rw [hq] at hposts
    exact ⟨q,rfl,hposts,(cycle_admits _ _ _ _ _ _ _ _
      (reach_advance (fun _ _ => rfl) 21 _ _)).1 q hq⟩

end Driver
end Orchestration
end CanixToolbelt
