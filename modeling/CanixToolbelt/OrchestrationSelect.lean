import CanixToolbelt.Capacity
import CanixToolbelt.Orchestration
import Mathlib.Order.WithBot
import Mathlib.Data.Prod.Lex

/-! The scheduler: which idle owners a cycle wakes on hosts of bounded capacity. -/
namespace CanixToolbelt
namespace Orchestration

open Json Canonical Fallible Capacity

/-! ## The order of owners -/

/-- The key of `sort_by_key`, compared lexicographically: the class, the place among the
expedited owners, whether there is no age, the age, the place in the policy, the number. -/
abbrev Precedence := ℕ ×ₗ ℕ ×ₗ Bool ×ₗ WithBot ℤ ×ₗ ℕ ×ₗ ℕ

section
variable (lib : Library)

/-- Whether an owner has not acknowledged the goal of this policy. -/
def firstGoal (policy : Policy) (state : Json) : Bool :=
  (state.get "goalAckVersion").asStr ≠ some policy.goalPolicy

def expedited (policy : Policy) (state : Json) (n : ℕ) : Option ℕ :=
  if firstGoal policy state then policy.expedited.findIdx? (· = n) else none

def fairnessClass (policy : Policy) (state : Json) (n : ℕ) : ℕ :=
  if n ∈ policy.producers then 0
  else if (expedited policy state n).isSome then 1
  else if (state.get "deliveredVersion").isNull then 2
  else if firstGoal policy state then 3
  else 4

/-- When the last input of an owner was admitted, as far as it counts for its class. -/
def oldest (policy : Policy) (state : Json) (n : ℕ) : Option ℤ :=
  if fairnessClass policy state n = 4 then
    (state.get "deliveredPreparedAt").asStr.bind lib.rfc3339 <|>
      (state.get "deliveredAt").asStr.bind lib.rfc3339
  else none

def precedence (policy : Policy) (states : Json) (p : Packet) : Precedence :=
  let state := states.get (toString p.number)
  toLex (fairnessClass policy state p.number,
    toLex ((expedited policy state p.number).getD 0,
      toLex ((oldest lib policy state p.number).isNone,
        toLex ((oldest lib policy state p.number : WithBot ℤ),
          toLex ((policy.priority.findIdx? (· = p.number)).getD (2^64-1),p.number)))))

/-! ## The selection -/

def owners (active : Activity) (host : String) : List ℕ := (active.lookup host).getD []

def hostLimit (policy : Policy) (host : String) : ℕ :=
  (policy.maxActivePerHost.lookup host).getD 0

/-- An owner that is not active and has an event that it was not told of. -/
def waking (states : Json) (active : Activity) (p : Packet) : Bool :=
  p.number ∉ owners active p.ownerHost && needsWake (states.get (toString p.number))

/-- The observation covers each host and each limit is usable. -/
def observed (m : Manifest) (active : Activity) (policy : Policy) : Bool :=
  !blank policy.goalPolicy && !policy.maxActivePerHost.isEmpty &&
    (policy.maxActivePerHost.all fun f => f.2 ≠ 0 && f.2 ≤ 64) &&
    active.map Prod.fst = policy.maxActivePerHost.map Prod.fst &&
    m.packets.all fun p => p.ownerHost ∈ active.map Prod.fst

/-- Each active owner is one of the manifest, on its own host. -/
def registered (m : Manifest) (f : String × List ℕ) : Bool :=
  f.2.all fun id => m.packets.any fun p => p.number = id && p.ownerHost = f.1

/-- Select existing owners with bounded capacity and oldest-admission fairness. -/
def select (m : Manifest) (states : Json) (active : Activity) (policy : Policy) :
    Except String (List Packet) := do
  m.validate none
  require (observed m active policy) "invalid or incomplete host capacity/activity observation"
  match active.find? fun f => !registered m f with
  | some f => .error s!"unregistered or wrong-host execution on {f.1}"
  | none =>
    .ok (fill (·.ownerHost) (hostLimit policy) (waking states active)
      (fun host => (owners active host).length)
      (sortByKey (precedence lib policy states) m.packets))

end

/-! ## Validation does not look at the order of the owners -/

/-- What `validate` asks of an owner alone. -/
structure Packet.Admitted (p : Packet) : Prop where
  number : p.number ≠ 0
  session : "ses_".toList <+: p.sessionId.toList ∧ identifier p.sessionId = true
  named : blank p.title = false ∧ blank p.ownerHost = false
  assigned : p.prs ≠ [] ∧ "" ∉ p.prs
  repairs : p.linkedRepairs.Nodup ∧ ∀ url ∈ p.linkedRepairs, url ∈ p.prs
  releases : p.linkedReleases.Nodup ∧ ∀ url ∈ p.linkedReleases,
    url ∈ p.prs ∧ url ∉ p.linkedRepairs

/-- A fold that collects items, none of them twice. -/
theorem foldlM_collect {ε α σ : Type} {f : σ → α → Except ε σ} {get : σ → List α}
    {put : σ → List α → σ} {good : σ → α → Prop} (hget : ∀ s l, get (put s l) = l)
    (hput : ∀ s l l', put (put s l) l' = put s l') (hself : ∀ s, put s (get s) = s)
    (hgood : ∀ s l a, good (put s l) a ↔ good s a)
    (hstep : ∀ s a t, f s a = .ok t ↔ good s a ∧ a ∉ get s ∧ t = put s (a :: get s))
    {as : List α} {s t : σ} : as.foldlM f s = .ok t ↔ (∀ a ∈ as, good s a) ∧
      (∀ a ∈ as, a ∉ get s) ∧ as.Nodup ∧ t = put s (as.reverse ++ get s) := by
  induction as generalizing s with
  | nil =>
    simp only [List.foldlM_nil,List.reverse_nil,List.nil_append,hself,List.not_mem_nil]
    exact ⟨fun h => ⟨nofun,nofun,List.nodup_nil,(Except.ok.inj h).symm⟩,
      fun h => congrArg Except.ok h.2.2.2.symm⟩
  | cons a as ih =>
    constructor
    · intro h
      obtain ⟨u,hu,h⟩ := foldlM_cons_ok h
      obtain ⟨ha,hnew,rfl⟩ := (hstep s a u).mp hu
      obtain ⟨hgoods,hnews,hnodup,ht⟩ := ih.mp h
      rw [hget] at hnews ht
      refine ⟨?_,?_,List.nodup_cons.mpr ⟨fun hmem => ?_,hnodup⟩,?_⟩
      · intro b hb
        rcases List.mem_cons.mp hb with rfl | hb
        · exact ha
        · exact (hgood s _ b).mp (hgoods b hb)
      · intro b hb
        rcases List.mem_cons.mp hb with rfl | hb
        · exact hnew
        · exact fun hmem => hnews b hb (List.mem_cons_of_mem _ hmem)
      · exact hnews a hmem List.mem_cons_self
      · rw [ht,hput]
        simp
    · rintro ⟨hgoods,hnews,hnodup,ht⟩
      obtain ⟨ha,hnodup⟩ := List.nodup_cons.mp hnodup
      have hu : f s a = .ok (put s (a :: get s)) :=
        (hstep s a _).mpr ⟨hgoods a List.mem_cons_self,hnews a List.mem_cons_self,rfl⟩
      rw [List.foldlM_cons,hu]
      refine ih.mpr ⟨fun b hb => ?_,fun b hb => ?_,hnodup,?_⟩
      · exact (hgood s _ b).mpr (hgoods b (List.mem_cons_of_mem _ hb))
      · rw [hget]
        rintro (hmem | ⟨_,hmem⟩)
        · exact ha hb
        · exact hnews b (List.mem_cons_of_mem _ hb) hmem
      · rw [ht,hput,hget]
        simp

theorem assign_iff {urls : List String} {s t : Scope} : urls.foldlM Scope.assign s = .ok t ↔
    (∀ url ∈ urls, url ≠ "") ∧ (∀ url ∈ urls, url ∉ s.urls) ∧ urls.Nodup ∧
      t = { s with urls := urls.reverse ++ s.urls } := by
  refine @foldlM_collect _ _ _ _ Scope.urls (fun s l => { s with urls := l })
    (fun _ url => url ≠ "") (fun _ _ => rfl) (fun _ _ _ => rfl) (fun _ => rfl)
    (fun _ _ _ => Iff.rfl) (fun s url t => ?_) _ _ _
  unfold Scope.assign
  split
  · rename_i h
    exact ⟨nofun,fun ⟨hne,hnew,_⟩ => absurd h (not_or.mpr ⟨hne,hnew⟩)⟩
  · rename_i h
    obtain ⟨hne,hnew⟩ := not_or.mp h
    exact ⟨fun h => ⟨hne,hnew,(Except.ok.inj h).symm⟩,fun h => congrArg Except.ok h.2.2.symm⟩

theorem repair_iff {p : Packet} {urls : List String} {s t : Scope} :
    urls.foldlM (Scope.repair p) s = .ok t ↔ (∀ url ∈ urls, url ∈ p.prs) ∧
      (∀ url ∈ urls, url ∉ s.repairs) ∧ urls.Nodup ∧
      t = { s with repairs := urls.reverse ++ s.repairs } := by
  refine @foldlM_collect _ _ _ _ Scope.repairs (fun s l => { s with repairs := l })
    (fun _ url => url ∈ p.prs) (fun _ _ => rfl) (fun _ _ _ => rfl) (fun _ => rfl)
    (fun _ _ _ => Iff.rfl) (fun s url t => ?_) _ _ _
  unfold Scope.repair
  split
  · rename_i h
    exact ⟨nofun,fun ⟨hmem,hnew,_⟩ => absurd h (not_or.mpr ⟨not_not.mpr hmem,hnew⟩)⟩
  · rename_i h
    obtain ⟨hmem,hnew⟩ := not_or.mp h
    exact ⟨fun h => ⟨not_not.mp hmem,hnew,(Except.ok.inj h).symm⟩,
      fun h => congrArg Except.ok h.2.2.symm⟩

theorem release_iff {p : Packet} {urls : List String} {s t : Scope} :
    urls.foldlM (Scope.release p) s = .ok t ↔ (∀ url ∈ urls, url ∈ p.prs ∧ url ∉ s.repairs) ∧
      (∀ url ∈ urls, url ∉ s.releases) ∧ urls.Nodup ∧
      t = { s with releases := urls.reverse ++ s.releases } := by
  refine @foldlM_collect _ _ _ _ Scope.releases (fun s l => { s with releases := l })
    (fun s url => url ∈ p.prs ∧ url ∉ s.repairs) (fun _ _ => rfl) (fun _ _ _ => rfl)
    (fun _ => rfl) (fun _ _ _ => Iff.rfl) (fun s url t => ?_) _ _ _
  unfold Scope.release
  split
  · rename_i h
    refine ⟨nofun,fun ⟨⟨hmem,hrepair⟩,hnew,_⟩ => absurd h ?_⟩
    exact not_or.mpr ⟨not_not.mpr hmem,not_or.mpr ⟨hrepair,hnew⟩⟩
  · rename_i h
    obtain ⟨hmem,hrest⟩ := not_or.mp h
    obtain ⟨hrepair,hnew⟩ := not_or.mp hrest
    exact ⟨fun h => ⟨⟨not_not.mp hmem,hrepair⟩,hnew,(Except.ok.inj h).symm⟩,
      fun h => congrArg Except.ok h.2.2.symm⟩

/-- What `validate` has seen after these owners. -/
def Scope.of (ps : List Packet) : Scope where
  numbers := (ps.map (·.number)).reverse
  sessions := (ps.map (·.sessionId)).reverse
  urls := (ps.flatMap (·.prs)).reverse
  repairs := (ps.flatMap (·.linkedRepairs)).reverse
  releases := (ps.flatMap (·.linkedReleases)).reverse

/-- What `validate` asks of the owners together. -/
structure Admissible (ps : List Packet) : Prop where
  admitted : ∀ p ∈ ps, p.Admitted
  numbers : (ps.map (·.number)).Nodup
  sessions : (ps.map (·.sessionId)).Nodup
  urls : (ps.flatMap (·.prs)).Nodup

theorem Admissible.perm {ps qs : List Packet} (h : Admissible ps) (hp : ps.Perm qs) :
    Admissible qs where
  admitted := fun p hmem => h.admitted p (hp.mem_iff.mpr hmem)
  numbers := (hp.map _).nodup_iff.mp h.numbers
  sessions := (hp.map _).nodup_iff.mp h.sessions
  urls := (hp.flatMap_right _).nodup_iff.mp h.urls

/-- What one owner more adds. -/
theorem admissible_snoc {ps : List Packet} {p : Packet} : Admissible (ps ++ [p]) ↔
    Admissible ps ∧ p.Admitted ∧ p.number ∉ ps.map (·.number) ∧
      p.sessionId ∉ ps.map (·.sessionId) ∧ p.prs.Nodup ∧
      ∀ url ∈ p.prs, url ∉ ps.flatMap (·.prs) := by
  constructor
  · intro h
    have hnumbers := h.numbers
    have hsessions := h.sessions
    have hurls := h.urls
    rw [List.map_append,List.nodup_append'] at hnumbers hsessions
    rw [List.flatMap_append,List.nodup_append'] at hurls
    refine ⟨⟨fun q hq => h.admitted q (List.mem_append_left _ hq),hnumbers.1,hsessions.1,hurls.1⟩,
      h.admitted p (by simp),fun hmem => ?_,fun hmem => ?_,by simpa using hurls.2.1,
      fun url hurl hmem => ?_⟩
    · exact hnumbers.2.2 hmem (by simp)
    · exact hsessions.2.2 hmem (by simp)
    · exact hurls.2.2 hmem (by simpa using hurl)
  · rintro ⟨h,hp,hnumber,hsession,hnodup,hnew⟩
    refine ⟨fun q hq => ?_,?_,?_,?_⟩
    · rcases List.mem_append.mp hq with hq | hq
      · exact h.admitted q hq
      · rwa [List.mem_singleton.mp hq]
    · rw [List.map_append,List.nodup_append']
      refine ⟨h.numbers,by simp,fun n hn hmem => hnumber ?_⟩
      obtain rfl : n = p.number := by simpa using hmem
      exact hn
    · rw [List.map_append,List.nodup_append']
      refine ⟨h.sessions,by simp,fun n hn hmem => hsession ?_⟩
      obtain rfl : n = p.sessionId := by simpa using hmem
      exact hn
    · rw [List.flatMap_append,List.nodup_append']
      refine ⟨h.urls,by simpa using hnodup,fun url hurl hmem => hnew url (by simpa using hmem) hurl⟩

/-- The linked work of other owners is none of this owner's. -/
theorem Admissible.linked {ps : List Packet} (h : Admissible ps) {url : String}
    (hurl : url ∉ ps.flatMap (·.prs)) :
    url ∉ ps.flatMap (·.linkedRepairs) ∧ url ∉ ps.flatMap (·.linkedReleases) := by
  constructor
  · intro hmem
    obtain ⟨q,hq,hmem⟩ := List.mem_flatMap.mp hmem
    exact hurl (List.mem_flatMap.mpr ⟨q,hq,(h.admitted q hq).repairs.2 url hmem⟩)
  · intro hmem
    obtain ⟨q,hq,hmem⟩ := List.mem_flatMap.mp hmem
    exact hurl (List.mem_flatMap.mpr ⟨q,hq,((h.admitted q hq).releases.2 url hmem).1⟩)

theorem Scope.of_snoc (ps : List Packet) (p : Packet) : Scope.of (ps ++ [p]) =
    ⟨p.number :: (Scope.of ps).numbers,p.sessionId :: (Scope.of ps).sessions,
      p.prs.reverse ++ (Scope.of ps).urls,p.linkedRepairs.reverse ++ (Scope.of ps).repairs,
      p.linkedReleases.reverse ++ (Scope.of ps).releases⟩ := by
  simp [Scope.of]

/-- One owner more, after admissible ones. -/
theorem register_iff {ps : List Packet} (hps : Admissible ps) {p : Packet} {t : Scope} :
    (Scope.of ps).register p = .ok t ↔ Admissible (ps ++ [p]) ∧ t = Scope.of (ps ++ [p]) := by
  constructor
  · intro h
    unfold Scope.register at h
    split at h
    · cases h
    rename_i hvalid
    simp only [not_or,not_not,Bool.not_eq_true] at hvalid
    obtain ⟨hnumber,hfresh,hpre,hident,hsession,htitle,hhost,hprs⟩ := hvalid
    obtain ⟨a,ha,h⟩ := bind_ok h
    obtain ⟨b,hb,h⟩ := bind_ok h
    obtain ⟨hnonempty,hnew,hnodup,rfl⟩ := assign_iff.mp ha
    obtain ⟨hrepairs,-,hrnodup,rfl⟩ := repair_iff.mp hb
    obtain ⟨hreleases,-,hlnodup,rfl⟩ := release_iff.mp h
    refine ⟨admissible_snoc.mpr ⟨hps,?_,?_,?_,hnodup,?_⟩,(Scope.of_snoc ps p).symm⟩
    · refine ⟨hnumber,⟨hpre,by simpa using hident⟩,⟨htitle,hhost⟩,⟨hprs,fun h => hnonempty "" h rfl⟩,
        ⟨hrnodup,hrepairs⟩,hlnodup,fun url hurl => ⟨(hreleases url hurl).1,fun hmem => ?_⟩⟩
      exact (hreleases url hurl).2 (List.mem_append_left _ (List.mem_reverse.mpr hmem))
    · simpa [Scope.of] using hfresh
    · simpa [Scope.of] using hsession
    · intro url hurl hmem
      exact hnew url hurl (List.mem_reverse.mpr hmem)
  · rintro ⟨h,rfl⟩
    obtain ⟨-,hp,hnumber,hsession,hnodup,hnew⟩ := admissible_snoc.mp h
    unfold Scope.register
    rw [if_neg]
    · rw [assign_iff.mpr ⟨fun url hurl heq => hp.assigned.2 (heq ▸ hurl),fun url hurl hmem =>
        hnew url hurl (List.mem_reverse.mp hmem),hnodup,rfl⟩]
      change (p.linkedRepairs.foldlM (Scope.repair p) _ >>= _) = _
      rw [repair_iff.mpr ⟨hp.repairs.2,fun url hurl hmem => ?_,hp.repairs.1,rfl⟩]
      · refine release_iff.mpr ⟨fun url hurl => ⟨(hp.releases.2 url hurl).1,fun hmem => ?_⟩,
          fun url hurl hmem => ?_,hp.releases.1,Scope.of_snoc ps p⟩
        · rcases List.mem_append.mp hmem with hmem | hmem
          · exact (hp.releases.2 url hurl).2 (List.mem_reverse.mp hmem)
          · exact (hps.linked (hnew url (hp.releases.2 url hurl).1)).1 (List.mem_reverse.mp hmem)
        · exact (hps.linked (hnew url (hp.releases.2 url hurl).1)).2 (List.mem_reverse.mp hmem)
      · exact (hps.linked (hnew url (hp.repairs.2 url hurl))).1 (List.mem_reverse.mp hmem)
    · simp only [not_or,not_not,Bool.not_eq_true]
      exact ⟨hp.number,by simpa [Scope.of] using hnumber,hp.session.1,by simp [hp.session.2],
        by simpa [Scope.of] using hsession,hp.named.1,hp.named.2,hp.assigned.1⟩

theorem registers_iff {ps : List Packet} {t : Scope} :
    ps.foldlM Scope.register {} = .ok t ↔ Admissible ps ∧ t = Scope.of ps := by
  induction ps using List.reverseRecOn generalizing t with
  | nil =>
    simp only [List.foldlM_nil]
    refine ⟨fun h => ⟨⟨nofun,List.nodup_nil,List.nodup_nil,List.nodup_nil⟩,(Except.ok.inj h).symm⟩,
      fun h => congrArg Except.ok h.2.symm⟩
  | append_singleton ps p ih =>
    rw [List.foldlM_append]
    constructor
    · intro h
      obtain ⟨u,hu,h⟩ := bind_ok h
      obtain ⟨hps,rfl⟩ := ih.mp hu
      obtain ⟨v,hv,h⟩ := foldlM_cons_ok h
      rw [← foldlM_nil_ok h]
      exact (register_iff hps).mp hv
    · rintro ⟨hps,rfl⟩
      have hfirst := (admissible_snoc.mp hps).1
      rw [ih.mpr ⟨hfirst,rfl⟩]
      change (List.foldlM Scope.register (Scope.of ps) [p]) = _
      rw [List.foldlM_cons,(register_iff hfirst).mpr ⟨hps,rfl⟩]
      rfl

/-- The manifests that validate, in terms of their owners and counts. -/
theorem validateOwn_iff {m : Manifest} : m.validateOwn = .ok () ↔ Admissible m.packets ∧
    (Scope.of m.packets).counted m ∧
    ∀ p ∈ m.packets, ∀ id ∈ p.dependencies, id ≠ p.number ∧ id ∈ m.packets.map (·.number) := by
  have hnone : ∀ {s : Scope}, s.numbers = (m.packets.map (·.number)).reverse →
      ((m.packets.find? fun p => p.dependencies.any fun id => id = p.number || id ∉ s.numbers) = none ↔
        ∀ p ∈ m.packets, ∀ id ∈ p.dependencies,
          id ≠ p.number ∧ id ∈ m.packets.map (·.number)) := by
    intro s hs
    rw [List.find?_eq_none]
    refine forall₂_congr fun p _ => ?_
    rw [hs]
    simp
  constructor
  · intro h
    obtain ⟨s,hs,h⟩ := bind_ok h
    obtain ⟨u,hu,h⟩ := bind_ok h
    obtain ⟨hps,rfl⟩ := registers_iff.mp hs
    refine ⟨hps,require_ok hu,(hnone (s := Scope.of m.packets) rfl).mp ?_⟩
    split at h
    · cases h
    · assumption
  · rintro ⟨hps,hcounted,hdependencies⟩
    unfold Manifest.validateOwn
    rw [registers_iff.mpr ⟨hps,rfl⟩]
    simp only [bind,Except.bind,require,if_pos hcounted]
    rw [(hnone (s := Scope.of m.packets) rfl).mpr hdependencies]

theorem validateOwn_perm {m : Manifest} {ps : List Packet} (h : m.packets.Perm ps)
    (hm : m.validateOwn = .ok ()) : { m with packets := ps }.validateOwn = .ok () := by
  obtain ⟨hps,hcounted,hdependencies⟩ := validateOwn_iff.mp hm
  refine validateOwn_iff.mpr ⟨hps.perm h,?_,fun p hp id hid => ?_⟩
  · obtain ⟨hne,hcounts⟩ := hcounted
    refine ⟨fun hnil => hne ?_,?_⟩
    · obtain rfl : ps = [] := hnil
      exact h.eq_nil
    · have hlength : ∀ f : Packet → List String,
          (m.packets.flatMap f).reverse.length = (ps.flatMap f).reverse.length := by
        intro f
        rw [List.length_reverse,List.length_reverse]
        exact (h.flatMap_right f).length_eq
      simp only [Scope.of,hlength] at hcounts
      exact hcounts
  · have hdep := hdependencies p (h.mem_iff.mpr hp) id hid
    exact ⟨hdep.1,(h.map _).mem_iff.mp hdep.2⟩

/-! ## What is selected -/

variable {lib : Library} {m : Manifest} {states : Json} {active : Activity} {policy : Policy}

/-- The owners of a valid manifest, when the observation covers its hosts. -/
structure Selectable (m : Manifest) (active : Activity) (policy : Policy) : Prop where
  valid : m.validateOwn = .ok ()
  observed : observed m active policy = true
  registered : ∀ f ∈ active, registered m f = true

theorem select_iff {selected : List Packet} : select lib m states active policy = .ok selected ↔
    Selectable m active policy ∧ selected = fill (·.ownerHost) (hostLimit policy)
      (waking states active) (fun host => (owners active host).length)
      (sortByKey (precedence lib policy states) m.packets) := by
  have hnone : (active.find? fun f => !registered m f) = none ↔
      ∀ f ∈ active, registered m f = true := by
    rw [List.find?_eq_none]
    exact forall₂_congr fun f _ => by simp
  constructor
  · intro h
    obtain ⟨u,hvalid,h⟩ := bind_ok h
    obtain ⟨v,hobserved,h⟩ := bind_ok h
    split at h
    · cases h
    · rename_i hfind
      exact ⟨⟨validate_none.mp hvalid,require_ok hobserved,hnone.mp hfind⟩,(Except.ok.inj h).symm⟩
  · rintro ⟨⟨hvalid,hobserved,hregistered⟩,rfl⟩
    unfold select
    rw [validate_none.mpr hvalid,hobserved,hnone.mpr hregistered]
    rfl

theorem Selectable.perm {ps : List Packet} (h : Selectable m active policy)
    (hp : m.packets.Perm ps) : Selectable { m with packets := ps } active policy where
  valid := validateOwn_perm hp h.valid
  observed := by
    have hobserved := h.observed
    unfold Orchestration.observed at hobserved ⊢
    rw [← hobserved]
    refine congrArg _ (Bool.eq_iff_iff.mpr ?_)
    simp only [List.all_eq_true]
    exact forall_congr' fun p => imp_congr_left hp.mem_iff.symm
  registered := by
    intro f hf
    rw [← h.registered f hf]
    refine congrArg _ (funext fun id => Bool.eq_iff_iff.mpr ?_)
    simp only [List.any_eq_true]
    exact exists_congr fun p => and_congr_left' hp.mem_iff.symm

theorem precedence_number {p q : Packet}
    (h : precedence lib policy states p = precedence lib policy states q) : p.number = q.number := by
  exact congrArg (fun k : Precedence => (ofLex (ofLex (ofLex (ofLex (ofLex k).2).2).2).2).2) h

theorem Manifest.Distinct.precedence_eq (h : m.Distinct) : ∀ p ∈ m.packets, ∀ q ∈ m.packets,
    precedence lib policy states p = precedence lib policy states q → p = q :=
  fun _ hp _ hq heq => h.packet_eq hp hq (precedence_number heq)

/-- The owners of a host that are active. -/
def held (active : Activity) (host : String) : ℕ := (owners active host).length

/-- What a selection guarantees. -/
structure Fair (lib : Library) (m : Manifest) (states : Json) (active : Activity) (policy : Policy)
    (selected : List Packet) : Prop where
  /-- Only owners of the manifest that are active nowhere and need a wake. -/
  idle : ∀ p ∈ selected, p ∈ m.packets ∧ (∀ host, p.number ∉ owners active host) ∧
    needsWake (states.get (toString p.number)) = true
  /-- No host beyond its limit, or beyond what was active. -/
  capacity : ∀ host, held active host + load (·.ownerHost) selected host ≤
    max (hostLimit policy host) (held active host)
  /-- Who is left out finds its host full of active owners and of owners that precede it. -/
  conserving : ∀ p ∈ m.packets, p.number ∉ owners active p.ownerHost →
    needsWake (states.get (toString p.number)) = true → p ∉ selected →
    hostLimit policy p.ownerHost ≤ held active p.ownerHost +
      selected.countP fun q => q.ownerHost = p.ownerHost ∧
        precedence lib policy states q < precedence lib policy states p
  once : (selected.map (·.number)).Nodup

/-- An active owner is active on its own host. -/
theorem Selectable.own_host (h : Selectable m active policy) (hm : m.Distinct) {p : Packet}
    {host : String} (hp : p ∈ m.packets) (hactive : p.number ∈ owners active host) :
    host = p.ownerHost := by
  unfold owners at hactive
  cases hlookup : active.lookup host with
  | none =>
    rw [hlookup] at hactive
    cases hactive
  | some os =>
    rw [hlookup] at hactive
    have hregistered := h.registered (host,os) (mem_of_lookup hlookup)
    have hq := List.all_eq_true.mp hregistered p.number hactive
    simp only [List.any_eq_true,Bool.and_eq_true,decide_eq_true_eq] at hq
    obtain ⟨q,hq,hnumber,hhost⟩ := hq
    rw [← hhost,hm.packet_eq hq hp hnumber]

theorem Selectable.fair (h : Selectable m active policy) : Fair lib m states active policy
    (fill (·.ownerHost) (hostLimit policy) (waking states active)
      (fun host => (owners active host).length)
      (sortByKey (precedence lib policy states) m.packets)) := by
  have hdistinct := validateOwn_ok h.valid
  have hperm := sortByKey_perm (precedence lib policy states) m.packets
  refine ⟨fun p hp => ?_,fun host => fill_capacity _ host,fun p hp hidle hneeds hleft => ?_,?_⟩
  · have hmem := hperm.mem_iff.mp ((fill_sublist _).mem hp)
    have hwaking := fill_wanted hp
    simp only [waking,Bool.and_eq_true,decide_eq_true_eq] at hwaking
    refine ⟨hmem,fun host hactive => hwaking.1 ?_,hwaking.2⟩
    rwa [← h.own_host hdistinct hmem hactive]
  · have hwaking : waking states active p = true := by
      simp only [waking,Bool.and_eq_true,decide_eq_true_eq]
      exact ⟨hidle,hneeds⟩
    obtain ⟨ls,rs,hsplit⟩ := List.append_of_mem (hperm.mem_iff.mpr hp)
    rw [hsplit] at hleft ⊢
    refine (fill_full hwaking hleft).trans (Nat.add_le_add_left ?_ _)
    have hbefore : ∀ q ∈ fill (·.ownerHost) (hostLimit policy) (waking states active)
        (fun host => (owners active host).length) ls,
        precedence lib policy states q < precedence lib policy states p := fun q hq =>
      sortByKey_before _ hdistinct.numbers.of_map hdistinct.precedence_eq hsplit
        ((fill_sublist _).mem hq)
    calc load (·.ownerHost) (fill (·.ownerHost) (hostLimit policy) (waking states active)
          (fun host => (owners active host).length) ls) p.ownerHost
        = (fill (·.ownerHost) (hostLimit policy) (waking states active)
          (fun host => (owners active host).length) ls).countP fun q => q.ownerHost = p.ownerHost ∧
            precedence lib policy states q < precedence lib policy states p := by
          refine List.countP_congr fun q hq => ?_
          simp [hbefore q hq]
      _ ≤ _ := ( fill_prefix ls (p::rs)).sublist.countP_le
  · exact ((fill_sublist _).map _).nodup ((hperm.map _).nodup_iff.mpr hdistinct.numbers)

theorem select_perm {ps : List Packet} (hp : m.packets.Perm ps) {selected : List Packet}
    (h : select lib m states active policy = .ok selected) :
    select lib { m with packets := ps } states active policy = .ok selected := by
  obtain ⟨hs,rfl⟩ := select_iff.mp h
  refine select_iff.mpr ⟨hs.perm hp,?_⟩
  rw [sortByKey_congr (precedence lib policy states) hp (validateOwn_ok hs.valid).precedence_eq]

/-- The scheduler is safe, work-conserving and blind to the order of the manifest. -/
theorem select_fair (lib : Library) (m : Manifest) (states : Json) (active : Activity)
    (policy : Policy) : (∀ selected, select lib m states active policy = .ok selected →
      Fair lib m states active policy selected) ∧
    ∀ ps, m.packets.Perm ps → (select lib { m with packets := ps } states active policy).toOption =
      (select lib m states active policy).toOption := by
  refine ⟨fun selected h => ?_,fun ps hp => ?_⟩
  · obtain ⟨hs,rfl⟩ := select_iff.mp h
    exact hs.fair
  · cases h : select lib m states active policy with
    | ok selected => rw [select_perm hp h]
    | error e =>
      cases h' : select lib { m with packets := ps } states active policy with
      | ok selected =>
        have hback := select_perm (m := { m with packets := ps }) hp.symm h'
        rw [h] at hback
        cases hback
      | error e' => rfl

/-! ## Three owners, one of them active -/

def crew (n : ℕ) (session host url : String) : Packet := ⟨n,session,host,"Owner",[url],[],[],[],∅⟩

def crewManifest : Manifest where
  packets := [crew 1 "ses_1" "builder" "one",crew 2 "ses_2" "builder" "two",
    crew 3 "ses_3" "builder" "three",crew 4 "ses_4" "mobile" "four"]
  assignmentCount := 4
  baselineCount := none
  linkedCount := none
  releaseCount := none
  extra := ∅

def crewPolicy : Policy := ⟨"goal-1",[("builder",2),("mobile",1)],[3],[],[]⟩

def crewStates : Json := object
  [("1",object [("version",.str "v1")]),("2",object [("version",.str "v1")]),
    ("3",object [("version",.str "v1")]),("4",object [])]

def crewSelected : Except String (List Packet) :=
  select ⟨id,fun t => (t.toList,0),String.toList,fun _ => false,fun _ => none,fun _ => none⟩
    crewManifest crewStates [("builder",[1]),("mobile",[])] crewPolicy

theorem crew_selected : crewSelected.toOption.map (·.map (·.number)) = some [3] := by decide +kernel

/-- The producer takes the last place of its host; the owner of the other has no event. -/
theorem crew_fair : ∃ selected, crewSelected = .ok selected ∧ selected.map (·.number) = [3] ∧
    held [("builder",[1]),("mobile",[])] "builder" + load (·.ownerHost) selected "builder" ≤ 2 := by
  have hselected := crew_selected
  cases h : crewSelected with
  | error e =>
    rw [h] at hselected
    cases hselected
  | ok selected =>
    rw [h] at hselected
    exact ⟨selected,rfl,Option.some.inj hselected,
      ((select_fair _ crewManifest crewStates _ crewPolicy).1 selected h).capacity "builder"⟩

end Orchestration
end CanixToolbelt
