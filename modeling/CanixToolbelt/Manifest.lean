import CanixToolbelt.Fallible
import CanixToolbelt.Canonical
import CanixToolbelt.Review
import Std.Data.ExtTreeMap

/-! The campaign manifest: its owners, their assignments, and what a refreshed manifest
keeps of the one before it. -/
namespace CanixToolbelt
namespace Orchestration

open Fallible

/-- The fields a map keeps beside the declared ones. -/
abbrev Extra := Std.ExtTreeMap String Json

structure Packet where
  number : ℕ
  sessionId : String
  ownerHost : String
  title : String
  prs : List String
  linkedRepairs : List String
  linkedReleases : List String
  dependencies : List ℕ
  extra : Extra

structure Manifest where
  packets : List Packet
  assignmentCount : ℕ
  baselineCount : Option ℕ
  linkedCount : Option ℕ
  releaseCount : Option ℕ
  extra : Extra

structure Policy where
  goalPolicy : String
  maxActivePerHost : List (String × ℕ)
  producers : List ℕ
  priority : List ℕ
  expedited : List ℕ

/-- `trim().is_empty()`. -/
def blank (s : String) : Bool := s.toList.all Review.whitespace

/-- ASCII letters, digits, `_` and `-` only. -/
def identifier (s : String) : Bool := s.toList.all fun c => c.isAlphanum || c ∈ ['_','-']

/-! ## Validation -/

/-- What `validate` has seen of the owners so far. -/
structure Scope where
  numbers : List ℕ := []
  sessions : List String := []
  urls : List String := []
  repairs : List String := []
  releases : List String := []

def Scope.assign (s : Scope) (url : String) : Except String Scope :=
  if url = "" ∨ url ∈ s.urls then .error s!"duplicate or empty assignment {url}"
  else .ok { s with urls := url :: s.urls }

def Scope.repair (p : Packet) (s : Scope) (url : String) : Except String Scope :=
  if url ∉ p.prs ∨ url ∈ s.repairs then .error s!"invalid linked repair {url}"
  else .ok { s with repairs := url :: s.repairs }

def Scope.release (p : Packet) (s : Scope) (url : String) : Except String Scope :=
  if url ∉ p.prs ∨ url ∈ s.repairs ∨ url ∈ s.releases then .error s!"invalid linked release {url}"
  else .ok { s with releases := url :: s.releases }

def Scope.register (s : Scope) (p : Packet) : Except String Scope :=
  if p.number = 0 ∨ p.number ∈ s.numbers ∨ ¬ "ses_".toList <+: p.sessionId.toList ∨
      ¬ identifier p.sessionId ∨ p.sessionId ∈ s.sessions ∨ blank p.title ∨ blank p.ownerHost ∨
      p.prs = [] then
    .error s!"invalid or duplicate owner {p.number}"
  else do
    let s ← p.prs.foldlM Scope.assign
      { s with numbers := p.number :: s.numbers, sessions := p.sessionId :: s.sessions }
    let s ← p.linkedRepairs.foldlM (Scope.repair p) s
    p.linkedReleases.foldlM (Scope.release p) s

def Scope.counted (s : Scope) (m : Manifest) : Prop :=
  m.packets ≠ [] ∧ s.urls.length = m.assignmentCount ∧
    (m.linkedCount.all (· = s.repairs.length)) ∧
    (m.baselineCount.all (· = s.urls.length - s.repairs.length - s.releases.length)) ∧
    (m.releaseCount.all (· = s.releases.length))

instance (s : Scope) (m : Manifest) : Decidable (s.counted m) := inferInstanceAs (Decidable (_ ∧ _))

/-- `validate(None)`. -/
def Manifest.validateOwn (m : Manifest) : Except String Unit := do
  let s ← m.packets.foldlM Scope.register {}
  require (s.counted m) "assignment coverage does not match manifest counts"
  match m.packets.find? fun p => p.dependencies.any fun id => id = p.number || id ∉ s.numbers with
  | some p => .error s!"invalid producer for owner {p.number}"
  | none => .ok ()

def keepsExtra (old current : Extra) : Bool :=
  old.toList.all fun f => current[f.1]? = some f.2

/-- Whether `current` keeps what `old` declared and only adds linked work. -/
def Packet.extends (current old : Packet) : Bool :=
  current.sessionId = old.sessionId && current.ownerHost = old.ownerHost &&
    current.title = old.title && keepsExtra old.extra current.extra &&
    (old.dependencies.all (· ∈ current.dependencies)) && (old.prs.all (· ∈ current.prs)) &&
    (old.prs.all fun url => (url ∈ old.linkedRepairs) = (url ∈ current.linkedRepairs) &&
      (url ∈ old.linkedReleases) = (url ∈ current.linkedReleases)) &&
    current.prs.all fun url =>
      url ∈ old.prs || url ∈ current.linkedRepairs || url ∈ current.linkedReleases

def Manifest.keeps (m : Manifest) (old : Packet) : Except String Unit :=
  match m.packets.find? (·.number = old.number) with
  | none => .error s!"owner {old.number} was dropped"
  | some current =>
    require (current.extends old) s!"ownership changed or assignments dropped for {old.number}"

/-- `validate(previous)`. -/
def Manifest.validate (m : Manifest) (previous : Option Manifest) : Except String Unit := do
  m.validateOwn
  match previous with
  | none => .ok ()
  | some old => do
    old.validateOwn
    require (m.packets.length = old.packets.length ∧ m.baselineCount = old.baselineCount ∧
        keepsExtra old.extra m.extra)
      "existing owner set or baseline scope changed"
    old.packets.foldlM (fun _ p => m.keeps p) ()

structure Coverage where
  baselineCount : ℕ := 0
  repairCount : ℕ := 0
  releaseCount : ℕ := 0
  baselineStates : Std.ExtTreeMap String ℕ := ∅
  repairStates : Std.ExtTreeMap String ℕ := ∅
  releaseStates : Std.ExtTreeMap String ℕ := ∅

def count (states : Std.ExtTreeMap String ℕ) (status : String) : Std.ExtTreeMap String ℕ :=
  states.insert status (states.getD status 0 + 1)

def Coverage.add (prs : Json) (p : Packet) (c : Coverage) (url : String) : Coverage :=
  let status := (((prs.get url).get "state").asStr).getD "UNKNOWN"
  if url ∈ p.linkedRepairs then
    { c with repairCount := c.repairCount + 1, repairStates := count c.repairStates status }
  else if url ∈ p.linkedReleases then
    { c with releaseCount := c.releaseCount + 1, releaseStates := count c.releaseStates status }
  else
    { c with baselineCount := c.baselineCount + 1, baselineStates := count c.baselineStates status }

def Manifest.coverage (m : Manifest) (prs : Json) : Except String Coverage := do
  m.validate none
  .ok (m.packets.foldl (fun c p => p.prs.foldl (Coverage.add prs p) c) {})

/-! ## What validation says -/

theorem assign_ok {urls : List String} {s t : Scope} (h : urls.foldlM Scope.assign s = .ok t) :
    t = { s with urls := urls.reverse ++ s.urls } ∧ (s.urls.Nodup → t.urls.Nodup) := by
  induction urls generalizing s with
  | nil => simp [← foldlM_nil_ok h]
  | cons url urls ih =>
    obtain ⟨u,hu,h⟩ := foldlM_cons_ok h
    unfold Scope.assign at hu
    split at hu
    · cases hu
    · rename_i hnew
      obtain rfl := Except.ok.inj hu
      obtain ⟨ht,hnodup⟩ := ih h
      refine ⟨by simpa using ht,fun hs => hnodup ?_⟩
      exact List.nodup_cons.mpr ⟨fun hmem => hnew (.inr hmem),hs⟩

/-- Linked work is bookkeeping beside the numbers, the sessions and the assignments. -/
def Scope.SameOwners (s t : Scope) : Prop :=
  t.numbers = s.numbers ∧ t.sessions = s.sessions ∧ t.urls = s.urls

theorem repair_ok {p : Packet} {urls : List String} {s t : Scope}
    (h : urls.foldlM (Scope.repair p) s = .ok t) : s.SameOwners t := by
  apply foldlM_keeps (P := s.SameOwners) ⟨rfl,rfl,rfl⟩ _ h
  intro u v url _ hu hv
  unfold Scope.repair at hv
  split at hv
  · cases hv
  · obtain rfl := Except.ok.inj hv
    exact hu

theorem release_ok {p : Packet} {urls : List String} {s t : Scope}
    (h : urls.foldlM (Scope.release p) s = .ok t) : s.SameOwners t := by
  apply foldlM_keeps (P := s.SameOwners) ⟨rfl,rfl,rfl⟩ _ h
  intro u v url _ hu hv
  unfold Scope.release at hv
  split at hv
  · cases hv
  · obtain rfl := Except.ok.inj hv
    exact hu

/-- What registering owners collects; nothing is collected twice. -/
theorem register_ok {ps : List Packet} {s t : Scope} (h : ps.foldlM Scope.register s = .ok t) :
    t.numbers = (ps.map (·.number)).reverse ++ s.numbers ∧
      t.sessions = (ps.map (·.sessionId)).reverse ++ s.sessions ∧
      t.urls = (ps.flatMap (·.prs)).reverse ++ s.urls ∧
      (s.numbers.Nodup → t.numbers.Nodup) ∧ (s.sessions.Nodup → t.sessions.Nodup) ∧
      (s.urls.Nodup → t.urls.Nodup) := by
  induction ps generalizing s with
  | nil => simp [← foldlM_nil_ok h]
  | cons p ps ih =>
    obtain ⟨u,hu,h⟩ := foldlM_cons_ok h
    unfold Scope.register at hu
    split at hu
    · cases hu
    · rename_i hvalid
      simp only [not_or] at hvalid
      obtain ⟨a,ha,hu⟩ := bind_ok hu
      obtain ⟨b,hb,hu⟩ := bind_ok hu
      obtain ⟨ha,hurls⟩ := assign_ok ha
      obtain ⟨hbn,hbs,hbu⟩ := repair_ok hb
      obtain ⟨hun,hus,huu⟩ := release_ok hu
      obtain ⟨hn,hs,hp,hnn,hsn,hpn⟩ := ih h
      have hun : u.numbers = p.number :: s.numbers := by rw [hun,hbn,ha]
      have hus : u.sessions = p.sessionId :: s.sessions := by rw [hus,hbs,ha]
      have huu : u.urls = a.urls := by rw [huu,hbu]
      refine ⟨by simp [hn,hun],by simp [hs,hus],by simp [hp,huu,ha],fun h => hnn ?_,fun h => hsn ?_,
        fun h => hpn ?_⟩
      · rw [hun]
        exact List.nodup_cons.mpr ⟨hvalid.2.1,h⟩
      · rw [hus]
        exact List.nodup_cons.mpr ⟨hvalid.2.2.2.2.1,h⟩
      · rw [huu]
        exact hurls h

/-- Owners are told apart by number and by session, and no assignment is shared. -/
structure Manifest.Distinct (m : Manifest) : Prop where
  numbers : (m.packets.map (·.number)).Nodup
  sessions : (m.packets.map (·.sessionId)).Nodup
  urls : (m.packets.flatMap (·.prs)).Nodup
  producers : ∀ p ∈ m.packets, ∀ id ∈ p.dependencies, id ≠ p.number ∧ id ∈ m.packets.map (·.number)

theorem validateOwn_ok {m : Manifest} (h : m.validateOwn = .ok ()) : m.Distinct := by
  obtain ⟨s,hs,h⟩ := bind_ok h
  obtain ⟨u,-,h⟩ := bind_ok h
  obtain ⟨hn,hss,hu,hnn,hsn,hun⟩ := register_ok hs
  simp only [List.append_nil] at hn hss hu
  have hnumbers := hnn List.nodup_nil
  have hsessions := hsn List.nodup_nil
  have hurls := hun List.nodup_nil
  rw [hn,List.nodup_reverse] at hnumbers
  rw [hss,List.nodup_reverse] at hsessions
  rw [hu,List.nodup_reverse] at hurls
  refine ⟨hnumbers,hsessions,hurls,fun p hp id hid => ?_⟩
  split at h
  · cases h
  · rename_i hfind
    have hnone := List.find?_eq_none.mp hfind p hp
    simp only [hn,List.any_eq_true,Bool.or_eq_true,decide_eq_true_eq,not_exists,not_and,
      not_or,not_not,List.mem_reverse] at hnone
    exact hnone id hid

theorem Manifest.Distinct.packet_eq {m : Manifest} (h : m.Distinct) {p q : Packet}
    (hp : p ∈ m.packets) (hq : q ∈ m.packets) (hpq : p.number = q.number) : p = q :=
  List.inj_on_of_nodup_map h.numbers hp hq hpq

theorem Manifest.Distinct.session_eq {m : Manifest} (h : m.Distinct) {p q : Packet}
    (hp : p ∈ m.packets) (hq : q ∈ m.packets) (hpq : p.sessionId = q.sessionId) : p = q :=
  List.inj_on_of_nodup_map h.sessions hp hq hpq

theorem Manifest.Distinct.url_owner {m : Manifest} (h : m.Distinct) {p q : Packet} {url : String}
    (hp : p ∈ m.packets) (hq : q ∈ m.packets) (hup : url ∈ p.prs) (huq : url ∈ q.prs) : p = q := by
  have hpair := (List.nodup_flatMap.mp h.urls).2
  by_contra hne
  have hsymm : Std.Symm (Function.onFun List.Disjoint fun x : Packet => x.prs) :=
    ⟨fun _ _ h => List.Disjoint.symm h⟩
  have hdisjoint := hpair.forall hp hq hne
  exact hdisjoint hup huq

theorem Manifest.Distinct.urls_nodup {m : Manifest} (h : m.Distinct) {p : Packet}
    (hp : p ∈ m.packets) : p.prs.Nodup :=
  (List.nodup_flatMap.mp h.urls).1 p hp

theorem validate_none {m : Manifest} : m.validate none = .ok () ↔ m.validateOwn = .ok () := by
  unfold Manifest.validate
  cases m.validateOwn <;> simp [bind,Except.bind]

theorem validate_own {m : Manifest} {previous : Option Manifest}
    (h : m.validate previous = .ok ()) : m.Distinct := by
  obtain ⟨⟨⟩,hown,-⟩ := bind_ok h
  exact validateOwn_ok hown

end Orchestration
end CanixToolbelt
