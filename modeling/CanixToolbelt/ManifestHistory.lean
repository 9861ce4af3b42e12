import CanixToolbelt.Manifest
import Mathlib.Logic.Relation

/-! Chains of accepted manifests keep who owns what. -/
namespace CanixToolbelt
namespace Orchestration

open Fallible

/-! ## What acceptance after another manifest means -/

theorem require_iff {ε : Type} {p : Prop} [Decidable p] {e : ε} {u : Unit} :
    (require p e : Except ε Unit) = .ok u ↔ p := by
  by_cases hp : p <;> simp [require,hp]

theorem keepsExtra_iff {old current : Extra} :
    keepsExtra old current = true ↔ ∀ (k : String) (v : Json), old[k]? = some v → current[k]? = some v := by
  simp [keepsExtra,List.all_eq_true,Std.ExtTreeMap.mem_toList_iff_getElem?_eq_some]

/-- One owner in two manifests: the same owner, nothing of it dropped or reclassified,
only linked work added. -/
structure Packet.Succeeds (old current : Packet) : Prop where
  number : current.number = old.number
  session : current.sessionId = old.sessionId
  host : current.ownerHost = old.ownerHost
  title : current.title = old.title
  extra : ∀ (k : String) (v : Json), old.extra[k]? = some v → current.extra[k]? = some v
  dependencies : ∀ id ∈ old.dependencies, id ∈ current.dependencies
  prs : ∀ url ∈ old.prs, url ∈ current.prs
  repairs : ∀ url ∈ old.prs, url ∈ old.linkedRepairs ↔ url ∈ current.linkedRepairs
  releases : ∀ url ∈ old.prs, url ∈ old.linkedReleases ↔ url ∈ current.linkedReleases
  linked : ∀ url ∈ current.prs, url ∉ old.prs →
    url ∈ current.linkedRepairs ∨ url ∈ current.linkedReleases

theorem extends_iff {old current : Packet} :
    current.number = old.number ∧ current.extends old = true ↔ old.Succeeds current := by
  constructor
  · intro h
    obtain ⟨hnumber,h⟩ := h
    simp only [Packet.extends,Bool.and_eq_true,decide_eq_true_eq,List.all_eq_true,keepsExtra_iff,
      Bool.or_eq_true] at h
    obtain ⟨⟨⟨⟨⟨⟨⟨hsession,hhost⟩,htitle⟩,hextra⟩,hdeps⟩,hprs⟩,hclass⟩,hnew⟩ := h
    refine ⟨hnumber,hsession,hhost,htitle,hextra,hdeps,hprs,fun url hu => ?_,fun url hu => ?_,
      fun url hu hold => ?_⟩
    · simpa using (hclass url hu).1
    · simpa using (hclass url hu).2
    · have h := hnew url hu
      tauto
  · intro h
    refine ⟨h.number,?_⟩
    simp only [Packet.extends,Bool.and_eq_true,decide_eq_true_eq,List.all_eq_true,keepsExtra_iff,
      Bool.or_eq_true]
    refine ⟨⟨⟨⟨⟨⟨⟨h.session,h.host⟩,h.title⟩,h.extra⟩,h.dependencies⟩,h.prs⟩,fun url hu => ?_⟩,
      fun url hu => ?_⟩
    · exact ⟨by simpa using h.repairs url hu,by simpa using h.releases url hu⟩
    · by_cases hold : url ∈ old.prs
      · exact .inl (.inl hold)
      · rcases h.linked url hu hold with h | h
        · exact .inl (.inr h)
        · exact .inr h

theorem Packet.Succeeds.refl (p : Packet) : p.Succeeds p :=
  ⟨rfl,rfl,rfl,rfl,fun _ _ h => h,fun _ h => h,fun _ h => h,fun _ _ => Iff.rfl,fun _ _ => Iff.rfl,
    fun _ h hno => absurd h hno⟩

theorem Packet.Succeeds.trans {p q r : Packet} (h : p.Succeeds q) (h' : q.Succeeds r) :
    p.Succeeds r := by
  constructor
  · rw [h'.number,h.number]
  · rw [h'.session,h.session]
  · rw [h'.host,h.host]
  · rw [h'.title,h.title]
  · exact fun k v hk => h'.extra k v (h.extra k v hk)
  · exact fun id hid => h'.dependencies id (h.dependencies id hid)
  · exact fun url hu => h'.prs url (h.prs url hu)
  · exact fun url hu => (h.repairs url hu).trans (h'.repairs url (h.prs url hu))
  · exact fun url hu => (h.releases url hu).trans (h'.releases url (h.prs url hu))
  · intro url hu hold
    by_cases hmid : url ∈ q.prs
    · -- it came with the middle manifest, as linked work, and keeps that class
      rcases h.linked url hmid hold with hlink | hlink
      · exact .inl ((h'.repairs url hmid).mp hlink)
      · exact .inr ((h'.releases url hmid).mp hlink)
    · exact h'.linked url hu hmid

theorem keeps_iff {m : Manifest} (hm : m.Distinct) {p : Packet} :
    m.keeps p = .ok () ↔ ∃ q ∈ m.packets, p.Succeeds q := by
  constructor
  · intro h
    unfold Manifest.keeps at h
    split at h
    · cases h
    · rename_i q hfind
      have hnumber : q.number = p.number := by simpa using List.find?_some hfind
      exact ⟨q,List.mem_of_find?_eq_some hfind,extends_iff.mp ⟨hnumber,require_ok h⟩⟩
  · intro h
    obtain ⟨q,hq,hsucc⟩ := h
    unfold Manifest.keeps
    split
    · rename_i hnone
      have hno := List.find?_eq_none.mp hnone q hq
      simp [hsucc.number] at hno
    · rename_i r hfind
      have hnumber : r.number = p.number := by simpa using List.find?_some hfind
      have hrq : r = q :=
        hm.packet_eq (List.mem_of_find?_eq_some hfind) hq (hnumber.trans hsucc.number.symm)
      rw [require_iff,hrq]
      exact (extends_iff.mpr hsucc).2

theorem forEach_ok {α ε : Type} {f : α → Except ε Unit} {as : List α} :
    as.foldlM (fun _ a => f a) () = .ok () ↔ ∀ a ∈ as, f a = .ok () := by
  induction as with
  | nil => simp [pure,Except.pure]
  | cons a as ih =>
    rw [List.foldlM_cons,List.forall_mem_cons,← ih]
    cases h : f a with
    | error e => simp [bind,Except.bind]
    | ok u => simp [bind,Except.bind]

/-- What it takes to be accepted after `old`. -/
structure Manifest.After (old m : Manifest) : Prop where
  own : m.validateOwn = .ok ()
  previous : old.validateOwn = .ok ()
  count : m.packets.length = old.packets.length
  baseline : m.baselineCount = old.baselineCount
  extra : ∀ (k : String) (v : Json), old.extra[k]? = some v → m.extra[k]? = some v
  owners : ∀ p ∈ old.packets, ∃ q ∈ m.packets, p.Succeeds q

theorem validate_iff {m old : Manifest} : m.validate (some old) = .ok () ↔ old.After m := by
  constructor
  · intro h
    obtain ⟨⟨⟩,hown,h⟩ := bind_ok h
    obtain ⟨⟨⟩,hprevious,h⟩ := bind_ok h
    obtain ⟨u,hscope,h⟩ := bind_ok h
    obtain ⟨hcount,hbaseline,hextra⟩ := require_ok hscope
    have hkeeps := forEach_ok.mp h
    exact ⟨hown,hprevious,hcount,hbaseline,keepsExtra_iff.mp hextra,
      fun p hp => (keeps_iff (validateOwn_ok hown)).mp (hkeeps p hp)⟩
  · intro h
    have hscope : (require (m.packets.length = old.packets.length ∧
        m.baselineCount = old.baselineCount ∧ keepsExtra old.extra m.extra = true)
        "existing owner set or baseline scope changed" : Except String Unit) = .ok () :=
      require_iff.mpr ⟨h.count,h.baseline,keepsExtra_iff.mpr h.extra⟩
    have hkeeps : old.packets.foldlM (fun _ p => m.keeps p) () = .ok () :=
      forEach_ok.mpr fun p hp => (keeps_iff (validateOwn_ok h.own)).mpr (h.owners p hp)
    simp only [Manifest.validate,h.own,h.previous,hscope,hkeeps,bind,Except.bind]

theorem Manifest.After.refl {m : Manifest} (h : m.validateOwn = .ok ()) : m.After m :=
  ⟨h,h,rfl,rfl,fun _ _ h => h,fun p hp => ⟨p,hp,.refl p⟩⟩

theorem Manifest.After.trans {a b c : Manifest} (h : a.After b) (h' : b.After c) : a.After c := by
  refine ⟨h'.own,h.previous,h'.count.trans h.count,h'.baseline.trans h.baseline,
    fun k v hk => h'.extra k v (h.extra k v hk),fun p hp => ?_⟩
  obtain ⟨q,hq,hpq⟩ := h.owners p hp
  obtain ⟨r,hr,hqr⟩ := h'.owners q hq
  exact ⟨r,hr,hpq.trans hqr⟩

theorem Manifest.After.of_chain {m n : Manifest} (hm : m.validateOwn = .ok ())
    (h : Relation.ReflTransGen (fun a b : Manifest => b.validate (some a) = .ok ()) m n) :
    m.After n := by
  induction h with
  | refl => exact .refl hm
  | tail _ hstep ih => exact ih.trans (validate_iff.mp hstep)

/-! ## Ownership -/

/-- What identifies an owner. -/
def Packet.owner (p : Packet) : ℕ × String × String × String :=
  (p.number,p.sessionId,p.ownerHost,p.title)

/-- The immutable original work of an owner. -/
def Packet.baseline (p : Packet) : List String :=
  p.prs.filter fun url => url ∉ p.linkedRepairs && url ∉ p.linkedReleases

/-- The owners are the same, and each keeps its baseline and the class of its work. -/
structure Manifest.Conserved (m n : Manifest) : Prop where
  owners : ∀ o, o ∈ m.packets.map Packet.owner ↔ o ∈ n.packets.map Packet.owner
  baseline : ∀ p ∈ m.packets, ∀ q ∈ n.packets, p.number = q.number →
    ∀ url, url ∈ p.baseline ↔ url ∈ q.baseline
  classes : ∀ p ∈ m.packets, ∀ q ∈ n.packets, p.number = q.number → ∀ url ∈ p.prs,
    (url ∈ p.linkedRepairs ↔ url ∈ q.linkedRepairs) ∧
      (url ∈ p.linkedReleases ↔ url ∈ q.linkedReleases)
  grown : ∀ p ∈ m.packets, ∀ q ∈ n.packets, p.number = q.number →
    (∀ id ∈ p.dependencies, id ∈ q.dependencies) ∧ ∀ url ∈ p.prs, url ∈ q.prs

theorem Packet.Succeeds.baseline {p q : Packet} (h : p.Succeeds q) (url : String) :
    url ∈ p.baseline ↔ url ∈ q.baseline := by
  simp only [Packet.baseline,List.mem_filter,Bool.and_eq_true,decide_eq_true_eq]
  constructor
  · intro hp
    have hrepairs := h.repairs url hp.1
    have hreleases := h.releases url hp.1
    exact ⟨h.prs url hp.1,by tauto,by tauto⟩
  · intro hq
    have hold : url ∈ p.prs := by
      by_contra hno
      have hlinked := h.linked url hq.1 hno
      tauto
    have hrepairs := h.repairs url hold
    have hreleases := h.releases url hold
    exact ⟨hold,by tauto,by tauto⟩

theorem Packet.Succeeds.owner {p q : Packet} (h : p.Succeeds q) : p.owner = q.owner := by
  simp [Packet.owner,h.number,h.session,h.host,h.title]

/-- Equally many distinct owners, each of the old ones kept: no owner is new. -/
theorem Manifest.After.surjective {m n : Manifest} (h : m.After n) {q : Packet}
    (hq : q ∈ n.packets) : ∃ p ∈ m.packets, p.Succeeds q := by
  have hm := validateOwn_ok h.previous
  have hn := validateOwn_ok h.own
  have hsub : m.packets.map (·.number) ⊆ n.packets.map (·.number) := by
    intro k hk
    obtain ⟨p,hp,rfl⟩ := List.mem_map.mp hk
    obtain ⟨r,hr,hpr⟩ := h.owners p hp
    exact List.mem_map.mpr ⟨r,hr,hpr.number⟩
  have hperm : (m.packets.map (·.number)).Perm (n.packets.map (·.number)) := by
    apply List.Subperm.perm_of_length_le (hm.numbers.subperm hsub)
    simp [h.count]
  have hmem : q.number ∈ m.packets.map (·.number) :=
    hperm.symm.subset (List.mem_map_of_mem hq)
  obtain ⟨p,hp,hnumber⟩ := List.mem_map.mp hmem
  obtain ⟨r,hr,hpr⟩ := h.owners p hp
  have hrq : r = q := hn.packet_eq hr hq (hpr.number.trans hnumber)
  exact ⟨p,hp,hrq ▸ hpr⟩

theorem Manifest.After.conserved {m n : Manifest} (h : m.After n) : m.Conserved n := by
  have hn := validateOwn_ok h.own
  have hsucc : ∀ p ∈ m.packets, ∀ q ∈ n.packets, p.number = q.number → p.Succeeds q := by
    intro p hp q hq hpq
    obtain ⟨r,hr,hpr⟩ := h.owners p hp
    rwa [← hn.packet_eq hr hq (hpr.number.trans hpq)]
  constructor
  · intro o
    simp only [List.mem_map]
    constructor
    · intro ho
      obtain ⟨p,hp,rfl⟩ := ho
      obtain ⟨q,hq,hpq⟩ := h.owners p hp
      exact ⟨q,hq,hpq.owner.symm⟩
    · intro ho
      obtain ⟨q,hq,rfl⟩ := ho
      obtain ⟨p,hp,hpq⟩ := h.surjective hq
      exact ⟨p,hp,hpq.owner⟩
  · exact fun p hp q hq hpq => (hsucc p hp q hq hpq).baseline
  · exact fun p hp q hq hpq url hu =>
      ⟨(hsucc p hp q hq hpq).repairs url hu,(hsucc p hp q hq hpq).releases url hu⟩
  · exact fun p hp q hq hpq => ⟨(hsucc p hp q hq hpq).dependencies,(hsucc p hp q hq hpq).prs⟩

/-- A valid manifest is accepted after itself, acceptance is transitive, and along every
chain of accepted manifests the owners, their baselines and the classes of known work stay. -/
theorem ownership_conserved :
    (∀ m : Manifest, m.validate none = .ok () → m.validate (some m) = .ok ()) ∧
    (∀ a b c : Manifest, b.validate (some a) = .ok () → c.validate (some b) = .ok () →
      c.validate (some a) = .ok ()) ∧
    (∀ m n : Manifest, m.validate none = .ok () →
      Relation.ReflTransGen (fun a b : Manifest => b.validate (some a) = .ok ()) m n →
      m.Conserved n) := by
  refine ⟨fun m hm => ?_,fun a b c hab hbc => ?_,fun m n hm hchain => ?_⟩
  · exact validate_iff.mpr (.refl (validate_none.mp hm))
  · exact validate_iff.mpr ((validate_iff.mp hab).trans (validate_iff.mp hbc))
  · exact (Manifest.After.of_chain (validate_none.mp hm) hchain).conserved

/-- Two owners, the second producing for the first. -/
def original : Manifest where
  packets := [⟨1,"ses_one","builder","Owner 1",["one"],[],[],[2],∅⟩,
    ⟨2,"ses_two","mobile","Owner 2",["two"],[],[],[],∅⟩]
  assignmentCount := 2
  baselineCount := some 2
  linkedCount := none
  releaseCount := none
  extra := ∅

/-- The same owners after a repair was linked to the first. -/
def repaired : Manifest where
  packets := [⟨1,"ses_one","builder","Owner 1",["one","fix"],["fix"],[],[2],∅⟩,
    ⟨2,"ses_two","mobile","Owner 2",["two"],[],[],[],∅⟩]
  assignmentCount := 3
  baselineCount := some 2
  linkedCount := none
  releaseCount := none
  extra := ∅

theorem original_valid : original.validate none = .ok () := by decide +kernel
theorem repaired_accepted : repaired.validate (some original) = .ok () := by decide +kernel

theorem repaired_conserves : original.Conserved repaired :=
  ownership_conserved.2.2 original repaired original_valid (.single repaired_accepted)

end Orchestration
end CanixToolbelt
