import CanixToolbelt.ManifestHistory
import CanixToolbelt.Orchestration
import Mathlib.Algebra.BigOperators.Group.Finset.Basic

/-! Every assignment of a valid manifest has one owner and one class, and the counts of its
coverage add up. -/
namespace CanixToolbelt
namespace Orchestration

open Fallible

/-! ## Counting maps -/

theorem getElem?_tally (xs : List String) (states : Std.ExtTreeMap String ℕ) (k : String) :
    (xs.foldl count states)[k]? =
      if k ∈ xs then some (states.getD k 0 + xs.count k) else states[k]? := by
  induction xs generalizing states with
  | nil => simp
  | cons x xs ih =>
    rw [List.foldl_cons,ih]
    simp only [count,Std.ExtTreeMap.getD_insert,Std.ExtTreeMap.getElem?_insert,
      Std.LawfulEqCmp.compare_eq_iff_eq,List.mem_cons,List.count_cons,beq_iff_eq]
    by_cases hx : x = k
    · subst hx
      by_cases hmem : x ∈ xs
      · simp [hmem]
        omega
      · simp [hmem,List.count_eq_zero.mpr hmem]
    · simp [hx,Ne.symm hx]

/-- A map that counts the elements of a list. -/
structure Tallies (states : Std.ExtTreeMap String ℕ) (xs : List String) : Prop where
  each : ∀ k, states.getD k 0 = xs.count k
  sum : (states.toList.map (·.2)).sum = xs.length

theorem tally_tallies (xs : List String) : Tallies (xs.foldl count ∅) xs := by
  have hread : ∀ k, (xs.foldl count ∅)[k]? = if k ∈ xs then some (xs.count k) else none := by
    intro k
    simp [getElem?_tally]
  have heach : ∀ k, (xs.foldl count ∅).getD k 0 = xs.count k := by
    intro k
    rw [Std.ExtTreeMap.getD_eq_getD_getElem?,hread]
    split
    · rfl
    · rename_i hk
      simp [List.count_eq_zero.mpr hk]
  refine ⟨heach,?_⟩
  have hvalues : (xs.foldl count ∅).toList.map (·.2) =
      (xs.foldl count ∅).keys.map fun k => xs.count k := by
    rw [← Std.ExtTreeMap.map_fst_toList_eq_keys,List.map_map]
    refine List.map_congr_left fun f hf => ?_
    have hf := Std.ExtTreeMap.mem_toList_iff_getElem?_eq_some.mp hf
    have hd := heach f.1
    rw [Std.ExtTreeMap.getD_eq_getD_getElem?,hf] at hd
    exact hd
  have hcovers : ∀ k ∈ (xs : Multiset String), k ∈ (xs.foldl count ∅).keys.toFinset := by
    intro k hk
    rw [List.mem_toFinset,Std.ExtTreeMap.mem_keys,Std.ExtTreeMap.mem_iff_isSome_getElem?,hread,
      if_pos (Multiset.mem_coe.mp hk)]
    rfl
  calc ((xs.foldl count ∅).toList.map (·.2)).sum
      = ((xs.foldl count ∅).keys.map fun k => xs.count k).sum := by rw [hvalues]
    _ = ∑ k ∈ (xs.foldl count ∅).keys.toFinset, (xs : Multiset String).count k := by
        rw [List.sum_toFinset _ Std.ExtTreeMap.nodup_keys]
        simp only [Multiset.coe_count]
    _ = xs.length := by rw [Multiset.sum_count_eq_card hcovers,Multiset.coe_card]

/-! ## Classes -/

inductive Class where
  | baseline
  | repair
  | release
  deriving DecidableEq

/-- What an owner declares about one of its assignments. -/
def Packet.declares (p : Packet) (c : Class) (url : String) : Bool :=
  match c with
  | .baseline => url ∉ p.linkedRepairs && url ∉ p.linkedReleases
  | .repair => url ∈ p.linkedRepairs
  | .release => url ∈ p.linkedReleases

def Manifest.urls (m : Manifest) : List String := m.packets.flatMap (·.prs)

/-- The assignments of one class. -/
def Manifest.classed (m : Manifest) (c : Class) : List String :=
  m.packets.flatMap fun p => p.prs.filter (p.declares c)

/-! ## What validation collects -/

theorem repair_fold {p : Packet} {urls : List String} {s t : Scope}
    (h : urls.foldlM (Scope.repair p) s = .ok t) :
    t = { s with repairs := urls.reverse ++ s.repairs } ∧ (∀ u ∈ urls, u ∈ p.prs) ∧
      (s.repairs.Nodup → t.repairs.Nodup) := by
  induction urls generalizing s with
  | nil => simp [← foldlM_nil_ok h]
  | cons url urls ih =>
    obtain ⟨u,hu,h⟩ := foldlM_cons_ok h
    unfold Scope.repair at hu
    split at hu
    · cases hu
    · rename_i hnew
      simp only [not_or,not_not] at hnew
      obtain rfl := Except.ok.inj hu
      obtain ⟨ht,hown,hnodup⟩ := ih h
      refine ⟨by simpa using ht,by simpa using ⟨hnew.1,hown⟩,fun hs => hnodup ?_⟩
      exact List.nodup_cons.mpr ⟨hnew.2,hs⟩

theorem release_fold {p : Packet} {urls : List String} {s t : Scope}
    (h : urls.foldlM (Scope.release p) s = .ok t) :
    t = { s with releases := urls.reverse ++ s.releases } ∧
      (∀ u ∈ urls, u ∈ p.prs ∧ u ∉ s.repairs) ∧ (s.releases.Nodup → t.releases.Nodup) := by
  induction urls generalizing s with
  | nil => simp [← foldlM_nil_ok h]
  | cons url urls ih =>
    obtain ⟨u,hu,h⟩ := foldlM_cons_ok h
    unfold Scope.release at hu
    split at hu
    · cases hu
    · rename_i hnew
      simp only [not_or,not_not] at hnew
      obtain rfl := Except.ok.inj hu
      obtain ⟨ht,hown,hnodup⟩ := ih h
      refine ⟨by simpa using ht,by simpa using ⟨⟨hnew.1,hnew.2.1⟩,hown⟩,fun hs => hnodup ?_⟩
      exact List.nodup_cons.mpr ⟨hnew.2.2,hs⟩

/-- Linked work of one owner: its own assignments, each linked in one way only. -/
structure Packet.Linked (p : Packet) : Prop where
  repairs : ∀ u ∈ p.linkedRepairs, u ∈ p.prs
  releases : ∀ u ∈ p.linkedReleases, u ∈ p.prs ∧ u ∉ p.linkedRepairs

theorem register_linked {ps : List Packet} {s t : Scope} (h : ps.foldlM Scope.register s = .ok t) :
    t.repairs = (ps.flatMap (·.linkedRepairs)).reverse ++ s.repairs ∧
      t.releases = (ps.flatMap (·.linkedReleases)).reverse ++ s.releases ∧
      (s.repairs.Nodup → t.repairs.Nodup) ∧ (s.releases.Nodup → t.releases.Nodup) ∧
      ∀ p ∈ ps, p.Linked := by
  induction ps generalizing s with
  | nil => simp [← foldlM_nil_ok h]
  | cons p ps ih =>
    obtain ⟨u,hu,h⟩ := foldlM_cons_ok h
    unfold Scope.register at hu
    split at hu
    · cases hu
    · obtain ⟨a,ha,hu⟩ := bind_ok hu
      obtain ⟨b,hb,hu⟩ := bind_ok hu
      have ha := (assign_ok ha).1
      obtain ⟨hb,hrepairs,hbn⟩ := repair_fold hb
      obtain ⟨hu,hreleases,hun⟩ := release_fold hu
      obtain ⟨ht,ht',htn,htn',hlinked⟩ := ih h
      have hur : u.repairs = p.linkedRepairs.reverse ++ s.repairs := by rw [hu,hb,ha]
      have hul : u.releases = p.linkedReleases.reverse ++ s.releases := by rw [hu,hb,ha]
      have hbr : b.repairs = p.linkedRepairs.reverse ++ s.repairs := by rw [hb,ha]
      refine ⟨by simp [ht,hur],by simp [ht',hul],fun hs => htn ?_,fun hs => htn' (hun ?_),?_⟩
      · rw [hur,← hbr]
        exact hbn (by rwa [ha])
      · rw [hb,ha]
        exact hs
      · simp only [List.mem_cons,forall_eq_or_imp]
        refine ⟨⟨hrepairs,fun x hx => ?_⟩,hlinked⟩
        have hx := hreleases x hx
        rw [hbr] at hx
        simp only [List.mem_append,List.mem_reverse,not_or] at hx
        exact ⟨hx.1,hx.2.1⟩

/-! ## Owners and classes of a valid manifest -/

/-- A manifest whose assignments each have one owner and one class. -/
structure Manifest.Classified (m : Manifest) : Prop extends m.Distinct where
  linked : ∀ p ∈ m.packets, p.Linked
  repairs : (m.packets.flatMap (·.linkedRepairs)).Nodup
  releases : (m.packets.flatMap (·.linkedReleases)).Nodup

/-- The classes of the scope are those the owners declare. -/
structure Scope.Of (s : Scope) (m : Manifest) : Prop where
  urls : s.urls.length = m.urls.length
  repairs : s.repairs.length = (m.packets.flatMap (·.linkedRepairs)).length
  releases : s.releases.length = (m.packets.flatMap (·.linkedReleases)).length

theorem scope_of {m : Manifest} {s : Scope} (h : m.packets.foldlM Scope.register {} = .ok s) :
    s.Of m := by
  obtain ⟨-,-,hurls,-⟩ := register_ok h
  obtain ⟨hrepairs,hreleases,-⟩ := register_linked h
  exact ⟨by simp [hurls,Manifest.urls],by simp [hrepairs],by simp [hreleases]⟩

theorem owner_unique {ps : List Packet} (h : (ps.flatMap (·.prs)).Nodup) {p q : Packet} {url : String}
    (hp : p ∈ ps) (hq : q ∈ ps) (hup : url ∈ p.prs) (huq : url ∈ q.prs) : p = q := by
  by_contra hne
  have hsymm : Std.Symm (Function.onFun List.Disjoint fun x : Packet => x.prs) :=
    ⟨fun _ _ h => List.Disjoint.symm h⟩
  exact (List.nodup_flatMap.mp h).2.forall hp hq hne hup huq

/-- Repairs and releases are disjoint parts of the assignments, whether or not the counts
that are checked next agree. -/
theorem linked_length {ps : List Packet} {s : Scope} (h : ps.foldlM Scope.register {} = .ok s) :
    s.repairs.length + s.releases.length ≤ s.urls.length := by
  obtain ⟨-,-,hurls,-,-,hun⟩ := register_ok h
  obtain ⟨hrepairs,hreleases,hrn,hln,hlinked⟩ := register_linked h
  have hnodup := hun List.nodup_nil
  simp only [List.append_nil] at hurls hrepairs hreleases
  rw [hurls,List.nodup_reverse] at hnodup
  have hboth : (s.repairs ++ s.releases).Nodup := by
    refine List.nodup_append'.mpr ⟨hrn List.nodup_nil,hln List.nodup_nil,fun u hr hl => ?_⟩
    simp only [hrepairs,hreleases,List.mem_reverse,List.mem_flatMap] at hr hl
    obtain ⟨p,hp,hr⟩ := hr
    obtain ⟨q,hq,hl⟩ := hl
    have hown := (hlinked q hq).releases u hl
    obtain rfl := owner_unique hnodup hp hq ((hlinked p hp).repairs u hr) hown.1
    exact hown.2 hr
  have hsub : s.repairs ++ s.releases ⊆ s.urls := by
    intro u hu
    simp only [hurls,hrepairs,hreleases,List.mem_append,List.mem_reverse,List.mem_flatMap] at hu ⊢
    rcases hu with ⟨p,hp,hu⟩ | ⟨p,hp,hu⟩
    · exact ⟨p,hp,(hlinked p hp).repairs u hu⟩
    · exact ⟨p,hp,((hlinked p hp).releases u hu).1⟩
  simpa using (hboth.subperm hsub).length_le

theorem validateOwn_counted {m : Manifest} (h : m.validateOwn = .ok ()) :
    ∃ s, m.packets.foldlM Scope.register {} = .ok s ∧ s.counted m := by
  obtain ⟨s,hs,h⟩ := bind_ok h
  obtain ⟨u,hu,-⟩ := bind_ok h
  exact ⟨s,hs,require_ok hu⟩

theorem validateOwn_classified {m : Manifest} (h : m.validateOwn = .ok ()) : m.Classified := by
  obtain ⟨s,hs,-⟩ := validateOwn_counted h
  obtain ⟨hrepairs,hreleases,hrn,hln,hlinked⟩ := register_linked hs
  have hr := hrn List.nodup_nil
  have hl := hln List.nodup_nil
  rw [hrepairs,List.append_nil,List.nodup_reverse] at hr
  rw [hreleases,List.append_nil,List.nodup_reverse] at hl
  exact ⟨validateOwn_ok h,hlinked,hr,hl⟩

theorem filter_length {α : Type} [DecidableEq α] {xs ys : List α} (hxs : xs.Nodup) (hys : ys.Nodup)
    (h : ∀ y ∈ ys, y ∈ xs) : (xs.filter (· ∈ ys)).length = ys.length := by
  refine List.Perm.length_eq ?_
  rw [List.perm_ext_iff_of_nodup (hxs.filter _) hys]
  intro y
  simp only [List.mem_filter,decide_eq_true_eq]
  exact ⟨fun hy => hy.2,fun hy => ⟨h y hy,hy⟩⟩

theorem length_flatMap_congr {α β γ : Type} {xs : List α} {f : α → List β} {g : α → List γ}
    (h : ∀ x ∈ xs, (f x).length = (g x).length) : (xs.flatMap f).length = (xs.flatMap g).length := by
  rw [List.length_flatMap,List.length_flatMap,List.map_congr_left h]

namespace Manifest.Classified
variable {m : Manifest} (h : m.Classified)
include h

theorem repair_length :
    (m.classed .repair).length = (m.packets.flatMap (·.linkedRepairs)).length := by
  refine length_flatMap_congr fun p hp => ?_
  exact filter_length (h.urls_nodup hp) ((List.nodup_flatMap.mp h.repairs).1 p hp)
    (h.linked p hp).repairs

theorem release_length :
    (m.classed .release).length = (m.packets.flatMap (·.linkedReleases)).length := by
  refine length_flatMap_congr fun p hp => ?_
  exact filter_length (h.urls_nodup hp) ((List.nodup_flatMap.mp h.releases).1 p hp)
    fun u hu => ((h.linked p hp).releases u hu).1

theorem declares_cases {p : Packet} (hp : p ∈ m.packets) (url : String) :
    ∃ c, ∀ c', p.declares c' url = decide (c' = c) := by
  by_cases hrepair : url ∈ p.linkedRepairs
  · have hrelease : url ∉ p.linkedReleases :=
      fun hmem => ((h.linked p hp).releases url hmem).2 hrepair
    refine ⟨.repair,fun c' => ?_⟩
    cases c' <;> simp [Packet.declares,hrepair,hrelease]
  · by_cases hrelease : url ∈ p.linkedReleases
    · refine ⟨.release,fun c' => ?_⟩
      cases c' <;> simp [Packet.declares,hrepair,hrelease]
    · refine ⟨.baseline,fun c' => ?_⟩
      cases c' <;> simp [Packet.declares,hrepair,hrelease]

/-- Each assignment is counted in one class. -/
theorem partition :
    (m.classed .baseline ++ m.classed .repair ++ m.classed .release).Perm m.urls := by
  unfold Manifest.classed Manifest.urls
  refine ((List.flatMap_append_perm _ _ _).append_right _).trans
    ((List.flatMap_append_perm _ _ _).trans (List.Perm.flatMap_left _ fun p hp => ?_))
  refine List.perm_iff_count.mpr fun url => ?_
  obtain ⟨c,hc⟩ := h.declares_cases hp url
  have hcount : ∀ c', (p.prs.filter (p.declares c')).count url =
      if c' = c then p.prs.count url else 0 := by
    intro c'
    split
    · rename_i heq
      exact List.count_filter (by rw [hc,heq]; simp)
    · rename_i hne
      refine List.count_eq_zero.mpr fun hmem => ?_
      have hdeclared := (List.mem_filter.mp hmem).2
      simp [hc,hne] at hdeclared
  rw [List.count_append,List.count_append,hcount,hcount,hcount]
  cases c <;> simp

theorem length :
    (m.classed .baseline).length + (m.classed .repair).length + (m.classed .release).length =
      m.urls.length := by
  simpa [Nat.add_assoc] using h.partition.length_eq

/-- One owner, and one class there, for each assignment. -/
theorem owner_class {url : String} (hurl : url ∈ m.urls) :
    (∃! p, p ∈ m.packets ∧ url ∈ p.prs) ∧
      ∃! c, ∃ p ∈ m.packets, url ∈ p.prs ∧ p.declares c url = true := by
  obtain ⟨p,hp,hmem⟩ := List.mem_flatMap.mp hurl
  obtain ⟨c,hc⟩ := h.declares_cases hp url
  refine ⟨⟨p,⟨hp,hmem⟩,fun q hq => h.url_owner hq.1 hp hq.2 hmem⟩,
    ⟨c,⟨p,hp,hmem,by simp [hc]⟩,fun c' hc' => ?_⟩⟩
  obtain ⟨q,hq,hmem',hdeclared⟩ := hc'
  rw [h.url_owner hq hp hmem' hmem,hc] at hdeclared
  exact of_decide_eq_true hdeclared

end Manifest.Classified

/-! ## Coverage -/

/-- `state["prs"][url]["state"]`, `UNKNOWN` where nothing was observed. -/
def stateOf (prs : Json) (url : String) : String :=
  (((prs.get url).get "state").asStr).getD "UNKNOWN"

/-- The coverage with more assignments counted in each class. -/
def Coverage.including (prs : Json) (c : Coverage) (b r l : List String) : Coverage where
  baselineCount := c.baselineCount + b.length
  repairCount := c.repairCount + r.length
  releaseCount := c.releaseCount + l.length
  baselineStates := (b.map (stateOf prs)).foldl count c.baselineStates
  repairStates := (r.map (stateOf prs)).foldl count c.repairStates
  releaseStates := (l.map (stateOf prs)).foldl count c.releaseStates

theorem including_append (prs : Json) (c : Coverage) (b r l b' r' l' : List String) :
    (c.including prs b r l).including prs b' r' l' =
      c.including prs (b ++ b') (r ++ r') (l ++ l') := by
  simp [Coverage.including,Nat.add_assoc]

variable {prs : Json}

theorem add_fold {p : Packet} (hp : p.Linked) (urls : List String) (c : Coverage) :
    urls.foldl (Coverage.add prs p) c = c.including prs (urls.filter (p.declares .baseline))
      (urls.filter (p.declares .repair)) (urls.filter (p.declares .release)) := by
  induction urls generalizing c with
  | nil => rfl
  | cons url urls ih =>
    rw [List.foldl_cons,ih]
    by_cases hrepair : url ∈ p.linkedRepairs
    · have hrelease : url ∉ p.linkedReleases := fun hmem => (hp.releases url hmem).2 hrepair
      simp [Coverage.add,Coverage.including,Packet.declares,hrepair,hrelease,stateOf]
      omega
    · by_cases hrelease : url ∈ p.linkedReleases
      · simp [Coverage.add,Coverage.including,Packet.declares,hrepair,hrelease,stateOf]
        omega
      · simp [Coverage.add,Coverage.including,Packet.declares,hrepair,hrelease,stateOf]
        omega

theorem coverage_fold {ps : List Packet} (hps : ∀ p ∈ ps, p.Linked) (c : Coverage) :
    ps.foldl (fun c p => p.prs.foldl (Coverage.add prs p) c) c =
      c.including prs (ps.flatMap fun p => p.prs.filter (p.declares .baseline))
        (ps.flatMap fun p => p.prs.filter (p.declares .repair))
        (ps.flatMap fun p => p.prs.filter (p.declares .release)) := by
  induction ps generalizing c with
  | nil => rfl
  | cons p ps ih =>
    rw [List.foldl_cons,ih fun q hq => hps q (by simp [hq]),add_fold (hps p (by simp)),
      including_append]
    rfl

/-- The count and the states of one class are those of its assignments. -/
structure ClassCounts (prs : Json) (urls : List String) (n : ℕ) (states : Std.ExtTreeMap String ℕ) :
    Prop where
  count : n = urls.length
  tallies : Tallies states (urls.map (stateOf prs))
  sum : (states.toList.map (·.2)).sum = n

/-- What the coverage of a journal says: the classes partition the assignments, agree with
the declared counts, and are the sums of their states. -/
structure Manifest.Accounts (m : Manifest) (prs : Json) (c : Coverage) : Prop where
  partition : (m.classed .baseline ++ m.classed .repair ++ m.classed .release).Perm m.urls
  baseline : ClassCounts prs (m.classed .baseline) c.baselineCount c.baselineStates
  repair : ClassCounts prs (m.classed .repair) c.repairCount c.repairStates
  release : ClassCounts prs (m.classed .release) c.releaseCount c.releaseStates
  total : c.baselineCount + c.repairCount + c.releaseCount = m.assignmentCount
  states : (c.baselineStates.toList.map (·.2)).sum + (c.repairStates.toList.map (·.2)).sum +
    (c.releaseStates.toList.map (·.2)).sum = m.urls.length
  declaredBaseline : ∀ n, m.baselineCount = some n → n = c.baselineCount
  declaredRepair : ∀ n, m.linkedCount = some n → n = c.repairCount
  declaredRelease : ∀ n, m.releaseCount = some n → n = c.releaseCount

theorem counts_tally (urls : List String) :
    ClassCounts prs urls urls.length ((urls.map (stateOf prs)).foldl count ∅) := by
  have htallies := tally_tallies (urls.map (stateOf prs))
  exact ⟨rfl,htallies,by rw [htallies.sum,List.length_map]⟩

theorem coverage_accounts {m : Manifest} (h : m.validateOwn = .ok ()) (prs : Json) :
    ∃ c, m.coverage prs = .ok c ∧ m.Accounts prs c := by
  have hm := validateOwn_classified h
  obtain ⟨s,hs,hcounted⟩ := validateOwn_counted h
  have hscope := scope_of hs
  obtain ⟨-,hassigned,hlinked,hbaseline,hrelease⟩ := hcounted
  have hfold := @coverage_fold prs _ hm.linked {}
  have hlength := hm.length
  have hrepairs := hm.repair_length
  have hreleases := hm.release_length
  have hb := @counts_tally prs (m.classed .baseline)
  have hr := @counts_tally prs (m.classed .repair)
  have hl := @counts_tally prs (m.classed .release)
  refine ⟨Coverage.including prs {} (m.classed .baseline) (m.classed .repair) (m.classed .release),
    ?_,?_⟩
  · simp only [Manifest.coverage,validate_none.mpr h,bind,Except.bind]
    exact congrArg Except.ok hfold
  · simp only [Coverage.including,Nat.zero_add]
    refine ⟨hm.partition,hb,hr,hl,?_,?_,fun n hn => ?_,fun n hn => ?_,fun n hn => ?_⟩
    · rw [hlength,← hassigned,hscope.urls]
    · rw [hb.sum,hr.sum,hl.sum,hlength]
    · rw [hn] at hbaseline
      have hvalue : n = s.urls.length - s.repairs.length - s.releases.length := by
        simpa using hbaseline
      have hcount : n = (m.classed .baseline).length := by
        rw [hvalue,hscope.urls,hscope.repairs,hscope.releases]
        omega
      exact hcount
    · rw [hn] at hlinked
      have hvalue : n = s.repairs.length := by simpa using hlinked
      rw [hvalue,hscope.repairs,hrepairs]
    · rw [hn] at hrelease
      have hvalue : n = s.releases.length := by simpa using hrelease
      rw [hvalue,hscope.releases,hreleases]

theorem refresh_accounts {lib : Canonical.Library} {m : Manifest} {j j' : Journal} {policy : Policy}
    {inputs : Inputs} (h : refresh lib m j policy inputs = .ok j') :
    ∃ c, j'.coverage = some c ∧ m.coverage j'.prs = .ok c ∧ m.Accounts j'.prs c := by
  obtain ⟨u,-,h⟩ := bind_ok h
  obtain ⟨i,-,h⟩ := bind_ok h
  obtain ⟨c,hc,h⟩ := bind_ok h
  obtain rfl := Except.ok.inj h
  obtain ⟨⟨⟩,hvalid,-⟩ := bind_ok hc
  obtain ⟨c',hc',haccounts⟩ := coverage_accounts (validate_none.mp hvalid) i.prs
  obtain rfl := Except.ok.inj (hc.symm.trans hc')
  exact ⟨c,rfl,hc,haccounts⟩

/-- Manifest accounting: the subtraction behind the baseline count never underflows, each
assignment has one owner and one class, and the coverage of every journal adds up. -/
theorem accounting_sound (m : Manifest) (h : m.validate none = .ok ()) :
    (∀ s, m.packets.foldlM Scope.register {} = .ok s →
      s.repairs.length ≤ s.urls.length ∧ s.releases.length ≤ s.urls.length - s.repairs.length) ∧
    m.urls.Nodup ∧
    (∀ url ∈ m.urls, (∃! p, p ∈ m.packets ∧ url ∈ p.prs) ∧
      ∃! c, ∃ p ∈ m.packets, url ∈ p.prs ∧ p.declares c url = true) ∧
    (∀ p ∈ m.packets, ∀ url, url ∈ p.linkedRepairs ∨ url ∈ p.linkedReleases → url ∈ p.prs) ∧
    (∀ prs, ∃ c, m.coverage prs = .ok c ∧ m.Accounts prs c) ∧
    ∀ lib j j' policy inputs, refresh lib m j policy inputs = .ok j' →
      ∃ c, j'.coverage = some c ∧ m.coverage j'.prs = .ok c ∧ m.Accounts j'.prs c := by
  have hown := validate_none.mp h
  have hm := validateOwn_classified hown
  refine ⟨fun s hs => ?_,(validateOwn_ok hown).urls,fun url hurl => hm.owner_class hurl,
    fun p hp url hurl => ?_,coverage_accounts hown,fun lib j j' policy inputs => refresh_accounts⟩
  · have hlength := linked_length hs
    omega
  · rcases hurl with hurl | hurl
    · exact (hm.linked p hp).repairs url hurl
    · exact ((hm.linked p hp).releases url hurl).1

theorem repaired_valid : repaired.validate none = .ok () := by decide +kernel

theorem repaired_accounted : repaired.validate none = .ok () ∧
    ∃ c, repaired.coverage (.obj []) = .ok c ∧ repaired.Accounts (.obj []) c :=
  ⟨repaired_valid,(accounting_sound repaired repaired_valid).2.2.2.2.1 (.obj [])⟩

end Orchestration
end CanixToolbelt
