import Mathlib.Data.List.Chain
import Mathlib.Data.List.Nodup
import Mathlib.Data.List.Perm.Subperm

/-! Breadth-first search: what one expansion of the queue's head does, the invariant it keeps,
and that the paths found when the queue is empty are exactly the shortest ones. -/
namespace CanixToolbelt
namespace ShortestPaths

variable {V : Type} (roots : List V) (edge : V → V → Prop)

/-- A walk from a root along the edges, as the vertices it visits up to the last. -/
inductive Walk : List V → V → Prop
  | root {r : V} (hr : r ∈ roots) : Walk [r] r
  | step {p : List V} {u v : V} (hp : Walk p u) (he : edge u v) : Walk (p ++ [v]) v

structure Shortest (p : List V) (v : V) : Prop where
  walk : Walk roots edge p v
  least : ∀ q, Walk roots edge q v → p.length ≤ q.length

variable {roots edge}

theorem Walk.ne_nil {p : List V} {v : V} (h : Walk roots edge p v) : p ≠ [] := by
  cases h <;> simp

theorem Walk.head {p : List V} {v : V} (h : Walk roots edge p v) : ∃ r ∈ roots, p.head? = some r := by
  induction h with
  | root hr => exact ⟨_,hr,rfl⟩
  | step hp _ ih =>
    obtain ⟨r,hr,hhead⟩ := ih
    exact ⟨r,hr,by rw [List.head?_append,hhead]; rfl⟩

theorem Walk.last {p : List V} {v : V} (h : Walk roots edge p v) : p.getLast? = some v := by
  cases h <;> simp

theorem Walk.chain {p : List V} {v : V} (h : Walk roots edge p v) : p.IsChain edge := by
  induction h with
  | root hr => exact .singleton _
  | @step p u v hp he ih =>
    refine List.isChain_append.mpr ⟨ih,.singleton v,fun x hx y hy => ?_⟩
    rw [hp.last,Option.mem_some] at hx
    obtain rfl := hx
    obtain rfl : v = y := by simpa using hy
    exact he

/-! ## The search -/

/-- The paths found so far. -/
abbrev Found (V : Type) := V → Option (List V)

/-- Expanding `u` finds the vertices `new` that its edges reach and that were not found. -/
structure Expands (edge : V → V → Prop) (P : Found V) (u : V) (new : List V) (P' : Found V) :
    Prop where
  fresh : ∀ v ∈ new, edge u v ∧ P v = none
  nodup : new.Nodup
  added : ∀ v ∈ new, P' v = (P u).map (· ++ [v])
  kept : ∀ v, v ∉ new → P' v = P v
  closed : ∀ v, edge u v → (P' v).isSome = true

/-- The search at any point: what is found is a walk, the queue is ordered by length and spans
two lengths, and what is found and not queued has been expanded. -/
structure Sound (roots : List V) (edge : V → V → Prop) (queue : List V) (P : Found V) : Prop where
  starts : ∀ r ∈ roots, P r = some [r]
  walks : ∀ v p, P v = some p → Walk roots edge p v
  queued : ∀ v ∈ queue, (P v).isSome = true
  sorted : queue.Pairwise fun u v => ∀ p q, P u = some p → P v = some q → p.length ≤ q.length
  near : ∀ u rest, queue = u::rest → ∀ v p q, P u = some p → P v = some q → q.length ≤ p.length + 1
  expanded : ∀ u p, P u = some p → u ∉ queue → ∀ v, edge u v →
    ∃ q, P v = some q ∧ q.length ≤ p.length + 1

theorem sound_init {P : Found V} (hroots : ∀ r ∈ roots, P r = some [r])
    (hothers : ∀ v, v ∉ roots → P v = none) : Sound roots edge roots P := by
  have hroot : ∀ v p, P v = some p → v ∈ roots ∧ p = [v] := by
    intro v p hp
    by_cases hv : v ∈ roots
    · exact ⟨hv,Option.some.inj (hp.symm.trans (hroots v hv))⟩
    · rw [hothers v hv] at hp
      cases hp
  have hlength : ∀ v p, P v = some p → p.length = 1 := fun v p hp => by rw [(hroot v p hp).2]; rfl
  refine ⟨hroots,fun v p hp => ?_,fun v hv => by rw [hroots v hv]; rfl,?_,?_,?_⟩
  · obtain ⟨hv,rfl⟩ := hroot v p hp
    exact .root hv
  · refine List.pairwise_of_forall fun u v p q hp hq => ?_
    exact Nat.le_of_eq ((hlength u p hp).trans (hlength v q hq).symm)
  · intro u rest _ v p q hp hq
    rw [hlength u p hp,hlength v q hq]
    omega
  · exact fun u p hp hu => absurd (hroot u p hp).1 hu

theorem Expands.keeps {P P' : Found V} {u : V} {new : List V} (h : Expands edge P u new P') {v : V}
    {p : List V} (hp : P v = some p) : P' v = some p := by
  have hv : v ∉ new := fun hmem => by
    rw [(h.fresh v hmem).2] at hp
    cases hp
  rw [h.kept v hv,hp]

/-- Taking the head off the queue and expanding it keeps the search sound. -/
theorem Sound.expand {queue new : List V} {P P' : Found V} {u : V}
    (h : Sound roots edge (u::queue) P) (hstep : Expands edge P u new P') :
    Sound roots edge (queue ++ new) P' := by
  obtain ⟨p,hp⟩ := Option.isSome_iff_exists.mp (h.queued u (by simp))
  have hnew : ∀ v ∈ new, P' v = some (p ++ [v]) := by
    intro v hv
    rw [hstep.added v hv,hp]
    rfl
  have hold : ∀ v q, P' v = some q → v ∉ new → P v = some q := by
    intro v q hq hv
    rwa [hstep.kept v hv] at hq
  have hfar : ∀ v q, P' v = some q → q.length ≤ p.length + 1 := by
    intro v q hq
    by_cases hv : v ∈ new
    · rw [hnew v hv] at hq
      obtain rfl := Option.some.inj hq
      simp
    · exact h.near u queue rfl v p q hp (hold v q hq hv)
  have hlow : ∀ v ∈ queue, ∀ q, P' v = some q → p.length ≤ q.length := by
    intro v hv q hq
    obtain ⟨q',hq'⟩ := Option.isSome_iff_exists.mp (h.queued v (by simp [hv]))
    obtain rfl := Option.some.inj ((hstep.keeps hq').symm.trans hq)
    exact (List.pairwise_cons.mp h.sorted).1 v hv p q' hp hq'
  refine ⟨fun r hr => hstep.keeps (h.starts r hr),fun v q hq => ?_,fun v hv => ?_,?_,?_,?_⟩
  · by_cases hv : v ∈ new
    · rw [hnew v hv] at hq
      obtain rfl := Option.some.inj hq
      exact .step (h.walks u p hp) (hstep.fresh v hv).1
    · exact h.walks v q (hold v q hq hv)
  · rcases List.mem_append.mp hv with hv | hv
    · obtain ⟨q,hq⟩ := Option.isSome_iff_exists.mp (h.queued v (by simp [hv]))
      rw [hstep.keeps hq]
      rfl
    · rw [hnew v hv]
      rfl
  · -- the new vertices are one longer than the expanded one, the rest at least as long as it
    refine List.pairwise_append.mpr ⟨?_,?_,?_⟩
    · refine (List.pairwise_cons.mp h.sorted).2.imp_of_mem fun {v w} hv hw hvw q r hq hr => ?_
      obtain ⟨q',hq'⟩ := Option.isSome_iff_exists.mp (h.queued v (by simp [hv]))
      obtain ⟨r',hr'⟩ := Option.isSome_iff_exists.mp (h.queued w (by simp [hw]))
      obtain rfl := Option.some.inj ((hstep.keeps hq').symm.trans hq)
      obtain rfl := Option.some.inj ((hstep.keeps hr').symm.trans hr)
      exact hvw q' r' hq' hr'
    · refine List.Pairwise.imp_of_mem (R := fun _ _ => True) ?_ (List.pairwise_of_forall fun _ _ => trivial)
      intro v w hv hw _ q r hq hr
      rw [hnew v hv] at hq
      rw [hnew w hw] at hr
      obtain rfl := Option.some.inj hq
      obtain rfl := Option.some.inj hr
      simp
    · intro v hv w hw q r hq hr
      have hbound := hfar v q hq
      rw [hnew w hw] at hr
      obtain rfl := Option.some.inj hr
      simpa using hbound
  · intro v rest hqueue w q r hq hr
    have hhead : p.length ≤ q.length := by
      have hmem : v ∈ queue ++ new := by simp [hqueue]
      rcases List.mem_append.mp hmem with hv | hv
      · exact hlow v hv q hq
      · rw [hnew v hv] at hq
        obtain rfl := Option.some.inj hq
        simp
    have hbound := hfar w r hr
    omega
  · intro v q hq hv w hw
    simp only [List.mem_append,not_or] at hv
    by_cases hvu : v = u
    · subst hvu
      obtain rfl := Option.some.inj ((hstep.keeps hp).symm.trans hq)
      obtain ⟨r,hr⟩ := Option.isSome_iff_exists.mp (hstep.closed w hw)
      exact ⟨r,hr,hfar w r hr⟩
    · obtain ⟨r,hr,hlength⟩ := h.expanded v q (hold v q hq hv.2) (by simp [hvu,hv.1]) w hw
      exact ⟨r,hstep.keeps hr,hlength⟩

/-- With the queue empty every walk is matched by a found path no longer than it. -/
theorem Sound.reaches {P : Found V} (h : Sound roots edge [] P) {p : List V} {v : V}
    (hp : Walk roots edge p v) : ∃ q, P v = some q ∧ q.length ≤ p.length := by
  induction hp with
  | root hr => exact ⟨_,h.starts _ hr,Nat.le_refl _⟩
  | @step p u v _ he ih =>
    obtain ⟨q,hq,hlength⟩ := ih
    obtain ⟨r,hr,hstep⟩ := h.expanded u q hq (by simp) v he
    refine ⟨r,hr,?_⟩
    rw [List.length_append,List.length_singleton]
    omega

/-- The found paths are the shortest walks, and only unreachable vertices have none. -/
theorem Sound.shortest {P : Found V} (h : Sound roots edge [] P) (v : V) :
    (∀ p, P v = some p → Shortest roots edge p v) ∧ (P v = none ↔ ∀ p, ¬ Walk roots edge p v) := by
  refine ⟨fun p hp => ⟨h.walks v p hp,fun q hq => ?_⟩,fun hnone p hp => ?_,fun hno => ?_⟩
  · obtain ⟨r,hr,hlength⟩ := h.reaches hq
    obtain rfl := Option.some.inj (hp.symm.trans hr)
    exact hlength
  · obtain ⟨q,hq,-⟩ := h.reaches hp
    rw [hnone] at hq
    cases hq
  · cases hp : P v with
    | none => rfl
    | some p => exact absurd (h.walks v p hp) (hno p)

/-! ## Termination -/

/-- Queued vertices, and those of `all` that are not found: one fewer after each expansion. -/
def remaining (all queue : List V) (P : Found V) : ℕ :=
  queue.length + (all.filter fun v => (P v).isNone).length

theorem Expands.remaining_lt {all queue new : List V} {P P' : Found V} {u : V} (hall : all.Nodup)
    (hu : (P u).isSome = true) (hstep : Expands edge P u new P') (hnew : ∀ v ∈ new, v ∈ all) :
    remaining all (queue ++ new) P' < remaining all (u::queue) P := by
  obtain ⟨p,hp⟩ := Option.isSome_iff_exists.mp hu
  have hfound : ∀ v ∈ new, (P' v).isNone = false := by
    intro v hv
    rw [hstep.added v hv,hp]
    rfl
  have hnodup : (new ++ all.filter fun v => (P' v).isNone).Nodup := by
    refine List.nodup_append'.mpr ⟨hstep.nodup,hall.filter _,fun v hv hno => ?_⟩
    have hnone := (List.mem_filter.mp hno).2
    rw [hfound v hv] at hnone
    cases hnone
  have hsub : (new ++ all.filter fun v => (P' v).isNone) ⊆ all.filter fun v => (P v).isNone := by
    intro v hv
    rcases List.mem_append.mp hv with hv | hv
    · exact List.mem_filter.mpr ⟨hnew v hv,by rw [(hstep.fresh v hv).2]; rfl⟩
    · obtain ⟨hmem,hnone⟩ := List.mem_filter.mp hv
      refine List.mem_filter.mpr ⟨hmem,?_⟩
      by_cases hv : v ∈ new
      · rw [hfound v hv] at hnone
        cases hnone
      · rwa [hstep.kept v hv] at hnone
  have hlength := (hnodup.subperm hsub).length_le
  simp only [remaining,List.length_append,List.length_cons] at hlength ⊢
  omega

end ShortestPaths
end CanixToolbelt
