import Mathlib.Data.String.Basic
import CanixToolbelt.Forge
import CanixToolbelt.Transcript

/-! What the required checks come to: the newest run of every context, App and commit, in
whatever order and pages the forge lists them. -/
namespace CanixToolbelt
namespace Forge
open Effect Review

/-! ## Sorted and without repetitions -/

section
variable {α : Type} [LinearOrder α]

theorem eraseReps_loop (a : α) (as acc : List α) :
    List.eraseRepsBy.loop (· == ·) a as acc =
      acc.reverse ++ List.eraseRepsBy.loop (· == ·) a as [] := by
  induction as generalizing a acc with
  | nil => simp [List.eraseRepsBy.loop]
  | cons b as ih =>
    by_cases hab : a = b
    · simp only [List.eraseRepsBy.loop,hab,beq_self_eq_true]
      exact ih b acc
    · simp only [List.eraseRepsBy.loop,beq_eq_false_iff_ne.mpr hab]
      rw [ih b (a::acc),ih b [a]]
      simp

theorem eraseReps_cons (a b : α) (as : List α) :
    (a::b::as).eraseReps = if a = b then (b::as).eraseReps else a::(b::as).eraseReps := by
  unfold List.eraseReps List.eraseRepsBy
  by_cases hab : a = b
  · simp [List.eraseRepsBy.loop,hab]
  · simp only [List.eraseRepsBy.loop,beq_eq_false_iff_ne.mpr hab,if_neg hab]
    exact eraseReps_loop b as [a]

/-- Of a sorted list every member stays, and no member twice. -/
theorem eraseReps_sorted {as : List α} (h : as.Pairwise (· ≤ ·)) :
    as.eraseReps.Pairwise (· < ·) ∧ ∀ x, x ∈ as.eraseReps ↔ x ∈ as := by
  induction as with
  | nil => exact ⟨.nil,fun x => .rfl⟩
  | cons a as ih =>
    cases as with
    | nil => exact ⟨List.pairwise_singleton _ _,fun x => .rfl⟩
    | cons b as =>
      obtain ⟨ha,hb⟩ := List.pairwise_cons.mp h
      obtain ⟨hlt,hmem⟩ := ih hb
      rw [eraseReps_cons]
      by_cases hab : a = b
      · rw [if_pos hab]
        refine ⟨hlt,fun x => (hmem x).trans ?_⟩
        simp [hab]
      · rw [if_neg hab]
        have hab : a < b := lt_of_le_of_ne (ha b List.mem_cons_self) hab
        refine ⟨List.pairwise_cons.mpr ⟨fun x hx => ?_,hlt⟩,fun x => ?_⟩
        · rcases List.mem_cons.mp ((hmem x).mp hx) with rfl | hx
          · exact hab
          · exact lt_of_lt_of_le hab ((List.pairwise_cons.mp hb).1 x hx)
        · rw [List.mem_cons,List.mem_cons,hmem]

/-- What is sorted and without repetitions depends on the members alone. -/
theorem sorted_distinct_congr {as bs : List α} (h : ∀ x, x ∈ as ↔ x ∈ bs) :
    (as.insertionSort (· ≤ ·)).eraseReps = (bs.insertionSort (· ≤ ·)).eraseReps := by
  obtain ⟨ha,hma⟩ := eraseReps_sorted (List.pairwise_insertionSort (· ≤ ·) as)
  obtain ⟨hb,hmb⟩ := eraseReps_sorted (List.pairwise_insertionSort (· ≤ ·) bs)
  refine ha.sortedLT.eq_of_mem_iff hb.sortedLT fun x => ?_
  rw [hma,hmb,List.mem_insertionSort,List.mem_insertionSort]
  exact h x

end

/-! ## The newest run of a key -/

def checkId (check : Json) : Option ℕ := (check.get? "id").bind Json.asU64

/-- The context, the App and the commit of a check run. -/
def checkKey (check : Json) : Except Error CheckKey := do
  let sha ← text check ["head_sha"]
  let name ← text check ["name"]
  let app ← number check ["app","id"]
  pure ⟨name,app,sha⟩

/-- The order of identities, absence below every number. -/
def rank : Option ℕ → ℕ
  | none => 0
  | some n => n + 1

@[simp] theorem newer_eq (a b : Option ℕ) : newer a b = decide (rank b < rank a) := by
  cases a <;> cases b <;> simp [newer,rank]

/-- A run of the key, and none of them has a larger identity. -/
structure LatestOf (runs : List Json) (key : CheckKey) (run : Json) : Prop where
  listed : run ∈ runs
  keyed : checkKey run = .ok key
  newest : ∀ other ∈ runs, checkKey other = .ok key → rank (checkId other) ≤ rank (checkId run)

theorem LatestOf.perm {runs runs' : List Json} (hp : runs.Perm runs') {key : CheckKey}
    {run : Json} (h : LatestOf runs key run) : LatestOf runs' key run :=
  ⟨hp.mem_iff.mp h.listed,h.keyed,fun other ho => h.newest other (hp.mem_iff.mpr ho)⟩

/-- The newest runs of a key agree on whether they passed. -/
def Decided (runs : List Json) : Prop :=
  ∀ key a b, LatestOf runs key a → LatestOf runs key b → completedSuccess a = completedSuccess b

/-- Runs with distinct identities leave nothing undecided. -/
theorem decided_of_distinct {runs : List Json}
    (h : ∀ a ∈ runs, ∀ b ∈ runs, checkKey a = checkKey b → checkId a = checkId b → a = b) :
    Decided runs := by
  intro key a b ha hb
  have hab := ha.newest b hb.listed hb.keyed
  have hba := hb.newest a ha.listed ha.keyed
  have hid : checkId a = checkId b := by
    cases hx : checkId a <;> cases hy : checkId b <;> simp [hx,hy,rank] at hab hba ⊢
    omega
  rw [h a ha.listed b hb.listed (ha.keyed.trans hb.keyed.symm) hid]

/-- What a fold over the runs keeps: one newest run under each of their keys. -/
structure Kept (runs : List Json) (latest : List (CheckKey × Json)) : Prop where
  distinct : (latest.map (·.1)).Nodup
  newest : ∀ key run, (key,run) ∈ latest → LatestOf runs key run
  covered : ∀ run ∈ runs, ∀ key, checkKey run = .ok key → ∃ kept, (key,kept) ∈ latest

theorem kept_nil : Kept [] [] := ⟨List.nodup_nil,by simp,by simp⟩

theorem keepLatest_keys (key : CheckKey) (check : Json) (latest : List (CheckKey × Json)) :
    (keepLatest key check latest).map (·.1) =
      latest.map (·.1) ++ if key ∈ latest.map (·.1) then [] else [key] := by
  induction latest with
  | nil => rfl
  | cons e latest ih =>
    obtain ⟨k,old⟩ := e
    by_cases hk : k = key
    · simp [keepLatest,hk]
    · have hm : key ∈ ((k,old)::latest).map (·.1) ↔ key ∈ latest.map (·.1) := by
        simp [Ne.symm hk]
      simp only [keepLatest,if_neg hk,List.map_cons,ih,List.cons_append,← hm]

/-- An entry after one more run: of another key, the larger of the two, or the first. -/
theorem of_mem_keepLatest {key k : CheckKey} {check v : Json} {latest : List (CheckKey × Json)}
    (hd : (latest.map (·.1)).Nodup) (h : (k,v) ∈ keepLatest key check latest) :
    (k ≠ key ∧ (k,v) ∈ latest) ∨
      (k = key ∧ ∃ old, (key,old) ∈ latest ∧
        v = if newer (checkId check) (checkId old) then check else old) ∨
      (k = key ∧ v = check ∧ key ∉ latest.map (·.1)) := by
  induction latest with
  | nil =>
    simp only [keepLatest,List.mem_singleton,Prod.mk.injEq] at h
    exact .inr (.inr ⟨h.1,h.2,List.not_mem_nil⟩)
  | cons e latest ih =>
    obtain ⟨k',old⟩ := e
    rw [List.map_cons,List.nodup_cons] at hd
    by_cases hk : k' = key
    · subst hk
      simp only [keepLatest,if_true,List.mem_cons,Prod.mk.injEq] at h
      rcases h with ⟨hk,hv⟩ | h
      · exact .inr (.inl ⟨hk,old,List.mem_cons_self,hv⟩)
      · refine .inl ⟨fun hkk => ?_,List.mem_cons_of_mem _ h⟩
        exact hd.1 (hkk ▸ List.mem_map_of_mem (f := (·.1)) h)
    · simp only [keepLatest,if_neg hk,List.mem_cons,Prod.mk.injEq] at h
      rcases h with ⟨rfl,rfl⟩ | h
      · exact .inl ⟨hk,List.mem_cons_self⟩
      · rcases ih hd.2 h with h | ⟨h,o,ho,hv⟩ | ⟨h,hv,hfree⟩
        · exact .inl ⟨h.1,List.mem_cons_of_mem _ h.2⟩
        · exact .inr (.inl ⟨h,o,List.mem_cons_of_mem _ ho,hv⟩)
        · refine .inr (.inr ⟨h,hv,fun hm => ?_⟩)
          rcases List.mem_cons.mp hm with hm | hm
          · exact hk hm.symm
          · exact hfree hm

/-- A run that is the latest so far remains so unless the next one of its key is newer. -/
theorem LatestOf.snoc {runs : List Json} {key : CheckKey} {run next : Json}
    (h : LatestOf runs key run)
    (hn : checkKey next = .ok key → rank (checkId next) ≤ rank (checkId run)) :
    LatestOf (runs ++ [next]) key run := by
  refine ⟨List.mem_append_left _ h.listed,h.keyed,fun other ho hk => ?_⟩
  rcases List.mem_append.mp ho with ho | ho
  · exact h.newest other ho hk
  · rw [List.mem_singleton] at ho
    exact ho ▸ hn (ho ▸ hk)

theorem Kept.snoc {runs : List Json} {latest : List (CheckKey × Json)} {key : CheckKey}
    {run : Json} (h : Kept runs latest) (hk : checkKey run = .ok key) :
    Kept (runs ++ [run]) (keepLatest key run latest) := by
  refine ⟨?_,?_,?_⟩
  · rw [keepLatest_keys]
    by_cases hm : key ∈ latest.map (·.1)
    · simpa [hm] using h.distinct
    · simp only [hm,if_false]
      exact List.Nodup.append h.distinct (List.nodup_singleton _) (by simpa using hm)
  · intro k v hv
    rcases of_mem_keepLatest h.distinct hv with ⟨hne,hv⟩ | ⟨rfl,old,hold,rfl⟩ | ⟨rfl,rfl,hfree⟩
    · refine (h.newest k v hv).snoc fun hkey => ?_
      exact absurd (Except.ok.inj (hkey.symm.trans hk)) hne
    · have hlatest := h.newest k old hold
      by_cases hn : newer (checkId run) (checkId old)
      · rw [if_pos hn]
        rw [newer_eq,decide_eq_true_iff] at hn
        refine ⟨by simp,hk,fun other ho hkey => ?_⟩
        rcases List.mem_append.mp ho with ho | ho
        · exact le_of_lt (lt_of_le_of_lt (hlatest.newest other ho hkey) hn)
        · rw [List.mem_singleton.mp ho]
      · rw [if_neg hn]
        rw [newer_eq,decide_eq_true_iff] at hn
        exact hlatest.snoc fun _ => not_lt.mp hn
    · refine ⟨by simp,hk,fun other ho hkey => ?_⟩
      rcases List.mem_append.mp ho with ho | ho
      · obtain ⟨kept,hkept⟩ := h.covered other ho k hkey
        exact absurd (List.mem_map_of_mem hkept) hfree
      · rw [List.mem_singleton.mp ho]
  · intro r hr k hkey
    have hkeys : k ∈ (keepLatest key run latest).map (·.1) := by
      rw [keepLatest_keys]
      rcases List.mem_append.mp hr with hr | hr
      · obtain ⟨kept,hkept⟩ := h.covered r hr k hkey
        exact List.mem_append_left _ (List.mem_map_of_mem hkept)
      · rw [List.mem_singleton.mp hr,hk] at hkey
        cases hkey
        by_cases hm : key ∈ latest.map (·.1)
        · exact List.mem_append_left _ hm
        · simp [hm]
    obtain ⟨⟨k',v⟩,hmem,rfl⟩ := List.mem_map.mp hkeys
    exact ⟨v,hmem⟩

/-! ## The fold over all runs -/

theorem addCheck_ok {shas : List String} {latest latest' : List (CheckKey × Json)} {check : Json} :
    addCheck shas latest check = .ok latest' ↔
      ∃ key, checkKey check = .ok key ∧ key.sha ∈ shas ∧ keepLatest key check latest = latest' := by
  unfold addCheck checkKey
  cases text check ["head_sha"] with
  | error e => simp [Bind.bind,Except.bind]
  | ok sha =>
    by_cases hs : sha ∈ shas
    · cases text check ["name"] with
      | error e => simp [Bind.bind,Except.bind,hs]
      | ok name =>
        cases number check ["app","id"] with
        | error e => simp [Bind.bind,Except.bind,hs]
        | ok app => simp [Bind.bind,Except.bind,hs,Pure.pure,Except.pure]
    · cases text check ["name"] with
      | error e => simp [Bind.bind,Except.bind,hs]
      | ok name =>
        cases number check ["app","id"] with
        | error e => simp [Bind.bind,Except.bind,hs]
        | ok app => simp [Bind.bind,Except.bind,hs,Pure.pure,Except.pure]

/-- A run with all its coordinates, of one of the qualified commits. -/
def Keyed (shas : List String) (run : Json) : Prop :=
  ∃ key, checkKey run = .ok key ∧ key.sha ∈ shas

theorem foldChecks {shas : List String} {runs done : List Json}
    {latest latest' : List (CheckKey × Json)} (hk : Kept done latest)
    (h : runs.foldlM (addCheck shas) latest = .ok latest') :
    Kept (done ++ runs) latest' ∧ ∀ run ∈ runs, Keyed shas run := by
  induction runs generalizing done latest with
  | nil =>
    cases h
    exact ⟨by simpa using hk,by simp⟩
  | cons run runs ih =>
    rw [List.foldlM_cons] at h
    cases hadd : addCheck shas latest run with
    | error e => rw [hadd] at h; cases h
    | ok next =>
      rw [hadd] at h
      obtain ⟨key,hkey,hsha,rfl⟩ := addCheck_ok.mp hadd
      obtain ⟨hkept,hall⟩ := ih (hk.snoc hkey) h
      refine ⟨by simpa using hkept,fun r hr => ?_⟩
      rcases List.mem_cons.mp hr with rfl | hr
      · exact ⟨key,hkey,hsha⟩
      · exact hall r hr

/-- The fold fails for no reason but a run without its coordinates or of another commit. -/
theorem foldChecks_total {shas : List String} {runs : List Json}
    (h : ∀ run ∈ runs, Keyed shas run) (latest : List (CheckKey × Json)) :
    ∃ latest', runs.foldlM (addCheck shas) latest = .ok latest' := by
  induction runs generalizing latest with
  | nil => exact ⟨latest,rfl⟩
  | cons run runs ih =>
    obtain ⟨key,hkey,hsha⟩ := h run List.mem_cons_self
    have hadd : addCheck shas latest run = .ok (keepLatest key run latest) :=
      addCheck_ok.mpr ⟨key,hkey,hsha,rfl⟩
    rw [List.foldlM_cons,hadd]
    exact ih (fun r hr => h r (List.mem_cons_of_mem _ hr)) _

/-! ## Blockers as a function of what was kept -/

/-- Every entry of the one has an entry of the other that passed just as it did. -/
def Like (latest latest' : List (CheckKey × Json)) : Prop :=
  ∀ k v, (k,v) ∈ latest → ∃ v', (k,v') ∈ latest' ∧ completedSuccess v' = completedSuccess v

theorem Kept.like {runs runs' : List Json} {latest latest' : List (CheckKey × Json)}
    (hp : runs.Perm runs') (hd : Decided runs) (h : Kept runs latest) (h' : Kept runs' latest') :
    Like latest latest' := by
  intro k v hv
  have hlatest := h.newest k v hv
  obtain ⟨v',hv'⟩ := h'.covered v (hp.mem_iff.mp hlatest.listed) k hlatest.keyed
  exact ⟨v',hv',hd k v' v ((h'.newest k v' hv').perm hp.symm) hlatest⟩

theorem Decided.perm {runs runs' : List Json} (hp : runs.Perm runs') (hd : Decided runs) :
    Decided runs' :=
  fun key a b ha hb => hd key a b (ha.perm hp.symm) (hb.perm hp.symm)

section
variable {required : List CheckRequirement} {latest latest' : List (CheckKey × Json)}
  {legacy : List (StatusKey × Json)}

theorem satisfied_like (h : Like latest latest') {r : CheckRequirement}
    (hs : satisfied latest legacy r) : satisfied latest' legacy r := by
  simp only [satisfied,Bool.or_eq_true,List.any_eq_true] at hs ⊢
  rcases hs with ⟨⟨k,v⟩,hv,hpass⟩ | hs
  · obtain ⟨v',hv',heq⟩ := h k v hv
    exact .inl ⟨(k,v'),hv',by simpa only [heq] using hpass⟩
  · exact .inr hs

theorem all_names_like (h : Like latest' latest)
    (hs : latest.all (·.1.name = "review-policy")) : latest'.all (·.1.name = "review-policy") := by
  simp only [List.all_eq_true] at hs ⊢
  rintro ⟨k,v⟩ hv
  obtain ⟨v',hv',-⟩ := h k v hv
  exact hs (k,v') hv'

theorem unsortedBlockers_like (h : Like latest latest') (h' : Like latest' latest) {allCi : Bool}
    {x : String} (hx : x ∈ unsortedBlockers required latest legacy allCi) :
    x ∈ unsortedBlockers required latest' legacy allCi := by
  simp only [unsortedBlockers,List.mem_append,List.mem_map,List.mem_filter] at hx ⊢
  rcases hx with ((⟨r,⟨hr,hs⟩,rfl⟩ | ⟨⟨k,v⟩,⟨hv,hs⟩,rfl⟩) | hx) | hx
  · refine .inl (.inl (.inl ⟨r,⟨hr,?_⟩,rfl⟩))
    rw [Bool.not_eq_true'] at hs ⊢
    exact Bool.eq_false_iff.mpr fun hsat => Bool.eq_false_iff.mp hs (satisfied_like h' hsat)
  · obtain ⟨v',hv',heq⟩ := h k v hv
    exact .inl (.inl (.inr ⟨(k,v'),⟨hv',by simpa only [heq] using hs⟩,rfl⟩))
  · exact .inl (.inr hx)
  · refine .inr ?_
    split at hx
    · next hcond =>
      rw [if_pos ⟨hcond.1,all_names_like h' hcond.2.1,hcond.2.2⟩]
      exact hx
    · cases hx

/-- The blockers depend on the entries only through what passed under each key. -/
theorem ciBlockers_like (h : Like latest latest') (h' : Like latest' latest) (allCi : Bool) :
    ciBlockers required latest legacy allCi = ciBlockers required latest' legacy allCi :=
  sorted_distinct_congr fun _ => ⟨unsortedBlockers_like h h',unsortedBlockers_like h' h⟩

theorem unsorted_of_ci_nil {allCi : Bool} (h : ciBlockers required latest legacy allCi = []) :
    unsortedBlockers required latest legacy allCi = [] := by
  refine List.eq_nil_iff_forall_not_mem.mpr fun x hx => ?_
  obtain ⟨-,hmem⟩ := eraseReps_sorted
    (List.pairwise_insertionSort (· ≤ ·) (unsortedBlockers required latest legacy allCi))
  have hx : x ∈ ciBlockers required latest legacy allCi :=
    (hmem x).mpr ((List.mem_insertionSort (· ≤ ·)).mpr hx)
  rw [h] at hx
  cases hx

end

/-! ## Statuses, the newest first -/

/-- The newest status of a context. -/
def newestStatus (statuses : List Json) (name : String) : Option Json :=
  statuses.find? fun v => (text v ["context"]).toOption = some name

/-- The statuses of the commits, the first of each context. -/
def heldStatuses (statuses : String → List Json) (shas : List String) :
    Except Error (List (StatusKey × Json)) :=
  shas.foldlM (fun legacy sha => (statuses sha).foldlM (addStatus sha) legacy) []

theorem addStatus_ok {sha : String} {legacy legacy' : List (StatusKey × Json)} {value : Json} :
    addStatus sha legacy value = .ok legacy' ↔
      ∃ name, text value ["context"] = .ok name ∧
        (if legacy.any (·.1 = ⟨name,sha⟩) then legacy else legacy ++ [(⟨name,sha⟩,value)]) =
          legacy' := by
  unfold addStatus
  cases text value ["context"] with
  | error e => simp [Bind.bind,Except.bind]
  | ok name => simp [Bind.bind,Except.bind,Pure.pure,Except.pure]

theorem newestStatus_cons {value : Json} {name : String}
    (hname : text value ["context"] = .ok name) (values : List Json) (other : String) :
    newestStatus (value::values) other =
      if name = other then some value else newestStatus values other := by
  unfold newestStatus
  have hvalue : (text value ["context"]).toOption = some name := by rw [hname]; rfl
  rw [List.find?_cons,hvalue]
  by_cases h : name = other
  · simp only [h,decide_true,if_true]
  · simp only [Option.some.injEq,h,decide_false,if_false]

/-- One commit's statuses add the first of every context that has no entry yet. -/
theorem mem_addStatuses {sha : String} {values : List Json}
    {legacy legacy' : List (StatusKey × Json)}
    (h : values.foldlM (addStatus sha) legacy = .ok legacy') (k : StatusKey) (v : Json) :
    (k,v) ∈ legacy' ↔ (k,v) ∈ legacy ∨
      (k.sha = sha ∧ (∀ w, (k,w) ∉ legacy) ∧ newestStatus values k.name = some v) := by
  induction values generalizing legacy with
  | nil =>
    cases h
    simp [newestStatus]
  | cons value values ih =>
    rw [List.foldlM_cons] at h
    cases hadd : addStatus sha legacy value with
    | error e => rw [hadd] at h; cases h
    | ok next =>
      rw [hadd] at h
      obtain ⟨name,hname,rfl⟩ := addStatus_ok.mp hadd
      rw [ih h,newestStatus_cons hname]
      obtain ⟨n,s⟩ := k
      by_cases hany : legacy.any (·.1 = ⟨name,sha⟩)
      · obtain ⟨⟨k,old⟩,hold,hk⟩ := List.any_eq_true.mp hany
        rw [decide_eq_true_iff] at hk
        simp only [hany,if_true]
        by_cases hn : name = n
        · subst hn
          have hfree : s = sha → ¬ ∀ w, ((⟨name,s⟩ : StatusKey),w) ∉ legacy := by
            intro hs hw
            exact hw old (by rw [hs,← hk]; exact hold)
          grind
        · simp [hn]
      · have hfree : ∀ w, ((⟨name,sha⟩ : StatusKey),w) ∉ legacy := by
          intro w hw
          exact hany (List.any_eq_true.mpr ⟨_,hw,by simp⟩)
        simp only [hany,Bool.false_eq_true,if_false,List.mem_append,List.mem_singleton,Prod.mk.injEq,
          StatusKey.mk.injEq,not_or]
        by_cases hn : name = n
        · subst hn
          grind
        · grind

theorem mem_heldStatuses {statuses : String → List Json} {shas : List String}
    {legacy : List (StatusKey × Json)} (h : heldStatuses statuses shas = .ok legacy)
    (k : StatusKey) (v : Json) :
    (k,v) ∈ legacy ↔ k.sha ∈ shas ∧ newestStatus (statuses k.sha) k.name = some v := by
  have key : ∀ (shas done : List String) (before after : List (StatusKey × Json)),
      (∀ k v, (k,v) ∈ before ↔ k.sha ∈ done ∧ newestStatus (statuses k.sha) k.name = some v) →
      shas.foldlM (fun legacy sha => (statuses sha).foldlM (addStatus sha) legacy) before =
        .ok after →
      ∀ k v, (k,v) ∈ after ↔
        k.sha ∈ done ++ shas ∧ newestStatus (statuses k.sha) k.name = some v := by
    intro shas
    induction shas with
    | nil =>
      intro done before after hb h
      cases h
      simpa using hb
    | cons sha shas ih =>
      intro done before after hb h
      rw [List.foldlM_cons] at h
      cases hadd : (statuses sha).foldlM (addStatus sha) before with
      | error e => rw [hadd] at h; cases h
      | ok next =>
        rw [hadd] at h
        have hnext : ∀ k v, (k,v) ∈ next ↔
            k.sha ∈ done ++ [sha] ∧ newestStatus (statuses k.sha) k.name = some v := by
          intro k v
          rw [mem_addStatuses hadd,hb,List.mem_append,List.mem_singleton]
          grind
        have hafter := ih (done ++ [sha]) next after hnext h
        simpa using hafter
  simpa using key shas [] [] legacy (by simp) h k v

/-! ## What a server tells -/

section
variable (web : Web) (answer : (q : Req) → Except Error (Rep q))

/-- Whatever a program returns against the server is this. -/
def Tells {α : Type} (m : Hub α) (x : α) : Prop :=
  ∀ s s' y, Script.result answer m s = (.ok y,s') → y = x

def Returns {α : Type} (m : Hub α) : Prop :=
  ∀ s, ∃ y s', Script.result answer m s = (.ok y,s')

/-- The check runs of a route in pages of the server's making, each with their number. -/
def Listed (route : String) (rows : List Json) : Prop :=
  ∃ pages : List (List Json), pages.flatten = rows ∧
    ∀ k ≤ pages.length, ∀ s s' value,
      Script.result answer (get web (pageRoute route (k+1))) s = (.ok value,s') →
        value.get? "check_runs" = some (.arr (pages.getD k [])) ∧
        (value.get? "total_count").bind Json.asU64 = some rows.length

/-- The rows of a route, a hundred to the page. -/
def Hundreds (route : String) (rows : List Json) : Prop :=
  ∀ k, 100 * k ≤ rows.length →
    Tells answer (get web (pageRoute route (k+1))) (.arr ((rows.drop (100 * k)).take 100))

end

section
variable {web : Web} {answer : (q : Req) → Except Error (Rep q)} {α β : Type}

theorem result_fail {message : String} {s s' : Option ℕ} {x : α}
    (h : Script.result answer (fail message) s = (.ok x,s')) : False := by
  cases h

theorem result_checked {r : Except Error α} {s s' : Option ℕ} {x : α}
    (h : Script.result answer (checked r) s = (.ok x,s')) : r = .ok x ∧ s' = s := by
  cases r with
  | error e => cases h
  | ok y => cases h; exact ⟨rfl,rfl⟩

theorem result_pure {s s' : Option ℕ} {x y : α}
    (h : Script.result answer (pure x : Hub α) s = (.ok y,s')) : y = x ∧ s' = s := by
  cases h
  exact ⟨rfl,rfl⟩

/-- The items of a page. -/
def pageItems (field : Option String) (value : Json) : Option (List Json) :=
  (match field with
    | none => some value
    | some f => value.get? f).bind Json.asArray

/-- One page of a collection: the items it adds, and what ends it. -/
theorem pagesFrom_ok {route : String} {field : Option String} {n page : ℕ} {all out : List Json}
    {s s' : Option ℕ}
    (h : Script.result answer (pagesFrom web route field n page all) s = (.ok out,s')) :
    ∃ m value s₁ items, n = m + 1 ∧
      Script.result answer (get web (pageRoute route page)) s = (.ok value,s₁) ∧
      pageItems field value = some items ∧
      items.length ≤ 100 ∧
      ((items.length < 100 ∧ out = all ++ items ∧
        ∀ total, (value.get? "total_count").bind Json.asU64 = some total →
          total = (all ++ items).length) ∨
      (items.length = 100 ∧
        Script.result answer (pagesFrom web route field m (page+1) (all ++ items)) s₁ =
          (.ok out,s'))) := by
  cases n with
  | zero => exact absurd h (fun h => result_fail h)
  | succ m =>
    rw [pagesFrom] at h
    obtain ⟨value,s₁,hvalue,h⟩ := (Script.result_bind_ok answer).mp h
    generalize hitems : Option.bind _ Json.asArray = page' at h
    change pageItems field value = page' at hitems
    cases page' with
    | none => exact absurd h (fun h => result_fail h)
    | some items =>
      refine ⟨m,value,s₁,items,rfl,hvalue,hitems,?_⟩
      by_cases hmany : items.length > 100
      · simp only [if_pos hmany] at h
        exact absurd h (fun h => result_fail h)
      · refine ⟨not_lt.mp hmany,?_⟩
        simp only [if_neg hmany] at h
        by_cases hfew : items.length < 100
        · simp only [if_pos hfew] at h
          by_cases htotal : ((value.get? "total_count").bind Json.asU64).any
              (· ≠ (all ++ items).length)
          · simp only [if_pos htotal] at h
            exact absurd h (fun h => result_fail h)
          · simp only [if_neg htotal] at h
            refine .inl ⟨hfew,(result_pure h).1,fun total ht => ?_⟩
            rw [ht] at htotal
            simpa using htotal
        · simp only [if_neg hfew] at h
          exact .inr ⟨by omega,h⟩

theorem pagesFrom_listed {route : String} {rows : List Json} {pages : List (List Json)}
    (hrows : pages.flatten = rows)
    (hp : ∀ k ≤ pages.length, ∀ s s' value,
      Script.result answer (get web (pageRoute route (k+1))) s = (.ok value,s') →
        value.get? "check_runs" = some (.arr (pages.getD k [])) ∧
        (value.get? "total_count").bind Json.asU64 = some rows.length)
    {n k : ℕ} (hk : k ≤ pages.length) {s s' : Option ℕ} {out : List Json}
    (h : Script.result answer (pagesFrom web route (some "check_runs") n (k+1)
      (pages.take k).flatten) s = (.ok out,s')) : out = rows := by
  induction n generalizing k s with
  | zero => exact absurd h (fun h => result_fail h)
  | succ n ih =>
    obtain ⟨m,value,s₁,items,hm,hget,hitems,hbound,hend⟩ := pagesFrom_ok h
    obtain ⟨hruns,htotal⟩ := hp k hk s s₁ value hget
    have hsome : items = pages.getD k [] := by
      simpa [pageItems,hruns,Json.asArray,eq_comm] using hitems
    have htake : (pages.take k).flatten ++ items = (pages.take (k+1)).flatten := by
      rw [hsome,List.take_add_one,List.flatten_append]
      cases hg : pages[k]? <;> simp [List.getD_eq_getElem?_getD,hg]
    rcases hend with ⟨hfew,rfl,ht⟩ | ⟨hfull,hrest⟩
    · have hlen := ht rows.length htotal
      have hsplit : (pages.take k).flatten ++ items ++ (pages.drop (k+1)).flatten = rows := by
        rw [htake,← List.flatten_append,List.take_append_drop,hrows]
      have hrest := congrArg List.length hsplit
      rw [List.length_append,← hlen] at hrest
      have hnil : (pages.drop (k+1)).flatten = [] := List.length_eq_zero_iff.mp (by omega)
      rw [hnil,List.append_nil] at hsplit
      exact hsplit
    · have hlt : k < pages.length := by
        by_contra hge
        rw [hsome,List.getD_eq_getElem?_getD,List.getElem?_eq_none (not_lt.mp hge)] at hfull
        cases hfull
      cases hm
      rw [htake] at hrest
      exact ih hlt hrest

/-- However the server cuts the check runs into pages, what is collected are all of them. -/
theorem pages_listed {route : String} {rows : List Json} (h : Listed web answer route rows) :
    Tells answer (pages web route (some "check_runs")) rows := by
  intro s s' out hout
  obtain ⟨ps,hrows,hp⟩ := h
  exact pagesFrom_listed hrows hp (Nat.zero_le _) hout

theorem pagesFrom_hundreds {route : String} {rows : List Json}
    (hp : Hundreds web answer route rows) {n k : ℕ} (hk : 100 * k ≤ rows.length)
    {s s' : Option ℕ} {out : List Json}
    (h : Script.result answer (pagesFrom web route none n (k+1) (rows.take (100 * k))) s =
      (.ok out,s')) : out = rows := by
  induction n generalizing k s with
  | zero => exact absurd h (fun h => result_fail h)
  | succ n ih =>
    obtain ⟨m,value,s₁,items,hm,hget,hitems,hbound,hend⟩ := pagesFrom_ok h
    have hvalue := hp k hk s s₁ value hget
    have hsome : items = (rows.drop (100 * k)).take 100 := by
      simpa [pageItems,hvalue,Json.asArray,eq_comm] using hitems
    have hlen : items.length = min 100 (rows.length - 100 * k) := by
      rw [hsome,List.length_take,List.length_drop]
    have htake : rows.take (100 * k) ++ items = rows.take (100 * (k+1)) := by
      rw [hsome,Nat.mul_add,Nat.mul_one,List.take_add]
    rcases hend with ⟨hfew,rfl,-⟩ | ⟨hfull,hrest⟩
    · rw [htake]
      exact List.take_of_length_le (by omega)
    · cases hm
      rw [htake] at hrest
      exact ih (by omega) hrest

theorem pages_hundreds {route : String} {rows : List Json} (h : Hundreds web answer route rows) :
    Tells answer (pages web route none) rows := by
  intro s s' out hout
  exact pagesFrom_hundreds h (Nat.zero_le _) hout

end

/-! ## The checks of a comparison -/

/-- What the forge holds about a comparison: the answer about its branch's protection, the
test merge that qualifies, and the check runs and statuses of every commit. -/
structure Holdings where
  protection : ℕ × Json
  merge : Option String
  runs : String → List Json
  statuses : String → List Json

namespace Holdings

/-- The commits whose checks count. -/
def shas (F : Holdings) (c : Candidate) : List String := c.head :: F.merge.toList

/-- The check runs on the head and on the test merge. -/
def gathered (F : Holdings) (c : Candidate) : List Json := (F.shas c).flatMap F.runs

def required (F : Holdings) (additional : List CheckRequirement) :
    Except Error (List CheckRequirement) :=
  if F.protection.1 = 404 then .ok additional else nativeChecks F.protection.2 additional

/-- The same holdings, but for the order of every commit's check runs. -/
structure Reordered (F G : Holdings) : Prop where
  protection : G.protection = F.protection
  merge : G.merge = F.merge
  statuses : G.statuses = F.statuses
  runs : ∀ sha, (F.runs sha).Perm (G.runs sha)

theorem Reordered.shas {F G : Holdings} (h : F.Reordered G) (c : Candidate) :
    G.shas c = F.shas c := by simp only [Holdings.shas,h.merge]

theorem Reordered.gathered {F G : Holdings} (h : F.Reordered G) (c : Candidate) :
    (F.gathered c).Perm (G.gathered c) := by
  simp only [Holdings.gathered,h.shas c]
  exact List.Perm.flatMap_left _ fun sha _ => h.runs sha

end Holdings

def statusRoute (repository sha : String) : String :=
  "/repos/" ++ repository ++ "/commits/" ++ sha ++ "/statuses"

section
variable (web : Web) (answer : (q : Req) → Except Error (Rep q)) (pr : PullRequest) (c : Candidate)
  (F : Holdings)

/-- The server tells nothing but these holdings; any request to it may fail. -/
structure Serves : Prop where
  protection : Tells answer (request web "GET" (protectionRoute web pr.repository c) none)
    F.protection
  merge : ∀ s s' pull, Script.result answer (get web (pullRoute pr)) s = (.ok pull,s') →
    Tells answer (testMerge web pr.repository c pull) F.merge
  runs : ∀ sha ∈ F.shas c, Listed web answer (checkRunsRoute pr.repository sha) (F.runs sha)
  statuses : ∀ sha ∈ F.shas c, Hundreds web answer (statusRoute pr.repository sha) (F.statuses sha)

/-- The server answers everything that is asked about the comparison. -/
structure Answers : Prop where
  protection : Returns answer (request web "GET" (protectionRoute web pr.repository c) none)
  pull : Returns answer (get web (pullRoute pr))
  merge : ∀ s s' pull, Script.result answer (get web (pullRoute pr)) s = (.ok pull,s') →
    Returns answer (testMerge web pr.repository c pull)
  runs : ∀ sha ∈ F.shas c,
    Returns answer (pages web (checkRunsRoute pr.repository sha) (some "check_runs"))
  statuses : ∀ sha ∈ F.shas c, Returns answer (pages web (statusRoute pr.repository sha) none)

end

section
variable {web : Web} {answer : (q : Req) → Except Error (Rep q)} {pr : PullRequest} {c : Candidate}
  {F : Holdings}

/-- What is told and returned is returned. -/
theorem Returns.told {α : Type} {m : Hub α} {x : α} (h : Returns answer m) (ht : Tells answer m x)
    (s : Option ℕ) : ∃ s', Script.result answer m s = (.ok x,s') := by
  obtain ⟨y,s',hy⟩ := h s
  exact ⟨s',ht s s' y hy ▸ hy⟩

theorem legacyStatuses_ok {shas : List String} (repository : String) {s s' : Option ℕ}
    {statuses : String → List Json} {legacy out : List (StatusKey × Json)}
    (ht : ∀ sha ∈ shas, Hundreds web answer (statusRoute repository sha) (statuses sha))
    (h : Script.result answer (legacyStatuses web repository shas legacy) s = (.ok out,s')) :
    shas.foldlM (fun legacy sha => (statuses sha).foldlM (addStatus sha) legacy) legacy =
      .ok out := by
  induction shas generalizing legacy s with
  | nil =>
    rw [(result_pure h).1]
    rfl
  | cons sha shas ih =>
    rw [legacyStatuses] at h
    obtain ⟨values,s₁,hvalues,h⟩ := (Script.result_bind_ok answer).mp h
    obtain ⟨next,s₂,hnext,h⟩ := (Script.result_bind_ok answer).mp h
    have hall := pages_hundreds (ht sha List.mem_cons_self) s s₁ values hvalues
    have hfold := (result_checked hnext).1
    rw [hall] at hfold
    rw [List.foldlM_cons,hfold]
    exact ih (fun sha hs => ht sha (List.mem_cons_of_mem _ hs)) h

/-- The blockers are a function of the holdings. -/
theorem checksRequired_ok (hpr : PullRequest.parse web c.url = .ok pr)
    (hF : Serves web answer pr c F) {additional : List CheckRequirement} {allCi : Bool}
    {s s' : Option ℕ} {blockers : List String}
    (h : Script.result answer (checksRequired web c additional allCi) s = (.ok blockers,s')) :
    ∃ required latest legacy, F.required additional = .ok required ∧
      (F.gathered c).foldlM (addCheck (F.shas c)) [] = .ok latest ∧
      heldStatuses F.statuses (F.shas c) = .ok legacy ∧
      blockers = ciBlockers required latest legacy allCi := by
  unfold checksRequired at h
  obtain ⟨pr',s₀,hpr',h⟩ := (Script.result_bind_ok answer).mp h
  have hpr' := (result_checked hpr').1
  rw [hpr] at hpr'
  cases hpr'
  obtain ⟨⟨status,protection⟩,s₁,hprotection,h⟩ := (Script.result_bind_ok answer).mp h
  obtain ⟨required,s₂,hrequired,h⟩ := (Script.result_bind_ok answer).mp h
  obtain ⟨checks,s₃,hchecks,h⟩ := (Script.result_bind_ok answer).mp h
  obtain ⟨pull,s₄,hpull,h⟩ := (Script.result_bind_ok answer).mp h
  obtain ⟨merge,s₅,hmerge,h⟩ := (Script.result_bind_ok answer).mp h
  obtain ⟨merged,s₆,hmerged,h⟩ := (Script.result_bind_ok answer).mp h
  obtain ⟨latest,s₇,hlatest,h⟩ := (Script.result_bind_ok answer).mp h
  obtain ⟨legacy,s₈,hlegacy,h⟩ := (Script.result_bind_ok answer).mp h
  have hreq := (result_checked hrequired).1
  have hprot := hF.protection _ _ _ hprotection
  have hmerge := hF.merge _ _ _ hpull _ _ _ hmerge
  have hlatest := (result_checked hlatest).1
  have hchecks : checks = F.runs c.head :=
    pages_listed (hF.runs c.head List.mem_cons_self) _ _ _ hchecks
  rw [hmerge] at hmerged hlatest hlegacy
  have hmerged : merged = F.merge.toList.flatMap F.runs := by
    cases hm : F.merge with
    | none =>
      rw [hm] at hmerged
      exact (result_pure hmerged).1
    | some sha =>
      rw [hm] at hmerged
      have hsha : sha ∈ F.shas c := by simp [Holdings.shas,hm]
      have hall := pages_listed (hF.runs sha hsha) _ _ _ hmerged
      simpa using hall
  refine ⟨required,latest,legacy,?_,?_,?_,(result_pure h).1⟩
  · unfold Holdings.required
    rw [← hprot]
    exact hreq
  · rw [hchecks,hmerged] at hlatest
    exact hlatest
  · exact legacyStatuses_ok pr.repository hF.statuses hlegacy

theorem legacyStatuses_returns {shas : List String} (repository : String)
    {statuses : String → List Json} {legacy out : List (StatusKey × Json)}
    (ht : ∀ sha ∈ shas, Hundreds web answer (statusRoute repository sha) (statuses sha))
    (hr : ∀ sha ∈ shas, Returns answer (pages web (statusRoute repository sha) none))
    (h : shas.foldlM (fun legacy sha => (statuses sha).foldlM (addStatus sha) legacy) legacy =
      .ok out) (s : Option ℕ) :
    ∃ s', Script.result answer (legacyStatuses web repository shas legacy) s = (.ok out,s') := by
  induction shas generalizing legacy s with
  | nil =>
    cases h
    exact ⟨s,rfl⟩
  | cons sha shas ih =>
    obtain ⟨s₁,hvalues⟩ :=
      (hr sha List.mem_cons_self).told (pages_hundreds (ht sha List.mem_cons_self)) s
    rw [List.foldlM_cons] at h
    cases hadd : (statuses sha).foldlM (addStatus sha) legacy with
    | error e => rw [hadd] at h; cases h
    | ok next =>
      rw [hadd] at h
      obtain ⟨s₂,hrest⟩ := ih (fun sha hs => ht sha (List.mem_cons_of_mem _ hs))
        (fun sha hs => hr sha (List.mem_cons_of_mem _ hs)) h s₁
      rw [legacyStatuses]
      refine ⟨s₂,(Script.result_bind_ok answer).mpr ⟨_,s₁,hvalues,?_⟩⟩
      exact (Script.result_bind_ok answer).mpr ⟨next,s₁,by rw [hadd]; rfl,hrest⟩

/-- A server that answers everything gets the holdings evaluated. -/
theorem checksRequired_returns (hpr : PullRequest.parse web c.url = .ok pr)
    (hF : Serves web answer pr c F) (ha : Answers web answer pr c F)
    {additional required : List CheckRequirement} {allCi : Bool}
    {latest : List (CheckKey × Json)} {legacy : List (StatusKey × Json)}
    (hrequired : F.required additional = .ok required)
    (hlatest : (F.gathered c).foldlM (addCheck (F.shas c)) [] = .ok latest)
    (hlegacy : heldStatuses F.statuses (F.shas c) = .ok legacy) (s : Option ℕ) :
    ∃ s', Script.result answer (checksRequired web c additional allCi) s =
      (.ok (ciBlockers required latest legacy allCi),s') := by
  obtain ⟨s₁,hprotection⟩ := ha.protection.told hF.protection s
  obtain ⟨s₂,hchecks⟩ := (ha.runs c.head List.mem_cons_self).told
    (pages_listed (hF.runs c.head List.mem_cons_self)) s₁
  obtain ⟨pull,s₃,hpull⟩ := ha.pull s₂
  obtain ⟨s₄,hmerge⟩ := (ha.merge s₂ s₃ pull hpull).told (hF.merge s₂ s₃ pull hpull) s₃
  have hmerged : ∃ s₅, Script.result answer (mergedChecks web pr.repository F.merge) s₄ =
      (.ok (F.merge.toList.flatMap F.runs),s₅) := by
    cases hm : F.merge with
    | none => exact ⟨s₄,rfl⟩
    | some sha =>
      have hsha : sha ∈ F.shas c := by simp [Holdings.shas,hm]
      obtain ⟨s₅,htold⟩ := (ha.runs sha hsha).told (pages_listed (hF.runs sha hsha)) s₄
      exact ⟨s₅,by simpa [mergedChecks] using htold⟩
  obtain ⟨s₅,hmerged⟩ := hmerged
  obtain ⟨s₆,hstatuses⟩ :=
    legacyStatuses_returns pr.repository hF.statuses ha.statuses hlegacy s₅
  refine ⟨s₆,?_⟩
  unfold checksRequired
  refine (Script.result_bind_ok answer).mpr ⟨pr,s,by rw [hpr]; rfl,?_⟩
  refine (Script.result_bind_ok answer).mpr ⟨F.protection,s₁,hprotection,?_⟩
  refine (Script.result_bind_ok answer).mpr ⟨required,s₁,?_,?_⟩
  · rw [show (if F.protection.1 = 404 then .ok additional else nativeChecks F.protection.2 additional) =
      Except.ok required from hrequired]
    rfl
  refine (Script.result_bind_ok answer).mpr ⟨_,s₂,hchecks,?_⟩
  refine (Script.result_bind_ok answer).mpr ⟨pull,s₃,hpull,?_⟩
  refine (Script.result_bind_ok answer).mpr ⟨_,s₄,hmerge,?_⟩
  refine (Script.result_bind_ok answer).mpr ⟨_,s₅,hmerged,?_⟩
  refine (Script.result_bind_ok answer).mpr ⟨latest,s₅,?_,?_⟩
  · rw [show (F.runs c.head ++ F.merge.toList.flatMap F.runs).foldlM
      (addCheck (c.head :: F.merge.toList)) [] = Except.ok latest from hlatest]
    rfl
  exact (Script.result_bind_ok answer).mpr ⟨legacy,s₆,hstatuses,rfl⟩

end

/-! ## Order does not matter, and no blockers mean success -/

/-- What a comparison without blockers has: every required context passed in a newest run from
its App, or in a newest status where it asks for no App, and so did every newest run and
status that is inspected, on all commits that count. -/
structure Qualified (F : Holdings) (c : Candidate) (required : List CheckRequirement)
    (allCi : Bool) : Prop where
  declared : ∀ r ∈ required,
    (∃ key run, LatestOf (F.gathered c) key run ∧ key.sha ∈ F.shas c ∧ key.name = r.name ∧
      CheckRequirement.admits r (some key.app) ∧ completedSuccess run) ∨
    (r.appId = none ∧ ∃ sha ∈ F.shas c, ∃ status,
      newestStatus (F.statuses sha) r.name = some status ∧ stateSuccess status)
  runs : ∀ key run, LatestOf (F.gathered c) key run →
    inspectPresent required allCi key.name (some key.app) → completedSuccess run
  statuses : ∀ sha ∈ F.shas c, ∀ name status, newestStatus (F.statuses sha) name = some status →
    inspectPresent required allCi name none → stateSuccess status

section
variable {F : Holdings} {c : Candidate} {required : List CheckRequirement}
  {latest : List (CheckKey × Json)} {legacy : List (StatusKey × Json)} {allCi : Bool}

theorem satisfied_qualified (hk : Kept (F.gathered c) latest)
    (hkeyed : ∀ run ∈ F.gathered c, Keyed (F.shas c) run)
    (hs : heldStatuses F.statuses (F.shas c) = .ok legacy) {r : CheckRequirement}
    (h : satisfied latest legacy r) :
    (∃ key run, LatestOf (F.gathered c) key run ∧ key.sha ∈ F.shas c ∧ key.name = r.name ∧
      CheckRequirement.admits r (some key.app) ∧ completedSuccess run) ∨
    (r.appId = none ∧ ∃ sha ∈ F.shas c, ∃ status,
      newestStatus (F.statuses sha) r.name = some status ∧ stateSuccess status) := by
  simp only [satisfied,Bool.or_eq_true,Bool.and_eq_true,List.any_eq_true,decide_eq_true_eq,
    Option.isNone_iff_eq_none] at h
  rcases h with ⟨⟨key,run⟩,hm,⟨hname,hadmits⟩,hpass⟩ | ⟨hnone,⟨⟨name,sha⟩,status⟩,hm,hname,hstate⟩
  · have hlatest := hk.newest key run hm
    obtain ⟨key',hkey',hsha⟩ := hkeyed run hlatest.listed
    rw [hlatest.keyed] at hkey'
    cases hkey'
    exact .inl ⟨key,run,hlatest,hsha,hname,hadmits,hpass⟩
  · obtain ⟨hsha,hnewest⟩ := (mem_heldStatuses hs ⟨name,sha⟩ status).mp hm
    exact .inr ⟨hnone,sha,hsha,status,hname ▸ hnewest,hstate⟩

theorem qualified_of_no_blockers (hd : Decided (F.gathered c)) (hk : Kept (F.gathered c) latest)
    (hkeyed : ∀ run ∈ F.gathered c, Keyed (F.shas c) run)
    (hs : heldStatuses F.statuses (F.shas c) = .ok legacy)
    (h : ciBlockers required latest legacy allCi = []) : Qualified F c required allCi := by
  have hnone := unsorted_of_ci_nil h
  simp only [unsortedBlockers,List.append_eq_nil_iff,List.map_eq_nil_iff,
    List.filter_eq_nil_iff] at hnone
  obtain ⟨⟨⟨hreq,hruns⟩,hstatuses⟩,-⟩ := hnone
  refine ⟨fun r hr => ?_,fun key run hlatest hinspect => ?_,?_⟩
  · have hsat := hreq r hr
    rw [Bool.not_eq_true',Bool.not_eq_false] at hsat
    exact satisfied_qualified hk hkeyed hs hsat
  · obtain ⟨kept,hkept⟩ := hk.covered run hlatest.listed key hlatest.keyed
    have hpass := hruns (key,kept) hkept
    rw [hd key run kept hlatest (hk.newest key kept hkept)]
    simpa [hinspect] using hpass
  · intro sha hsha name status hnewest hinspect
    have hm := (mem_heldStatuses hs ⟨name,sha⟩ status).mpr ⟨hsha,hnewest⟩
    simpa [hinspect] using hstatuses (⟨name,sha⟩,status) hm

end

section
variable {web : Web} {answer other : (q : Req) → Except Error (Rep q)} {pr : PullRequest}
  {c : Candidate} {F G : Holdings}

/-- If the newest runs of each key agree, then the blockers are the same for check runs in any
order and in any pages, and a comparison without blockers qualifies. -/
theorem blockers_order_free (hpr : PullRequest.parse web c.url = .ok pr)
    (hF : Serves web answer pr c F) (hG : Serves web other pr c G) (hFG : F.Reordered G)
    (hd : Decided (F.gathered c)) {additional : List CheckRequirement} {allCi : Bool}
    {s s' : Option ℕ} {blockers : List String}
    (h : Script.result answer (checksRequired web c additional allCi) s = (.ok blockers,s')) :
    (∀ t t' blockers',
      Script.result other (checksRequired web c additional allCi) t = (.ok blockers',t') →
        blockers' = blockers) ∧
    (Answers web other pr c G → ∀ t, ∃ t',
      Script.result other (checksRequired web c additional allCi) t = (.ok blockers,t')) ∧
    (blockers = [] → ∃ required, F.required additional = .ok required ∧
      Qualified F c required allCi) := by
  obtain ⟨required,latest,legacy,hrequired,hlatest,hlegacy,rfl⟩ := checksRequired_ok hpr hF h
  obtain ⟨hkept,hkeyed⟩ := foldChecks kept_nil hlatest
  rw [List.nil_append] at hkept
  have hperm := hFG.gathered c
  have hrequired' : G.required additional = .ok required := by
    simpa only [Holdings.required,hFG.protection] using hrequired
  have hlegacy' : heldStatuses G.statuses (G.shas c) = .ok legacy := by
    rw [hFG.statuses,hFG.shas]
    exact hlegacy
  have hsame : ∀ latest', (G.gathered c).foldlM (addCheck (G.shas c)) [] = .ok latest' →
      ciBlockers required latest' legacy allCi = ciBlockers required latest legacy allCi := by
    intro latest' hlatest'
    obtain ⟨hkept',-⟩ := foldChecks kept_nil hlatest'
    rw [List.nil_append] at hkept'
    exact ciBlockers_like (hkept'.like hperm.symm (hd.perm hperm) hkept)
      (hkept.like hperm hd hkept') allCi
  refine ⟨?_,?_,?_⟩
  · intro t t' blockers' h'
    obtain ⟨required',latest',legacy',hr,hl,hs,rfl⟩ := checksRequired_ok hpr hG h'
    cases hr.symm.trans hrequired'
    cases hs.symm.trans hlegacy'
    exact hsame latest' hl
  · intro ha t
    have hkeyed' : ∀ run ∈ G.gathered c, Keyed (G.shas c) run := by
      intro run hrun
      rw [hFG.shas]
      exact hkeyed run (hperm.mem_iff.mpr hrun)
    obtain ⟨latest',hlatest'⟩ := foldChecks_total hkeyed' []
    rw [← hsame latest' hlatest']
    exact checksRequired_returns hpr hG ha hrequired' hlatest' hlegacy' t
  · intro hnone
    exact ⟨required,hrequired,qualified_of_no_blockers hd hkept hkeyed hlegacy hnone⟩

end

/-! ## A comparison with a rerun -/

def rerunUrl : Url := ⟨"https","",false,false,some "github.com",false,false,"/o/r/pull/1"⟩

def rerunWeb : Web := ⟨fun _ => "",fun _ => some rerunUrl,id,fun _ => true⟩

def rerunReply (value : Json) : Response := ⟨200,none,none,none,.ok value⟩

/-- A check run of the context "ci" and App 1 on the commit "h". -/
def rerunCheck (id : Json) (conclusion : String) : Json :=
  .obj [("id",id),("head_sha",.str "h"),("name",.str "ci"),("app",.obj [("id",.int 1)]),
    ("status",.str "completed"),("conclusion",.str conclusion)]

/-- No protection, no test merge, no statuses, and these check runs. -/
def rerunServer (runs : List Json) : (q : Req) → Except Error (Rep q)
  | .expired => .ok false
  | .now => .ok (0 : ℕ)
  | .http _ route _ => .ok (rerunReply (
    if route = "/repos/o/r/commits/h/check-runs?filter=latest&per_page=100&page=1" then
      .obj [("check_runs",.arr runs),("total_count",.int runs.length)]
    else if route = "/repos/o/r/commits/h/check-runs?filter=latest&per_page=100&page=2" then
      .obj [("check_runs",.arr []),("total_count",.int runs.length)]
    else if route = "/repos/o/r/commits/h/statuses?per_page=100&page=1" then .arr []
    else .obj []))

def rerunCandidate : Candidate := ⟨"https://github.com/o/r/pull/1","o/r","topic","main","h","b",false,true⟩


/-- Two runs without identities: the one that came first counts. -/
theorem tied_runs_ordered :
    let runs := [rerunCheck .null "success",rerunCheck .null "failure"]
    runs.Perm runs.reverse ∧
    (Script.result (rerunServer runs) (checksRequired rerunWeb rerunCandidate [] true) none).1 =
      .ok [] ∧
    (Script.result (rerunServer runs.reverse)
      (checksRequired rerunWeb rerunCandidate [] true) none).1 =
      .ok ["CI check has not passed: ci"] :=
  ⟨(List.reverse_perm _).symm,by decide +kernel,by decide +kernel⟩

/-- What the forge holds there. -/
def rerunHoldings (runs : List Json) : Holdings := ⟨(200,.obj []),none,fun _ => runs,fun _ => []⟩

def rerunPull : PullRequest := ⟨"github.com","o/r",1⟩

/-- What a program comes to from whatever memory is what the server tells. -/
theorem tells_of_result {answer : (q : Req) → Except Error (Rep q)} {α : Type} {m : Hub α} {x : α}
    (h : ∀ s, (Script.result answer m s).1 = .ok x) : Tells answer m x := by
  intro s s' y hy
  have hs := h s
  rw [hy] at hs
  exact Except.ok.inj hs

theorem rerunServer_serves {runs : List Json} (hfew : runs.length < 100) :
    Serves rerunWeb (rerunServer runs) rerunPull rerunCandidate (rerunHoldings runs) := by
  refine ⟨tells_of_result fun s => rfl,?_,?_,?_⟩
  · intro s s' pull hpull
    have hempty : Tells (rerunServer runs) (get rerunWeb (pullRoute rerunPull)) (.obj []) :=
      tells_of_result fun s => rfl
    rw [hempty s s' pull hpull]
    exact tells_of_result fun s => rfl
  · intro sha hsha
    rw [show sha = "h" by simpa [Holdings.shas,rerunHoldings,rerunCandidate] using hsha]
    refine ⟨[runs],by simp [rerunHoldings],fun k hk s s' value hvalue => ?_⟩
    have hpage : Tells (rerunServer runs)
        (get rerunWeb (pageRoute (checkRunsRoute rerunPull.repository "h") (k+1)))
        (.obj [("check_runs",.arr ([runs].getD k [])),("total_count",.int runs.length)]) := by
      match k, hk with
      | 0, _ => exact tells_of_result fun s => rfl
      | 1, _ => exact tells_of_result fun s => rfl
    rw [hpage s s' value hvalue]
    exact ⟨rfl,if_pos (show runs.length < 2^64 by omega)⟩
  · intro sha hsha k hk
    rw [show sha = "h" by simpa [Holdings.shas,rerunHoldings,rerunCandidate] using hsha]
    obtain rfl : k = 0 := by simpa [rerunHoldings] using hk
    exact tells_of_result fun s => rfl

/-- A rerun that passed, listed before the run it replaces. -/
def rerun : List Json := [rerunCheck (.int 2) "success",rerunCheck (.int 1) "failure"]

theorem rerun_order_free :
    (Answers rerunWeb (rerunServer rerun.reverse) rerunPull rerunCandidate
        (rerunHoldings rerun.reverse) → ∀ t, ∃ t',
      Script.result (rerunServer rerun.reverse) (checksRequired rerunWeb rerunCandidate [] true) t =
        (.ok [],t')) ∧
    ∃ required, (rerunHoldings rerun).required [] = .ok required ∧
      Qualified (rerunHoldings rerun) rerunCandidate required true := by
  have hdistinct : Decided ((rerunHoldings rerun).gathered rerunCandidate) :=
    decided_of_distinct (by decide +kernel)
  have h := blockers_order_free (rfl : PullRequest.parse rerunWeb rerunCandidate.url = .ok rerunPull)
    (@rerunServer_serves rerun (by decide)) (@rerunServer_serves rerun.reverse (by decide))
    ⟨rfl,rfl,rfl,fun _ => (List.reverse_perm rerun).symm⟩ hdistinct
    (rfl : Script.result (rerunServer rerun) (checksRequired rerunWeb rerunCandidate [] true) none =
      (.ok [],none))
  exact ⟨h.2.1,h.2.2 rfl⟩

end Forge
end CanixToolbelt
