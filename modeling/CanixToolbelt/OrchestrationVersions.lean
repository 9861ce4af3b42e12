import CanixToolbelt.CanonicalText
import CanixToolbelt.Orchestration

/-! Equal event, feedback and dependency versions mean equal observed content. -/
namespace CanixToolbelt
namespace Orchestration

open Json Canonical

/-- What `event_version` digests of a pull request. -/
def observedEvent (pr : Json) : Json :=
  .obj ((pr.asObject.getD []).filter fun f => !ignored (closed pr) f.1)

/-- What `feedback_version` digests of a pull request. -/
def observedFeedback (pr : Json) : Json :=
  if (pr.get "feedbackGeneration").asU64.any (0 < ·) then
    (feedbackInputs pr).set "feedbackGeneration" (pr.get "feedbackGeneration")
  else feedbackInputs pr

/-- What `dependency_fingerprint` digests. -/
def observedDependencies (producers : List ℕ) (evidence : Json) (generation : ℕ) : Json :=
  let inputs := .obj [("evidence",evidence),("producers",.arr (producers.map nat))]
  if 0 < generation then inputs.set "generation" (nat generation) else inputs

variable {lib : Library} {d e : ℕ}

theorem digest_same (hsha : Function.Injective lib.sha256) {v w : Json} (hv : FloatFree d v)
    (hw : FloatFree e w) (h : digest lib v = digest lib w) : Same v w :=
  (canonical_eq_iff hv hw).mp (digest_canonical hsha h)

theorem feedbackVersion_eq (pr : Json) : feedbackVersion lib pr = digest lib (observedFeedback pr) := by
  unfold feedbackVersion observedFeedback
  split <;> rfl

theorem dependencyFingerprint_eq (producers : List ℕ) (evidence : Json) (generation : ℕ) :
    dependencyFingerprint lib producers evidence generation =
      digest lib (observedDependencies producers evidence generation) := rfl

/-! ## The observed content has no fractions -/

theorem insertField_free {k : String} {v : Json} {fs : List (String × Json)} (hv : FloatFree d v)
    (h : ∀ f ∈ fs, FloatFree d f.2) : ∀ f ∈ insertField k v fs, FloatFree d f.2 := by
  induction fs with
  | nil => simpa [insertField] using hv
  | cons g fs ih =>
    obtain ⟨l,x⟩ := g
    have hx : FloatFree d x := h (l,x) (by simp)
    have hfs : ∀ f ∈ fs, FloatFree d f.2 := fun f hf => h f (by simp [hf])
    simp only [insertField]
    split_ifs
    · simp only [List.mem_cons,forall_eq_or_imp]
      exact ⟨hv,hfs⟩
    · simp only [List.mem_cons,forall_eq_or_imp]
      exact ⟨hv,hx,hfs⟩
    · simp only [List.mem_cons,forall_eq_or_imp]
      exact ⟨hx,ih hfs⟩

theorem object_free {fs : List (String × Json)} (h : ∀ f ∈ fs, FloatFree d f.2) :
    FloatFree (d+1) (object fs) := by
  have hfold : ∀ (gs acc : List (String × Json)), (∀ f ∈ gs, FloatFree d f.2) →
      (∀ f ∈ acc, FloatFree d f.2) →
      ∀ f ∈ gs.foldl (fun acc f => insertField f.1 f.2 acc) acc, FloatFree d f.2 := by
    intro gs
    induction gs with
    | nil => exact fun acc _ h => h
    | cons g gs ih =>
      intro acc hgs hacc
      exact ih _ (fun f hf => hgs f (by simp [hf])) (insertField_free (hgs g (by simp)) hacc)
  exact .obj (hfold fs [] h (by simp))

theorem set_free {k : String} {v w : Json} (hv : FloatFree (d+1) v) (hw : FloatFree d w) :
    FloatFree (d+1) (v.set k w) := by
  cases hv with
  | null => exact .obj (by simpa using hw)
  | obj h => exact .obj (insertField_free hw h)
  | bool b => exact .bool b
  | int hl hu => exact .int hl hu
  | str s => exact .str s
  | arr h => exact .arr h

theorem get_free {v : Json} (h : FloatFree d v) (k : String) : FloatFree d (v.get k) := by
  cases h with
  | @obj d fs h =>
    simp only [Json.get,Json.get?]
    cases hk : fs.lookup k with
    | none => exact .null
    | some x => exact (h _ (mem_of_lookup hk)).mono (Nat.le_succ d)
  | _ => exact .null

theorem observedEvent_free {pr : Json} (h : FloatFree d pr) : FloatFree (d+1) (observedEvent pr) := by
  refine .obj fun f hf => ?_
  have hmem := (List.mem_filter.mp hf).1
  cases h with
  | @obj d fs h => exact (h f hmem).mono (Nat.le_succ d)
  | _ => simp [asObject] at hmem

theorem observedFeedback_free {pr : Json} (h : FloatFree d pr) :
    FloatFree (d+1) (observedFeedback pr) := by
  have hinputs : FloatFree (d+1) (feedbackInputs pr) := by
    refine object_free fun f hf => ?_
    obtain ⟨k,-,rfl⟩ := List.mem_map.mp hf
    exact get_free h k
  unfold observedFeedback
  split
  · exact set_free hinputs (get_free h _)
  · exact hinputs

theorem nat_free {n : ℕ} (h : n < 2^64) : FloatFree d (nat n) := .int (by omega) (by omega)

theorem observedDependencies_free {producers : List ℕ} {evidence : Json} {generation : ℕ}
    (hproducers : ∀ n ∈ producers, n < 2^64) (hevidence : FloatFree (d+1) evidence)
    (hgeneration : generation < 2^64) :
    FloatFree (d+2) (observedDependencies producers evidence generation) := by
  have hinputs : FloatFree (d+2) (.obj [("evidence",evidence),("producers",.arr (producers.map nat))]) := by
    refine .obj ?_
    simp only [List.mem_cons,List.not_mem_nil,or_false,forall_eq_or_imp,forall_eq]
    refine ⟨hevidence,.arr fun x hx => ?_⟩
    obtain ⟨n,hn,rfl⟩ := List.mem_map.mp hx
    exact nat_free (hproducers n hn)
  unfold observedDependencies
  dsimp only
  split
  · exact set_free hinputs (nat_free hgeneration)
  · exact hinputs

/-! ## Equal versions -/

theorem same_lookup {fs gs : List (String × Json)} (h : Same (.obj fs) (.obj gs)) (k : String) :
    (fs.lookup k).map normal = (gs.lookup k).map normal := by
  have hnormal := normal_congr h
  simp only [normal,Json.obj.injEq] at hnormal
  rw [← lookup_normal,← lookup_normal,hnormal]

theorem nat_normal_inj {n m : ℕ} (h : normal (nat n) = normal (nat m)) : n = m := by
  simpa [nat,normal] using h

theorem observedDependencies_inj {ids ids' : List ℕ} {v v' : Json} {g g' : ℕ}
    (hv : FloatFree d v)
    (h : Same (observedDependencies ids v g) (observedDependencies ids' v' g')) :
    ids = ids' ∧ Same v v' ∧ g = g' := by
  have hfields : ∀ (ids : List ℕ) (v : Json) (g : ℕ), ∃ fs, observedDependencies ids v g = .obj fs ∧
      fs.lookup "evidence" = some v ∧ fs.lookup "producers" = some (.arr (ids.map nat)) ∧
      fs.lookup "generation" = if 0 < g then some (nat g) else none := by
    intro ids v g
    unfold observedDependencies
    dsimp only
    split
    · refine ⟨_,rfl,?_,?_,?_⟩
      · rw [lookup_insertField,if_neg (by decide)]
        rfl
      · rw [lookup_insertField,if_neg (by decide)]
        rfl
      · rw [lookup_insertField,if_pos rfl]
    · exact ⟨_,rfl,rfl,rfl,rfl⟩
  obtain ⟨fs,hfs,hevidence,hproducers,hgeneration⟩ := hfields ids v g
  obtain ⟨gs,hgs,hevidence',hproducers',hgeneration'⟩ := hfields ids' v' g'
  rw [hfs,hgs] at h
  refine ⟨?_,?_,?_⟩
  · have hread := same_lookup h "producers"
    rw [hproducers,hproducers'] at hread
    simp only [Option.map_some,Option.some_inj,normal,normalItems_eq,Json.arr.injEq,List.map_map]
      at hread
    exact List.map_injective_iff.mpr (fun _ _ => nat_normal_inj) hread
  · have hread := same_lookup h "evidence"
    rw [hevidence,hevidence'] at hread
    exact same_of_normal hv (Option.some.inj hread)
  · have hread := same_lookup h "generation"
    rw [hgeneration,hgeneration'] at hread
    split_ifs at hread
    · exact nat_normal_inj (Option.some.inj hread)
    · simp at hread
    · simp at hread
    · omega

/-- Two values without fractions have one canonical text exactly when they are equal as JSON;
the text is printable ASCII and, nested no deeper than the reader descends, read back as the
value. Hence equal versions mean equal observed content. -/
theorem versions_identify {v w : Json} (hv : FloatFree d v) (hw : FloatFree e w) :
    (canonical lib v = canonical lib w ↔ Same v w) ∧
      (∀ c ∈ canonical lib v, 32 ≤ c.toNat ∧ c.toNat ≤ 0x7e) ∧
      (d ≤ 127 → ∃ u, parse (canonical lib v) = some u ∧ Same v u) ∧
      (Plain 127 v → parse (canonical lib v) = some v) ∧
      (Function.Injective lib.sha256 →
        (digest lib v = digest lib w ↔ Same v w) ∧
        (eventVersion lib v = eventVersion lib w → Same (observedEvent v) (observedEvent w)) ∧
        (feedbackVersion lib v = feedbackVersion lib w →
          Same (observedFeedback v) (observedFeedback w)) ∧
        ∀ ids ids' g g', (∀ n ∈ ids, n < 2^64) → (∀ n ∈ ids', n < 2^64) → g < 2^64 → g' < 2^64 →
          dependencyFingerprint lib ids v g = dependencyFingerprint lib ids' w g' →
          ids = ids' ∧ Same v w ∧ g = g') := by
  have htext := @canonical_eq_iff lib _ _ _ _ hv hw
  refine ⟨htext,canonical_ascii hv,fun hd => ?_,fun hplain => ?_,fun hsha => ?_⟩
  · have hparse := @parse_canonical lib _ (hv.mono hd)
    exact ⟨normal v,hparse,same_of_normal hv (normal_plain (plain_normal hv)).symm⟩
  · have hread := @readValue_canonical lib _ _ hplain _ ends_nil
    rw [List.append_nil] at hread
    rw [parse,hread]
    rfl
  · refine ⟨⟨digest_same hsha hv hw,fun h => ?_⟩,?_,?_,?_⟩
    · rw [digest,digest,htext.mpr h]
    · exact digest_same hsha (observedEvent_free hv) (observedEvent_free hw)
    · intro h
      rw [feedbackVersion_eq,feedbackVersion_eq] at h
      exact digest_same hsha (observedFeedback_free hv) (observedFeedback_free hw) h
    · intro ids ids' g g' hids hids' hg hg' h
      rw [dependencyFingerprint_eq,dependencyFingerprint_eq] at h
      have hsame := digest_same hsha
        (observedDependencies_free hids (hv.mono (Nat.le_succ d)) hg)
        (observedDependencies_free hids' (hw.mono (Nat.le_succ e)) hg') h
      exact observedDependencies_inj hv hsame

/-- One value with its keys in two orders, a control character and one outside the basic plane. -/
def sampleContent : Json := .obj [("head",.str "a"),("é",.arr [.int (-1),.str "\n𐐷"])]
def sampleReordered : Json := .obj [("é",.arr [.int (-1),.str "\n𐐷"]),("head",.str "a")]

theorem sampleContent_free : FloatFree 2 sampleContent ∧ FloatFree 2 sampleReordered := by
  have harr : FloatFree 1 (.arr [.int (-1),.str "\n𐐷"]) := by
    refine .arr ?_
    simp only [List.mem_cons,List.not_mem_nil,or_false,forall_eq_or_imp,forall_eq]
    exact ⟨.int (by norm_num) (by norm_num),.str _⟩
  constructor
  · refine .obj ?_
    simp only [List.mem_cons,List.not_mem_nil,or_false,forall_eq_or_imp,forall_eq]
    exact ⟨.str _,harr⟩
  · refine .obj ?_
    simp only [List.mem_cons,List.not_mem_nil,or_false,forall_eq_or_imp,forall_eq]
    exact ⟨harr,.str _⟩

theorem sample_identified : FloatFree 2 sampleContent ∧ FloatFree 2 sampleReordered ∧
    Same sampleContent sampleReordered ∧
    eventVersion (tableLibrary []) sampleContent = eventVersion (tableLibrary []) sampleReordered ∧
    Same (observedEvent sampleContent) (observedEvent sampleReordered) := by
  obtain ⟨hv,hw⟩ := sampleContent_free
  obtain ⟨htext,-,-,-,hversions⟩ := @versions_identify (tableLibrary []) _ _ _ _ hv hw
  have hversion : eventVersion (tableLibrary []) sampleContent =
      eventVersion (tableLibrary []) sampleReordered := by decide +kernel
  have hsha : Function.Injective (tableLibrary []).sha256 :=
    @tableHash_injective [] (by simp) (by simp)
  exact ⟨hv,hw,htext.mp (by decide +kernel),hversion,(hversions hsha).2.1 hversion⟩

/-- Arrays nested 128 deep are refused by the reader. -/
theorem deep_unread : FloatFree 128 (nested 127) ∧
    parse (canonical (tableLibrary []) (nested 127)) = none :=
  ⟨nested_free 127,parse_nested⟩

end Orchestration
end CanixToolbelt
