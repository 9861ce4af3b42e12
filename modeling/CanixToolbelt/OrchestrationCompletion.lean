import CanixToolbelt.OrchestrationRetirement

/-! The completion check recomputes what a refresh has written, and agrees with it. -/
namespace CanixToolbelt
namespace Orchestration

open Fallible Json Canonical

variable {lib : Library} {policy : Policy} {inputs : Inputs} {m : Manifest} {j j' : Journal}

/-- What completion asks of the owner `p` beside what a refresh decides. -/
structure Complete (j : Journal) (p : Packet) : Prop where
  terminal : (j.row p.number).get "terminal" = .bool true
  pending : (j.row p.number).get "pending" = .null
  compaction : (j.row p.number).get "pendingCompaction" = .null
  observed : ∀ u ∈ p.prs, (j.pr u).get "lastError" = .null

theorem isNull_iff {v : Json} : v.isNull = true ↔ v = .null := by
  cases v <;> simp [isNull]

/-- The evidence of a complete refresh is what completion asks for: the digest of each
producer and nothing else. -/
theorem evidence_kept {p : Packet} {deps : List (ℕ × String)}
    (h : evidenceComplete p deps = true) : evidenceKept p (evidence p deps) = true := by
  obtain ⟨fs,hobject,hnodup,hkeys⟩ := object_keys (p.dependencies.map fun id =>
    (toString id,((deps.lookup id).map Json.str).getD .null))
  have hevidence : evidence p deps = .obj fs := hobject
  have hmem : ∀ id, id ∈ producers p ↔ id ∈ p.dependencies := by
    intro id
    simp [producers]
  have hlength : fs.length = (producers p).length := by
    have hperm : (fs.map Prod.fst).Perm ((producers p).map fun id => toString id) := by
      refine (List.perm_ext_iff_of_nodup hnodup ?_).mpr fun k => ?_
      · exact (List.nodup_dedup _).map fun a b hab => number_inj hab
      · rw [hkeys]
        simp [hmem]
    simpa using hperm.length_eq
  rw [hevidence]
  simp only [evidenceKept,hlength,decide_true,Bool.true_and,List.all_eq_true]
  intro id hid
  have hdep := (hmem id).mp hid
  have hvalue := evidence_get? deps hdep
  rw [hevidence] at hvalue
  have hheld := List.all_eq_true.mp h id hdep
  rw [show fs.lookup (toString id) = _ from hvalue]
  cases hlookup : deps.lookup id with
  | none => simp [hlookup] at hheld
  | some hash => simpa [hlookup,asStr] using hheld

/-- What a refresh records of a record is what completion recomputes. -/
theorem FeedbackSeen.current {u : String} {r r' pr : Json} (h : FeedbackSeen lib u r r' pr) :
    feedbackCurrent lib r' pr u = true := by
  have hlt := feedbackGeneration_lt h.generation
  have hfield := h.field
  unfold feedbackCurrent
  cases hobservations : r'.get? "feedbackObservations" with
  | none => rfl
  | some observations =>
    have hget : r'.get "feedbackObservations" = observations := by simp [Json.get,hobservations]
    have hrecorded := h.recorded
    rw [hget] at hrecorded
    unfold generationField at hfield
    simp only [hrecorded,hfield]
    by_cases hg : 0 < prGeneration pr
    · simp [Json.get,Json.get?,List.lookup,asU64_nat hlt,asStr,hg]
    · simp [Json.get,Json.get?,List.lookup,asU64_nat hlt,asStr,hg]
      omega

/-- A terminal row that a refresh has just written passes every recomputation. -/
theorem PacketRefreshed.finished_iff {p : Packet}
    (h : PacketRefreshed lib policy inputs p j j') :
    finishedPacket lib j' p = true ↔ Complete j' p := by
  have hgeneration : ∀ v, (j'.row p.number).get? "dependencyGeneration" = some v →
      v.asU64 = some (generationOf (j'.row p.number)) := by
    intro v hfield
    obtain ⟨g,hg⟩ := Option.isSome_iff_exists.mp (h.counted v hfield)
    simp [generationOf,Json.get,hfield,hg]
  have hnone : (j'.row p.number).get? "dependencyGeneration" = none →
      generationOf (j'.row p.number) = 0 := by
    intro hfield
    simp [generationOf,Json.get,hfield,asU64]
  unfold finishedPacket
  dsimp only
  split
  · rename_i hread
    cases hfield : (j'.row p.number).get? "dependencyGeneration" with
    | none => simp [hfield] at hread
    | some v => simp [hfield,hgeneration v hfield] at hread
  rename_i generation hread
  obtain rfl : generation = generationOf (j'.row p.number) := by
    cases hfield : (j'.row p.number).get? "dependencyGeneration" with
    | none => simpa [hfield,hnone hfield,eq_comm] using hread
    | some v => simpa [hfield,hgeneration v hfield,eq_comm] using hread
  simp only [h.inputs_dependencies,Bool.and_eq_true,Bool.or_eq_true,decide_eq_true_eq,
    List.all_eq_true,isNull_iff]
  constructor
  · intro hall
    obtain ⟨⟨⟨⟨⟨⟨⟨⟨⟨hterminal,-⟩,-⟩,-⟩,-⟩,-⟩,-⟩,hpending⟩,hcompaction⟩,hurls⟩ := hall
    exact ⟨hterminal,hpending,hcompaction,fun u hu => (hurls u hu).1.1.2⟩
  · intro hcomplete
    obtain ⟨hevidence,hurls⟩ := h.verdict hcomplete.terminal
    have hsettled := h.settled hcomplete.terminal
    have hkept := evidence_kept hevidence
    refine ⟨⟨⟨⟨⟨⟨⟨⟨⟨hcomplete.terminal,?_⟩,?_⟩,?_⟩,?_⟩,?_⟩,?_⟩,hcomplete.pending⟩,
      hcomplete.compaction⟩,?_⟩
    · exact fun u hu => (h.feedback u hu).current
    · simp [h.cleared hevidence]
    · exact .inr hkept
    · simpa using hsettled.answered
    · simpa using hsettled.status
    · simpa using hsettled.progress
    · intro u hu
      obtain ⟨hclosed,hfeedback,hbound⟩ := hurls u hu
      refine ⟨⟨⟨hclosed,hcomplete.observed u hu⟩,asStr_eq.mpr hfeedback⟩,?_⟩
      by_cases hdeps : p.dependencies = []
      · exact .inl hdeps
      · refine .inr ⟨⟨?_,asStr_eq.mpr h.dependencyVersion⟩,?_⟩
        · rfl
        · rw [asStr_eq,hbound hdeps,h.dependencyVersion]

/-- The two completion calculations agree.  On the journal that a refresh has just written,
completion holds exactly when the observation was accepted, every host of the manifest is
observed and none is occupied, and every owner is terminal without an open request, a
compaction or an observation error: nothing that the refresh wrote is found inconsistent. -/
theorem finished_agrees (h : refresh lib m j policy inputs = .ok j') (active : Activity)
    (observationOk : Bool) :
    finished lib m j' active observationOk = true ↔
      observationOk = true ∧ (∀ p ∈ m.packets, (active.lookup p.ownerHost).isSome = true) ∧
        active ≠ [] ∧ (∀ f ∈ active, f.2 = []) ∧ ∀ p ∈ m.packets, Complete j' p := by
  have hrefreshed := refresh_ok h
  have hsame : m.validate (some m) = .ok () := validate_iff.mpr (.refl hrefreshed.own)
  have hcurrent : manifestCurrent m j' = true := by
    simp [manifestCurrent,hrefreshed.retained,hsame,Except.isOk,Except.toBool]
  have hvalid : (m.validate none).isOk = true := by
    rw [validate_none.mpr hrefreshed.own]
    rfl
  have hpackets : (∀ p ∈ m.packets, finishedPacket lib j' p = true) ↔
      ∀ p ∈ m.packets, Complete j' p :=
    forall₂_congr fun p hp => (hrefreshed.owners p hp).finished_iff
  simp only [finished,hcurrent,hvalid,Bool.and_true,Bool.and_eq_true,List.all_eq_true,hpackets,
    Bool.not_eq_true',List.isEmpty_eq_false_iff,List.isEmpty_iff]
  tauto

/-! A campaign of one owner, whose merged pull request is audited in the refresh. -/

def soloLibrary : Library := tableLibrary
  [("\x7b\"comments\":null,\"head\":\"h1\",\"inlineComments\":null,\"issueComments\":null," ++
      "\"mergeCommit\":null,\"reviews\":null,\"state\":\"MERGED\",\"threads\":null," ++
      "\"url\":\"one\"\x7d",
      "3fc91bdebf76b7d790756a021e2276be25484462342a514dd7e7bc28b2002b81"),
    ("\x7b\"evidence\":\x7b\x7d,\"producers\":[]\x7d",
      "12408370892d48ff113860a9fb4f74289a82c30f8a9a1dd05ef539c7a9d056d7"),
    ("\x7b\"head\":\"h1\",\"state\":\"MERGED\",\"url\":\"one\"\x7d",
      "acb2542965130325cf842a13448ff3dbb4899f1a2dfff1ad471b73e8b109d167"),
    ("\x7b\"dependencies\":\x7b\x7d,\"goalPolicy\":\"goal-1\"," ++
      "\"prs\":[\"acb2542965130325cf842a13448ff3dbb4899f1a2dfff1ad471b73e8b109d167\"]\x7d",
      "f378de4f387dfc542cf07f667c77a1d17fe09eb4c5201f2cf3936289270e771f"),
    ("\x7b\"dependencies\":\x7b\x7d,\"goalPolicy\":\"goal-1\",\"progressVersion\":null," ++
      "\"prs\":[\"acb2542965130325cf842a13448ff3dbb4899f1a2dfff1ad471b73e8b109d167\"]\x7d",
      "71bb644b257e45c8ea44fb8026ff6cde0de9013731027d3bfde49a9f11d64f40")]

def solo : Manifest where
  packets := [⟨1,"ses_one","builder","Owner 1",["one"],[],[],[],∅⟩]
  assignmentCount := 1
  baselineCount := some 1
  linkedCount := none
  releaseCount := none
  extra := ∅

def soloJournal : Journal where
  retained := some (.ok solo)
  prs := .obj [("one",.obj [("url",.str "one"),("state",.str "MERGED"),("head",.str "h1")])]
  packets := .obj []

def soloAudit : Json :=
  .obj [("packet",nat 1),("prs",.arr [.obj [("url",.str "one"),("evidence",.str "checked"),
    ("feedbackVersion",
      .str "3fc91bdebf76b7d790756a021e2276be25484462342a514dd7e7bc28b2002b81")]])]

def soloRefreshed : Except String Journal :=
  refresh soloLibrary solo soloJournal ⟨"goal-1",[],[],[],[]⟩ ⟨[],[(1,soloAudit)],[]⟩

theorem solo_read : soloRefreshed.toOption.map (fun j => [(j.row 1).get "terminal",
    (j.row 1).get "pending",(j.row 1).get "pendingCompaction",(j.pr "one").get "lastError"]) =
      some [.bool true,.null,.null,.null] := by
  decide +kernel

theorem solo_finished :
    ∃ j', soloRefreshed = .ok j' ∧ finished soloLibrary solo j' [("builder",[])] true = true := by
  have hread := solo_read
  cases h : soloRefreshed with
  | error e =>
    rw [h] at hread
    cases hread
  | ok j' =>
    rw [h] at hread
    simp only [Except.toOption,Option.map_some,Option.some.injEq,List.cons.injEq,and_true] at hread
    refine ⟨j',rfl,(finished_agrees h [("builder",[])] true).mpr ⟨rfl,?_,by simp,by simp,?_⟩⟩
    · decide
    · intro p hp
      obtain rfl := List.mem_singleton.mp hp
      exact ⟨hread.1,hread.2.1,hread.2.2.1,fun u hu => by
        obtain rfl := List.mem_singleton.mp hu
        exact hread.2.2.2⟩

end Orchestration
end CanixToolbelt
