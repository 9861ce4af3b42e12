import CanixToolbelt.Qualification

/-! A seal that has been made is verified, and it binds the bytes that it retains. -/
namespace CanixToolbelt
namespace Qualification
open FileTree (Path components)
open LinkTree (Tree look parts absolute)
open Disk Json Marker Fallible

/-! ## A seal is read back -/

theorem insertMany_toList {α : Type} (m : Map α) : (∅ : Map α).insertMany m.toList = m := by
  refine Std.ExtTreeMap.ext_getElem? fun k => ?_
  cases h : m[k]? with
  | some v =>
    refine Std.ExtTreeMap.getElem?_insertMany_list_of_mem Std.ReflCmp.compare_self
      Std.ExtTreeMap.distinct_keys_toList ?_
    exact Std.ExtTreeMap.mem_toList_iff_getElem?_eq_some.mpr h
  | none =>
    rw [Std.ExtTreeMap.getElem?_insertMany_list_of_contains_eq_false]
    · simp
    · rw [Std.ExtTreeMap.map_fst_toList_eq_keys,Std.ExtTreeMap.contains_keys,← Bool.not_eq_true,
        Std.ExtTreeMap.contains_iff_mem]
      simpa using h

theorem readIndex_json (index : ArtifactIndex) : readIndex (indexJson index) = some index := by
  have hfold : ∀ (fs : List (String × String)) (m : ArtifactIndex),
      (fs.map fun f => (f.1,Json.str f.2)).foldlM
        (fun index f => (asStr f.2).map (index.insert f.1)) m = some (m.insertMany fs) := by
    intro fs
    induction fs with
    | nil => exact fun m => rfl
    | cons f fs ih =>
      intro m
      rw [List.map_cons,List.foldlM_cons,Std.ExtTreeMap.insertMany_cons,← ih]
      rfl
  rw [indexJson,readIndex,hfold,insertMany_toList]

theorem readComposition_json {c : Composition} (h : c.schemaVersion < 2^32) :
    readComposition c.json = some c := by
  have hversion : asU32 (.int c.schemaVersion) = some c.schemaVersion := asU32_nat h
  have hstruct : struct compositionFields c.json = true := rfl
  simp only [readComposition,hstruct]
  simp only [Composition.json,member,List.lookup]
  simp [hversion,readIndex_json]

theorem readSeal_json {s : Seal} (h : s.schemaVersion < 2^32)
    (hc : s.composition.schemaVersion < 2^32) : readSeal s.json = some s := by
  have hversion : asU32 (.int s.schemaVersion) = some s.schemaVersion := asU32_nat h
  have hstruct : struct sealFields s.json = true := rfl
  simp only [readSeal,hstruct]
  simp only [Seal.json,member,List.lookup]
  simp [hversion,readIndex_json,readComposition_json hc]

theorem index_written (d : ℕ) (index : ArtifactIndex) : Written (d+1) (indexJson index) := by
  refine .obj fun f hf => ?_
  obtain ⟨g,-,rfl⟩ := List.mem_map.mp hf
  exact .str _

theorem seal_written {s : Seal} (h : s.schemaVersion < 2^32)
    (hc : s.composition.schemaVersion < 2^32) : Written 3 s.json := by
  have hcomposition : Written 2 s.composition.json := by
    refine .obj fun f hf => ?_
    simp only [List.mem_cons,List.not_mem_nil,or_false] at hf
    rcases hf with rfl | rfl | rfl
    · exact nat_written (by omega)
    · exact index_written 0 _
    · exact index_written 0 _
  refine .obj fun f hf => ?_
  simp only [List.mem_cons,List.not_mem_nil,or_false] at hf
  rcases hf with rfl | rfl | rfl | rfl
  · exact nat_written (by omega)
  · exact hcomposition
  · exact index_written 1 _
  · exact index_written 1 _

theorem sealOf_jsonBytes {s : Seal} (h : s.schemaVersion < 2^32)
    (hc : s.composition.schemaVersion < 2^32) : sealOf (jsonBytes s.json) = some s := by
  have hsource : source (pretty 0 s.json ++ ['\n']) = some s.json :=
    source_pretty ((seal_written h hc).mono (by omega))
  rw [sealOf,jsonBytes,Utf8.decode_encode,Option.bind_some,hsource,Option.bind_some,readSeal_json h hc]

section
variable {lib : Library} {cwd : Path}

/-! ## Verification holds on while entries are added -/

theorem stable_sha256File (p : String) : Stable fun t => sha256File lib cwd t p :=
  stable_bind (stable_read cwd p) fun _ => stable_const _

theorem stable_contained (root : Path) (path : String) : Stable fun t => contained t root path :=
  stable_bind (stable_const _) fun _ => stable_bind (stable_resolve _ _ _) fun _ =>
    stable_ite (stable_const _) (stable_const _)

theorem stable_verifyArtifact (root : Path) (path expected : String) :
    Stable fun t => verifyArtifact lib t root path expected :=
  stable_bind (stable_contained root path) fun q => stable_bind (stable_contents q) fun _ =>
    stable_ite (stable_const _) (stable_const _)

theorem stable_verifyIndex (root : String) (index : ArtifactIndex) :
    Stable fun t => verifyIndex lib cwd t root index :=
  stable_ite (stable_const _) (stable_bind (stable_find cwd root) fun root =>
    stable_bind (stable_forM fun f _ => stable_verifyArtifact root f.1 f.2) fun _ => stable_const _)

theorem stable_verifyLog (directory name hash : String) :
    Stable fun t => verifyLog lib cwd t directory name hash :=
  stable_bind (stable_sha256File _) fun _ => stable_ite (stable_const _) (stable_const _)

theorem stable_verifyRun (directory : String) (expected : Option Composition) :
    Stable fun t => verifyRun lib cwd t directory expected :=
  stable_bind (stable_read cwd _) fun _ => stable_bind (stable_const _) fun _ =>
    stable_ite (stable_const _) <| stable_bind (stable_const _) fun _ =>
      stable_ite (stable_const _) <| stable_bind (stable_verifyLog _ _ _) fun _ =>
        stable_bind (stable_verifyLog _ _ _) fun _ =>
          stable_bind (stable_verifyLog _ _ _) fun _ => stable_const _

theorem stable_verifyGate (directory : String) (expected : Composition) (name hash : String) :
    Stable fun t => verifyGate lib cwd t directory expected name hash :=
  stable_bind (stable_const _) fun _ => stable_bind (stable_sha256File _) fun _ =>
    stable_ite (stable_const _) (stable_bind (stable_verifyRun _ _) fun _ => stable_const _)

/-- Further files do not make a seal fail. -/
theorem stable_verifySeal (directory : String) (expected : Composition) (required : ArtifactIndex) :
    Stable fun t => verifySeal lib cwd t directory expected required := by
  refine stable_bind (stable_read cwd _) fun bytes => ?_
  cases sealOf bytes with
  | none => exact stable_const _
  | some s =>
    exact stable_ite (stable_const _) (stable_bind (stable_verifyIndex _ _) fun _ =>
      stable_bind (stable_forM fun g _ => stable_verifyGate _ _ _ _) fun _ => stable_const _)

/-! ## What is made -/

theorem copy_ok {source destination hash : String} {t u : Tree}
    (h : (copy lib cwd source destination).run t = (.ok hash,u)) :
    ∃ bytes, read t cwd source = .ok bytes ∧ read u cwd destination = .ok bytes ∧
      hash = lib.sha256 bytes := by
  obtain ⟨input,v,hasked,h⟩ := Act.bind_ok.mp h
  obtain ⟨hinput,rfl⟩ := Act.ask_ok.mp hasked
  obtain ⟨x,w,hcreate,h⟩ := Act.bind_ok.mp h
  obtain ⟨bytes,w',hcheck,h⟩ := Act.bind_ok.mp h
  obtain ⟨rfl,rfl⟩ := Act.ask_ok.mp hcheck
  obtain ⟨hash',w',hanswer,h⟩ := Act.bind_ok.mp h
  obtain ⟨hhash,rfl⟩ := Act.ask_ok.mp hanswer
  obtain ⟨again,w',hagain,h⟩ := Act.bind_ok.mp h
  obtain ⟨-,rfl⟩ := Act.ask_ok.mp hagain
  obtain ⟨q,hq,hcontents⟩ := bind_ok hinput
  have hread : read t cwd source = .ok bytes := bind_ok_iff.mpr ⟨q,hq,Except.ok.inj hcontents⟩
  obtain ⟨-,hcopied⟩ := createFile_ok hcreate
  obtain ⟨bytes',hbytes,heq⟩ := bind_ok hhash
  obtain rfl := Except.ok.inj (hcopied.symm.trans hbytes)
  split_ifs at h with hne
  · cases (Act.ask_ok.mp h).1
  · obtain ⟨rfl,rfl⟩ := Act.pure_ok.mp h
    exact ⟨bytes,hread,hcopied,(Except.ok.inj heq).symm⟩

theorem adds_copy (source destination : String) : (copy lib cwd source destination).Adds := by
  refine Act.adds_bind (Act.adds_ask _) fun _ => Act.adds_bind (adds_createFile _ _ _) fun _ =>
    Act.adds_bind (Act.adds_ask _) fun _ => Act.adds_bind (Act.adds_ask _) fun _ =>
      Act.adds_bind (Act.adds_ask _) fun _ => ?_
  split_ifs
  · exact Act.adds_ask _
  · exact Act.adds_pure _

theorem adds_copyGateFile (directory name run : String) (s : Retained) (file : String) :
    (copyGateFile lib cwd directory name run s file).Adds :=
  Act.adds_bind (adds_copy _ _) fun _ => Act.adds_pure _

theorem adds_sealGate (request : SealRequest) (directory : String) (s : Retained)
    (gate : String × String) : (sealGate lib cwd request directory s gate).Adds :=
  Act.adds_bind (adds_createDir _ _) fun _ =>
    Act.adds_bind (Act.adds_foldlM (fun _ _ => adds_copyGateFile _ _ _ _ _) _ _) fun _ =>
      Act.adds_bind (Act.adds_ask _) fun _ => Act.adds_pure _

theorem adds_sealArtifact (directory : String) (artifacts : ArtifactIndex)
    (artifact : String × String) : (sealArtifact lib cwd directory artifacts artifact).Adds := by
  refine Act.adds_bind ?_ fun _ => Act.adds_bind (adds_copy _ _) fun _ => Act.adds_pure _
  unfold createParent
  split
  · exact Act.adds_ask _
  · split_ifs
    · exact Act.adds_ask _
    · exact adds_createDirAll _ _

theorem sha256File_ok {p hash : String} {t : Tree} : sha256File lib cwd t p = .ok hash ↔
    ∃ bytes, read t cwd p = .ok bytes ∧ lib.sha256 bytes = hash := by
  unfold sha256File
  rw [bind_ok_iff]
  exact exists_congr fun bytes => and_congr_right fun _ => by simp

theorem copyGateFile_ok {directory name run file : String} {s s' : Retained} {t u : Tree}
    (h : (copyGateFile lib cwd directory name run s file).run t = (.ok s',u)) :
    ∃ hash, sha256File lib cwd u (join directory (gatePath name file)) = .ok hash ∧
      s'.gates = (if file = "receipt.json" then s.gates.insert name hash else s.gates) ∧
      s'.artifacts = s.artifacts.insert (gatePath name file) hash := by
  obtain ⟨hash,v,hcopy,h⟩ := Act.bind_ok.mp h
  obtain ⟨rfl,rfl⟩ := Act.pure_ok.mp h
  obtain ⟨bytes,-,hread,rfl⟩ := copy_ok hcopy
  exact ⟨_,sha256File_ok.mpr ⟨bytes,hread,rfl⟩,rfl,rfl⟩

/-- A receipt whose hash is retained is there, in the directory of a run that is verified. -/
def Held (lib : Library) (cwd : Path) (composition : Composition) (directory : String)
    (gates : ArtifactIndex) (t : Tree) : Prop :=
  ∀ name hash, gates[name]? = some hash →
    sha256File lib cwd t (join directory (gatePath name "receipt.json")) = .ok hash ∧
      ∃ r, verifyRun lib cwd t (gateDirectory directory name) (some composition) = .ok r

theorem Held.grows {composition : Composition} {directory : String} {gates : ArtifactIndex}
    {t u : Tree} (h : Held lib cwd composition directory gates t) (hgrows : Grows t u) :
    Held lib cwd composition directory gates u := by
  intro name hash hname
  obtain ⟨hhash,r,hr⟩ := h name hash hname
  exact ⟨stable_sha256File _ t u _ hgrows hhash,r,stable_verifyRun _ _ t u r hgrows hr⟩

theorem sealGate_ok {request : SealRequest} {directory : String} {s s' : Retained}
    {gate : String × String} {t u : Tree}
    (h : (sealGate lib cwd request directory s gate).run t = (.ok s',u))
    (hheld : Held lib cwd request.composition directory s.gates t) :
    Held lib cwd request.composition directory s'.gates u ∧
      (∀ k ∈ s.artifacts, k ∈ s'.artifacts) ∧
      ∀ file ∈ gateFiles, gatePath gate.1 file ∈ s'.artifacts := by
  have hgrows := Act.ok_grows (adds_sealGate request directory s gate) h
  obtain ⟨x,t₀,-,h⟩ := Act.bind_ok.mp h
  obtain ⟨s₄,t₄,hfiles,h⟩ := Act.bind_ok.mp h
  obtain ⟨r,t₅,hasked,h⟩ := Act.bind_ok.mp h
  obtain ⟨hr,rfl⟩ := Act.ask_ok.mp hasked
  obtain ⟨rfl,rfl⟩ := Act.pure_ok.mp h
  simp only [gateFiles,List.foldlM_cons,List.foldlM_nil] at hfiles
  obtain ⟨s₁,t₁,h₁,hfiles⟩ := Act.bind_ok.mp hfiles
  obtain ⟨s₂,t₂,h₂,hfiles⟩ := Act.bind_ok.mp hfiles
  obtain ⟨s₃,t₃,h₃,hfiles⟩ := Act.bind_ok.mp hfiles
  obtain ⟨s₅,t₅,h₄,hfiles⟩ := Act.bind_ok.mp hfiles
  obtain ⟨rfl,rfl⟩ := Act.pure_ok.mp hfiles
  have hgrows₃ := Act.ok_grows (adds_copyGateFile _ _ _ _ _) h₃
  have hgrows₄ := Act.ok_grows (adds_copyGateFile _ _ _ _ _) h₄
  obtain ⟨hash₁,-,hg₁,ha₁⟩ := copyGateFile_ok h₁
  obtain ⟨hash₂,hhash,hg₂,ha₂⟩ := copyGateFile_ok h₂
  obtain ⟨hash₃,-,hg₃,ha₃⟩ := copyGateFile_ok h₃
  obtain ⟨hash₄,-,hg₄,ha₄⟩ := copyGateFile_ok h₄
  rw [if_neg (by decide)] at hg₁ hg₃ hg₄
  rw [if_pos rfl] at hg₂
  have hgates : s₅.gates = s.gates.insert gate.1 hash₂ := by rw [hg₄,hg₃,hg₂,hg₁]
  refine ⟨fun name hash hname => ?_,fun k hk => ?_,fun file hfile => ?_⟩
  · rw [hgates,Std.ExtTreeMap.getElem?_insert] at hname
    split_ifs at hname with heq
    · obtain rfl := Std.LawfulEqCmp.eq_of_compare heq
      obtain rfl := Option.some.inj hname
      exact ⟨stable_sha256File _ _ _ _ (hgrows₃.trans hgrows₄) hhash,r,hr⟩
    · exact hheld.grows hgrows name hash hname
  · simp [ha₄,ha₃,ha₂,ha₁,hk]
  · simp only [gateFiles,List.mem_cons,List.not_mem_nil,or_false] at hfile
    rcases hfile with rfl | rfl | rfl | rfl <;> simp [ha₄,ha₃,ha₂,ha₁]

theorem gates_ok {request : SealRequest} {directory : String} {gates : List (String × String)}
    {s s' : Retained} {t u : Tree}
    (h : (gates.foldlM (sealGate lib cwd request directory) s).run t = (.ok s',u))
    (hheld : Held lib cwd request.composition directory s.gates t) :
    Held lib cwd request.composition directory s'.gates u ∧
      (∀ k ∈ s.artifacts, k ∈ s'.artifacts) ∧
      ∀ gate ∈ gates, ∀ file ∈ gateFiles, gatePath gate.1 file ∈ s'.artifacts := by
  induction gates generalizing s t with
  | nil =>
    obtain ⟨rfl,rfl⟩ := Act.pure_ok.mp h
    exact ⟨hheld,fun _ hk => hk,by simp⟩
  | cons gate gates ih =>
    rw [List.foldlM_cons] at h
    obtain ⟨s₁,t₁,hgate,h⟩ := Act.bind_ok.mp h
    obtain ⟨hheld₁,hkeep,hfiles⟩ := sealGate_ok hgate hheld
    obtain ⟨hheld',hkeep',hfiles'⟩ := ih h hheld₁
    refine ⟨hheld',fun k hk => hkeep' k (hkeep k hk),fun g hg file hfile => ?_⟩
    rcases List.mem_cons.mp hg with rfl | hg
    · exact hkeep' _ (hfiles file hfile)
    · exact hfiles' g hg file hfile

theorem artifacts_ok {directory : String} {sources : List (String × String)}
    {artifacts artifacts' : ArtifactIndex} {t u : Tree}
    (h : (sources.foldlM (sealArtifact lib cwd directory) artifacts).run t = (.ok artifacts',u)) :
    (∀ k ∈ artifacts, k ∈ artifacts') ∧ ∀ a ∈ sources, artifactPath a.1 ∈ artifacts' := by
  induction sources generalizing artifacts t with
  | nil =>
    obtain ⟨rfl,rfl⟩ := Act.pure_ok.mp h
    exact ⟨fun _ hk => hk,by simp⟩
  | cons a sources ih =>
    rw [List.foldlM_cons] at h
    obtain ⟨artifacts₁,t₁,hartifact,h⟩ := Act.bind_ok.mp h
    obtain ⟨x,t₂,-,hartifact⟩ := Act.bind_ok.mp hartifact
    obtain ⟨hash,t₃,-,hartifact⟩ := Act.bind_ok.mp hartifact
    obtain ⟨rfl,rfl⟩ := Act.pure_ok.mp hartifact
    obtain ⟨hkeep,hall⟩ := ih h
    refine ⟨fun k hk => hkeep k (by simp [hk]),fun b hb => ?_⟩
    rcases List.mem_cons.mp hb with rfl | hb
    · exact hkeep _ (by simp)
    · exact hall b hb

theorem gateLabel_ok {name : String} {x : Unit} (h : gateLabel name = .ok x) :
    name ≠ "" ∧ '/' ∉ name.toList := by
  obtain ⟨y,hrelative,h⟩ := bind_ok h
  obtain ⟨hgood,-⟩ := unless_ok.mp h
  refine ⟨?_,fun hin => hgood (.inr (.inl hin))⟩
  rintro rfl
  cases hrelative

/-- The two spellings of a file of a gate. -/
theorem gate_file {name : String} (hne : name ≠ "") (hslash : '/' ∉ name.toList) (directory : String)
    {file : String} (hfile : absolute file = false) :
    join (gateDirectory directory name) file = join directory (gatePath name file) := by
  have hname : absolute name = false := by
    rw [absolute,decide_eq_false_iff_not]
    exact fun h => hslash (List.mem_of_head? h)
  have hgates : join directory "gates" = before directory ++ "gates" := join_relative rfl
  have hdirectory : gateDirectory directory name = before directory ++ "gates" ++ "/" ++ name := by
    rw [gateDirectory,hgates,join_named (by decide) (by decide) hname]
  have hpath : absolute (gatePath name file) = false := by
    simp [absolute,gatePath,String.toList_append]
  rw [hdirectory,join_named hne hslash hfile,join_relative hpath,gatePath]
  simp only [String.append_assoc]
  rfl

theorem checkRequest_ok {t : Tree} {request : SealRequest} {x : Unit}
    (h : checkRequest lib cwd t request = .ok x) :
    request.gates.isEmpty = false ∧ request.gates.keys = request.expectedReceipts.keys ∧
      ∀ g ∈ request.gates.toList, gateLabel g.1 = .ok () ∧
        ∃ r, verifyRun lib cwd t g.2 (some request.composition) = .ok r := by
  obtain ⟨hempty,h⟩ := unless_ok.mp h
  obtain ⟨hkeys,h⟩ := unless_ok.mp h
  obtain ⟨y,hgates,-⟩ := bind_ok h
  refine ⟨by simpa using hempty,not_not.mp hkeys,fun g hg => ?_⟩
  obtain ⟨z,hlabel,h⟩ := bind_ok (forM_ok_iff.mp hgates g hg)
  obtain ⟨r,hr,-⟩ := bind_ok h
  exact ⟨hlabel,r,hr⟩

theorem verifyRun_version {t : Tree} {directory : String} {c : Composition} {r : Receipt}
    (h : verifyRun lib cwd t directory (some c) = .ok r) : c.schemaVersion = 1 := by
  obtain ⟨bytes,-,h⟩ := bind_ok h
  obtain ⟨receipt,-,h⟩ := bind_ok h
  obtain ⟨hincomplete,-⟩ := unless_ok.mp h
  simp only [Receipt.incomplete,Bool.or_eq_true,not_or,Option.any_some,decide_eq_true_eq,ne_eq,
    not_not] at hincomplete
  obtain ⟨⟨⟨⟨⟨⟨⟨⟨-,hversion⟩,-⟩,-⟩,-⟩,-⟩,-⟩,-⟩,hc⟩ := hincomplete
  rw [hc,hversion]

/-- What a seal that has been made says, and what is on the disk. -/
structure Made (lib : Library) (cwd : Path) (request : SealRequest) (directory : String) (t : Tree)
    (s : Seal) : Prop where
  version : s.schemaVersion = 1
  composition : s.composition = request.composition
  composed : request.composition.schemaVersion = 1
  gates : s.gates = request.expectedReceipts
  nonempty : request.expectedReceipts.isEmpty = false
  labels : ∀ name ∈ request.expectedReceipts, gateLabel name = .ok ()
  held : Held lib cwd request.composition directory request.expectedReceipts t
  index : ∃ n, verifyIndex lib cwd t directory s.artifacts = .ok n
  files : ∀ name ∈ request.gates, ∀ file ∈ gateFiles, gatePath name file ∈ s.artifacts
  artifacts : ∀ name ∈ request.artifacts, artifactPath name ∈ s.artifacts
  written : read t cwd (join directory "seal.json") = .ok (jsonBytes s.json)

theorem mem_toList {α : Type} {m : Map α} {name : String} (h : name ∈ m) :
    ∃ a, (name,a) ∈ m.toList := by
  rw [← Std.ExtTreeMap.mem_keys,← Std.ExtTreeMap.map_fst_toList_eq_keys] at h
  obtain ⟨⟨k,a⟩,hin,rfl⟩ := List.mem_map.mp h
  exact ⟨a,hin⟩

theorem makeSeal_made {request : SealRequest} {directory : String} {t u : Tree} {s : Seal}
    (h : (makeSeal lib cwd request directory).run t = (.ok s,u)) :
    Made lib cwd request directory u s := by
  obtain ⟨x,t₀,hasked,h⟩ := Act.bind_ok.mp h
  obtain ⟨hcheck,rfl⟩ := Act.ask_ok.mp hasked
  obtain ⟨hempty,hkeys,hgates⟩ := checkRequest_ok hcheck
  obtain ⟨x,t₁,-,h⟩ := Act.bind_ok.mp h
  obtain ⟨x,t₂,-,h⟩ := Act.bind_ok.mp h
  obtain ⟨x,t₃,-,h⟩ := Act.bind_ok.mp h
  obtain ⟨s₁,t₄,hrun,h⟩ := Act.bind_ok.mp h
  obtain ⟨artifacts,t₅,hartifacts,h⟩ := Act.bind_ok.mp h
  obtain ⟨x,t₆,hasked,h⟩ := Act.bind_ok.mp h
  obtain ⟨hsame,rfl⟩ := Act.ask_ok.mp hasked
  obtain ⟨n,t₆,hasked,h⟩ := Act.bind_ok.mp h
  obtain ⟨hindex,rfl⟩ := Act.ask_ok.mp hasked
  obtain ⟨x,t₆,hwrite,h⟩ := Act.bind_ok.mp h
  obtain ⟨rfl,rfl⟩ := Act.pure_ok.mp h
  have hexpected : s₁.gates = request.expectedReceipts := not_not.mp (unless_ok.mp hsame).1
  obtain ⟨hheld,-,hfiles⟩ := gates_ok hrun fun name hash hname => by simp at hname
  have hgrows₁ := Act.ok_grows
    (Act.adds_foldlM (fun s a => adds_sealArtifact directory s a) _ _) hartifacts
  obtain ⟨hgrows₂,hwritten⟩ := createFile_ok hwrite
  obtain ⟨hkeep,hnames⟩ := artifacts_ok hartifacts
  obtain ⟨label,hlabel⟩ : ∃ label, label ∈ request.gates := by
    obtain ⟨label,rest,hcons⟩ := List.exists_cons_of_ne_nil (l := request.gates.keys) (by
      intro hnil
      rw [Std.ExtTreeMap.keys_eq_nil_iff.mp hnil] at hempty
      simp at hempty)
    exact ⟨label,Std.ExtTreeMap.mem_keys.mp (by simp [hcons])⟩
  have hmem : ∀ name, name ∈ request.expectedReceipts ↔ name ∈ request.gates := fun name => by
    rw [← Std.ExtTreeMap.mem_keys,← hkeys,Std.ExtTreeMap.mem_keys]
  refine
    { version := rfl
      composition := rfl
      composed := ?_
      gates := hexpected
      nonempty := ?_
      labels := ?_
      held := ?_
      index := ⟨n,stable_verifyIndex _ _ _ _ n hgrows₂ hindex⟩
      files := ?_
      artifacts := ?_
      written := hwritten }
  · obtain ⟨run,hin⟩ := mem_toList hlabel
    obtain ⟨-,r,hr⟩ := hgates _ hin
    exact verifyRun_version hr
  · rw [← Bool.not_eq_true]
    intro hnone
    have hin := (hmem label).mpr hlabel
    rw [Std.ExtTreeMap.isEmpty_iff.mp hnone] at hin
    simp at hin
  · intro name hname
    obtain ⟨run,hin⟩ := mem_toList ((hmem name).mp hname)
    exact (hgates _ hin).1
  · rw [← hexpected]
    exact hheld.grows (hgrows₁.trans hgrows₂)
  · intro name hname file hfile
    obtain ⟨run,hin⟩ := mem_toList hname
    exact hkeep _ (hfiles _ hin file hfile)
  · intro name hname
    obtain ⟨source,hin⟩ := mem_toList hname
    exact hnames _ hin

theorem Made.sealOf {request : SealRequest} {directory : String} {t : Tree} {s : Seal}
    (h : Made lib cwd request directory t s) : sealOf (jsonBytes s.json) = some s :=
  sealOf_jsonBytes (by rw [h.version]; decide) (by rw [h.composition,h.composed]; decide)

/-- A seal that has been made is verified. -/
theorem Made.verified {request : SealRequest} {directory : String} {t : Tree} {s : Seal}
    (h : Made lib cwd request directory t s) :
    verifySeal lib cwd t directory request.composition request.expectedReceipts = .ok s := by
  obtain ⟨n,hindex⟩ := h.index
  have hgood : ¬ (s.schemaVersion ≠ 1 ∨ s.composition ≠ request.composition ∨
      request.expectedReceipts.isEmpty ∨ request.expectedReceipts ≠ s.gates) := by
    simp [h.version,h.composition,h.nonempty,h.gates]
  have hgates : (s.gates.toList.forM fun g =>
      verifyGate lib cwd t directory request.composition g.1 g.2) = .ok () := by
    rw [forM_ok_iff]
    intro g hg
    rw [h.gates,Std.ExtTreeMap.mem_toList_iff_getElem?_eq_some] at hg
    obtain ⟨hhash,r,hr⟩ := h.held g.1 g.2 hg
    have hlabel := h.labels g.1 (Std.ExtTreeMap.mem_iff_isSome_getElem?.mpr (by simp [hg]))
    obtain ⟨hne,hslash⟩ := gateLabel_ok hlabel
    rw [← gate_file hne hslash directory rfl] at hhash
    refine bind_ok_iff.mpr ⟨(),hlabel,bind_ok_iff.mpr ⟨g.2,hhash,?_⟩⟩
    rw [if_neg (by simp)]
    exact bind_ok_iff.mpr ⟨r,hr,rfl⟩
  refine bind_ok_iff.mpr ⟨_,h.written,?_⟩
  rw [h.sealOf]
  dsimp only
  rw [if_neg hgood]
  exact bind_ok_iff.mpr ⟨n,hindex,bind_ok_iff.mpr ⟨(),hgates,rfl⟩⟩

/-! ## What a seal binds -/

/-- The bytes of a path under a directory, which it may not leave. -/
def retainedBytes (cwd : Path) (t : Tree) (directory path : String) : Except Error (List UInt8) := do
  let root ← find t cwd directory
  let q ← contained t root path
  contents t q

/-- The files that a request asks to retain. -/
def Requested (request : SealRequest) (path : String) : Prop :=
  (∃ name ∈ request.gates, ∃ file ∈ gateFiles, path = gatePath name file) ∨
    ∃ name ∈ request.artifacts, path = artifactPath name

theorem verifyIndex_ok {t : Tree} {directory : String} {index : ArtifactIndex} {n : ℕ}
    (h : verifyIndex lib cwd t directory index = .ok n) {path hash : String}
    (hpath : index[path]? = some hash) :
    ∃ bytes, retainedBytes cwd t directory path = .ok bytes ∧ lib.sha256 bytes = hash := by
  obtain ⟨-,h⟩ := unless_ok.mp h
  obtain ⟨root,hroot,h⟩ := bind_ok h
  obtain ⟨x,hall,-⟩ := bind_ok h
  have hin := Std.ExtTreeMap.mem_toList_iff_getElem?_eq_some.mpr hpath
  obtain ⟨q,hq,h⟩ := bind_ok (forM_ok_iff.mp hall _ hin)
  obtain ⟨bytes,hbytes,h⟩ := bind_ok h
  obtain ⟨hsame,-⟩ := unless_ok.mp h
  exact ⟨bytes,bind_ok_iff.mpr ⟨root,hroot,bind_ok_iff.mpr ⟨q,hq,hbytes⟩⟩,not_not.mp hsame⟩

theorem verifySeal_ok {t : Tree} {directory : String} {expected : Composition}
    {required : ArtifactIndex} {s s' : Seal}
    (hread : ∃ bytes, read t cwd (join directory "seal.json") = .ok bytes ∧ sealOf bytes = some s)
    (h : verifySeal lib cwd t directory expected required = .ok s') :
    s.composition = expected ∧ required = s.gates ∧
      ∃ n, verifyIndex lib cwd t directory s.artifacts = .ok n := by
  obtain ⟨bytes,hbytes,hseal⟩ := hread
  obtain ⟨bytes',hbytes',h⟩ := bind_ok h
  obtain rfl := Except.ok.inj (hbytes.symm.trans hbytes')
  rw [hseal] at h
  obtain ⟨hgood,h⟩ := unless_ok.mp h
  obtain ⟨n,hn,-⟩ := bind_ok h
  simp only [not_or,not_not] at hgood
  exact ⟨hgood.2.1,hgood.2.2.2,n,hn⟩

theorem Made.requested {request : SealRequest} {directory : String} {t : Tree} {s : Seal}
    (h : Made lib cwd request directory t s) {path : String} (hpath : Requested request path) :
    ∃ hash, s.artifacts[path]? = some hash := by
  have hmem : path ∈ s.artifacts := by
    rcases hpath with ⟨name,hname,file,hfile,rfl⟩ | ⟨name,hname,rfl⟩
    · exact h.files name hname file hfile
    · exact h.artifacts name hname
  exact Option.isSome_iff_exists.mp (Std.ExtTreeMap.mem_iff_isSome_getElem?.mp hmem)

/-- While the seal itself is as it was made, what is verified is the composition and the gates of
the request, and the bytes that were retained. -/
theorem Made.binds (hsha : Function.Injective lib.sha256) {request : SealRequest}
    {directory : String} {t u : Tree} {s s' : Seal} (h : Made lib cwd request directory t s)
    (hread : read u cwd (join directory "seal.json") = read t cwd (join directory "seal.json"))
    {expected : Composition} {required : ArtifactIndex}
    (hverify : verifySeal lib cwd u directory expected required = .ok s') :
    expected = request.composition ∧ required = request.expectedReceipts ∧
      ∀ path, Requested request path →
        retainedBytes cwd u directory path = retainedBytes cwd t directory path := by
  have hbytes : read u cwd (join directory "seal.json") = .ok (jsonBytes s.json) :=
    hread.trans h.written
  obtain ⟨hcomposition,hgates,n,hindex⟩ := verifySeal_ok ⟨_,hbytes,h.sealOf⟩ hverify
  refine ⟨hcomposition.symm.trans h.composition,hgates.trans h.gates,fun path hpath => ?_⟩
  obtain ⟨hash,hhash⟩ := h.requested hpath
  obtain ⟨n',hindex'⟩ := h.index
  obtain ⟨bytes,hb,hsame⟩ := verifyIndex_ok hindex hhash
  obtain ⟨bytes',hb',hsame'⟩ := verifyIndex_ok hindex' hhash
  rw [hb,hb',hsha (hsame.trans hsame'.symm)]

/-- A seal that was made is verified, at its composition and its gates; the requested files are
retained; and while the seal itself is unchanged, nothing is verified at another composition or
other gates, or once a byte of these files is changed, added or removed. -/
theorem seal_binding (lib : Library) (cwd : Path) (hsha : Function.Injective lib.sha256)
    (request : SealRequest) (directory : String) (t u : Tree) (s : Seal)
    (h : (makeSeal lib cwd request directory).run t = (.ok s,u)) :
    verifySeal lib cwd u directory request.composition request.expectedReceipts = .ok s ∧
      (∀ path, Requested request path →
        ∃ bytes, retainedBytes cwd u directory path = .ok bytes) ∧
      ∀ v expected required s',
        read v cwd (join directory "seal.json") = read u cwd (join directory "seal.json") →
        verifySeal lib cwd v directory expected required = .ok s' →
        expected = request.composition ∧ required = request.expectedReceipts ∧
          ∀ path, Requested request path →
            retainedBytes cwd v directory path = retainedBytes cwd u directory path := by
  have hmade := makeSeal_made h
  refine ⟨hmade.verified,fun path hpath => ?_,
    fun v expected required s' hread hverify => hmade.binds hsha hread hverify⟩
  obtain ⟨hash,hhash⟩ := hmade.requested hpath
  obtain ⟨n,hindex⟩ := hmade.index
  obtain ⟨bytes,hbytes,-⟩ := verifyIndex_ok hindex hhash
  exact ⟨bytes,hbytes⟩

end

/-! ## A sealed run -/

def sampleFile : Archive.SourceFile := ⟨"2d711642b726b04401627ca9fbac32f5c8530fb1903cc4db02258717921a4881",false,none⟩

def sampleInventory : Inventory := ⟨2,(∅ : Archive.Files).insert "a" sampleFile⟩

def sampleFingerprint : String := "f51e830695babedf5bff79cb656189a18409de10d6da979fe177d2a594ffd217"

def sampleComposition : Composition := ⟨1,(∅ : ArtifactIndex).insert "app" sampleFingerprint,∅⟩

def sampleReceipt : Receipt where
  schemaVersion := 1
  status := .passed
  executionExit := some 0
  composition := sampleComposition
  after := some sampleComposition
  inventories := (∅ : Map Inventory).insert "app" sampleInventory
  requestSha256 := "4abe0e96f31bb3d5730cb97a1905a78bb0745feb5231a1272ed591d836a52cc6"
  stdoutSha256 := "dc51b8c96c2d745df3bd5590d990230a482fd247123599548e0632fdbf97fc22"
  stderrSha256 := "e3b0c44298fc1c149afbf4c8996fb92427ae41e4649b934ca495991b7852b855"
  executable := some ⟨"/bin/true",sampleFile.sha256⟩
  error := none

def receiptJson : Json := .obj
  [("schemaVersion",.int 1),("status",.str "passed"),("executionExit",.int 0),
    ("composition",sampleComposition.json),("after",sampleComposition.json),
    ("inventories",.obj [("app",sampleInventory.json)]),
    ("requestSha256",.str sampleReceipt.requestSha256),
    ("stdoutSha256",.str sampleReceipt.stdoutSha256),
    ("stderrSha256",.str sampleReceipt.stderrSha256),("tools",.obj []),
    ("executable",.obj [("path",.str "/bin/true"),("sha256",.str sampleFile.sha256)]),
    ("environment",.obj []),("startedUnixMs",.int 1),("elapsedMs",.int 1),("error",.null)]

def requestJson : Json := .obj
  [("cwd",.str "/"),("sources",.obj [("app",.obj [("root",.str "/"),("paths",.arr [.str "a"])])]),
    ("inputs",.obj []),("command",.arr [.str "true"]),("timeoutSeconds",.int 1)]

def textBytes (v : Json) : List UInt8 := Utf8.encode v.render

/-- The hashes of the files of the run; other bytes stand for their own. -/
def sampleTable : List (List UInt8 × String) :=
  [(textBytes receiptJson,"2823b5c8d185666ad43e53d7e4b04bb44241af2049d7558e680b1ce6e401d294"),
    (textBytes requestJson,sampleReceipt.requestSha256),
    ([111,107,10],sampleReceipt.stdoutSha256),([],sampleReceipt.stderrSha256),
    (textBytes (.obj []),"44136fa355b3678a1146ad16f7e8649e94fb4fc21fe77e8310c060f61caaff8a"),
    (jsonBytes sampleInventory.json,sampleFingerprint),([120],sampleFile.sha256)]

def byteText (bytes : List UInt8) : String :=
  String.ofList ('x' :: bytes.map fun b => Char.ofNat b.toNat)

def sampleHash (bytes : List UInt8) : String := (sampleTable.lookup bytes).getD (byteText bytes)

def sampleLibrary : Library where
  sha256 := sampleHash
  receipt := fun bytes => if bytes = textBytes receiptJson then .ok sampleReceipt
    else .error "expected value at line 1 column 1"
  refusal := fun _ => "expected value at line 1 column 1"

def sampleTree : Tree :=
  [(["run"],.directory),(["run","request.json"],.file (textBytes requestJson)),
    (["run","receipt.json"],.file (textBytes receiptJson)),
    (["run","stdout.log"],.file [111,107,10]),(["run","stderr.log"],.file []),
    (["report"],LinkTree.Node.file (textBytes (.obj [])))].foldl
    (fun (t : Tree) (e : Path × LinkTree.Node) => t.insert e.1 e.2) ∅

def sampleRequest : SealRequest where
  composition := sampleComposition
  gates := (∅ : Map String).insert "unit" "/run"
  expectedReceipts := (∅ : ArtifactIndex).insert "unit" (sampleHash (textBytes receiptJson))
  artifacts := (∅ : Map String).insert "coverage.json" "/report"

theorem byteText_injective : Function.Injective byteText := by
  intro a b h
  have hcons := String.ofList_injective h
  refine List.map_injective_iff.mpr (fun x y hxy => ?_) (List.cons.inj hcons).2
  have hvalid (z : UInt8) : (Char.ofNat z.toNat).toNat = z.toNat := by
    have hlt := z.toNat_lt
    have hchar : z.toNat.isValidChar := .inl (by omega)
    rw [Char.ofNat,dif_pos hchar]
    rfl
  rw [← UInt8.toNat_inj,← hvalid x,← hvalid y,hxy]

/-- A table whose values are told apart, over values that are not among them. -/
theorem lookup_injective {α β : Type} [BEq α] [LawfulBEq α] {table : List (α × β)} {other : α → β}
    (hnodup : (table.map Prod.snd).Nodup) (hother : Function.Injective other)
    (hnew : ∀ f ∈ table, ∀ a, other a ≠ f.2) :
    Function.Injective fun a => (table.lookup a).getD (other a) := by
  have hmem : ∀ a b, table.lookup a = some b → (a,b) ∈ table := fun a b h => by
    obtain ⟨l,r,hsplit,-⟩ := List.lookup_eq_some_iff.mp h
    simp [hsplit]
  intro a b h
  dsimp only at h
  cases ha : table.lookup a with
  | none =>
    cases hb : table.lookup b with
    | none =>
      rw [ha,hb] at h
      exact hother h
    | some y =>
      rw [ha,hb] at h
      exact absurd h (hnew _ (hmem b y hb) a)
  | some x =>
    cases hb : table.lookup b with
    | none =>
      rw [ha,hb] at h
      exact absurd h.symm (hnew _ (hmem a x ha) b)
    | some y =>
      rw [ha,hb] at h
      exact congrArg Prod.fst
        (List.inj_on_of_nodup_map hnodup (hmem a x ha) (hmem b y hb) h)

theorem sampleHash_injective : Function.Injective sampleHash := by
  refine lookup_injective (by decide +kernel) byteText_injective fun f hf bytes heq => ?_
  have hhead : (sampleTable.map Prod.snd).all fun h => h.toList.head? ≠ some 'x' := by
    decide +kernel
  have hne := List.all_eq_true.mp hhead f.2 (List.mem_map_of_mem hf)
  rw [← heq,byteText,String.toList_ofList] at hne
  simp at hne

/-- The disk once the run has been sealed. -/
def sealedDisk : Tree := ((makeSeal sampleLibrary [] sampleRequest "/seal").run sampleTree).2

/-- A log that the seal does not name. -/
def extraLog : Path := ["seal","gates","unit","extra.log"]

theorem sample_sealed :
    ((makeSeal sampleLibrary [] sampleRequest "/seal").run sampleTree).1.toOption.isSome ∧
      look sealedDisk extraLog = none := by
  decide +kernel

theorem sample_run : ∃ s,
    (makeSeal sampleLibrary [] sampleRequest "/seal").run sampleTree = (.ok s,sealedDisk) :=
  Act.run_ok sample_sealed.1

theorem sample_verified : ∃ s,
    verifySeal sampleLibrary [] sealedDisk "/seal" sampleComposition sampleRequest.expectedReceipts =
      .ok s := by
  obtain ⟨s,h⟩ := sample_run
  exact ⟨s,(seal_binding sampleLibrary [] sampleHash_injective _ _ _ _ _ h).1⟩

-- the added log is not one of the run's
example : look sampleTree extraLog = none := by decide +kernel

/-- A log that is added to a gate does not make its seal fail. -/
theorem extra_log_verified : ∃ s,
    (makeSeal sampleLibrary [] sampleRequest "/seal").run sampleTree = (.ok s,sealedDisk) ∧
      look sealedDisk extraLog = none ∧
      read (sealedDisk.insert extraLog (.file [120])) [] "/seal/seal.json" =
        read sealedDisk [] "/seal/seal.json" ∧
      verifySeal sampleLibrary [] (sealedDisk.insert extraLog (.file [120])) "/seal"
        sampleComposition sampleRequest.expectedReceipts = .ok s := by
  obtain ⟨s,h⟩ := sample_run
  have hfree := sample_sealed.2
  have hmade := makeSeal_made h
  have hgrows := Grows.insert (by decide) hfree (.file [120])
  have hwritten : read sealedDisk [] "/seal/seal.json" = .ok (jsonBytes s.json) := hmade.written
  exact ⟨s,h,hfree,(hgrows.read hwritten).trans hwritten.symm,
    stable_verifySeal _ _ _ _ _ s hgrows hmade.verified⟩

end Qualification
end CanixToolbelt
