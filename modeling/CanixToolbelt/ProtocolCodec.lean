import CanixToolbelt.Protocol
import CanixToolbelt.Fallible

/-! The wire format is canonical: a message has one frame, and every accepted frame is the
one of its message. -/
namespace CanixToolbelt
namespace Protocol

open Json

/-! ## Canonical objects -/

theorem mem_insertField {k : String} {v : Json} {fs : Fields} {f : String × Json}
    (h : f ∈ insertField k v fs) : f = (k,v) ∨ f ∈ fs := by
  induction fs with
  | nil => exact .inl (List.mem_singleton.mp h)
  | cons g fs ih =>
    obtain ⟨k',v'⟩ := g
    simp only [insertField] at h
    split at h
    · exact (List.mem_cons.mp h).imp_right (List.mem_cons_of_mem _)
    · split at h
      · exact List.mem_cons.mp h
      · rcases List.mem_cons.mp h with rfl | h
        · exact .inr List.mem_cons_self
        · exact (ih h).imp_right (List.mem_cons_of_mem _)

theorem canonicalFields_lookup (fields : Fields) (k : String) :
    (canonicalFields fields).lookup k = (fields.lookup k).map canonical := by
  induction fields with
  | nil => rfl
  | cons f fields ih =>
    obtain ⟨l,x⟩ := f
    simp only [canonicalFields,List.lookup_cons]
    cases k == l with
    | true => rfl
    | false => exact ih

/-- An object literal has its own fields, in the order of their keys. -/
theorem object_sorts (fields : Fields) : ∃ gs, object fields = .obj gs ∧
    (gs.map Prod.fst).Pairwise (· < ·) ∧ ∀ g ∈ gs, g ∈ fields := by
  have hfold : ∀ (fs acc : Fields), (acc.map Prod.fst).Pairwise (· < ·) →
      ((fs.foldl (fun acc f => insertField f.1 f.2 acc) acc).map Prod.fst).Pairwise (· < ·) ∧
        ∀ g ∈ fs.foldl (fun acc f => insertField f.1 f.2 acc) acc, g ∈ acc ∨ g ∈ fs := by
    intro fs
    induction fs with
    | nil => exact fun acc h => ⟨h,fun g hg => .inl hg⟩
    | cons f fs ih =>
      intro acc h
      obtain ⟨hsorted,hmem⟩ := ih _ (keys_insertField f.1 f.2 h)
      refine ⟨hsorted,fun g hg => ?_⟩
      rcases hmem g hg with hg | hg
      · rcases mem_insertField hg with rfl | hg
        · exact .inr List.mem_cons_self
        · exact .inl hg
      · exact .inr (List.mem_cons_of_mem _ hg)
  obtain ⟨hsorted,hmem⟩ := hfold fields [] .nil
  exact ⟨_,rfl,hsorted,fun g hg => (hmem g hg).resolve_left List.not_mem_nil⟩

theorem object_fields {fields : Fields} (hnodup : (fields.map Prod.fst).Nodup) :
    ∃ gs, object fields = .obj gs ∧ (gs.map Prod.fst).Pairwise (· < ·) ∧
      ∀ k, gs.lookup k = fields.lookup k := by
  obtain ⟨gs,hgs,hsorted,-⟩ := object_sorts fields
  have hget : ∀ k, gs.lookup k = (object fields).get? k := fun k => by rw [hgs]; rfl
  refine ⟨gs,hgs,hsorted,fun k => ?_⟩
  rw [hget]
  cases hk : fields.lookup k with
  | none =>
    have hno : k ∉ fields.map Prod.fst := by
      rw [Canonical.mem_keys_iff,hk]
      decide
    exact lookup_object_none fun f hf heq => hno (List.mem_map.mpr ⟨f,hf,heq⟩)
  | some x =>
    have hmem : (k,x) ∈ fields := Canonical.mem_of_lookup hk
    refine lookup_object hmem fun y hy => ?_
    exact congrArg Prod.snd (List.inj_on_of_nodup_map hnodup hy hmem rfl)

/-- An object whose fields are known and read like `fields` is canonically `fields`. -/
theorem canonical_object {fs fields : Fields} (hknown : known (fields.map Prod.fst) fs = true)
    (hnodup : (fields.map Prod.fst).Nodup)
    (h : ∀ f ∈ fields, (fs.lookup f.1).map canonical = some f.2) :
    canonical (.obj fs) = object fields := by
  obtain ⟨gs,hgs,hsorted,hlookup⟩ := object_fields hnodup
  rw [hgs,canonical]
  congr 1
  refine Canonical.sorted_ext (Canonical.sortKeys_sorted _) hsorted fun k => ?_
  rw [Canonical.lookup_sortKeys,canonicalFields_lookup,hlookup]
  cases hk : fields.lookup k with
  | none =>
    cases hfs : fs.lookup k with
    | none => rfl
    | some x =>
      have hmem := List.all_eq_true.mp hknown _ (Canonical.mem_of_lookup hfs)
      simp only [decide_eq_true_eq] at hmem
      rw [Canonical.mem_keys_iff,hk] at hmem
      cases hmem
  | some x => exact h _ (Canonical.mem_of_lookup hk)

theorem text_canonical {fs : Fields} {k s : String} (h : text fs k = some s) :
    (fs.lookup k).map canonical = some (.str s) := by
  unfold text at h
  cases hk : fs.lookup k with
  | none =>
    rw [hk] at h
    cases h
  | some v =>
    rw [hk] at h
    cases v <;> simp_all [asStr,canonical]

theorem same_keys {gs fields : Fields} (hgs : (gs.map Prod.fst).Nodup)
    (hnodup : (fields.map Prod.fst).Nodup) (h : ∀ k, gs.lookup k = fields.lookup k) :
    known (fields.map Prod.fst) gs = true ∧ gs.length = fields.length := by
  have hkeys : ∀ k, k ∈ gs.map Prod.fst ↔ k ∈ fields.map Prod.fst := fun k => by
    rw [Canonical.mem_keys_iff,Canonical.mem_keys_iff,h]
  refine ⟨List.all_eq_true.mpr fun f hf => ?_,?_⟩
  · rw [decide_eq_true_eq,← hkeys]
    exact List.mem_map_of_mem hf
  · have hlength := ((List.perm_ext_iff_of_nodup hgs hnodup).mpr hkeys).length_eq
    rwa [List.length_map,List.length_map] at hlength

/-- What an object literal reads as. -/
theorem object_read (fields : Fields) (hnodup : (fields.map Prod.fst).Nodup) :
    ∃ gs, object fields = .obj gs ∧ known (fields.map Prod.fst) gs = true ∧
      gs.length = fields.length ∧ ∀ k, gs.lookup k = fields.lookup k := by
  obtain ⟨gs,hgs,hsorted,hlookup⟩ := object_fields hnodup
  obtain ⟨hknown,hlength⟩ := same_keys (hsorted.imp fun h => String.ne_of_lt h) hnodup hlookup
  exact ⟨gs,hgs,hknown,hlength,hlookup⟩

/-- The fields beside the kind. -/
def untagged (fields : Fields) : Fields := fields.filter fun f => f.1 ≠ "kind"

theorem lookup_untagged (fields : Fields) (k : String) :
    (untagged fields).lookup k = if k = "kind" then none else fields.lookup k := by
  have h := lookup_filter_key (p := fun k => k ≠ "kind") fields k
  rw [untagged,h]
  by_cases hk : k = "kind" <;> simp [hk]

theorem tagged_canonical {fs fields : Fields} {kind : String} (hkind : text fs "kind" = some kind)
    (hknown : known (fields.map Prod.fst) (untagged fs) = true)
    (hnodup : ("kind" :: fields.map Prod.fst).Nodup)
    (h : ∀ f ∈ fields, ((untagged fs).lookup f.1).map canonical = some f.2) :
    canonical (.obj fs) = object (("kind",.str kind) :: fields) := by
  refine canonical_object (List.all_eq_true.mpr fun f hf => ?_) hnodup fun f hf => ?_
  · rw [decide_eq_true_eq,List.map_cons,List.mem_cons]
    by_cases hk : f.1 = "kind"
    · exact .inl hk
    · have hmem := List.all_eq_true.mp hknown f (List.mem_filter.mpr ⟨hf,decide_eq_true hk⟩)
      exact .inr (of_decide_eq_true hmem)
  · rcases List.mem_cons.mp hf with rfl | hf
    · exact text_canonical hkind
    · have hne : f.1 ≠ "kind" := fun heq =>
        (List.nodup_cons.mp hnodup).1 (heq ▸ List.mem_map_of_mem hf)
      have hread := h f hf
      rwa [lookup_untagged,if_neg hne] at hread

theorem tagged_read (kind : String) (fields : Fields) (hnodup : ("kind" :: fields.map Prod.fst).Nodup) :
    ∃ gs, object (("kind",.str kind) :: fields) = .obj gs ∧ text gs "kind" = some kind ∧
      known (fields.map Prod.fst) (untagged gs) = true ∧ (untagged gs).length = fields.length ∧
      ∀ k, (untagged gs).lookup k = fields.lookup k := by
  obtain ⟨gs,hgs,hsorted,hlookup⟩ := object_fields
    (show ((("kind",.str kind) :: fields).map Prod.fst).Nodup from hnodup)
  obtain ⟨hkind,hrest⟩ := List.nodup_cons.mp hnodup
  have huntagged : ∀ k, (untagged gs).lookup k = fields.lookup k := fun k => by
    rw [lookup_untagged,hlookup,List.lookup_cons]
    by_cases hk : k = "kind"
    · rw [if_pos hk,hk]
      cases hf : fields.lookup "kind" with
      | none => rfl
      | some v => exact absurd (Canonical.mem_keys_iff.mpr (by rw [hf]; rfl)) hkind
    · rw [if_neg hk,beq_eq_false_iff_ne.mpr hk]
  have hsub : ((untagged gs).map Prod.fst).Nodup :=
    ((hsorted.imp fun h => String.ne_of_lt h : (gs.map Prod.fst).Nodup)).sublist
      (List.filter_sublist.map _)
  obtain ⟨hknown,hlength⟩ := same_keys hsub hrest huntagged
  refine ⟨gs,hgs,?_,hknown,hlength,huntagged⟩
  rw [text,hlookup]
  rfl

/-! ## Reading the parts of a message -/

theorem Implementation.read_ok {v : Json} {i : Implementation} (h : Implementation.read v = some i) :
    ∃ fs, v = .obj fs ∧ known ["engineRevision","engineDigest","bridgeDigest","schemaDigest",
      "configurationDigest","credentialReferenceDigest"] fs = true ∧
      text fs "engineRevision" = some i.engineRevision ∧
      text fs "engineDigest" = some i.engineDigest ∧ text fs "bridgeDigest" = some i.bridgeDigest ∧
      text fs "schemaDigest" = some i.schemaDigest ∧
      text fs "configurationDigest" = some i.configurationDigest ∧
      text fs "credentialReferenceDigest" = some i.credentialReferenceDigest := by
  unfold Implementation.read at h
  cases v with
  | obj fs =>
    simp only [asObject,Option.bind_eq_bind,Option.bind_some,Option.ite_none_right_eq_some,
      Option.bind_eq_some_iff] at h
    obtain ⟨hknown,a,ha,b,hb,c,hc,d,hd,e,he,f,hf,hi⟩ := h
    obtain rfl := Option.some.inj hi
    exact ⟨fs,rfl,hknown,ha,hb,hc,hd,he,hf⟩
  | _ => cases h

theorem Implementation.read_canonical {v : Json} {i : Implementation}
    (h : Implementation.read v = some i) : canonical v = i.value := by
  obtain ⟨fs,rfl,hknown,h₁,h₂,h₃,h₄,h₅,h₆⟩ := Implementation.read_ok h
  refine canonical_object hknown (by simp) ?_
  simp only [List.forall_mem_cons,List.not_mem_nil,false_imp_iff,implies_true,and_true]
  exact ⟨text_canonical h₁,text_canonical h₂,text_canonical h₃,text_canonical h₄,text_canonical h₅,
    text_canonical h₆⟩

theorem Implementation.value_read (i : Implementation) : ∃ gs, i.value = .obj gs ∧ gs.length = 6 ∧
    known ["engineRevision","engineDigest","bridgeDigest","schemaDigest","configurationDigest",
      "credentialReferenceDigest"] gs = true ∧
    text gs "engineRevision" = some i.engineRevision ∧
    text gs "engineDigest" = some i.engineDigest ∧ text gs "bridgeDigest" = some i.bridgeDigest ∧
    text gs "schemaDigest" = some i.schemaDigest ∧
    text gs "configurationDigest" = some i.configurationDigest ∧
    text gs "credentialReferenceDigest" = some i.credentialReferenceDigest := by
  obtain ⟨gs,hgs,hknown,hlength,hlookup⟩ := object_read [("engineRevision",.str i.engineRevision),
    ("engineDigest",.str i.engineDigest),("bridgeDigest",.str i.bridgeDigest),
    ("schemaDigest",.str i.schemaDigest),("configurationDigest",.str i.configurationDigest),
    ("credentialReferenceDigest",.str i.credentialReferenceDigest)] (by simp)
  have htext : ∀ k, text gs k = _ := fun k => congrArg (Option.bind · asStr) (hlookup k)
  exact ⟨gs,hgs,hlength,hknown,htext _,htext _,htext _,htext _,htext _,htext _⟩

theorem Implementation.read_value (i : Implementation) : Implementation.read i.value = some i := by
  obtain ⟨gs,hgs,-,hknown,h₁,h₂,h₃,h₄,h₅,h₆⟩ := i.value_read
  simp only [hgs,Implementation.read,asObject,Option.bind_eq_bind,Option.bind_some,hknown,if_true,h₁,
    h₂,h₃,h₄,h₅,h₆]

theorem Binding.read_ok {v : Json} {b : Binding} (h : Binding.read v = some b) :
    ∃ fs, v = .obj fs ∧ known ["callerAuthority","callerNamespace","intentId","executionId",
      "executionGeneration","inputDigest","policyDigest","implementationDigest"] fs = true ∧
      text fs "callerAuthority" = some b.callerAuthority ∧
      text fs "callerNamespace" = some b.callerNamespace ∧ text fs "intentId" = some b.intentId ∧
      text fs "executionId" = some b.executionId ∧
      text fs "executionGeneration" = some b.executionGeneration ∧
      text fs "inputDigest" = some b.inputDigest ∧ text fs "policyDigest" = some b.policyDigest ∧
      text fs "implementationDigest" = some b.implementationDigest := by
  unfold Binding.read at h
  cases v with
  | obj fs =>
    simp only [asObject,Option.bind_eq_bind,Option.bind_some,Option.ite_none_right_eq_some,
      Option.bind_eq_some_iff] at h
    obtain ⟨hknown,a,ha,n,hn,i,hi,e,he,g,hg,d,hd,p,hp,m,hm,hb⟩ := h
    obtain rfl := Option.some.inj hb
    exact ⟨fs,rfl,hknown,ha,hn,hi,he,hg,hd,hp,hm⟩
  | _ => cases h

theorem Binding.read_canonical {v : Json} {b : Binding} (h : Binding.read v = some b) :
    canonical v = b.value := by
  obtain ⟨fs,rfl,hknown,h₁,h₂,h₃,h₄,h₅,h₆,h₇,h₈⟩ := Binding.read_ok h
  refine canonical_object hknown (by simp) ?_
  simp only [List.forall_mem_cons,List.not_mem_nil,false_imp_iff,implies_true,and_true]
  exact ⟨text_canonical h₁,text_canonical h₂,text_canonical h₃,text_canonical h₄,text_canonical h₅,
    text_canonical h₆,text_canonical h₇,text_canonical h₈⟩

theorem Binding.value_read (b : Binding) : ∃ gs, b.value = .obj gs ∧ gs.length = 8 ∧
    known ["callerAuthority","callerNamespace","intentId","executionId","executionGeneration",
      "inputDigest","policyDigest","implementationDigest"] gs = true ∧
    text gs "callerAuthority" = some b.callerAuthority ∧
    text gs "callerNamespace" = some b.callerNamespace ∧ text gs "intentId" = some b.intentId ∧
    text gs "executionId" = some b.executionId ∧
    text gs "executionGeneration" = some b.executionGeneration ∧
    text gs "inputDigest" = some b.inputDigest ∧ text gs "policyDigest" = some b.policyDigest ∧
    text gs "implementationDigest" = some b.implementationDigest := by
  obtain ⟨gs,hgs,hknown,hlength,hlookup⟩ := object_read [("callerAuthority",.str b.callerAuthority),
    ("callerNamespace",.str b.callerNamespace),("intentId",.str b.intentId),
    ("executionId",.str b.executionId),("executionGeneration",.str b.executionGeneration),
    ("inputDigest",.str b.inputDigest),("policyDigest",.str b.policyDigest),
    ("implementationDigest",.str b.implementationDigest)] (by simp)
  have htext : ∀ k, text gs k = _ := fun k => congrArg (Option.bind · asStr) (hlookup k)
  exact ⟨gs,hgs,hlength,hknown,htext _,htext _,htext _,htext _,htext _,htext _,htext _,htext _⟩

theorem Binding.read_value (b : Binding) : Binding.read b.value = some b := by
  obtain ⟨gs,hgs,-,hknown,h₁,h₂,h₃,h₄,h₅,h₆,h₇,h₈⟩ := b.value_read
  simp only [hgs,Binding.read,asObject,Option.bind_eq_bind,Option.bind_some,hknown,if_true,h₁,h₂,h₃,
    h₄,h₅,h₆,h₇,h₈]

/-! ## Enumerations -/

section Variants
variable {α : Type} {all : List α} {name : α → String}

theorem variant_iff (hname : ∀ a, (all.find? fun b => name b = name a) = some a) {v : Json} {a : α} :
    variant all name v = some a ↔ v = .str (name a) := by
  constructor
  · intro h
    cases v with
    | str s =>
      have hs := List.find?_some (show (all.find? fun a => name a = s) = some a from h)
      rw [of_decide_eq_true hs]
    | _ => cases h
  · rintro rfl
    exact hname a

theorem variants_iff (hname : ∀ a, (all.find? fun b => name b = name a) = some a) {items : List Json}
    {xs : List α} :
    items.mapM (variant all name) = some xs ↔ items = xs.map fun a => .str (name a) := by
  induction items generalizing xs with
  | nil => cases xs <;> simp
  | cons v items ih =>
    simp only [List.mapM_cons,Option.bind_eq_bind,Option.bind_eq_some_iff,variant_iff hname,ih]
    constructor
    · rintro ⟨a,rfl,as,rfl,h⟩
      obtain rfl := Option.some.inj h
      rfl
    · cases xs with
      | nil => exact fun h => nomatch h
      | cons a as =>
        intro h
        obtain ⟨hv,hitems⟩ := List.cons.inj h
        exact ⟨a,hv,as,hitems,rfl⟩

end Variants

theorem Profile.named (p : Profile) :
    (Profile.all.find? fun q => q.name = p.name) = some p := by cases p <;> decide
theorem Capability.named (c : Capability) :
    (Capability.all.find? fun d => d.name = c.name) = some c := by cases c <;> decide
theorem ExecutionState.named (s : ExecutionState) :
    (ExecutionState.all.find? fun t => t.name = s.name) = some s := by cases s <;> decide
theorem ErrorCode.named (e : ErrorCode) :
    (ErrorCode.all.find? fun f => f.name = e.name) = some e := by cases e <;> decide

/-! ## Bodies -/

def Body.kind : Body → String
  | .describe .. => "describe"
  | .capabilities .. => "capabilities"
  | .observation .. => "observation"
  | .outputReceipt .. => "output-receipt"
  | .error .. => "error"

/-- The fields of a body beside its kind. -/
def Body.fields : Body → Fields
  | .describe expected profile => [("expectedImplementation",expected.value),
      ("requiredProfile",.str profile.name)]
  | .capabilities implementation profiles granted => [("implementation",implementation.value),
      ("profiles",.arr (profiles.map fun p => .str p.name)),
      ("capabilities",.arr (granted.map fun c => .str c.name))]
  | .observation binding handle state sequence gap => [("binding",binding.value),
      ("handle",.str handle),("state",.str state.name),("sequence",.str sequence),("gap",.bool gap)]
  | .outputReceipt binding output bytes => [("binding",binding.value),("outputDigest",.str output),
      ("outputBytes",.str bytes)]
  | .error code => [("code",.str code.name)]

theorem Body.value_eq (b : Body) : b.value = object (("kind",.str b.kind) :: b.fields) := by
  cases b <;> rfl

theorem Body.fields_nodup (b : Body) : ("kind" :: b.fields.map Prod.fst).Nodup := by
  cases b <;> simp [Body.fields]

/-- Reading the fields beside the kind. -/
def readFields (kind : String) (rest : Fields) : Option Body :=
  match kind with
  | "describe" => readDescribe rest
  | "capabilities" => readCapabilities rest
  | "observation" => readObservation rest
  | "output-receipt" => readOutputReceipt rest
  | "error" => readError rest
  | _ => none

theorem Body.read_eq (fs : Fields) :
    Body.read (.obj fs) = (text fs "kind").bind fun kind => readFields kind (untagged fs) := rfl

theorem lookup_canonical {fs : Fields} {k : String} {v w : Json} (h : fs.lookup k = some v)
    (hv : canonical v = w) : (fs.lookup k).map canonical = some w := by
  rw [h,Option.map_some,hv]

theorem canonicalItems_texts {α : Type} (name : α → String) (xs : List α) :
    canonicalItems (xs.map fun a => .str (name a)) = xs.map fun a => .str (name a) := by
  induction xs with
  | nil => rfl
  | cons a xs ih =>
    rw [List.map_cons,canonicalItems,ih]
    rfl

/-- A body is read from the fields of its kind, which are canonically its own. -/
theorem readFields_ok {kind : String} {fs : Fields} {b : Body} (h : readFields kind fs = some b) :
    kind = b.kind ∧ known (b.fields.map Prod.fst) fs = true ∧
      ∀ f ∈ b.fields, (fs.lookup f.1).map canonical = some f.2 := by
  unfold readFields at h
  split at h
  · unfold readDescribe at h
    simp only [Option.bind_eq_bind,Option.ite_none_right_eq_some,Option.bind_eq_some_iff,
      variant_iff Profile.named] at h
    obtain ⟨hknown,i,⟨v,hv,hi⟩,p,⟨w,hw,rfl⟩,hb⟩ := h
    obtain rfl := Option.some.inj hb
    refine ⟨rfl,hknown,?_⟩
    simp only [Body.fields,List.forall_mem_cons,List.not_mem_nil,false_imp_iff,implies_true,and_true]
    exact ⟨lookup_canonical hv (Implementation.read_canonical hi),lookup_canonical hw rfl⟩
  · unfold readCapabilities at h
    simp only [Option.bind_eq_bind,Option.ite_none_right_eq_some,Option.bind_eq_some_iff,
      variants_iff Profile.named,variants_iff Capability.named] at h
    obtain ⟨hknown,i,⟨v,hv,hi⟩,ps,⟨items,⟨w,hw,hitems⟩,rfl⟩,cs,⟨granted,⟨z,hz,hgranted⟩,rfl⟩,hb⟩ := h
    obtain rfl := Option.some.inj hb
    refine ⟨rfl,hknown,?_⟩
    simp only [Body.fields,List.forall_mem_cons,List.not_mem_nil,false_imp_iff,implies_true,and_true]
    refine ⟨lookup_canonical hv (Implementation.read_canonical hi),lookup_canonical hw ?_,
      lookup_canonical hz ?_⟩
    · cases w <;> simp_all [asArray,canonical,canonicalItems_texts]
    · cases z <;> simp_all [asArray,canonical,canonicalItems_texts]
  · unfold readObservation at h
    simp only [Option.bind_eq_bind,Option.ite_none_right_eq_some,Option.bind_eq_some_iff,
      variant_iff ExecutionState.named] at h
    obtain ⟨hknown,b,⟨v,hv,hread⟩,handle,hhandle,s,⟨w,hw,rfl⟩,sequence,hsequence,gap,⟨z,hz,hgap⟩,hb⟩ := h
    obtain rfl := Option.some.inj hb
    refine ⟨rfl,hknown,?_⟩
    simp only [Body.fields,List.forall_mem_cons,List.not_mem_nil,false_imp_iff,implies_true,and_true]
    refine ⟨lookup_canonical hv (Binding.read_canonical hread),text_canonical hhandle,
      lookup_canonical hw rfl,text_canonical hsequence,lookup_canonical hz ?_⟩
    cases z <;> simp_all [boolean,canonical]
  · unfold readOutputReceipt at h
    simp only [Option.bind_eq_bind,Option.ite_none_right_eq_some,Option.bind_eq_some_iff] at h
    obtain ⟨hknown,b,⟨v,hv,hread⟩,output,houtput,bytes,hbytes,hb⟩ := h
    obtain rfl := Option.some.inj hb
    refine ⟨rfl,hknown,?_⟩
    simp only [Body.fields,List.forall_mem_cons,List.not_mem_nil,false_imp_iff,implies_true,and_true]
    exact ⟨lookup_canonical hv (Binding.read_canonical hread),text_canonical houtput,
      text_canonical hbytes⟩
  · unfold readError at h
    simp only [Option.bind_eq_bind,Option.ite_none_right_eq_some,Option.bind_eq_some_iff,
      variant_iff ErrorCode.named] at h
    obtain ⟨hknown,e,⟨v,hv,rfl⟩,hb⟩ := h
    obtain rfl := Option.some.inj hb
    refine ⟨rfl,hknown,?_⟩
    simp only [Body.fields,List.forall_mem_cons,List.not_mem_nil,false_imp_iff,implies_true,and_true]
    exact lookup_canonical hv rfl
  · cases h

theorem Body.read_canonical {v : Json} {b : Body} (h : Body.read v = some b) :
    canonical v = b.value := by
  cases v with
  | obj fs =>
    rw [Body.read_eq,Option.bind_eq_some_iff] at h
    obtain ⟨kind,hkind,hread⟩ := h
    obtain ⟨rfl,hknown,hfields⟩ := readFields_ok hread
    rw [Body.value_eq]
    exact tagged_canonical hkind hknown b.fields_nodup hfields
  | _ => cases h

/-- Fields that read like those of a body are read as it. -/
theorem readFields_value {b : Body} {fs : Fields} (hknown : known (b.fields.map Prod.fst) fs = true)
    (hlookup : ∀ k, fs.lookup k = b.fields.lookup k) : readFields b.kind fs = some b := by
  cases b with
  | describe i p =>
    have hi : fs.lookup "expectedImplementation" = some i.value := hlookup _
    have hp : fs.lookup "requiredProfile" = some (.str p.name) := hlookup _
    have hname := (variant_iff Profile.named).mpr (rfl : Json.str p.name = _)
    simp only [Body.fields,List.map_cons,List.map_nil] at hknown
    simp only [readFields,Body.kind,readDescribe,hknown,if_true,hi,hp,hname,Implementation.read_value,
      Option.bind_eq_bind,Option.bind_some]
  | capabilities i ps cs =>
    have hi : fs.lookup "implementation" = some i.value := hlookup _
    have hps : fs.lookup "profiles" = some (.arr (ps.map fun p => .str p.name)) := hlookup _
    have hcs : fs.lookup "capabilities" = some (.arr (cs.map fun c => .str c.name)) := hlookup _
    have hprofiles := (variants_iff Profile.named).mpr (rfl : (ps.map fun p => Json.str p.name) = _)
    have hgranted := (variants_iff Capability.named).mpr (rfl : (cs.map fun c => Json.str c.name) = _)
    simp only [Body.fields,List.map_cons,List.map_nil] at hknown
    simp only [readFields,Body.kind,readCapabilities,hknown,if_true,hi,hps,hcs,asArray,hprofiles,
      hgranted,Implementation.read_value,Option.bind_eq_bind,Option.bind_some]
  | observation b handle s sequence gap =>
    have hb : fs.lookup "binding" = some b.value := hlookup _
    have hhandle : text fs "handle" = some handle := congrArg (Option.bind · asStr) (hlookup _)
    have hs : fs.lookup "state" = some (.str s.name) := hlookup _
    have hsequence : text fs "sequence" = some sequence := congrArg (Option.bind · asStr) (hlookup _)
    have hgap : fs.lookup "gap" = some (.bool gap) := hlookup _
    have hname := (variant_iff ExecutionState.named).mpr (rfl : Json.str s.name = _)
    simp only [Body.fields,List.map_cons,List.map_nil] at hknown
    simp only [readFields,Body.kind,readObservation,hknown,if_true,hb,hhandle,hs,hsequence,hgap,hname,
      boolean,Binding.read_value,Option.bind_eq_bind,Option.bind_some]
  | outputReceipt b output bytes =>
    have hb : fs.lookup "binding" = some b.value := hlookup _
    have houtput : text fs "outputDigest" = some output := congrArg (Option.bind · asStr) (hlookup _)
    have hbytes : text fs "outputBytes" = some bytes := congrArg (Option.bind · asStr) (hlookup _)
    simp only [Body.fields,List.map_cons,List.map_nil] at hknown
    simp only [readFields,Body.kind,readOutputReceipt,hknown,if_true,hb,houtput,hbytes,
      Binding.read_value,Option.bind_eq_bind,Option.bind_some]
  | error e =>
    have he : fs.lookup "code" = some (.str e.name) := hlookup _
    have hname := (variant_iff ErrorCode.named).mpr (rfl : Json.str e.name = _)
    simp only [Body.fields,List.map_cons,List.map_nil] at hknown
    simp only [readFields,Body.kind,readError,hknown,if_true,he,hname,Option.bind_eq_bind,
      Option.bind_some]

theorem Body.read_value (b : Body) : Body.read b.value = some b := by
  obtain ⟨gs,hgs,hkind,hknown,-,hlookup⟩ := tagged_read b.kind b.fields b.fields_nodup
  rw [Body.value_eq,hgs,Body.read_eq,hkind]
  exact readFields_value hknown hlookup

/-! ## Messages -/

theorem version_canonical {v : Json} {n : UInt32} (h : version v = some n) :
    canonical v = nat n.toNat := by
  unfold version at h
  rw [Option.bind_eq_some_iff] at h
  obtain ⟨k,hk,h⟩ := h
  split at h
  · obtain rfl := Option.some.inj h
    cases v with
    | int i =>
      cases i with
      | ofNat j =>
        simp only [asU64,Option.ite_none_right_eq_some,Option.some.injEq] at hk
        obtain rfl := hk.2
        rfl
      | negSucc j => cases hk
    | _ => cases hk
  · cases h

theorem version_value (n : UInt32) : version (nat n.toNat) = some n := by
  have hn : n.toNat < 2^32 := n.toNat_lt
  have hu : asU64 (nat n.toNat) = some n.toNat := if_pos (by omega)
  rw [version,hu,Option.bind_some,dif_pos hn]
  rfl

theorem Message.read_canonical {v : Json} {m : Message} (h : Message.read v = some m) :
    canonical v = m.value := by
  unfold Message.read at h
  cases v with
  | obj fs =>
    simp only [asObject,Option.bind_eq_bind,Option.bind_some,Option.ite_none_right_eq_some,
      Option.bind_eq_some_iff] at h
    obtain ⟨hknown,n,⟨v,hv,hversion⟩,r,hr,b,⟨w,hw,hb⟩,hm⟩ := h
    obtain rfl := Option.some.inj hm
    refine canonical_object hknown (by simp) ?_
    simp only [List.forall_mem_cons,List.not_mem_nil,false_imp_iff,implies_true,and_true]
    exact ⟨lookup_canonical hv (version_canonical hversion),text_canonical hr,
      lookup_canonical hw (Body.read_canonical hb)⟩
  | _ => cases h

theorem Message.read_value (m : Message) : Message.read m.value = some m := by
  obtain ⟨gs,hgs,hknown,-,hlookup⟩ := object_read [("schemaVersion",nat m.schemaVersion.toNat),
    ("requestId",.str m.requestId),("body",m.contents.value)] (by simp)
  have hversion : gs.lookup "schemaVersion" = some (nat m.schemaVersion.toNat) := hlookup _
  have hr : text gs "requestId" = some m.requestId := congrArg (Option.bind · asStr) (hlookup _)
  have hb : gs.lookup "body" = some m.contents.value := hlookup _
  simp only [List.map_cons,List.map_nil] at hknown
  rw [Message.value,hgs]
  simp only [Message.read,asObject,hknown,if_true,hversion,hr,hb,version_value,Body.read_value,
    Option.bind_eq_bind,Option.bind_some]

theorem Message.canonical_value (m : Message) : canonical m.value = m.value :=
  Message.read_canonical m.read_value

/-! ## The text of a message -/

theorem plain_object {d : ℕ} {fields : Fields} (h : ∀ f ∈ fields, Plain d f.2) :
    Plain (d+1) (object fields) := by
  obtain ⟨gs,hgs,hsorted,hmem⟩ := object_sorts fields
  rw [hgs]
  exact .obj (List.pairwise_map.mp hsorted) fun g hg => h g (hmem g hg)

theorem numbersOfFields_eq (fs : Fields) :
    numbersOfFields fs = fs.all fun f => canonicalNumbers f.2 := by
  induction fs with
  | nil => rfl
  | cons f fs ih => rw [numbersOfFields,ih,List.all_cons]

theorem numbersOfItems_eq (xs : List Json) : numbersOfItems xs = xs.all canonicalNumbers := by
  induction xs with
  | nil => rfl
  | cons x xs ih => rw [numbersOfItems,ih,List.all_cons]

theorem numbers_object {fields : Fields} (h : ∀ f ∈ fields, canonicalNumbers f.2 = true) :
    canonicalNumbers (object fields) = true := by
  obtain ⟨gs,hgs,-,hmem⟩ := object_sorts fields
  rw [hgs,canonicalNumbers,numbersOfFields_eq]
  exact List.all_eq_true.mpr fun g hg => h g (hmem g hg)

/-- A value of strings and flags only: `d` bounds its depth. -/
inductive Wordy : ℕ → Json → Prop
  | bool {d : ℕ} (b : Bool) : Wordy d (.bool b)
  | str {d : ℕ} (s : String) : Wordy d (.str s)
  | texts {d : ℕ} {xs : List Json} (h : ∀ x ∈ xs, Wordy d x) : Wordy (d+1) (.arr xs)
  | object {d : ℕ} {fields : Fields} (h : ∀ f ∈ fields, Wordy d f.2) : Wordy (d+1) (object fields)

theorem Wordy.plain {d : ℕ} {v : Json} (h : Wordy d v) : Plain d v := by
  induction h with
  | bool b => exact .bool b
  | str s => exact .str s
  | texts _ ih => exact .arr ih
  | object _ ih => exact plain_object ih

theorem Wordy.numbers {d : ℕ} {v : Json} (h : Wordy d v) : canonicalNumbers v = true := by
  induction h with
  | bool b => rfl
  | str s => rfl
  | texts _ ih =>
    rw [canonicalNumbers,numbersOfItems_eq]
    exact List.all_eq_true.mpr ih
  | object _ ih => exact numbers_object ih

theorem wordy_texts {α : Type} (name : α → String) (xs : List α) :
    Wordy 1 (.arr (xs.map fun a => .str (name a))) := by
  refine .texts fun x hx => ?_
  obtain ⟨a,-,rfl⟩ := List.mem_map.mp hx
  exact .str _

theorem Implementation.wordy (i : Implementation) : Wordy 1 i.value := by
  refine .object ?_
  simp only [List.forall_mem_cons,List.not_mem_nil,false_imp_iff,implies_true,and_true]
  exact ⟨.str _,.str _,.str _,.str _,.str _,.str _⟩

theorem Binding.wordy (b : Binding) : Wordy 1 b.value := by
  refine .object ?_
  simp only [List.forall_mem_cons,List.not_mem_nil,false_imp_iff,implies_true,and_true]
  exact ⟨.str _,.str _,.str _,.str _,.str _,.str _,.str _,.str _⟩

theorem Body.wordy (b : Body) : Wordy 2 b.value := by
  cases b with
  | describe i p =>
    refine .object ?_
    simp only [List.forall_mem_cons,List.not_mem_nil,false_imp_iff,implies_true,and_true]
    exact ⟨.str _,i.wordy,.str _⟩
  | capabilities i ps cs =>
    refine .object ?_
    simp only [List.forall_mem_cons,List.not_mem_nil,false_imp_iff,implies_true,and_true]
    exact ⟨.str _,i.wordy,wordy_texts _ _,wordy_texts _ _⟩
  | observation b handle s sequence gap =>
    refine .object ?_
    simp only [List.forall_mem_cons,List.not_mem_nil,false_imp_iff,implies_true,and_true]
    exact ⟨.str _,b.wordy,.str _,.str _,.str _,.bool _⟩
  | outputReceipt b output bytes =>
    refine .object ?_
    simp only [List.forall_mem_cons,List.not_mem_nil,false_imp_iff,implies_true,and_true]
    exact ⟨.str _,b.wordy,.str _,.str _⟩
  | error e =>
    refine .object ?_
    simp only [List.forall_mem_cons,List.not_mem_nil,false_imp_iff,implies_true,and_true]
    exact ⟨.str _,.str _⟩

theorem plain_mono {d d' : ℕ} {v : Json} (h : Plain d v) (hd : d ≤ d') : Plain d' v := by
  induction h generalizing d' with
  | null => exact .null
  | bool b => exact .bool b
  | int hl hu => exact .int hl hu
  | str s => exact .str s
  | arr _ ih =>
    cases d' with
    | zero => omega
    | succ d' => exact .arr fun x hx => ih x hx (by omega)
  | obj hs _ ih =>
    cases d' with
    | zero => omega
    | succ d' => exact .obj hs fun f hf => ih f hf (by omega)

theorem Message.plain (m : Message) : Plain 127 m.value := by
  refine plain_mono (plain_object (d := 2) ?_) (by omega)
  simp only [List.forall_mem_cons,List.not_mem_nil,false_imp_iff,implies_true,and_true]
  have hn := m.schemaVersion.toNat_lt
  exact ⟨.int (by omega) (by omega),.str _,m.contents.wordy.plain⟩

theorem numbers_nat (n : ℕ) : canonicalNumbers (nat n) = canonicalNumber (nat n) := by
  rw [nat,canonicalNumbers]

theorem Message.numbers (m : Message) : canonicalNumbers m.value = true := by
  refine numbers_object ?_
  simp only [List.forall_mem_cons,List.not_mem_nil,false_imp_iff,implies_true,and_true]
  refine ⟨?_,rfl,m.contents.wordy.numbers⟩
  have hn := m.schemaVersion.toNat_lt
  have hu : asU64 (nat m.schemaVersion.toNat) = some m.schemaVersion.toNat := if_pos (by omega)
  have hmax : (schema.get "maxJsonInteger").asU64 = some 4294967295 := rfl
  rw [numbers_nat,canonicalNumber,hu,hmax,Option.any_some,Option.getD_some]
  exact decide_eq_true (by omega)

/-- The frame of a message parses to its value. -/
theorem Message.fromSlice_bytes (m : Message) : fromSlice (bytes m.value) = some m.value := by
  have hutf : String.fromUTF8? (bytes m.value) = some (String.ofList (render m.value)) :=
    dif_pos (String.ofList (render m.value)).isValidUTF8
  rw [fromSlice,hutf,Option.bind_some,String.toList_ofList]
  exact parse_render m.plain

/-! ## The codec -/

theorem decode_ok {frame : ByteArray} {m : Message} (h : decode frame = .ok m) :
    frame.size ≤ maxFrameBytes ∧ ∃ v, fromSlice frame = some v ∧ bytes (canonical v) = frame ∧
      validate v = .ok () ∧ Message.read v = some m := by
  unfold decode at h
  split at h
  · cases h
  · rename_i hsize
    split at h
    · cases h
    · rename_i v hparse
      split at h
      · cases h
      · split at h
        · cases h
        · rename_i hbytes
          obtain ⟨⟨⟩,hvalid,h⟩ := Fallible.bind_ok h
          split at h
          · rename_i m' hread
            obtain rfl := Except.ok.inj h
            exact ⟨Nat.le_of_not_lt hsize,v,hparse,not_not.mp hbytes,hvalid,hread⟩
          · cases h

theorem encode_ok {m : Message} {frame : ByteArray} :
    encode m = .ok frame ↔
      validate m.value = .ok () ∧ frame.size ≤ maxFrameBytes ∧ frame = bytes m.value := by
  unfold encode
  rw [m.canonical_value]
  cases hvalid : validate m.value with
  | error e =>
    constructor
    · exact fun h => nomatch h
    · exact fun h => nomatch h.1
  | ok u =>
    simp only [bind,Except.bind]
    split
    · rename_i hsize
      constructor
      · exact fun h => nomatch h
      · rintro ⟨-,hle,rfl⟩
        omega
    · rename_i hsize
      constructor
      · intro h
        obtain rfl := Except.ok.inj h
        exact ⟨trivial,Nat.le_of_not_lt hsize,rfl⟩
      · rintro ⟨-,-,rfl⟩
        rfl

/-- An accepted frame is the one that its message encodes to. -/
theorem decode_iff {frame : ByteArray} {m : Message} :
    decode frame = .ok m ↔ encode m = .ok frame := by
  rw [encode_ok]
  constructor
  · intro h
    obtain ⟨hsize,v,hparse,hbytes,hvalid,hread⟩ := decode_ok h
    rw [Message.read_canonical hread] at hbytes
    have hvalue : v = m.value := by
      rw [← hbytes,m.fromSlice_bytes] at hparse
      exact (Option.some.inj hparse).symm
    rw [hvalue] at hvalid
    exact ⟨hvalid,hsize,hbytes.symm⟩
  · rintro ⟨hvalid,hsize,rfl⟩
    simp only [decode,if_neg (Nat.not_lt.mpr hsize),m.fromSlice_bytes,m.numbers,m.canonical_value,
      hvalid,m.read_value,Bool.not_true,Bool.false_eq_true,if_false,ne_eq,not_true_eq_false]
    rfl

/-- Decoding and encoding are inverse, and of the frames that parse to one value up to the order of
keys no other than the encoding is accepted. -/
theorem codec_canonical : (∀ m frame, encode m = .ok frame → decode frame = .ok m) ∧
    (∀ frame m, decode frame = .ok m → encode m = .ok frame) ∧
    ∀ frame frame' m v v', decode frame = .ok m → fromSlice frame = some v →
      fromSlice frame' = some v' → canonical v' = canonical v → frame' ≠ frame →
      ∃ e, decode frame' = .error e := by
  refine ⟨fun m frame => decode_iff.mpr,fun frame m => decode_iff.mp,?_⟩
  intro frame frame' m v v' h hv hv' hcanonical hne
  cases hdecode : decode frame' with
  | error e => exact ⟨e,rfl⟩
  | ok m' =>
    obtain ⟨-,w,hw,hbytes,-⟩ := decode_ok h
    obtain ⟨-,w',hw',hbytes',-⟩ := decode_ok hdecode
    obtain rfl := Option.some.inj (hv.symm.trans hw)
    obtain rfl := Option.some.inj (hv'.symm.trans hw')
    rw [hcanonical,hbytes] at hbytes'
    exact absurd hbytes'.symm hne

def refusal : Message := ⟨1,"r",.error .invalidFrame⟩

theorem refusal_encoded : encode refusal = .ok (bytes refusal.value) :=
  encode_ok.mpr ⟨by decide,by decide,rfl⟩

/-- The fields of `refusal` in another order. -/
def respelled : String :=
  "\x7b\"schemaVersion\":1,\"requestId\":\"r\",\"body\":\x7b\"code\":\"invalid-frame\",\"kind\":\"error\"\x7d\x7d"

theorem respelled_refused :
    decode (bytes refusal.value) = .ok refusal ∧ ∃ e, decode respelled.toUTF8 = .error e := by
  have hdecoded := codec_canonical.1 _ _ refusal_encoded
  have hparse : fromSlice respelled.toUTF8 = parse respelled.toList := by
    rw [fromSlice,show String.fromUTF8? respelled.toUTF8 = some respelled from
      dif_pos respelled.isValidUTF8,Option.bind_some]
  refine ⟨hdecoded,codec_canonical.2.2 _ _ _ _ refusal.value hdecoded refusal.fromSlice_bytes
    (hparse.trans (by decide +kernel)) rfl (by decide +kernel)⟩

end Protocol
end CanixToolbelt
